import ScopedTree.Proofs.Edit.Displace

/-!
# What a handler does to its own path

A handler inserts statements next to the one it runs on, removes it, or puts others in its place. In
a tree in order each of that succeeds, and what is new is queued.

* `SelfEdit`               what is done, with `fresh` and `outcome`;
* `Tree.Enacts`            what it leaves of the tree;
* `Tree.Orderly.enacts`    each succeeds.
-/

namespace ScopedTree

open Arena ScopedTree.Tree Relation

/-- On which side of a statement others are inserted. -/
inductive Side where
  | before | after
  deriving DecidableEq

def Side.insert (p : PathId) (xs : List NodeId) : Side → TreeM (List PathId)
  | before => insertBefore p (xs.map some)
  | after => insertAfter p (xs.map some)

/-- What a handler does to the statement it runs on. -/
inductive SelfEdit where
  /-- Statements are inserted next to it, in any number of calls. -/
  | insert (calls : List (Side × List NodeId))
  | remove
  | replaceWith (x : NodeId)
  | replaceInline (xs : List NodeId)

namespace SelfEdit

def stay : SelfEdit := insert []

def run (p : PathId) : SelfEdit → TreeM Unit
  | insert calls => calls.forM fun call => do
    let _ ← call.1.insert p call.2
  | remove => Tree.remove p
  | replaceWith x => Tree.replaceWith p (some x)
  | replaceInline xs => do
    let _ ← Tree.replaceInline p (xs.map some)

/-- The statements that are put in. -/
def fresh : SelfEdit → List NodeId
  | insert calls => calls.flatMap (·.2)
  | remove => []
  | replaceWith x => [x]
  | replaceInline xs => xs

def before : List (Side × List NodeId) → List NodeId
  | [] => []
  | (.before, xs) :: calls => xs ++ before calls
  | (.after, _) :: calls => before calls

/-- What comes to stand after it: each call puts its statements right there. -/
def after : List (Side × List NodeId) → List NodeId
  | [] => []
  | (.before, _) :: calls => after calls
  | (.after, xs) :: calls => after calls ++ xs

/-- What the statement turns into. -/
def outcome (o : NodeId) : SelfEdit → List NodeId
  | insert calls => before calls ++ o :: after calls
  | remove => []
  | replaceWith x => [x]
  | replaceInline xs => xs

def drops : SelfEdit → Bool
  | insert _ => false
  | _ => true

variable {x o : NodeId} {e : SelfEdit}

theorem mem_before_or_after {calls : List (Side × List NodeId)} :
    x ∈ before calls ∨ x ∈ after calls ↔ x ∈ (insert calls).fresh := by
  show _ ↔ x ∈ calls.flatMap (·.2)
  induction calls with
  | nil => simp [before, after]
  | cons call calls ih =>
    obtain ⟨side, xs⟩ := call
    rw [List.flatMap_cons, List.mem_append, ← ih]
    cases side with
    | before => simp only [before, after, List.mem_append, or_assoc]
    | after =>
      simp only [before, after, List.mem_append]
      tauto

theorem mem_beside {side : Side} {xs pre post : List NodeId} :
    x ∈ pre ++ before [(side, xs)] ++ o :: (after [(side, xs)] ++ post)
      ↔ x ∈ pre ++ o :: post ∨ x ∈ xs := by
  cases side <;> simp only [before, after, List.append_nil, List.nil_append, List.mem_append,
    List.mem_cons] <;> tauto

theorem mem_outcome : x ∈ e.outcome o ↔ x ∈ e.fresh ∨ e.drops = false ∧ x = o := by
  cases e with
  | insert calls =>
    rw [← mem_before_or_after, outcome, List.mem_append, List.mem_cons]
    simp only [drops, true_and]
    tauto
  | _ => simp [outcome, fresh, drops]

end SelfEdit

theorem Frame.queueAll_append (ps qs : List PathId) (F : Frame) :
    F.queueAll (ps ++ qs) = (F.queueAll ps).queueAll qs := List.foldl_append

theorem Frame.queueAll_eq (ps : List PathId) (F : Frame) :
    F.queueAll ps = { F with priority := (F.queueAll ps).priority } := by
  induction ps generalizing F with
  | nil => rfl
  | cons p ps ih => exact (ih (F.queue p true)).trans rfl

theorem NodeType.isA_expression_of_statement {ty : NodeType} (h : ty.isA .statement = true) :
    ty.isA .expression = false ∧ ty ≠ .program := by
  revert h
  cases ty <;> decide

namespace Tree

variable {r m o x : NodeId} {list : String} {F : Frame} {fs : List Frame} {q : PathId} {t t' : Tree}
  {e : SelfEdit} {pre post : List NodeId} {ty : NodeType}

theorem not_expression_of_statement {a : Arena} (h : a.isA (some o) .statement = true) :
    a.isA (some o) .expression = false ∧ a.is (some o) .program = false := by
  unfold Arena.isA Arena.is at *
  cases hty : a.type? (some o) with
  | none => simp
  | some ty =>
    rw [hty] at h
    obtain ⟨hexpr, hprogram⟩ :=
      NodeType.isA_expression_of_statement (show ty.isA .statement = true by simpa using h)
    simp [hexpr, hprogram]

theorem Inserts.trans {xs ys : List NodeId} {items items' : List (Option NodeId)}
    {ps ps' : List PathId} {t'' : Tree} (h : Inserts r m list F fs xs items ps t t')
    (h' : Inserts r m list (F.queueAll ps) fs ys items' ps' t' t'')
    (hsub : items ⊆ items') : Inserts r m list F fs (xs ++ ys) items' (ps ++ ps') t t'' where
  toLasts := h.toLasts.trans h'.toLasts fun _ _ _ => id
  orderly := h'.orderly
  frames := by rw [Frame.queueAll_append, h'.frames]
  found := List.rel_append (h.found.imp fun p n hp => h'.live p n hp id) h'.found
  idle p hp := by
    rcases List.mem_append.1 hp with hp | hp
    · exact (h'.contexts p).trans (h.idle p hp)
    · exact h'.idle p hp
  unowned y hy hout := h'.unowned y (h.unowned y hy fun hmem => hout (hsub hmem)) hout
  relists := h.relists.trans h'.relists
  lists := h'.lists

/-- What a handler leaves of the tree: the statement `o` at `q` turned into what it is to turn into,
and what is new is queued. -/
structure Enacts (r m o : NodeId) (list : String) (F : Frame) (fs : List Frame) (q : PathId)
    (e : SelfEdit) (pre post : List NodeId) (t t' : Tree) : Prop
    extends Lasts (fun n => e.drops = true ∧ ReflTransGen t.arena.OwnedBy n o) t t' where
  orderly : t'.Orderly r
  found : ∃ ps, List.Forall₂ t'.Live ps e.fresh ∧ t'.frames = F.queueAll ps :: fs
    ∧ ∀ p ∈ ps, (t'.path p).contexts.head? = some F.id → (t'.path p).Calm
  relists : Relists m list t.arena t'.arena
  lists : t'.arena.Lists m list ((pre ++ e.outcome o ++ post).map some)
  unowned : ∀ y, t.arena.parentOf (some y) = none → y ∉ pre ++ e.outcome o ++ post →
    t'.arena.parentOf (some y) = none
  dropped : e.drops = true → t'.arena.parentOf (some o) = none
    ∧ ((t'.path q).removed = true ∨ t'.node q ≠ some o) ∧ (t'.path q).shouldStop = false

section Place

variable (h : t.Orderly r) (hq : t.Live q o)
  (hl : t.arena.Lists m list ((pre ++ o :: post).map some)) (hF : t.frames = F :: fs)
  (howner : F.owner = some m) (hkey : F.key = list)
  (hstatement : t.arena.isA (some o) .statement = true) (hty : t.arena.type? (some m) = some ty)
  (hblock : ty = .program ∨ ty = .blockStatement)

include h hq hl hF howner hkey hstatement hty hblock

theorem Orderly.exists_beside {xs : List NodeId} (hxs : Loose r t.arena xs) (side : Side) :
    ∃ ps t', side.insert q xs t = .ok ps t' ∧ Inserts r m list F fs xs
      ((pre ++ SelfEdit.before [(side, xs)] ++ o :: (SelfEdit.after [(side, xs)] ++ post)).map some)
      ps t t' := by
  have hi : ((pre ++ o :: post).map some)[pre.length]? = some (some o) := by simp
  have hwrap : t.arena.is (some m) .expressionStatement = false
      ∧ t.arena.is (some m) .labeledStatement = false := by
    obtain rfl | rfl := hblock <;> simp [Arena.is, hty]
  obtain ⟨hbefore, hafter⟩ :=
    h.ends_insert hq hl hi hxs hF howner hkey (not_expression_of_statement hstatement).1 hwrap
  cases side with
  | before =>
    have hitems : ((pre ++ o :: post).map some).take pre.length ++ xs.map some
        ++ ((pre ++ o :: post).map some).drop pre.length
        = (pre ++ SelfEdit.before [(.before, xs)]
          ++ o :: (SelfEdit.after [(.before, xs)] ++ post)).map some := by
      simp [SelfEdit.before, SelfEdit.after]
    exact hitems ▸ hbefore
  | after =>
    have hitems : ((pre ++ o :: post).map some).take (pre.length + 1) ++ xs.map some
        ++ ((pre ++ o :: post).map some).drop (pre.length + 1)
        = (pre ++ SelfEdit.before [(.after, xs)]
          ++ o :: (SelfEdit.after [(.after, xs)] ++ post)).map some := by
      have htake : (pre.map some).take (pre.length + 1) = pre.map some :=
        List.take_of_length_le (by simp)
      have hdrop : (pre.map some).drop (pre.length + 1) = [] := List.drop_eq_nil_of_le (by simp)
      simp [SelfEdit.before, SelfEdit.after, List.take_append, List.drop_append, htake, hdrop]
    exact hitems ▸ hafter

/-- **Statements are inserted in any number of calls.** -/
theorem Orderly.exists_calls (calls : List (Side × List NodeId))
    (hxs : Loose r t.arena (calls.flatMap (·.2))) :
    ∃ ps t', (SelfEdit.insert calls).run q t = .ok ⟨⟩ t'
      ∧ Inserts r m list F fs (calls.flatMap (·.2))
      ((pre ++ (SelfEdit.insert calls).outcome o ++ post).map some) ps t t' := by
  induction calls generalizing t F pre post with
  | nil => exact ⟨[], t, rfl, .refl _ t, h, hF, .nil, nofun, fun y hy _ => hy,
    .refl h.arena, by simpa [SelfEdit.outcome, SelfEdit.before, SelfEdit.after] using hl⟩
  | cons call calls ih =>
    obtain ⟨side, xs⟩ := call
    rw [List.flatMap_cons] at hxs ⊢
    obtain ⟨ps, t₁, hrun, h₁⟩ := h.exists_beside hq hl hF howner hkey hstatement hty hblock
      (hxs.sublist (List.sublist_append_left ..)) side
    have hnodup := List.nodup_append.1 hxs.nodup
    have hxs₁ : Loose r t₁.arena (calls.flatMap (·.2)) := by
      refine ⟨hnodup.2.1, fun x hx => (hxs.present x (List.mem_append_right _ hx)).trans_le
        h₁.relists.size,
        fun x hx => h₁.unowned x (hxs.unowned x (List.mem_append_right _ hx)) fun hmem => ?_,
        fun x hx => hxs.ne_root x (List.mem_append_right _ hx)⟩
      rw [List.mem_map_of_injective (Option.some_injective _), SelfEdit.mem_beside] at hmem
      rcases hmem with hmem | hmem
      · cases (hxs.unowned x (List.mem_append_right _ hx)).symm.trans
          (hl.owned h.owned (List.mem_map_of_mem hmem) : t.arena.OwnedBy x m)
      · exact hnodup.2.2 x hmem x hx rfl
    have hbooks := Frame.queueAll_eq ps F
    have hstatement₁ : t₁.arena.isA (some o) .statement = true := by
      unfold Arena.isA at *
      rwa [h₁.relists.type?_eq (h.filed.held q o hq.node)]
    obtain ⟨ps', t₂, hrun', h₂⟩ := ih h₁.orderly (h₁.live q o hq id) h₁.lists h₁.frames
      (hbooks ▸ howner) (hbooks ▸ hkey) hstatement₁ (h₁.relists.type?.trans hty) hxs₁
    have hitems : pre ++ SelfEdit.before [(side, xs)] ++ (SelfEdit.insert calls).outcome o
        ++ (SelfEdit.after [(side, xs)] ++ post)
        = pre ++ (SelfEdit.insert ((side, xs) :: calls)).outcome o ++ post := by
      cases side <;> simp [SelfEdit.outcome, SelfEdit.before, SelfEdit.after]
    rw [hitems] at h₂
    refine ⟨ps ++ ps', t₂, ?_, h₁.trans h₂ fun y hy => ?_⟩
    · show ((side.insert q xs >>= fun _ => pure PUnit.unit) >>= fun _ =>
        (SelfEdit.insert calls).run q) t = _
      rw [bind_assoc, run_bind_of_ok hrun]
      exact hrun'
    · rw [← hitems]
      simp only [SelfEdit.outcome, List.mem_map, List.mem_append, List.mem_cons] at hy ⊢
      obtain ⟨z, hz, rfl⟩ := hy
      exact ⟨z, by tauto, rfl⟩

theorem Orderly.exists_exchanged (hcalm : (t.path q).Calm) {xs : List NodeId}
    (hxs : Loose r t.arena xs) :
    ∃ ps t₁ t', insertAfter q (xs.map some) t = .ok ps t₁ ∧ remove q t₁ = .ok ⟨⟩ t'
      ∧ Enacts r m o list F fs q (.replaceInline xs) pre post t t' := by
  obtain ⟨ps, t₁, hinsert, h₁⟩ :=
    h.exists_beside hq hl hF howner hkey hstatement hty hblock hxs .after
  have hq₁ : t₁.Live q o := h₁.live q o hq id
  have hitem : ((pre ++ SelfEdit.before [(.after, xs)]
      ++ o :: (SelfEdit.after [(.after, xs)] ++ post)).map
      some)[pre.length]? = some (some o) := by simp [SelfEdit.before]
  have herase : ((pre ++ SelfEdit.before [(.after, xs)]
      ++ o :: (SelfEdit.after [(.after, xs)] ++ post)).map
      some).eraseIdx pre.length = (pre ++ (SelfEdit.replaceInline xs).outcome o ++ post).map
      some := by
    simp [SelfEdit.before, SelfEdit.after, SelfEdit.outcome, List.eraseIdx_append_of_length_le]
  obtain ⟨t', hremove, hdeparts, hframes, hremoved, hstop⟩ :=
    h₁.orderly.ends_remove hq₁ h₁.lists hitem (h₁.relists.type?.trans hty) hblock
  rw [herase] at hdeparts
  have hom : t.arena.OwnedBy o m := hl.owned h.owned (by simp)
  have hbelow : ¬ ReflTransGen t.arena.OwnedBy m o := fun hm => h.owned.acyclic o (.head' hom hm)
  have hwithin (n : NodeId) : ReflTransGen t₁.arena.OwnedBy n o
      ↔ ReflTransGen t.arena.OwnedBy n o :=
    h₁.relists.within_iff h.owned hom.lt hbelow
  refine ⟨ps, t₁, t', hinsert, hremove,
    ⟨(h₁.toLasts.all _).trans hdeparts.toLasts fun _ n _ hn => ⟨rfl, (hwithin n).1 hn⟩,
    hdeparts.orderly, ⟨ps, ?_, hframes.trans h₁.frames, fun p hp hhead => ?_⟩,
    h₁.relists.trans hdeparts.relists,
    hdeparts.lists, fun y hy hout => ?_, fun _ => ⟨hdeparts.gone, .inl hremoved, ?_⟩⟩⟩
  · have hout : ∀ p ∈ ps, ∀ x, t₁.Live p x → ¬ ReflTransGen t₁.arena.OwnedBy x o :=
      fun p hp x hx => ?_
    · exact ((List.forall₂_and_left ps xs).2 ⟨hout, h₁.found⟩).imp fun p x h =>
        hdeparts.live p x h.2 (h.1 x h.2)
    obtain ⟨x', hx', hlive⟩ := forall₂_exists_of_mem_left h₁.found hp
    obtain rfl := hx.unique hlive
    -- what is new does not hang under the statement
    intro hxo
    have hxm : t₁.arena.OwnedBy x m :=
      h₁.lists.owned h₁.orderly.owned (by simp [SelfEdit.after, hx'])
    rcases ReflTransGen.cases_head hxo with rfl | ⟨k, hk, hko⟩
    · cases (hxs.unowned x hx').symm.trans hom
    · obtain rfl := hk.unique hxm
      exact hbelow ((hwithin k).1 hko)
  · rw [hdeparts.contexts, h₁.idle p hp] at hhead
    cases hhead
  · have hnew : y ≠ o := by
      rintro rfl
      cases hy.symm.trans hom
    refine hdeparts.unowned y (h₁.unowned y hy ?_) (by simpa using hout)
    simpa [SelfEdit.before, SelfEdit.after, SelfEdit.outcome, hnew] using hout
  · rw [hstop]
    exact congrArg (·.2.1) (h₁.calm q hcalm hq₁.used)

omit howner hkey hty hblock in
theorem Orderly.exists_succeeded (hcalm : (t.path q).Calm)
    (hcontexts : (t.path q).contexts = [F.id]) (hx : Loose r t.arena [x])
    (hstatement' : t.arena.isA (some x) .statement = true) :
    ∃ t', Tree.replaceWith q (some x) t = .ok ⟨⟩ t'
      ∧ Enacts r m o list F fs q (.replaceWith x) pre post t t' := by
  have hi : ((pre ++ o :: post).map some)[pre.length]? = some (some o) := by simp
  have hset : ((pre ++ o :: post).map some).set pre.length (some x)
      = (pre ++ (SelfEdit.replaceWith x).outcome o ++ post).map some := by
    simp [SelfEdit.outcome]
  obtain ⟨hexpr, hprogram⟩ := not_expression_of_statement hstatement
  obtain ⟨t', hrun, hdeparts, hframes, hlive⟩ := h.ends_replaceWith hq hl hi hx hF hcontexts
    hprogram hexpr (not_expression_of_statement hstatement').1
  rw [hset] at hdeparts
  have hxo : x ≠ o := by
    rintro rfl
    cases (hx.unowned x (List.mem_singleton_self x)).symm.trans
      (hl.owned h.owned (List.mem_of_getElem? hi) : t.arena.OwnedBy x m)
  have hcalm' : (t'.path q).Calm := hdeparts.calm q hcalm hlive.used
  exact ⟨t', hrun, (Lasts.refl _ t).trans hdeparts.toLasts fun _ _ _ hn => ⟨rfl, hn⟩,
    hdeparts.orderly,
    ⟨[q], .cons hlive .nil, hframes, fun p hp _ => List.mem_singleton.1 hp ▸ hcalm'⟩,
    hdeparts.relists, hdeparts.lists, fun y hy hout =>
    hdeparts.unowned y hy (by simpa using hout), fun _ =>
    ⟨hdeparts.gone, .inr fun ho => hxo (Option.some.inj (hlive.node.symm.trans ho)),
      congrArg (·.2.1) hcalm'⟩⟩

/-- **What a handler does to its own path succeeds**, if what it puts in is fresh. -/
theorem Orderly.enacts (hcalm : (t.path q).Calm) (hcontexts : (t.path q).contexts = [F.id])
    (hx : Loose r t.arena e.fresh)
    (hfresh : ∀ x ∈ e.fresh, t.arena.isA (some x) .statement = true) :
    ∃ t', e.run q t = .ok ⟨⟩ t' ∧ Enacts r m o list F fs q e pre post t t' := by
  have hassert := h.assertLive_eq hq
  cases e with
  | insert calls =>
    obtain ⟨ps, t', hrun, h'⟩ := h.exists_calls hq hl hF howner hkey hstatement hty hblock calls hx
    refine ⟨t', hrun, (Lasts.refl _ t).trans h'.toLasts fun _ _ _ hf => hf.elim, h'.orderly,
      ⟨ps, h'.found, h'.frames, fun p hp hhead => ?_⟩, h'.relists, h'.lists,
      fun y hy hout => h'.unowned y hy (by simpa using hout), nofun⟩
    rw [h'.idle p hp] at hhead
    cases hhead
  | remove =>
    obtain ⟨ps, t₁, t', hinsert, hremove, h'⟩ := h.exists_exchanged hq hl hF howner hkey hstatement
      hty hblock hcalm (Loose.nil r t.arena)
    obtain rfl : t = t₁ := by
      have hnil : insertAfter q ([].map some) t = .ok [] t := by
        unfold insertAfter insertWith
        rw [run_bind_of_ok hassert]
        rfl
      rw [hnil] at hinsert
      exact (EStateM.Result.ok.inj hinsert).2
    exact ⟨t', hremove, h'.toLasts, h'.orderly, h'.found, h'.relists, h'.lists,
      h'.unowned, h'.dropped⟩
  | replaceWith x =>
    exact h.exists_succeeded hq hl hF hstatement hcalm hcontexts hx
      (hfresh x (List.mem_singleton_self x))
  | replaceInline xs =>
    show ∃ t', (Tree.replaceInline q (xs.map some) >>= fun _ => pure PUnit.unit) t = _ ∧ _
    by_cases hone : ∃ x, xs = [x]
    · obtain ⟨x, rfl⟩ := hone
      obtain ⟨t', hrun, h'⟩ := h.exists_succeeded hq hl hF hstatement hcalm hcontexts hx
        (hfresh x (List.mem_singleton_self x))
      refine ⟨t', ?_, h'.toLasts, h'.orderly, h'.found, h'.relists, h'.lists,
        h'.unowned, h'.dropped⟩
      unfold Tree.replaceInline
      rw [bind_assoc, run_bind_of_ok hassert]
      exact run_bind_of_ok (run_bind_of_ok hrun)
    · obtain ⟨ps, t₁, t', hinsert, hremove, h'⟩ := h.exists_exchanged hq hl hF howner hkey
        hstatement hty hblock hcalm (show Loose r t.arena xs from hx)
      obtain ⟨hslot, -⟩ := h.entry hq hl (i := pre.length) (by simp)
      refine ⟨t', ?_, h'⟩
      have hmany : (do
          if ((← get).slot q).list?.isNone then replaceWithMultiple q (xs.map some)
          else
            let inserted ← insertAfter q (xs.map some)
            Tree.remove q
            return inserted : TreeM (List PathId)) t = .ok ps t' := by
        rw [run_get_bind, hslot, if_neg (by simp [Slot.list?]), run_bind_of_ok hinsert,
          run_bind_of_ok hremove]
        rfl
      refine run_bind_of_ok (y := ps) ?_
      unfold Tree.replaceInline
      rw [run_bind_of_ok hassert]
      cases xs with
      | nil => exact hmany
      | cons x rest =>
        cases rest with
        | nil => exact absurd ⟨x, rfl⟩ hone
        | cons y rest => exact hmany

end Place

end Tree

end ScopedTree
