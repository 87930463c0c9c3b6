import ScopedTree.Proofs.Pass.Heard

/-!
# Statements that are edited while they are visited

A pass works on the statements of a block, and the enter handler of a statement edits the list
around it. The statements to come are visited where they stand by then, and what is put in is
visited right after the statement it came with.

* `Tree.Worked`               what was done to the first statements, and what handlers were called
  on;
* `SelfEditor.Reworks`        a visitor that edits the statements of one block;
* `SelfEditor.exists_visited`   the visit of one statement;
* `SelfEditor.Hushes.visitTurn`   the visits of what was put in;
* `Tree.Furthers`             the edit and the visits that one statement leads to;
* `SelfEditor.Reworks.turn`   they bring the work one statement further.
-/

namespace ScopedTree

open Arena ScopedTree.Tree Relation

variable {σ : Type}

/-! ## handlers that are called once -/

def SelfEdit.events (o : NodeId) (e : SelfEdit) : List Event :=
  .entered o e :: if e.drops then [] else [.exited o]

section Calls

variable {v : SelfEditor σ} {d : Dispatch (Watch σ)} {ty : NodeType} {phase : Phase} {p : PathId}
  {n : NodeId} {s s' : Pass (Watch σ)}

theorem Dispatch.Watches.call (hw : d.Watches ty) (hd : v.Drives d) (hnode : s.tree.node p = some n)
    (hty : s.tree.arena.type? (some n) = some ty) (hrun : v.handler phase p s = .ok ⟨⟩ s') :
    d.engine.call p phase s = .ok (Engine.changed s'.tree p (some n)) s' := by
  obtain ⟨hlen, hchecks⟩ := hw.calls phase p
  obtain ⟨⟨check, run⟩, hcalls⟩ := List.length_eq_one_iff.1 hlen
  have hmem : (check, run) ∈ d.calls ty phase p := hcalls ▸ List.mem_singleton_self _
  obtain rfl : run = v.handler phase := hd.calls _ hmem
  have hcheck : check s.tree = true := hchecks _ hmem s.tree
  rw [Dispatch.call_eq hnode hty, hcalls, Engine.runHandlers, run_ask_bind]
  simp only [hcheck, if_true]
  rw [run_bind_of_ok hrun, run_ask_bind]
  cases Engine.changed s'.tree p (some n) <;> rfl

theorem SelfEditor.run_enter {e : SelfEdit} {own' : σ} {b : Arena} {t' : Tree}
    (hnode : s.tree.node p = some n)
    (hchoose : v.choose n s.tree s.own.own s.tree.arena = .ok (e, own') b)
    (hrun : e.run p { s.tree with arena := b } = .ok ⟨⟩ t') :
    v.handler .enter p s = .ok ⟨⟩ ⟨t', ⟨s.own.log ++ [.entered n e], own'⟩⟩ := by
  show v.enter p s = _
  unfold SelfEditor.enter
  rw [run_ask_bind, hnode]
  dsimp only
  rw [run_get_bind, run_onTree_bind (run_edit hchoose)]
  show PassM.onTree (e.run p) ⟨{ s.tree with arena := b }, _⟩ = _
  unfold PassM.onTree
  dsimp only
  rw [hrun]

theorem SelfEditor.run_exit (hnode : s.tree.node p = some n) : v.handler .exit p s
    = .ok ⟨⟩ ⟨s.tree, ⟨s.own.log ++ [.exited n], v.leave n s.tree s.own.own⟩⟩ := by
  show v.exit p s = _
  unfold SelfEditor.exit
  rw [run_ask_bind, hnode]
  rfl

end Calls

theorem Frame.priority_queueAll (ps : List PathId) : ∀ (F : Frame), (F.priority ++ ps).Nodup →
    (F.queueAll ps).priority = F.priority ++ ps := by
  induction ps with
  | nil => exact fun F _ => (List.append_nil _).symm
  | cons p ps ih =>
    intro F hnd
    have hadd : (F.queue p true).priority = F.priority ++ [p] := by
      have hp : p ∉ F.priority := fun hp =>
        (List.nodup_append.1 hnd).2.2 p hp p (List.mem_cons_self ..) rfl
      simp [Frame.queue, Tree.addOnce, hp]
    show ((F.queue p true).queueAll ps).priority = _
    rw [ih _ (by rw [hadd, List.append_assoc]; exact hnd), hadd, List.append_assoc]
    rfl

/-! ## what was done so far -/

def turned (turns : List (NodeId × SelfEdit)) : List NodeId :=
  turns.flatMap fun x => x.2.outcome x.1

/-- Of the statements `os` in the body of `m` the first were visited, and each turned into what it
was to turn into. -/
structure Tree.Worked (r m : NodeId) (free : NodeId → Prop) (a₀ : Arena) (os : List NodeId)
    (turns : List (NodeId × SelfEdit)) (rest : List NodeId) (a : Arena) (w : Watch σ) : Prop where
  order : os = turns.map (·.1) ++ rest
  relists : Relists m "body" a₀ a
  lists : a.Lists m "body" ((turned turns ++ rest).map some)
  left : ∀ y, free y → a₀.parentOf (some y) = none → (∀ x ∈ turns, y ∉ x.2.fresh) →
    a.parentOf (some y) = none
  dropped : ∀ x ∈ turns, x.2.drops = true → a.parentOf (some x.1) = none
  seen : ∀ x ∈ w.log, x.node = r ∨ (∃ o, a.OwnedBy x.node o) ∨ x.node ∈ turns.map (·.1)
  originals : ∀ x ∈ turns, w.on x.1 = x.2.events x.1
  fresh : ∀ x ∈ turns, ∀ y ∈ x.2.fresh, w.on y = [.entered y .stay, .exited y]
  pending : ∀ o ∈ rest, w.on o = []

/-- A statement of a type that is watched. -/
def Dispatch.Sees (d : Dispatch σ) (a : Arena) (n : NodeId) : Prop :=
  a.isA (some n) .statement = true ∧ ∀ ty, a.type? (some n) = some ty → d.Watches ty

/-- The visitor edits the statements `os` in the body of `m` when it enters them, and leaves all
other nodes alone. What it puts in is fresh, and has less than so many levels. -/
structure SelfEditor.Reworks (v : SelfEditor σ) (d : Dispatch (Watch σ)) (r m : NodeId)
    (free : NodeId → Prop) (a₀ : Arena) (os : List NodeId) (levels : Nat) : Prop where
  drives : v.Drives d
  owned : a₀.WellOwned
  root : a₀.parentOf (some r) = none
  within : ReflTransGen a₀.OwnedBy m r
  block : ∃ ty, a₀.type? (some m) = some ty ∧ (ty = .program ∨ ty = .blockStatement)
  lists : a₀.Lists m "body" (os.map some)
  admitted : ∀ n ty, ReflTransGen a₀.OwnedBy m n → a₀.type? (some n) = some ty →
    d.isDenied ty = false
  sees : ∀ o ∈ os, d.Sees a₀ o
  keeps : free r ∧ ∀ o ∈ os, free o
  quiet : ∀ n, n ∉ os → v.Quiet n
  edits : ∀ turns o rest (t : Tree) w, t.Orderly r →
    Worked r m free a₀ os turns (o :: rest) t.arena w →
    ∃ e own' b, v.choose o t w.own t.arena = .ok (e, own') b ∧ Arena.Grows free t.arena b
      ∧ Loose r b e.fresh ∧ ∀ x ∈ e.fresh, x ∉ os ∧ d.Sees b x ∧ b.Shallow levels x

/-! ## the visit of one statement -/

section Visit

variable {v : SelfEditor σ} {d : Dispatch (Watch σ)} {r m o : NodeId} {list : String}
  {q : PathId} {F : Frame} {fs : List Frame} {pre post : List NodeId} {ty : NodeType} {e : SelfEdit}
  {own' : σ} {b : Arena} {t' : Tree} {k : Nat} {s s₁ : Pass (Watch σ)}

/-- A statement is visited, and edited when it is entered. What is below is visited if the statement
stays. -/
theorem SelfEditor.exists_visited (hd : v.Drives d) (hq : s.tree.Live q o)
    (hcalm : (s.tree.path q).Calm) (hty : s.tree.arena.type? (some o) = some ty) (hw : d.Watches ty)
    (hchoose : v.choose o s.tree s.own.own s.tree.arena = .ok (e, own') b)
    (hrun : e.run q { s.tree with arena := b } = .ok ⟨⟩ t')
    (h : Enacts r m o list F fs q e pre post { s.tree with arena := b } t')
    (hty' : t'.arena.type? (some o) = some ty) (hshallow : t'.arena.Shallow k o)
    (hdepth : s.tree.depth + k ≤ Limits.traversal)
    (hquiet : ∀ z, TransGen t'.arena.OwnedBy z o → v.Quiet z) :
    ∃ s₁, Runs (d.engine.visitPath · q) s false s₁ ∧ Visited r (fun _ => False) t' s₁.tree
      ∧ s₁.tree.arena = t'.arena ∧ Heard (fun z => ReflTransGen t'.arena.OwnedBy z o) s.own s₁.own
      ∧ s₁.own.on o = s.own.on o ++ e.events o := by
  have henter := hw.call hd hq.node hty (SelfEditor.run_enter hq.node hchoose hrun)
  have hentered : Heard (fun z => ReflTransGen t'.arena.OwnedBy z o) s.own
      ⟨s.own.log ++ [.entered o e], own'⟩ :=
    ⟨_, rfl, fun x hx => by rw [List.mem_singleton.1 hx]; exact .refl⟩
  by_cases hdrops : e.drops = true
  · obtain ⟨-, hgone, hstop⟩ := h.dropped hdrops
    have hchanged : Engine.changed t' q (some o) = true := by
      unfold Engine.changed
      rcases hgone with hgone | hgone
      · simp [hgone]
      · simp [show (t'.path q).node ≠ some o from hgone]
    rw [hchanged] at henter
    refine ⟨_, Dispatch.runs_visitPath_of_changed hq.node hty hw.admitted henter hstop,
      .refl h.orderly, rfl, hentered, ?_⟩
    rw [Watch.on_append]
    simp [SelfEdit.events, hdrops, Event.node]
  · have hq' : t'.Live q o := h.live q o ⟨hq.node, hq.used⟩ fun hg => hdrops hg.1
    have hcalm' : (t'.path q).Calm := h.calm q hcalm hq'.used
    rw [Engine.changed_eq_false hq' hcalm'] at henter
    let P : Arena → Watch σ → Prop := fun c w => c = t'.arena
      ∧ Heard (fun z => TransGen t'.arena.OwnedBy z o) ⟨s.own.log ++ [.entered o e], own'⟩ w
    let Q : Arena → Watch σ → Prop := fun c w => c = t'.arena
      ∧ Heard (fun z => ReflTransGen t'.arena.OwnedBy z o) s.own w
      ∧ w.on o = s.own.on o ++ e.events o
    obtain ⟨k, rfl⟩ : ∃ l, k = l + 1 := by
      cases k with
      | zero => exact hshallow.elim
      | succ k => exact ⟨k, rfl⟩
    have htree : ∃ s₁, Runs (d.engine.visitPath · q) s false s₁
        ∧ Visited r (fun _ => False) t' s₁.tree ∧ Q s₁.tree.arena s₁.own := by
      refine Dispatch.runs_visitPath (P := P) hq.node hty hw.admitted henter h.orderly hq' hcalm' id
        (fun t ht harena => ?_) fun s' hs' hp' _ hP => ?_
      · obtain ⟨s', hrun', hvisited, harena', hheard⟩ := (SelfEditor.hushes hd k).visitNode
          (s := ⟨t, ⟨s.own.log ++ [.entered o e], own'⟩⟩) ht.orderly (ht.live q o hq' id)
          (ht.calm q hcalm' (ht.live q o hq' id).used) (harena ▸ hty') (harena ▸ hshallow)
          (by rw [ht.depth, show t'.depth = s.tree.depth from h.depth]; exact hdepth)
          (harena ▸ hquiet)
        exact ⟨s', hrun', hvisited, harena'.trans harena, harena ▸ hheard⟩
      · obtain ⟨harena', hheard⟩ := hP
        refine ⟨_, _, hw.call hd hp'.node (harena' ▸ hty') (SelfEditor.run_exit hp'.node),
          harena', ?_, ?_⟩
        · exact (hentered.trans (hheard.mono fun _ => TransGen.to_reflTransGen)).trans
            ⟨_, rfl, fun x hx => by rw [List.mem_singleton.1 hx]; exact .refl⟩
        · have hon := hheard.on_eq (h.orderly.owned.acyclic o)
          rw [Watch.on_append] at hon
          rw [Watch.on_append, hon, List.append_assoc]
          simp [SelfEdit.events, hdrops, Event.node]
    obtain ⟨s₁, hrun₁, hvisited, harena, hheard, hseen⟩ := htree
    exact ⟨s₁, hrun₁, hvisited, harena, hheard, hseen⟩

/-- **What was put in is visited right after the statement**, each node once. -/
theorem SelfEditor.Hushes.visitTurn (hush : v.Hushes d r k) {xs : List NodeId} {ps : List PathId}
    (hvisit : Runs (d.engine.visitPath · q) s false s₁) (h₁ : s₁.tree.Orderly r)
    (hframes : s₁.tree.frames = F.queueAll ps :: fs) (hpriority : F.priority = [])
    (hlt : F.id.index < s₁.tree.nextContext) (hlive : List.Forall₂ s₁.tree.Live ps xs)
    (hcalm : ∀ p ∈ ps, (s₁.tree.path p).contexts.head? = some F.id → (s₁.tree.path p).Calm)
    (hnodup : xs.Nodup) (hxs : ∀ x ∈ xs, s₁.tree.arena.OwnedBy x m ∧ s₁.tree.arena.Shallow k x
      ∧ (∀ z, ReflTransGen s₁.tree.arena.OwnedBy z x → v.Quiet z)
      ∧ ∀ ty, s₁.tree.arena.type? (some x) = some ty → d.Watches ty)
    (hdepth : s₁.tree.depth + k ≤ Limits.traversal) :
    ∃ s', Runs (d.engine.visitTurn · F.id q) s false s'
      ∧ Visited r (fun _ => False) (Bridge.withBooks s₁.tree (F :: fs) s₁.tree.nextContext
        s₁.tree.depth) s'.tree
      ∧ s'.tree.arena = s₁.tree.arena
      ∧ Heard (fun z => ∃ x ∈ xs, ReflTransGen s₁.tree.arena.OwnedBy z x) s₁.own s'.own
      ∧ ∀ x ∈ xs, s'.own.on x = s₁.own.on x ++ [.entered x .stay, .exited x] := by
  have hbooks := Frame.queueAll_eq ps F
  obtain ⟨jobs, rfl, rfl⟩ : ∃ jobs : List (PathId × NodeId), ps = jobs.map (·.1)
      ∧ xs = jobs.map (·.2) :=
    ⟨ps.zip xs, (List.map_fst_zip hlive.length_eq.le).symm,
      (List.map_snd_zip hlive.length_eq.ge).symm⟩
  rw [List.forall₂_map_left_iff, List.forall₂_map_right_iff, List.forall₂_same] at hlive
  have hpaths : (jobs.map (·.1)).Nodup := by
    rw [List.nodup_map_iff_inj_on (List.Nodup.of_map _ hnodup)]
    exact fun x hx y hy hxy => Prod.ext hxy ((hlive x hx).unique (hxy ▸ hlive y hy))
  have hqueued : (F.queueAll (jobs.map (·.1))).priority = jobs.map (·.1) := by
    rw [Frame.priority_queueAll _ F (by rwa [hpriority]), hpriority]
    rfl
  have hrest : { F.queueAll (jobs.map (·.1)) with priority := [] } = F := by
    rw [hbooks, ← hpriority]
  generalize ha : s₁.tree.arena = a at *
  let t₂ := Bridge.withBooks s₁.tree (F :: fs) s₁.tree.nextContext s₁.tree.depth
  by_cases hempty : jobs = []
  · subst hempty
    have hsame : t₂ = s₁.tree := by
      show Bridge.withBooks s₁.tree (F :: fs) s₁.tree.nextContext s₁.tree.depth = s₁.tree
      rw [show F :: fs = s₁.tree.frames from hframes.symm]
      rfl
    refine ⟨s₁, Dispatch.runs_visitTurn hvisit hframes rfl hpriority, ?_, ha, .refl _ _, nofun⟩
    show Visited r _ t₂ s₁.tree
    rw [hsame]
    exact .refl h₁
  · -- calls on one of the nodes are not calls on another
    let I : List NodeId → Arena → Watch σ → Prop := fun done b w => b = a
      ∧ Heard (fun z => ∃ x ∈ done, ReflTransGen a.OwnedBy z x) s₁.own w
      ∧ ∀ x ∈ done, w.on x = s₁.own.on x ++ [.entered x .stay, .exited x]
    have hturns : d.Turns r (fun _ => False) F fs I jobs t₂ := by
      refine Dispatch.turns_of_visits fun done p x rest hsplit s₂ h₂ hp hcalm₂ hdepth₂ hI => ?_
      obtain ⟨harena₂, hheard₂, hseen₂⟩ := hI
      have hx : x ∈ jobs.map (·.2) := by simp [hsplit]
      obtain ⟨hxm, hshallow, hquiet, hwatched⟩ := hxs x hx
      obtain ⟨ty, hty⟩ := exists_type? (h₂.filed.held p x hp.node)
      obtain ⟨s₃, hrun₃, hhushed⟩ := hush s₂ p x ty h₂ hp hcalm₂ hty (harena₂ ▸ hshallow)
        (by rw [hdepth₂]; exact hdepth) (harena₂ ▸ hquiet)
      have howned : a.Owned := ha ▸ h₁.owned
      have hheard₃ : Heard (fun z => ReflTransGen a.OwnedBy z x) s₂.own s₃.own :=
        harena₂ ▸ hhushed.heard
      have hnew : x ∉ done.map (·.2) := fun hmem => by
        rw [hsplit, List.map_append, List.nodup_append] at hnodup
        exact hnodup.2.2 x hmem x (List.mem_cons_self ..) rfl
      refine ⟨s₃, hrun₃, hhushed.toVisited, hhushed.arena.trans harena₂, ?_, fun y hy => ?_⟩
      · exact (hheard₂.mono fun z ⟨y, hy, hz⟩ => ⟨y, List.mem_append_left _ hy, hz⟩).trans
          (hheard₃.mono fun z hz => ⟨x, by simp, hz⟩)
      · rcases List.mem_append.1 hy with hy | hy
        · have hyx : y ≠ x := fun hyx => hnew (hyx ▸ hy)
          obtain ⟨hym, -⟩ :=
            hxs y (by rw [hsplit, List.map_append]; exact List.mem_append_left _ hy)
          rw [hheard₃.on_eq (Arena.not_within (howned.not_above hxm) (.inl hym) hyx), hseen₂ y hy]
        · obtain rfl := List.mem_singleton.1 hy
          rw [hhushed.own (hwatched ty (harena₂ ▸ hty)), hheard₂.on_eq]
          rintro ⟨x, hx', hyx⟩
          obtain ⟨hxm', -⟩ :=
            hxs x (by rw [hsplit, List.map_append]; exact List.mem_append_left _ hx')
          exact Arena.not_within (howned.not_above hxm') (.inl hxm) (fun he => hnew (he ▸ hx')) hyx
    obtain ⟨s', hrun, hvisited, harena, hheard, hseen⟩ := Dispatch.runs_visitQueue
      (s := ⟨t₂, s₁.own⟩)
      (h₁.withBooks (F :: fs) le_rfl _) rfl hlt (fun x hx => ⟨(hlive x hx).node, (hlive x hx).used⟩)
      hnodup (fun x hx => hcalm x.1 (List.mem_map_of_mem hx)) hturns ⟨ha, .refl _ _, nofun⟩
    refine ⟨s', ?_, hvisited, harena, hheard, hseen⟩
    refine Dispatch.runs_visitTurn_of_queued hvisit hframes (by rw [hbooks]) ?_ ?_
    · rw [hqueued]
      simpa using hempty
    · rw [hqueued, hrest]
      exact hrun

end Visit

/-! ## one statement further -/

section Step

variable {v : SelfEditor σ} {d : Dispatch (Watch σ)} {r m o y z : NodeId} {free : NodeId → Prop}
  {a₀ a b c : Arena} {os : List NodeId} {levels : Nat} {turns : List (NodeId × SelfEdit)}
  {rest : List NodeId} {e : SelfEdit} {w w₁ w₂ : Watch σ}

theorem mem_turned :
    y ∈ turned turns ↔ ∃ x ∈ turns, y ∈ x.2.fresh ∨ x.2.drops = false ∧ y = x.1 := by
  simp only [turned, List.mem_flatMap, SelfEdit.mem_outcome]

namespace SelfEditor.Reworks

variable (hv : v.Reworks d r m free a₀ os levels)

include hv

theorem ownedBy (ho : o ∈ os) : a₀.OwnedBy o m :=
  hv.lists.owned hv.owned.owned (List.mem_map_of_mem ho)

theorem ne_root (ho : o ∈ os) : o ≠ r := by
  rintro rfl
  cases hv.root.symm.trans (hv.ownedBy ho)

theorem nodup : os.Nodup := by
  rw [List.nodup_iff_count_le_one]
  intro o
  have hcount := hv.lists.count_le_one hv.owned.owned o
  rwa [List.count_map_of_injective _ _ (Option.some_injective _)] at hcount

end SelfEditor.Reworks

namespace Tree.Worked

theorem ownedBy (h : Worked r m free a₀ os turns rest a w) (hy : y ∈ turned turns ++ rest) :
    a.OwnedBy y m :=
  h.lists.owned h.relists.owned.owned (List.mem_map_of_mem hy)

theorem original (h : Worked r m free a₀ os turns rest a w) (ho : o ∈ os) :
    a.OwnedBy o m ∧ o ∈ turned turns ++ rest ∨ a.parentOf (some o) = none := by
  rw [h.order] at ho
  rcases List.mem_append.1 ho with ho | ho
  · obtain ⟨x, hx, rfl⟩ := List.mem_map.1 ho
    by_cases hdrops : x.2.drops = true
    · exact .inr (h.dropped x hx hdrops)
    · have hmem : x.1 ∈ turned turns ++ rest :=
        List.mem_append_left _ (mem_turned.2 ⟨x, hx, .inr ⟨by simpa using hdrops, rfl⟩⟩)
      exact .inl ⟨h.ownedBy hmem, hmem⟩
  · exact .inl ⟨h.ownedBy (List.mem_append_right _ ho), List.mem_append_right _ ho⟩

theorem mem_of_fresh (h : Worked r m free a₀ os turns rest a w) {x : NodeId × SelfEdit}
    (hx : x ∈ turns) (hy : y ∈ x.2.fresh) : a.OwnedBy y m ∧ y ∈ turned turns ++ rest := by
  have hmem : y ∈ turned turns ++ rest := List.mem_append_left _ (mem_turned.2 ⟨x, hx, .inl hy⟩)
  exact ⟨h.ownedBy hmem, hmem⟩

theorem nodup (h : Worked r m free a₀ os turns rest a w) : (turned turns ++ rest).Nodup := by
  rw [List.nodup_iff_count_le_one]
  intro y
  have hcount := h.lists.count_le_one h.relists.owned.owned y
  rwa [List.count_map_of_injective _ _ (Option.some_injective _)] at hcount

end Tree.Worked

/-- The statement `o` was edited, which made of the arena `a` first `b` and then `c`. It was
visited, and then what was put in. -/
structure Tree.Furthers (r m : NodeId) (free : NodeId → Prop) (a₀ : Arena) (os : List NodeId)
    (turns : List (NodeId × SelfEdit)) (o : NodeId) (e : SelfEdit) (rest : List NodeId)
    (a b c : Arena) (w w₁ w₂ : Watch σ) : Prop where
  worked : Worked r m free a₀ os turns (o :: rest) a w
  grows : Arena.Grows free a b
  loose : Loose r b e.fresh
  foreign : ∀ x ∈ e.fresh, x ∉ os
  relists : Relists m "body" b c
  lists : c.Lists m "body" ((turned turns ++ e.outcome o ++ rest).map some)
  unowned : ∀ y, b.parentOf (some y) = none → y ∉ turned turns ++ e.outcome o ++ rest →
    c.parentOf (some y) = none
  dropped : e.drops = true → c.parentOf (some o) = none
  visited : Heard (fun z => ReflTransGen c.OwnedBy z o) w w₁
  events : w₁.on o = w.on o ++ e.events o
  visitedFresh : Heard (fun z => ∃ x ∈ e.fresh, ReflTransGen c.OwnedBy z x) w₁ w₂
  eventsFresh : ∀ x ∈ e.fresh, w₂.on x = w₁.on x ++ [.entered x .stay, .exited x]

namespace Tree.Furthers

theorem mem (h : Furthers r m free a₀ os turns o e rest a b c w w₁ w₂) : o ∈ os := by
  simp [h.worked.order]

theorem relisted (h : Furthers r m free a₀ os turns o e rest a b c w w₁ w₂) :
    Relists m "body" a₀ c := by
  have hlt := h.worked.relists.owned.owned.owner_lt (h.worked.ownedBy (y := o) (by simp))
  exact h.worked.relists.trans ((h.grows.relists hlt).trans h.relists)

theorem ownedBy (h : Furthers r m free a₀ os turns o e rest a b c w w₁ w₂)
    (hy : y ∈ turned turns ++ e.outcome o ++ rest) : c.OwnedBy y m :=
  h.lists.owned h.relisted.owned.owned (List.mem_map_of_mem hy)

theorem ownedBy_fresh (h : Furthers r m free a₀ os turns o e rest a b c w w₁ w₂)
    (hy : y ∈ e.fresh) :
    c.OwnedBy y m :=
  h.ownedBy (by simp [SelfEdit.mem_outcome, hy])

theorem stays (h : Furthers r m free a₀ os turns o e rest a b c w w₁ w₂)
    (hy : y ∈ turned turns ++ rest) :
    c.OwnedBy y m := by
  refine h.ownedBy ?_
  simp only [List.mem_append] at hy ⊢
  tauto

theorem not_fresh (h : Furthers r m free a₀ os turns o e rest a b c w w₁ w₂) {k : NodeId}
    (hy : a.OwnedBy y k) : y ∉ e.fresh := fun hmem => by
  cases (h.loose.unowned y hmem).symm.trans (h.grows.ownedBy h.worked.relists.owned.owned hy)

theorem ne (h : Furthers r m free a₀ os turns o e rest a b c w w₁ w₂)
    (hy : y ∈ turned turns ++ rest) :
    y ≠ o := by
  rintro rfl
  have hnodup := h.worked.nodup
  rcases List.mem_append.1 hy with hy | hy
  · exact (List.nodup_append.1 hnodup).2.2 y hy y (List.mem_cons_self ..) rfl
  · exact (List.nodup_cons.1 (List.nodup_append.1 hnodup).2.1).1 hy

theorem unowned_of (h : Furthers r m free a₀ os turns o e rest a b c w w₁ w₂) (hfree : free y)
    (hya : a.parentOf (some y) = none) (hyf : y ∉ e.fresh) : c.parentOf (some y) = none := by
  refine h.unowned y (h.grows.free y hfree hya) fun hy => ?_
  have hlisted : y ∈ turned turns ++ o :: rest := by
    simp only [List.mem_append, SelfEdit.mem_outcome, List.mem_cons] at hy ⊢
    tauto
  cases hya.symm.trans (h.worked.ownedBy hlisted)

theorem place (hv : v.Reworks d r m free a₀ os levels)
    (h : Furthers r m free a₀ os turns o e rest a b c w w₁ w₂) (hy : y ∈ os) (hyo : y ≠ o) :
    c.OwnedBy y m ∨ c.parentOf (some y) = none := by
  rcases h.worked.original hy with ⟨-, hlisted⟩ | hnone
  · refine .inl (h.stays ?_)
    simp only [List.mem_append, List.mem_cons] at hlisted ⊢
    tauto
  · exact .inr (h.unowned_of (hv.keeps.2 y hy) hnone fun hmem => h.foreign y hmem hy)

theorem on_of_not_fresh (h : Furthers r m free a₀ os turns o e rest a b c w w₁ w₂)
    (hy : c.OwnedBy y m ∨ c.parentOf (some y) = none) (hyf : y ∉ e.fresh) : w₂.on y = w₁.on y :=
  h.visitedFresh.on_eq fun ⟨_, hx, hyx⟩ =>
    not_within (h.relisted.owned.owned.not_above (h.ownedBy_fresh hx)) hy
      (fun he => hyf (he ▸ hx)) hyx

theorem on_of_ne (hv : v.Reworks d r m free a₀ os levels)
    (h : Furthers r m free a₀ os turns o e rest a b c w w₁ w₂)
    (hy : c.OwnedBy y m ∨ c.parentOf (some y) = none) (hyo : y ≠ o) : w₁.on y = w.on y :=
  h.visited.on_eq (not_within (h.relisted.not_above hv.owned.owned (hv.ownedBy h.mem).lt
    (hv.owned.owned.not_above (hv.ownedBy h.mem))) hy hyo)

theorem on_other (hv : v.Reworks d r m free a₀ os levels)
    (h : Furthers r m free a₀ os turns o e rest a b c w w₁ w₂)
    (hy : c.OwnedBy y m ∨ c.parentOf (some y) = none) (hyo : y ≠ o) (hyf : y ∉ e.fresh) :
    w₂.on y = w.on y :=
  (h.on_of_not_fresh hy hyf).trans (h.on_of_ne hv hy hyo)

theorem on_self (h : Furthers r m free a₀ os turns o e rest a b c w w₁ w₂) :
    w₂.on o = e.events o := by
  have hplace : c.OwnedBy o m ∨ c.parentOf (some o) = none := by
    by_cases hdrops : e.drops = true
    · exact .inr (h.dropped hdrops)
    · exact .inl (h.ownedBy (by simp [SelfEdit.mem_outcome, hdrops]))
  rw [h.on_of_not_fresh hplace fun hmem => h.foreign o hmem h.mem, h.events,
    h.worked.pending o (List.mem_cons_self ..)]
  rfl

theorem on_fresh (hv : v.Reworks d r m free a₀ os levels)
    (h : Furthers r m free a₀ os turns o e rest a b c w w₁ w₂) (hy : y ∈ e.fresh) :
    w₂.on y = [.entered y .stay, .exited y] := by
  have hyo : y ≠ o := by
    rintro rfl
    exact h.foreign y hy h.mem
  have hnil : w.on y = [] := by
    refine List.filter_eq_nil_iff.2 fun x hx he => ?_
    obtain rfl : x.node = y := by simpa using he
    rcases h.worked.seen x hx with hr | ⟨k, hk⟩ | hxos
    · exact h.loose.ne_root _ hy hr
    · exact h.not_fresh hk hy
    · exact h.foreign _ hy (by rw [h.worked.order]; exact List.mem_append_left _ hxos)
  rw [h.eventsFresh y hy, h.on_of_ne hv (.inl (h.ownedBy_fresh hy)) hyo, hnil]
  rfl

theorem seen (h : Furthers r m free a₀ os turns o e rest a b c w w₁ w₂) {x : Event}
    (hx : x ∈ w₂.log) :
    x.node = r ∨ (∃ k, c.OwnedBy x.node k) ∨ x.node ∈ (turns ++ [(o, e)]).map (·.1) := by
  have howned (z k : NodeId) (hz : ReflTransGen c.OwnedBy z k) : z = k ∨ ∃ k', c.OwnedBy z k' :=
    (ReflTransGen.cases_head hz).imp_right fun ⟨k', hk', _⟩ => ⟨k', hk'⟩
  have hself (he : x.node = o) : x.node ∈ (turns ++ [(o, e)]).map (·.1) := by simp [he]
  rcases h.visitedFresh.mem hx with hx | ⟨y, hy, hxy⟩
  · rcases h.visited.mem hx with hx | hxo
    · rcases h.worked.seen x hx with hr | ⟨k, hk⟩ | hx
      · exact .inl hr
      · -- what stood in the list still does, unless it is `o`
        rcases h.relists.ownedBy_or h.grows.owned (h.grows.lists h.worked.lists)
          (h.grows.ownedBy h.worked.relists.owned.owned hk) with hk | ⟨-, hlisted⟩
        · exact .inr (.inl ⟨k, hk⟩)
        · have hlisted : x.node ∈ turned turns ++ o :: rest := by simpa using hlisted
          by_cases hxo : x.node = o
          · exact .inr (.inr (hself hxo))
          · refine .inr (.inl ⟨m, h.stays ?_⟩)
            simp only [List.mem_append, List.mem_cons] at hlisted ⊢
            tauto
      · rw [List.map_append]
        exact .inr (.inr (List.mem_append_left _ hx))
    · exact .inr ((howned _ _ hxo).symm.imp_right hself)
  · exact .inr (.inl ((howned _ _ hxy).elim (fun he => ⟨m, he ▸ h.ownedBy_fresh hy⟩) id))

/-- **One statement further.** -/
theorem next (hv : v.Reworks d r m free a₀ os levels)
    (h : Furthers r m free a₀ os turns o e rest a b c w w₁ w₂) :
    Worked r m free a₀ os (turns ++ [(o, e)]) rest c w₂ where
  order := by simp [h.worked.order]
  relists := h.relisted
  lists := by
    rw [show turned (turns ++ [(o, e)]) = turned turns ++ e.outcome o by simp [turned]]
    exact h.lists
  left y hy hy₀ hout := by
    simp only [List.mem_append, List.mem_singleton] at hout
    exact h.unowned_of hy (h.worked.left y hy hy₀ fun x hx => hout x (.inl hx))
      (hout (o, e) (.inr rfl))
  dropped x hx hdrops := by
    rcases List.mem_append.1 hx with hx | hx
    · have hxos : x.1 ∈ os := by
        rw [h.worked.order]
        exact List.mem_append_left _ (List.mem_map_of_mem hx)
      exact h.unowned_of (hv.keeps.2 _ hxos) (h.worked.dropped x hx hdrops) fun hmem =>
        h.foreign _ hmem hxos
    · obtain rfl := List.mem_singleton.1 hx
      exact h.dropped hdrops
  seen _ := h.seen
  originals x hx := by
    rcases List.mem_append.1 hx with hx | hx
    · have hxs : x.1 ∈ turns.map (·.1) := List.mem_map_of_mem hx
      have hxo : x.1 ≠ o := by
        have hnodup := hv.nodup
        rw [h.worked.order, List.nodup_append] at hnodup
        exact hnodup.2.2 _ hxs o (List.mem_cons_self ..)
      have hxos : x.1 ∈ os := by
        rw [h.worked.order]
        exact List.mem_append_left _ hxs
      rw [h.on_other hv (h.place hv hxos hxo) hxo fun hmem => h.foreign _ hmem hxos,
        h.worked.originals x hx]
    · obtain rfl := List.mem_singleton.1 hx
      exact h.on_self
  fresh x hx y hy := by
    rcases List.mem_append.1 hx with hx | hx
    · have hyt : y ∈ turned turns ++ rest := List.mem_append_left _ (mem_turned.2 ⟨x, hx, .inl hy⟩)
      rw [h.on_other hv (.inl (h.stays hyt)) (h.ne hyt)
        (h.not_fresh (h.worked.mem_of_fresh hx hy).1), h.worked.fresh x hx y hy]
    · obtain rfl := List.mem_singleton.1 hx
      exact h.on_fresh hv hy
  pending y hy := by
    have hyt : y ∈ turned turns ++ rest := List.mem_append_right _ hy
    rw [h.on_other hv (.inl (h.stays hyt)) (h.ne hyt)
      (h.not_fresh (h.worked.ownedBy (by simp [hy]))),
      h.worked.pending y (List.mem_cons_of_mem _ hy)]

end Tree.Furthers

/-- **The turn of one statement**: it is visited and edited, and then what was put in is visited. -/
theorem SelfEditor.Reworks.turn (hv : v.Reworks d r m free a₀ os levels) {s : Pass (Watch σ)}
    {q : PathId} {F : Frame} {fs : List Frame} {k : Nat} (hs : s.tree.Orderly r)
    (hq : s.tree.Live q o) (hcalm : (s.tree.path q).Calm)
    (hcontexts : (s.tree.path q).contexts = [F.id]) (hframes : s.tree.frames = F :: fs)
    (howner : F.owner = some m) (hkey : F.key = "body") (hpriority : F.priority = [])
    (hlt : F.id.index < s.tree.nextContext)
    (h : Worked r m free a₀ os turns (o :: rest) s.tree.arena s.own) (hshallow : a₀.Shallow k o)
    (hdepth : s.tree.depth + k ≤ Limits.traversal)
    (hlevels : s.tree.depth + levels ≤ Limits.traversal) :
    ∃ e s', Runs (d.engine.visitTurn · F.id q) s false s'
      ∧ Visited r (fun z => ReflTransGen a₀.OwnedBy z o) s.tree s'.tree
      ∧ Worked r m free a₀ os (turns ++ [(o, e)]) rest s'.tree.arena s'.own := by
  have ho : o ∈ os := by simp [h.order]
  have hom₀ : a₀.OwnedBy o m := hv.ownedBy ho
  have habove₀ : ¬ ReflTransGen a₀.OwnedBy m o := hv.owned.owned.not_above hom₀
  have hmlt : m.index < s.tree.arena.size :=
    h.relists.owned.owned.owner_lt (h.ownedBy (y := o) (by simp))
  obtain ⟨e, own', b, hchoose, hgrows, hloose, hfresh⟩ := hv.edits turns o rest s.tree s.own hs h
  obtain ⟨hu, hlasts⟩ := hs.made hgrows hv.keeps.1
  have hrel : Relists m "body" a₀ b := h.relists.trans (hgrows.relists hmlt)
  obtain ⟨tym, htym, hblock⟩ := hv.block
  obtain ⟨hstatement, hwatched⟩ := hv.sees o ho
  have hstatement' : b.isA (some o) .statement = true := by
    unfold Arena.isA at hstatement ⊢
    rwa [hrel.type?_eq hom₀.lt]
  obtain ⟨t', hrun, henacts⟩ := hu.enacts (e := e) ⟨hq.node, hq.used⟩ (hgrows.lists h.lists)
    hframes howner hkey
    hstatement' (hrel.type?.trans htym) hblock hcalm hcontexts hloose
    fun x hx => (hfresh x hx).2.1.1
  have hrel' : Relists m "body" a₀ t'.arena := hrel.trans henacts.relists
  obtain ⟨ty, hty⟩ := exists_type? hom₀.lt
  obtain ⟨s₁, hvisit, hvisited, harena, hheard, hon⟩ := SelfEditor.exists_visited (k := k)
    hv.drives hq hcalm
    ((h.relists.type?_eq hom₀.lt).trans hty) (hwatched ty hty) hchoose hrun henacts
    ((hrel'.type?_eq hom₀.lt).trans hty) (hrel'.shallow hv.owned.owned hom₀.lt habove₀ hshallow)
    hdepth
    fun z hz => hv.quiet z fun hzos => by
      have hzo : z ≠ o := fun he => henacts.orderly.owned.acyclic o (he ▸ hz)
      exact not_within habove₀ (.inl (hv.ownedBy hzos)) hzo
        ((hrel'.within_iff hv.owned.owned hom₀.lt habove₀).1 hz.to_reflTransGen)
  obtain ⟨ps, hlive, hframes', hidle⟩ := henacts.found
  have hmr : ReflTransGen b.OwnedBy m r := hrel.above hv.owned.owned hv.within
  have hout (x : NodeId) (hx : x ∈ e.fresh) : ¬ ReflTransGen b.OwnedBy m x :=
    hloose.not_within hu.free hx hmr
  have hputin (x : NodeId) (hx : x ∈ e.fresh) : t'.arena.OwnedBy x m ∧ t'.arena.Shallow levels x
      ∧ (∀ z, ReflTransGen t'.arena.OwnedBy z x → v.Quiet z)
      ∧ ∀ ty, t'.arena.type? (some x) = some ty → d.Watches ty := by
    obtain ⟨hxos, hsees, hxs⟩ := hfresh x hx
    refine ⟨henacts.lists.owned henacts.orderly.owned (List.mem_map_of_mem ?_),
      henacts.relists.shallow hgrows.owned.owned (hloose.present x hx) (hout x hx) hxs, fun z hz =>
      hv.quiet z fun hz' => ?_,
      fun ty hty => hsees.2 ty ((henacts.relists.type?_eq (hloose.present x hx)).symm.trans hty)⟩
    · simp [SelfEdit.mem_outcome, hx]
    · have hplace : b.OwnedBy z m ∨ b.parentOf (some z) = none :=
        (h.original hz').imp (fun hzm => hgrows.ownedBy h.relists.owned.owned hzm.1)
          (hgrows.free z (hv.keeps.2 z hz'))
      exact not_within (hout x hx) hplace (fun he => hxos (he ▸ hz'))
        ((henacts.relists.within_iff hgrows.owned.owned (hloose.present x hx) (hout x hx)).1 hz)
  have hlive₁ : List.Forall₂ s₁.tree.Live ps e.fresh :=
    hlive.imp fun p x hp => hvisited.live p x hp id
  have hcalm₁ (p : PathId) (hp : p ∈ ps) (hhead : (s₁.tree.path p).contexts.head? = some F.id) :
      (s₁.tree.path p).Calm := by
    obtain ⟨x, -, hx⟩ := forall₂_exists_of_mem_left hlive₁ hp
    rw [hvisited.contexts] at hhead
    exact hvisited.calm p (hidle p hp hhead) hx.used
  have hdepth₁ : s₁.tree.depth = s.tree.depth := hvisited.depth.trans henacts.depth
  obtain ⟨s₂, hturn, hvisited', harena', hheard', hon'⟩ :=
    (SelfEditor.hushes hv.drives levels).visitTurn hvisit
    hvisited.orderly (hvisited.frames.trans hframes') hpriority
    (hlt.trans_le (henacts.nextContext.trans hvisited.nextContext)) hlive₁ hcalm₁ hloose.nodup
    (by rw [harena]; exact hputin) (hdepth₁ ▸ hlevels)
  rw [harena] at harena' hheard'
  refine ⟨e, s₂, hturn, ⟨?_, hvisited'.orderly, hvisited'.frames.trans hframes.symm⟩,
    harena' ▸ Furthers.next hv
    ⟨h, hgrows, hloose, fun x hx => (hfresh x hx).1, henacts.relists, henacts.lists,
      henacts.unowned,
      fun hdrops => (henacts.dropped hdrops).1, hheard, hon, hheard', hon'⟩⟩
  have henacted : Lasts (fun z => ReflTransGen a₀.OwnedBy z o) s.tree t' :=
    (hlasts.all _).trans henacts.toLasts fun p n _ hn =>
      (hrel.within_iff hv.owned.owned hom₀.lt habove₀).1 hn.2
  exact ((henacted.trans hvisited.toLasts fun _ _ _ hn => hn.elim).withBooks (F :: fs) le_rfl).trans
    hvisited'.toLasts fun _ _ _ hn => hn.elim

end Step

end ScopedTree
