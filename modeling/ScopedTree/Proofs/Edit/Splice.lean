import ScopedTree.Proofs.Arena.Relist
import ScopedTree.Proofs.Edit.Entries
import ScopedTree.Proofs.Edit.Refused
import ScopedTree.Proofs.Path.Orderly

/-!
# Lists that change under a pass

Nodes are put into a list, an entry goes, or another takes its place. In a tree in order that always
succeeds, the tree is in order again, and what is new is queued on the frame that works on the list.

* `Tree.Refits`            a list changed, and the paths of its entries with it;
* `Tree.Orderly.ends_insertEntries`, `ends_insert`   nodes that are put in.
-/

namespace ScopedTree.Tree

open Arena Relation

variable {t t' t'' : Tree} {p q : PathId} {m n o r x : NodeId} {gone : NodeId → Prop}
  {list : String} {items : List (Option NodeId)} {i : Nat}

theorem register_queue (hoff : t.options.noScope = true) (p : PathId) : (do
      registerSubtree p
      queueNewPath p true : TreeM Unit) t = queueNewPath p true t := by
  have hrun : registerSubtree p t = .ok ⟨⟩ t := by
    unfold registerSubtree
    rw [run_get_bind, if_pos hoff]
    rfl
  exact run_bind_of_ok hrun

/-! ## paths that are refitted -/

/-- The nodes changed. Paths in use stand where their nodes do again, but for those of nodes that
are gone; and `p` may hold a node that no path held. -/
structure Refits (r : NodeId) (gone : NodeId → Prop) (p : PathId) (t t' : Tree) : Prop where
  arena : t'.arena.WellOwned
  size : t.arena.size ≤ t'.arena.size
  free : t'.arena.parentOf (some r) = none
  root : t'.root = t.root
  rootPath : t'.rootPath = t.rootPath
  options : t'.options = t.options
  lists : t'.childPaths = t.childPaths
  scopes : ∀ i, t'.scopeOfNode.get? i = t.scopeOfNode.get? i
  bindings : t'.bindings.size = t.bindings.size
  paths : t'.paths.size = t.paths.size
  depth : t'.depth = t.depth
  nextContext : t'.nextContext = t.nextContext
  stand : ∀ q, t'.parentPath q = t.parentPath q ∧ t'.parentNode q = t.parentNode q
    ∧ (t'.slot q = .root ↔ t.slot q = .root) ∧ (t'.path q).contexts = (t.path q).contexts
  node : ∀ q n, t'.node q = some n → t.node q = some n ∨ n.index < t'.arena.size
  still : ∀ q, (t.path q).removed = true → (t'.path q).removed = true
  calm : ∀ q, (t.path q).Calm → (t'.path q).removed = false → (t'.path q).Calm
  live : ∀ q n, t.Live q n → ¬ gone n → t'.Live q n
  old : ∀ q n, t'.Live q n → t.Live q n ∧ ¬ gone n ∨ q = p ∧ ∀ k, ¬ t.Live k n
  fresh : ∀ q n, t'.Live q n → (t'.path q).stale = false
  holds : ∀ q n o, t'.Live q n → t.slot q ≠ .root → t.parentNode q = some o →
    t'.arena.slotAt (some o) (t'.slot q) = some n

namespace Refits

theorem lasts (h : Refits r gone p t t') : Lasts gone t t' :=
  ⟨⟨h.rootPath, h.depth, h.nextContext.ge, h.still, h.calm, h.live⟩, fun q => (h.stand q).2.2.2⟩

/-- The tree is in order again, if all that hangs under what is gone is gone, and `p` stands below a
path that stays. -/
theorem orderly (h : Refits r gone p t t') (ht : t.Orderly r) (hr : ¬ gone r)
    (hgone : ∀ n o, t.arena.OwnedBy n o → gone o → gone n)
    (hp : ∀ n, t'.Live p n → (∀ k, ¬ t.Live k n) → ∃ o, t.Live p o ∧ ∀ k,
      t.arena.OwnedBy o k → ¬ gone k) :
    t'.Orderly r := by
  have hcached (o : Option NodeId) : t'.cachedPaths o = t.cachedPaths o := by
    unfold cachedPaths
    rw [h.lists]
  have hcrown (q : PathId) (hq : t.rootPath = some q) : t'.slot q = .root ∧ t'.Live q r := by
    obtain ⟨hs, hlive⟩ := ht.crown q hq
    exact ⟨(h.stand q).2.2.1.2 hs, h.live q r hlive hr⟩
  -- a path in use stands below the path of the owner as before
  have hbelow (q : PathId) (n o : NodeId) (hq : t.Live q o)
      (ho : ∀ k, t.arena.OwnedBy o k → ¬ gone k) (hlive : t'.Live q n)
      (hs : t.slot q ≠ .root) : ∃ q' k, t'.parentPath q = some q' ∧ t'.Live q' k
        ∧ t'.Sits q n k ∧ q ∈ t'.cachedPaths (some k) := by
    obtain ⟨q', k, hq', hk, hsits, hmem⟩ := (ht.seat q o hq).below hs
    have hslot : t'.slot q ≠ .root := fun hs' => hs ((h.stand q).2.2.1.1 hs')
    refine ⟨q', k, (h.stand q).1.trans hq', h.live q' k hk (ho k (hsits.owned ht.owned)),
      ⟨hslot, hlive.node, (h.stand q).2.1.trans hsits.parent, ?_⟩, (hcached _).symm ▸ hmem⟩
    rw [readSlot_eq _ _ hslot]
    exact h.holds q n k hlive hs hsits.parent
  refine ⟨h.arena, ⟨fun r' hr' => ?_, fun q n hn => ?_, fun q hq hs => ?_, fun o q hq => ?_,
    fun o => ?_,
      fun o o' q hq hq' => ?_⟩, h.options ▸ ht.off, fun i => (h.scopes i).trans (ht.scopeless i),
    h.bindings.trans ht.bindingless, h.root.trans ht.root, h.free, fun q hq =>
    hcrown q (h.rootPath ▸ hq),
    fun q n hq => ⟨h.fresh q n hq, fun hs => ?_⟩, fun q q' n hq hq' => ?_, fun q c hc => ?_⟩
  · exact (ht.filed.present r' (h.root ▸ hr')).trans_le h.size
  · exact (h.node q n hn).elim (fun hn => (ht.filed.held q n hn).trans_le h.size) id
  · obtain ⟨hpath, -⟩ := ht.filed.root q (h.paths ▸ hq) ((h.stand q).2.2.1.1 hs)
    exact ⟨h.rootPath.trans hpath, (hcrown q hpath).2.node.trans (h.root.trans ht.root).symm⟩
  · rw [hcached] at hq
    obtain ⟨hlt, hs⟩ := ht.filed.listed o q hq
    exact ⟨h.paths ▸ hlt, fun hs' => hs ((h.stand q).2.2.1.1 hs')⟩
  · rw [hcached]
    exact ht.filed.nodup o
  · rw [hcached] at hq hq'
    exact ht.filed.once o o' q hq hq'
  · have hs : t.slot q ≠ .root := fun hs' => hs ((h.stand q).2.2.1.2 hs')
    rcases h.old q n hq with ⟨hold, hn⟩ | ⟨rfl, hnew⟩
    · exact hbelow q n n hold (fun k hk hg => hn (hgone n k hk hg)) hq hs
    · obtain ⟨o, ho, hk⟩ := hp n hq hnew
      exact hbelow q n o ho hk hq hs
  · rcases h.old q n hq with ⟨hold, -⟩ | ⟨rfl, hnew⟩
    · rcases h.old q' n hq' with ⟨hold', -⟩ | ⟨rfl, hnew⟩
      · exact ht.sole q q' n hold hold'
      · exact absurd hold (hnew q)
    · rcases h.old q' n hq' with ⟨hold', -⟩ | ⟨rfl, -⟩
      · exact absurd hold' (hnew q')
      · rfl
  · rw [h.nextContext]
    exact ht.handedOut q c ((h.stand q).2.2.2 ▸ hc)

end Refits

theorem Orderly.made (h : t.Orderly r) {free : NodeId → Prop} {b : Arena}
    (hb : Arena.Grows free t.arena b) (hr : free r) :
    ({ t with arena := b } : Tree).Orderly r ∧ Lasts (fun _ => False) t { t with arena := b } := by
  have hlive {q : PathId} {n : NodeId} : ({ t with arena := b } : Tree).Live q n ↔ t.Live q n :=
    ⟨fun hq => ⟨hq.node, hq.used⟩, fun hq => ⟨hq.node, hq.used⟩⟩
  have hrefits : Refits r (fun _ => False) ⟨0⟩ t { t with arena := b } := by
    refine ⟨hb.owned, hb.size, hb.free r hr h.free, rfl, rfl, rfl, rfl, fun _ => rfl, rfl,
      rfl, rfl, rfl,
      fun _ => ⟨rfl, rfl, .rfl, rfl⟩, fun _ _ => .inl, fun _ hq => hq, fun _ hq _ =>
        hq, fun q n hq _ => hlive.2 hq,
      fun q n hq => .inl ⟨hlive.1 hq, id⟩, fun q n hq => (h.seat q n (hlive.1 hq)).fresh,
        fun q n o hq hs ho => ?_⟩
    obtain ⟨-, o', -, -, hsits, -⟩ := (h.seat q n (hlive.1 hq)).below hs
    obtain rfl := Option.some.inj (hsits.parent.symm.trans ho)
    have hread := hsits.holds
    rw [readSlot_eq _ _ hs] at hread
    exact (slotAt_of_content (hb.content o' (h.owned.owner_lt (hsits.owned h.owned))) _).trans hread
  exact ⟨hrefits.orderly h id (fun _ _ _ => id) fun n hq hnone => absurd (hlive.1 hq) (hnone ⟨0⟩),
    hrefits.lasts⟩

theorem run_edit {α : Type} {w : ArenaM α} {y : α} {a : Arena} (h : w t.arena = .ok y a) :
    TreeM.edit w t = .ok y { t with arena := a } := by
  unfold TreeM.edit
  dsimp only
  rw [h]

/-! ## nodes that are put in -/

theorem exists_shiftEntries (hf : t.Filed) (owner : Option NodeId) (list : String) (start : Nat)
    (move : Nat → Nat) (except : Option PathId) : ∃ paths,
      shiftEntries owner list start move except t = .ok ⟨⟩ { t with paths }
      ∧ Shifted owner (moved list start move) except t { t with paths } := by
  have hpaths (l : List PathId) (u : Tree) : ∃ paths, l.foldl (fun t p => if some p == except then t
      else t.updatePath p (moved list start move)) u = { u with paths } := by
    induction l generalizing u with
    | nil => exact ⟨u.paths, rfl⟩
    | cons p l ih =>
      rw [List.foldl_cons]
      split
      · exact ih u
      · exact ih (u.updatePath p (moved list start move))
  obtain ⟨paths, hrun⟩ := hpaths (t.cachedPaths owner) t
  have hshift : shiftEntries owner list start move except t = .ok ⟨⟩ { t with paths } :=
    congrArg (EStateM.Result.ok PUnit.unit) hrun
  exact ⟨paths, hshift, (ends_shiftEntries hf owner list start move except).of_ok hshift⟩

theorem moved_keeps (list : String) (start : Nat) (move : Nat → Nat) (d : PathData) :
    (moved list start move d).parentPath = d.parentPath
      ∧ (moved list start move d).control = d.control
      ∧ (moved list start move d).stale = d.stale := by
  unfold moved
  split
  · split <;> exact ⟨rfl, rfl, rfl⟩
  · exact ⟨rfl, rfl, rfl⟩

section Shifted

variable {start : Nat} {move : Nat → Nat} {except : Option PathId} {a : Arena}
  {paths : Array PathData}

theorem Shifted.keeps
    (hshift : Shifted (some m) (moved list start move) except { t with arena := a }
    { t with arena := a, paths }) (q : PathId) :
    (({ t with arena := a, paths } : Tree).path q).parentPath = t.parentPath q
      ∧ (({ t with arena := a, paths } : Tree).path q).control = (t.path q).control
      ∧ (({ t with arena := a, paths } : Tree).path q).stale = (t.path q).stale := by
  rw [hshift.path]
  split
  · exact moved_keeps ..
  · exact ⟨rfl, rfl, rfl⟩

theorem Orderly.slot_shifted (h : t.Orderly r)
    (hshift : Shifted (some m) (moved list start move) except
      { t with arena := a } { t with arena := a, paths }) (hq : t.Live q n) (hs : t.slot q ≠ .root)
    (ho : t.parentNode q = some o) (hne : some q ≠ except) :
    ({ t with arena := a, paths } : Tree).slot q = if o = m then (t.slot q).shift list start move
      else t.slot q := by
  obtain ⟨-, o', -, -, hsits, hmem⟩ := (h.seat q n hq).below hs
  obtain rfl : o' = o := Option.some.inj (hsits.parent.symm.trans ho)
  split
  · next hom =>
    subst hom
    exact hshift.slot_along hmem hne hq.used
  · next hom =>
    exact hshift.slot_same fun hin => absurd (Option.some.inj (h.filed.once _ _ q hmem hin)) hom

end Shifted

theorem Orderly.refits_inserted {xs : List NodeId} {a : Arena} {paths : Array PathData}
    (h : t.Orderly r) (hi : i ≤ items.length) (hxs : Loose r t.arena xs) (ha : a.WellOwned)
    (hwrite : Overwrites t.arena a m list (.list items)
      (.list (items.take i ++ xs.map some ++ items.drop i)))
    (hshift : Shifted (some m) (moved list i (· + xs.length)) none { t with arena := a }
      { t with arena := a, paths }) : Refits r (fun _ => False) p t
      { t with arena := a, paths } := by
  have hplace := hshift.place
  have hkeeps := hshift.keeps
  have hlive (q : PathId) (n : NodeId) (hq : ({ t with arena := a, paths } : Tree).Live q n) :
    t.Live q n :=
    ⟨(hplace q).1.symm.trans hq.node, (hplace q).2.2.1.symm.trans hq.used⟩
  refine ⟨ha, hwrite.size.ge, hwrite.unowned (fun hr => ?_) h.free, rfl, rfl, rfl, rfl,
    fun _ => rfl, rfl,
    hshift.size, rfl, rfl, fun q => ⟨(hkeeps q).1, (hplace q).2.1, (hplace q).2.2.2,
      congrArg Prod.fst (hkeeps q).2.1⟩, fun q n hn => .inl ((hplace q).1.symm.trans hn),
    fun q hq => (hplace q).2.2.1.trans hq, fun q hq _ =>
      (congrArg Prod.snd (hkeeps q).2.1).trans hq,
    fun q n hq _ => ⟨(hplace q).1.trans hq.node, (hplace q).2.2.1.trans hq.used⟩,
    fun q n hq => .inl ⟨hlive q n hq, id⟩, fun q n hq =>
      (hkeeps q).2.2.trans (h.seat q n (hlive q n hq)).fresh,
    fun q n o hq hs ho => ?_⟩
  · rw [mem_children_list] at hr
    have hrm : some r ∉ items := fun hr => by
      obtain ⟨k, -, hk, -, hv, -⟩ := hwrite.get?
      cases h.free.symm.trans (h.owned.owner_of_field hk hv (mem_children_list.2 hr))
    rcases List.mem_append.1 hr with hr | hr
    · rcases List.mem_append.1 hr with hr | hr
      · exact hrm (List.mem_of_mem_take hr)
      · obtain ⟨x, hx, hxr⟩ := List.mem_map.1 hr
        exact hxs.ne_root x hx (Option.some.inj hxr)
    · exact hrm (List.mem_of_mem_drop hr)
  · obtain ⟨-, o', -, -, hsits, -⟩ := (h.seat q n (hlive q n hq)).below hs
    obtain rfl : o' = o := Option.some.inj (hsits.parent.symm.trans ho)
    have hold := hsits.holds
    rw [readSlot_eq _ _ hs] at hold
    rw [h.slot_shifted hshift (hlive q n hq) hs ho (Option.some_ne_none q)]
    show a.slotAt _ _ = _
    by_cases hom : o' = m
    · subst hom
      rw [if_pos rfl]
      have hslot := (slotAt_inserted hi hwrite (t.slot q)).trans hold
      rwa [List.length_map] at hslot
    · rw [if_neg hom, slotAt_of_content (hwrite.content_ne hom)]
      exact hold

theorem run_queueEntries {F : Frame} {fs : List Frame} {ps : List PathId}
    (hoff : t.options.noScope = true) (hF : t.frames = F :: fs) (howner : F.owner = some m)
    (hkey : F.key = list) (hps : ∀ p ∈ ps, (t.path p).contexts = [] ∧ t.parentNode p = some m
      ∧ (t.slot p).key? = some list) :
    (ps.forM fun p => do
      registerSubtree p
      queueNewPath p true : TreeM Unit) t
      = .ok ⟨⟩ (Bridge.withBooks t (F.queueAll ps :: fs) t.nextContext t.depth) := by
  induction ps generalizing t F with
  | nil =>
    show EStateM.Result.ok _ t = _
    refine congrArg (EStateM.Result.ok _) ?_
    rw [Bridge.withBooks, Frame.queueAll, List.foldl_nil, ← hF]
  | cons p ps ih =>
    obtain ⟨hcontexts, hparent, hslot⟩ := hps p (List.mem_cons_self ..)
    have haround : t.frameAround? (t.path p) = some F := by
      rw [frameAround?_eq hslot, around?, hF, show (t.path p).parent = some m from hparent]
      simp [howner, hkey]
    have hqueue : queueNewPath p true t
        = .ok ⟨⟩ (Bridge.withBooks t (F.queue p true :: fs) t.nextContext t.depth) := by
      rw [queueNewPath_of_around true hcontexts haround, queueOn, Bridge.updateFrame_top hF rfl]
      rfl
    have hrest := ih (t := Bridge.withBooks t (F.queue p true :: fs) t.nextContext t.depth) hoff
      rfl howner hkey
      fun q hq => hps q (List.mem_cons_of_mem _ hq)
    rw [List.forM, run_bind_of_ok ((register_queue hoff p).trans hqueue), hrest]
    rfl

theorem Orderly.exists_inserted {xs : List NodeId} (h : t.Orderly r)
    (hm : ReflTransGen t.arena.OwnedBy m r) (hl : t.arena.Lists m list items)
    (hi : i ≤ items.length) (hxs : Loose r t.arena xs) :
    ∃ a t₁, listInsert (some m) list i (xs.map some) t.arena = .ok i a
      ∧ shiftEntries (some m) list i (· + (xs.map some).length) none { t with arena := a }
      = .ok ⟨⟩ t₁ ∧ t₁.Orderly r
      ∧ Lasts (fun _ => False) t t₁ ∧ (∀ q n, t₁.Live q n → t.Live q n) ∧ t₁.frames = t.frames
      ∧ Relists m list t.arena t₁.arena
      ∧ t₁.arena.Lists m list (items.take i ++ xs.map some ++ items.drop i)
      ∧ ∀ y, t.arena.parentOf (some y) = none → some y ∉ items.take i
      ++ xs.map some ++ items.drop i →
        t₁.arena.parentOf (some y) = none := by
  obtain ⟨a, hinsert, ha, hwrite⟩ := exists_listInsert h.arena h.free hm hxs hl hi
  obtain ⟨hrelists, -, hl'⟩ := Relists.of_overwrites ha hwrite
  obtain ⟨paths, hrun, hshift⟩ := exists_shiftEntries (t := { t with arena := a })
    (h.filed.edited hwrite.size.ge) (some m) list i (· + xs.length) none
  have hrefits := h.refits_inserted (p := ⟨0⟩) hi hxs ha hwrite hshift
  have hold (q : PathId) (n : NodeId) (hq : ({ t with arena := a, paths } : Tree).Live q n) :
    t.Live q n :=
    ⟨(hshift.place q).1.symm.trans hq.node, (hshift.place q).2.2.1.symm.trans hq.used⟩
  have horderly := hrefits.orderly h id (fun _ _ _ => id) fun n hn
    hnew => absurd (hold _ n hn) (hnew _)
  rw [List.length_map]
  exact ⟨a, _, hinsert, hrun, horderly, hrefits.lasts, hold, rfl, hrelists, hl', fun y hy hout =>
    hwrite.unowned (fun hmem => hout (mem_children_list.1 hmem)) hy⟩

/-- Nodes were put into a list, which holds `items` now. Their paths are queued with priority on the
frame that works on it. -/
structure Inserts (r m : NodeId) (list : String) (F : Frame) (fs : List Frame) (xs : List NodeId)
    (items : List (Option NodeId)) (ps : List PathId) (t t' : Tree) : Prop
    extends Lasts (fun _ => False) t t' where
  orderly : t'.Orderly r
  frames : t'.frames = F.queueAll ps :: fs
  found : List.Forall₂ t'.Live ps xs
  idle : ∀ p ∈ ps, (t'.path p).contexts = []
  unowned : ∀ y, t.arena.parentOf (some y) = none → some y ∉ items →
    t'.arena.parentOf (some y) = none
  relists : Relists m list t.arena t'.arena
  lists : t'.arena.Lists m list items

/-- **Nodes are put into a list.** -/
theorem Orderly.ends_insertEntries {xs : List NodeId} {F : Frame} {fs : List Frame}
    (h : t.Orderly r) (hq : t.Live q m) (hl : t.arena.Lists m list items) (hi : i ≤ items.length)
    (hxs : Loose r t.arena xs) (hF : t.frames = F :: fs) (howner : F.owner = some m)
    (hkey : F.key = list) :
    ∃ ps t', insertEntries q (some m) list i (xs.map some) t = .ok ps t'
      ∧ Inserts r m list F fs xs (items.take i ++ xs.map some ++ items.drop i) ps t t' := by
  obtain ⟨a, t₁, hinsert, hrun₁, h₁, hlasts₁, hold, hframes₁, hrelists, hl', hunowned⟩ :=
    h.exists_inserted (h.within hq) hl hi hxs
  -- the new entries are looked up
  have hplaces : List.Forall₂ (fun (k : Nat) x => Slot.entry list (i + k) ≠ .root
      ∧ t₁.arena.slotAt (some m) (.entry list (i + k))
      = some x) (List.range (xs.map some).length) xs := by
    rw [List.length_map, List.forall₂_iff_get]
    refine ⟨List.length_range, fun k hk hk' => ⟨nofun, ?_⟩⟩
    rw [hl'.slotAt_eq, List.get_eq_getElem, List.getElem_range, List.append_assoc,
      List.getElem?_append_right (by simp), List.getElem?_append_left (by simp; omega)]
    simp [Nat.min_eq_left hi, List.getElem?_eq_getElem hk']
  obtain ⟨ps, t₂, hrun₂, h₂, hlasts₂, hps, hopens, harena₂, hframes₂⟩ :=
    h₁.ends_children (hlasts₁.live q m hq id) hplaces
  have hnew : ∀ p ∈ ps, (t₂.path p).contexts = [] ∧ t₂.parentNode p = some m
      ∧ (t₂.slot p).key? = some list := by
    intro p hp
    obtain ⟨x, hx, hlive⟩ := forall₂_exists_of_mem_left hps hp
    obtain ⟨k, -, -, hslot⟩ := forall₂_exists_of_mem_right hplaces hx
    rw [← harena₂] at hslot
    have hxm : t₂.arena.OwnedBy x m := h₂.owned.owner_of_child m x (mem_children_of_slotAt hslot)
    obtain ⟨hs, hsits, -⟩ := h₂.sits hlive hxm
    have hholds := hsits.holds
    rw [readSlot_eq _ _ hs] at hholds
    refine ⟨(hopens p x hlive).resolve_left fun hlive₁ => ?_, hsits.parent, ?_⟩
    · -- no path held the node
      exact hxs.ne_root x hx (h.eq_of_unowned (hold p x hlive₁) (hxs.unowned x hx))
    · rw [h₂.owned.slot_unique hholds hslot]
      rfl
  have hoff : t₂.options.noScope = true := h₂.off
  have hqueue := run_queueEntries hoff (hframes₂.trans (hframes₁.trans hF)) howner hkey hnew
  have hlasts := (hlasts₁.trans hlasts₂ fun _ _ _ => id).withBooks (F.queueAll ps :: fs)
    (le_refl t₂.nextContext)
  refine ⟨ps, _, ?_, hlasts, h₂.withBooks _ le_rfl _, rfl, hps.imp fun p x hx => ⟨hx.node, hx.used⟩,
    fun p hp => (hnew p hp).1, harena₂ ▸ hunowned, harena₂ ▸ hrelists, harena₂ ▸ hl'⟩
  unfold insertEntries
  rw [run_bind_of_ok (run_edit hinsert), run_bind_of_ok hrun₁, run_bind_of_ok hrun₂,
    run_bind_of_ok hqueue]
  rfl

section Entry

variable {F : Frame} {fs : List Frame} (h : t.Orderly r) (hp : t.Live p o)
  (hl : t.arena.Lists m list items) (hi : items[i]? = some (some o))

include h hp hl hi

theorem Orderly.entry : t.slot p = .entry list i ∧ t.parentNode p = some m
    ∧ p ∈ t.cachedPaths (some m) ∧ ∃ q, t.parentPath p = some q ∧ t.Live q m := by
  have hslot : t.arena.slotAt (some m) (.entry list i) = some o := by rw [hl.slotAt_eq, hi]; rfl
  have hom : t.arena.OwnedBy o m := hl.owned h.owned (List.mem_of_getElem? hi)
  obtain ⟨hs, hsits, hmem, hq⟩ := h.sits hp hom
  have hholds := hsits.holds
  rw [readSlot_eq _ _ hs] at hholds
  exact ⟨h.owned.slot_unique hholds hslot, hsits.parent, hmem, hq⟩

/-- **Nodes are inserted before and after an entry.** -/
theorem Orderly.ends_insert {xs : List NodeId} (hxs : Loose r t.arena xs) (hF : t.frames = F :: fs)
    (howner : F.owner = some m) (hkey : F.key = list)
    (hexpr : t.arena.isA (some o) .expression = false)
    (hwrap : t.arena.is (some m) .expressionStatement = false
      ∧ t.arena.is (some m) .labeledStatement = false) :
    (∃ ps t', insertBefore p (xs.map some) t = .ok ps t'
        ∧ Inserts r m list F fs xs (items.take i ++ xs.map some ++ items.drop i) ps t t')
      ∧ ∃ ps t', insertAfter p (xs.map some) t = .ok ps t'
        ∧ Inserts r m list F fs xs (items.take (i + 1) ++ xs.map some ++ items.drop (i + 1))
        ps t t' := by
  obtain ⟨hslot, hparent, -, q, hq, hlive⟩ := h.entry hp hl hi
  have hlt : i < items.length := (List.getElem?_eq_some_iff.1 hi).1
  have hassert := h.assertLive_eq hp
  cases xs with
  | nil =>
    -- nothing is put in
    have hnil (here : PathId → List (Option NodeId) → TreeM (List PathId)) :
        insertWith here p [] t = .ok [] t := by
      unfold insertWith
      rw [run_bind_of_ok hassert]
      rfl
    have hsame (j : Nat) : Inserts r m list F fs [] (items.take j ++ ([] : List NodeId).map some
        ++ items.drop j) [] t t := by
      rw [List.map_nil, List.append_nil, List.take_append_drop]
      exact ⟨.refl _ t, h, hF, .nil, nofun, fun y hy _ => hy, .refl h.arena, hl⟩
    exact ⟨⟨[], t, hnil _, hsame i⟩, [], t, hnil _, hsame (i + 1)⟩
  | cons x xs =>
    have hnone : t.statementWrapper? p = none := by
      unfold statementWrapper?
      rw [hq]
      simp [nodeIs, hlive.node, hwrap.1, hwrap.2]
    have hrun (here : PathId → List (Option NodeId) → TreeM (List PathId)) :
        insertWith here p ((x :: xs).map some) t = here p ((x :: xs).map some) t :=
      run_insertWith hassert hassert hnone (by simp)
    have hexpr : t.nodeIsA p .expression = false := by
      unfold nodeIsA
      rwa [hp.node]
    have hbeside (j : Nat) : insertBeside p list j ((x :: xs).map some) t
        = insertEntries q (some m) list j ((x :: xs).map some) t := by
      unfold insertBeside
      rw [run_get_bind, hq, hparent]
    unfold insertBefore insertAfter
    rw [hrun, hrun]
    unfold insertBeforeHere insertAfterHere
    rw [run_get_bind, run_get_bind]
    simp only [hexpr, Bool.false_eq_true, if_false, hslot, hbeside]
    exact ⟨h.ends_insertEntries hlive hl hlt.le hxs hF howner hkey,
      h.ends_insertEntries hlive hl hlt hxs hF howner hkey⟩

end Entry

end ScopedTree.Tree
