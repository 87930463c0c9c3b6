import ScopedTree.Proofs.Path.Ground

/-!
# Trails

However a tree was edited, the paths that a pass looks up from the root on lead back to it. Other
paths may be stale, or gone, or stand wherever they were left: a pass does not come by them.

* `Tree.Trail`         a path that leads up to the path of the root;
* `Tree.Walkable`      a tree whose path of the root, if there is one, is in use;
* `Tree.Roams`         trails may come up, and none is lost;
* `Ground.trail`       passes walk on trails.
-/

namespace ScopedTree

namespace Tree

open Arena

/-- The path of the node `n` leads up to the path of the root, by way of paths in use that stand
where their nodes do. -/
inductive Trail (t : Tree) (r : NodeId) : PathId → NodeId → List NodeId → Prop
  | root {p} (h : t.rootPath = some p)
      (hpos : (t.path p).position = (some r, none, none, .root, false, false)) : Trail t r p r []
  | child {p q n m above slot} (h : Trail t r q m above)
      (hpos : (t.path p).position = (some n, some q, some m, slot, false, false))
      (hs : slot ≠ .root) (hread : t.readSlot (some m) slot = some n) : Trail t r p n (m :: above)

/-- The path of the root, if there is one, is in use, and all paths that are listed below nodes are
known. -/
structure Walkable (t : Tree) (r : NodeId) : Prop where
  arena : t.arena.WellOwned
  root : t.root = some r
  present : (t.arena.get? r).isSome
  crown : ∀ p, t.rootPath = some p → t.Trail r p r []
  listed : ∀ m p, p ∈ t.cachedPaths (some m) → p.index < t.paths.size ∧ t.slot p ≠ .root

/-- Trails may come up, and none is lost. -/
structure Roams (r : NodeId) (t t' : Tree) : Prop where
  arena : t'.arena = t.arena
  options : t'.options = t.options
  size : t.paths.size ≤ t'.paths.size
  node : ∀ p, p.index < t.paths.size → t'.node p = t.node p
  trail : ∀ p n above, t.Trail r p n above → t'.Trail r p n above

variable {t t' t'' : Tree} {r n m : NodeId} {p q : PathId} {above : List NodeId} {slot : Slot}

theorem Roams.trans (h : Roams r t t') (h' : Roams r t' t'') : Roams r t t'' where
  arena := h'.arena.trans h.arena
  options := h'.options.trans h.options
  size := h.size.trans h'.size
  node p hp := (h'.node p (hp.trans_le h.size)).trans (h.node p hp)
  trail p n above hp := h'.trail p n above (h.trail p n above hp)

/-! ## what a trail says -/

namespace Trail

theorem node (h : t.Trail r p n above) : t.node p = some n := by
  cases h with
  | root _ hpos => exact congrArg (·.1) hpos
  | child _ hpos => exact congrArg (·.1) hpos

theorem lt (h : t.Trail r p n above) : p.index < t.paths.size := lt_of_node h.node

theorem under (h : t.Trail r p n above) : t.arena.Under r n above := by
  induction h with
  | root => exact .root
  | child _ _ hs hread ih => exact ih.child (mem_children_of_readSlot hs hread)

theorem inUse (h : t.Trail r p n above) :
    (t.path p).removed = false ∧ (t.path p).stale = false := by
  cases h with
  | root _ hpos => exact ⟨congrArg (·.2.2.2.2.1) hpos, congrArg (·.2.2.2.2.2) hpos⟩
  | child _ hpos => exact ⟨congrArg (·.2.2.2.2.1) hpos, congrArg (·.2.2.2.2.2) hpos⟩

theorem top (h : t.Trail r p n []) : t.parentPath p = none ∧ t.parentNode p = none := by
  cases h with
  | root _ hpos => exact ⟨congrArg (·.2.1) hpos, congrArg (·.2.2.1) hpos⟩

theorem parent (h : t.Trail r p n (m :: above)) :
    ∃ q, t.parentPath p = some q ∧ t.parentNode p = some m ∧ t.Trail r q m above := by
  cases h with
  | child h hpos => exact ⟨_, congrArg (·.2.1) hpos, congrArg (·.2.2.1) hpos, h⟩

theorem resync (ha : t.arena.Owned) (h : t.Trail r p n above) : Tree.resync p t = .ok () t := by
  have huse := h.inUse
  cases h with
  | root _ hpos => exact resync_of_root (congrArg (·.2.2.2.1) hpos)
  | child h hpos hs hread =>
    have hslot : t.slot p = _ := congrArg (·.2.2.2.1) hpos
    exact resync_of_inLine (congrArg (·.2.1) hpos) h.node (congrArg (·.2.2.1) hpos)
      (hslot.trans_ne hs) (congrArg (·.1) hpos) (by rw [hslot, hread])
      (ha.owner_of_child _ _ (mem_children_of_readSlot hs hread)) huse

theorem same (hsame : t.SamePlaces t') (h : t.Trail r p n above) : t'.Trail r p n above := by
  induction h with
  | root h hpos => exact .root (hsame.rootPath.trans h) ((hsame.position _).trans hpos)
  | child _ hpos hs hread ih =>
    exact .child ih ((hsame.position _).trans hpos) hs ((hsame.readSlot _ _).trans hread)

theorem pushes {d : PathData} (hpush : t.Pushes t' d) (h : t.Trail r p n above) :
    t'.Trail r p n above := by
  have hold {p : PathId} {y} (hpos : (t.path p).position = y) (hlt : p.index < t.paths.size) :
      (t'.path p).position = y := (congrArg PathData.position (hpush.path_old hlt)).trans hpos
  induction h with
  | root h hpos =>
    exact .root ((hpush.rootPath _).2 (.inl h)) (hold hpos (lt_of_node (congrArg (·.1) hpos)))
  | child _ hpos hs hread ih =>
    exact .child ih (hold hpos (lt_of_node (congrArg (·.1) hpos))) hs
      ((hpush.readSlot _ _).trans hread)

theorem pushes_new {d : PathData} (hpush : t.Pushes t' d) (hq : t.Trail r q m above)
    (hpos : d.position = (some n, some q, some m, slot, false, false)) (hs : slot ≠ .root)
    (hread : t.readSlot (some m) slot = some n) : t'.Trail r ⟨t.paths.size⟩ n (m :: above) :=
  .child (hq.pushes hpush) ((congrArg PathData.position hpush.path_new).trans hpos) hs
    ((hpush.readSlot _ _).trans hread)

/-- A path that was found for a place is told where it stands. No trail is lost: a node has one
owner. -/
theorem refresh (ha : t.arena.Owned) {f : PathData → PathData} (hq : t.Trail r q m above)
    (hp : t.slot p ≠ .root)
    (hf : (f (t.path p)).position = (t.node p, some q, some m, slot, false, false))
    (hs : slot ≠ .root) (hread : t.readSlot (some m) slot = t.node p) :
    ∀ (above' : List NodeId) (p' : PathId) (n' : NodeId), t.Trail r p' n' above' →
      (t.updatePath p f).Trail r p' n' above' := by
  intro above'
  induction above' with
  | nil =>
    intro p' n' h
    cases h with
    | root h hpos =>
      have hne : p' ≠ p := fun hpp => hp (hpp ▸ congrArg (·.2.2.2.1) hpos)
      exact .root h ((congrArg PathData.position (path_updatePath_ne _ _ hne)).trans hpos)
  | cons m' above' ih =>
    intro p' n' h
    have hnode := h.node
    have hlt := h.lt
    cases h with
    | child h hpos hs' hread' =>
      by_cases hpp : p' = p
      · subst hpp
        rw [hnode] at hf hread
        obtain rfl : m' = m :=
          (ha.owner_of_child m' n' (mem_children_of_readSlot hs' hread')).unique
          (ha.owner_of_child m n' (mem_children_of_readSlot hs hread))
        obtain rfl := h.under.unique ha hq.under
        exact .child (ih q m' hq)
          ((congrArg PathData.position (path_updatePath_self _ _ hlt)).trans hf) hs hread
      · exact .child (ih _ _ h)
          ((congrArg PathData.position (path_updatePath_ne _ _ hpp)).trans hpos) hs' hread'

end Trail

/-! ## looking up paths -/

namespace Walkable

theorem same (hsame : t.SamePlaces t') (ht : t.Walkable r) : t'.Walkable r where
  arena := by
    rw [hsame.arena]
    exact ht.arena
  root := hsame.root.trans ht.root
  present := by
    rw [hsame.arena]
    exact ht.present
  crown p hp := (ht.crown p (hsame.rootPath.symm.trans hp)).same hsame
  listed m p hp := by
    rw [hsame.cachedPaths] at hp
    rw [hsame.size, hsame.slot]
    exact ht.listed m p hp

theorem roams_same (hsame : t.SamePlaces t') : Roams r t t' :=
  ⟨hsame.arena, hsame.options, hsame.size.ge, fun p _ => hsame.node p, fun _ _ _ h => h.same hsame⟩

theorem roams_pushes {d : PathData} (hpush : t.Pushes t' d) : Roams r t t' :=
  ⟨hpush.arena, hpush.options, hpush.grows.size, hpush.grows.node, fun _ _ _ h => h.pushes hpush⟩

theorem pushes {d : PathData} (hpush : t.Pushes t' d) (ht : t.Walkable r)
    (hroot : d.parentPath = none → t'.Trail r ⟨t.paths.size⟩ r [])
    (hlist : ∀ m, d.parent = some m → d.slot ≠ .root) : t'.Walkable r where
  arena := by
    rw [hpush.arena]
    exact ht.arena
  root := hpush.root.trans ht.root
  present := by
    rw [hpush.arena]
    exact ht.present
  crown p hp := by
    rcases (hpush.rootPath p).1 hp with hp | ⟨rfl, hd⟩
    · exact (ht.crown p hp).pushes hpush
    · exact hroot hd
  listed m p hp := by
    rcases (hpush.cached m p).1 hp with hp | ⟨rfl, hd⟩
    · obtain ⟨hlt, hs⟩ := ht.listed m p hp
      exact ⟨hlt.trans_le hpush.grows.size,
        (congrArg PathData.slot (hpush.path_old hlt)).trans_ne hs⟩
    · exact ⟨hpush.size.symm ▸ Nat.lt_succ_self _,
        (congrArg PathData.slot hpush.path_new).trans_ne (hlist m hd)⟩

theorem ends_root (ht : t.Walkable r) : Ends (getRootPath t)
    (fun p t' => LooksUp (Walkable · r) (Roams r) t t' ∧ t'.Trail r p r []) fun _ _ => False := by
  obtain ⟨p, hrp, hrun⟩ | ⟨-, t', hrun, hpush⟩ := getRootPath_find t <;> rw [hrun]
  · exact ⟨⟨ht, roams_same ⟨rfl, rfl, rfl, rfl, rfl, rfl, fun _ => rfl⟩, .refl t, .refl t⟩,
      ht.crown p hrp⟩
  · have htop := Trail.root (r := r) ((hpush.rootPath ⟨t.paths.size⟩).2 (.inr ⟨rfl, rfl⟩))
      (by rw [hpush.path_new, ht.root]; rfl)
    exact ⟨⟨ht.pushes hpush (fun _ => htop) nofun, roams_pushes hpush,
      ⟨hpush.scopes, hpush.scopeOfNode, hpush.bindings, hpush.path_congr PathData.scope rfl⟩,
      ⟨hpush.frames, hpush.depth, hpush.nextContext, hpush.path_congr PathData.control rfl⟩⟩, htop⟩

theorem ends_child (ht : t.Walkable r) (hq : t.Trail r q m above) (hs : slot ≠ .root) :
    Ends (getOrCreatePath (some q) (some m) slot t)
      (fun p t' => LooksUp (Walkable · r) (Roams r) t t' ∧ p.index < t'.paths.size
        ∧ t'.node p = t.readSlot (some m) slot
        ∧ ∀ n, t.readSlot (some m) slot = some n → t'.Trail r p n (m :: above))
      fun _ _ => False := by
  obtain ⟨p, hf, hrun⟩ | ⟨-, t', hrun, hpush⟩ := getOrCreatePath_find t q (some m) slot <;>
    rw [hrun]
  · obtain ⟨hp, hps⟩ := ht.listed m p (List.mem_of_find?_eq_some hf)
    obtain ⟨hremoved, hnode⟩ : (t.path p).removed = false
        ∧ t.node p = t.readSlot (some m) slot := by
      have hserves := List.find?_some hf
      unfold servesSlot at hserves
      unfold Tree.node
      cases hr : t.readSlot (some m) slot <;> simp_all
    let f : PathData → PathData := fun d =>
      { d with
        parentPath := some q, parent := some m, slot, node := t.readSlot (some m) slot
        stale := false }
    have hf : (f (t.path p)).position = (t.node p, some q, some m, slot, false, false) := by
      simp [f, PathData.position, hremoved, hnode]
    have htrail := Trail.refresh (r := r) ht.arena.owned hq hps hf hs hnode.symm
    have hself := path_updatePath_self t f hp
    have hnode' : (t.updatePath p f).node p = t.readSlot (some m) slot :=
      congrArg PathData.node hself
    refine ⟨⟨⟨ht.arena, ht.root, ht.present, fun p' hp' => htrail _ _ _ (ht.crown p' hp'),
      fun m' p' hp' => ?_⟩, ⟨rfl, rfl, (t.size_updatePath p f).ge, fun p' _ => ?_,
        fun p' n' above' => htrail above' p' n'⟩, t.sameNames_updatePath p f fun _ => rfl,
      t.sameControl_updatePath p f fun _ => rfl⟩, (t.size_updatePath p f).symm ▸ hp, hnode',
      fun n hn => ?_⟩
    · obtain ⟨hlt, hs'⟩ := ht.listed m' p' hp'
      refine ⟨(t.size_updatePath p f).symm ▸ hlt, ?_⟩
      by_cases hpp : p' = p
      · rw [hpp]
        exact (congrArg PathData.slot hself).trans_ne hs
      · exact (congrArg PathData.slot (path_updatePath_ne t f hpp)).trans_ne hs'
    · by_cases hpp : p' = p
      · rw [hpp, hnode', hnode]
      · exact congrArg PathData.node (path_updatePath_ne t f hpp)
    · rw [hnode, hn] at hf
      exact .child (htrail _ _ _ hq) ((congrArg PathData.position hself).trans hf) hs hn
  · refine ⟨⟨ht.pushes hpush nofun fun _ _ => hs, roams_pushes hpush,
      ⟨hpush.scopes, hpush.scopeOfNode, hpush.bindings, hpush.path_congr PathData.scope rfl⟩,
      ⟨hpush.frames, hpush.depth, hpush.nextContext, hpush.path_congr PathData.control rfl⟩⟩,
      hpush.size.symm ▸ Nat.lt_succ_self _, congrArg PathData.node hpush.path_new,
      fun n hn => hq.pushes_new hpush ?_ hs hn⟩
    rw [hn]
    rfl

end Walkable

/-! ## coherent trees -/

/-- In a coherent tree the path of a place is on a trail. -/
theorem Coherent.trail (ht : t.Coherent r) : ∀ {above : List NodeId} {p : PathId} {n : NodeId},
    t.Place r p n above → t.Trail r p n above
  | [], p, n, h => by
    obtain ⟨hroot, hslot, hparent, hnode⟩ := ht.root_of_parentPath h.lt (ht.top h).1
    obtain rfl := under_nil.1 h.under
    refine .root hroot ?_
    show (t.node p, t.parentPath p, t.parentNode p, t.slot p, (t.path p).removed,
      (t.path p).stale) = _
    rw [hnode, (ht.top h).1, hparent, hslot, (ht.inUse p).1, (ht.inUse p).2]
  | m :: above, p, n, h => by
    obtain ⟨q, hq, _, hpm, hqp⟩ := ht.parent h
    have ha := ht.anchored p h.lt
    unfold Anchored at ha
    rw [show (t.path p).parentPath = some q from hq] at ha
    obtain ⟨_, hslot, _, _, hread⟩ := ha
    refine .child (ht.trail hqp) ?_ hslot (by rw [← hpm, hread, h.node])
    show (t.node p, t.parentPath p, t.parentNode p, t.slot p, (t.path p).removed,
      (t.path p).stale) = _
    rw [h.node, hq, hpm, (ht.inUse p).1, (ht.inUse p).2]

theorem Coherent.walkable (ht : t.Coherent r) : t.Walkable r where
  arena := ht.arena
  root := ht.root
  present := ht.present
  crown p hp := by
    obtain ⟨hlt, hq⟩ := ht.rootPath p hp
    exact ht.trail ⟨(ht.root_of_parentPath hlt hq).2.2.2, .root⟩
  listed m p hp := by
    obtain ⟨hlt, hpm⟩ := ht.cached m p hp
    refine ⟨hlt, fun hs => ?_⟩
    have ha := ht.anchored p hlt
    unfold Anchored at ha
    cases hq : (t.path p).parentPath with
    | none =>
      simp only [hq] at ha
      cases hpm.symm.trans ha.2.2.1
    | some q =>
      simp only [hq] at ha
      exact ha.2.1 hs

end Tree

open ScopedTree.Tree in
/-- Passes walk on trails. -/
def Ground.trail (r : NodeId) : Ground r where
  Firm t := t.Walkable r
  Place t := t.Trail r
  Grows := Roams r
  arena ht := ht.arena
  present ht := ht.present
  node hp := hp.node
  under hp := hp.under
  inUse _ hp := hp.inUse
  resync ht hp := hp.resync ht.arena.owned
  top _ hp := hp.top
  parent _ hp := hp.parent
  refl _ := Walkable.roams_same ⟨rfl, rfl, rfl, rfl, rfl, rfl, fun _ => rfl⟩
  trans := Roams.trans
  sameArena hg := hg.arena
  sameOptions hg := hg.options
  size hg := hg.size
  sameNode hg hp := hg.node _ hp
  place hg := hg.trail _ _ _
  firm_of_same h ht := ht.same h
  grows_of_same := Walkable.roams_same
  ends_root ht := ht.ends_root
  ends_child ht := ht.ends_child

end ScopedTree
