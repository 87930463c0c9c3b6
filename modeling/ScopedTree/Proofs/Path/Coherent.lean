import ScopedTree.Path.Basic
import ScopedTree.Proofs.Arena.Place
import ScopedTree.Proofs.Outcome

/-!
# Coherent trees

While nothing is edited, every path keeps standing for its place, and a place has one path.

* `Tree.Coherent`             the paths of a tree agree with its arena;
* `Tree.Place`                a path of a node and the nodes above it;
* `Tree.Grows`                more paths are known and the old ones stand where they stood;
* `Tree.SameNames`, `Tree.SameControl`   scopes and bindings, passes under way are left alone;
* `Tree.resync_eq`            a coherent path is in line with the tree;
* `Tree.ends_getOrCreatePath`   the path of a place below a path.
-/

namespace ScopedTree

def PathData.position (d : PathData) :
    Option NodeId × Option PathId × Option NodeId × Slot × Bool × Bool :=
  (d.node, d.parentPath, d.parent, d.slot, d.removed, d.stale)

def PathData.control (d : PathData) : List ContextId × Bool × Bool × List String :=
  (d.contexts, d.shouldSkip, d.shouldStop, d.skipKeys)

namespace Tree

open Arena

/-! ## reading and writing paths -/

section Table

variable (t : Tree) (p q : PathId) (f : PathData → PathData)

theorem path_updatePath :
    (t.updatePath p f).path q
      = if q = p ∧ p.index < t.paths.size then f (t.path p) else t.path q := by
  show (t.paths.modify p.index f)[q.index]?.getD {} = _
  rw [Array.getElem?_modify]
  by_cases h : q = p
  · subst h
    by_cases hp : q.index < t.paths.size
    · simp [hp, path]
    · simp [hp, path]
  · have hi : p.index ≠ q.index := fun hi => h (by cases p; cases q; simp_all)
    rw [if_neg hi, if_neg fun hq => h hq.1]
    rfl

theorem path_updatePath_ne {p q : PathId} (h : q ≠ p) : (t.updatePath p f).path q = t.path q := by
  rw [path_updatePath, if_neg fun hq => h hq.1]

theorem path_updatePath_self {p : PathId} (h : p.index < t.paths.size) :
    (t.updatePath p f).path p = f (t.path p) := by
  rw [path_updatePath, if_pos ⟨rfl, h⟩]

/-- What an update of a path does not change in any record, it does not change. -/
theorem path_updatePath_congr {α : Type} (g : PathData → α) (h : ∀ d, g (f d) = g d) :
    g ((t.updatePath p f).path q) = g (t.path q) := by
  rw [path_updatePath]
  split
  · next hq => rw [h, hq.1]
  · rfl

@[simp] theorem size_updatePath : (t.updatePath p f).paths.size = t.paths.size :=
  Array.size_modify

@[simp] theorem arena_updatePath : (t.updatePath p f).arena = t.arena := rfl
@[simp] theorem root_updatePath : (t.updatePath p f).root = t.root := rfl
@[simp] theorem rootPath_updatePath : (t.updatePath p f).rootPath = t.rootPath := rfl
@[simp] theorem options_updatePath : (t.updatePath p f).options = t.options := rfl
@[simp] theorem scopes_updatePath : (t.updatePath p f).scopes = t.scopes := rfl
@[simp] theorem scopeOfNode_updatePath : (t.updatePath p f).scopeOfNode = t.scopeOfNode := rfl
@[simp] theorem bindings_updatePath : (t.updatePath p f).bindings = t.bindings := rfl
@[simp] theorem frames_updatePath : (t.updatePath p f).frames = t.frames := rfl
@[simp] theorem depth_updatePath : (t.updatePath p f).depth = t.depth := rfl
@[simp] theorem nextContext_updatePath : (t.updatePath p f).nextContext = t.nextContext := rfl
@[simp] theorem cachedPaths_updatePath (m : Option NodeId) :
    (t.updatePath p f).cachedPaths m = t.cachedPaths m := rfl
@[simp] theorem readSlot_updatePath (m : Option NodeId) (slot : Slot) :
    (t.updatePath p f).readSlot m slot = t.readSlot m slot := rfl

theorem updatePath_congr {p : PathId} {f g : PathData → PathData}
    (h : f (t.path p) = g (t.path p)) :
    t.updatePath p f = t.updatePath p g := by
  have hpaths : t.paths.modify p.index f = t.paths.modify p.index g := by
    refine Array.ext_getElem? fun i => ?_
    rw [Array.getElem?_modify, Array.getElem?_modify]
    split
    · next hi =>
      subst hi
      cases hp : t.paths[p.index]? with
      | none => rfl
      | some d =>
        have hd : t.path p = d := by simp [path, hp]
        rw [hd] at h
        rw [Option.map_some, Option.map_some, h]
    · rfl
  unfold updatePath
  rw [hpaths]

theorem updatePath_eq_self {p : PathId} (h : f (t.path p) = t.path p) : t.updatePath p f = t := by
  have hid : t.paths.modify p.index id = t.paths := by
    refine Array.ext_getElem? fun i => ?_
    rw [Array.getElem?_modify]
    split
    · exact Option.map_id_apply ..
    · rfl
  rw [t.updatePath_congr (g := id) h]
  unfold updatePath
  rw [hid]

theorem path_of_size_le {t : Tree} {p : PathId} (h : t.paths.size ≤ p.index) : t.path p = {} := by
  unfold path
  rw [Array.getElem?_eq_none h]
  rfl

end Table

/-! ## coherence -/

/-- A path stands for the place of its node: at the root, or below an earlier path. -/
def Anchored (t : Tree) (p : PathId) : Prop :=
  match (t.path p).parentPath with
  | none => t.rootPath = some p ∧ t.slot p = .root ∧ t.parentNode p = none ∧ t.node p = t.root
  | some q =>
    q.index < p.index ∧ t.slot p ≠ .root ∧ p ∈ t.cachedPaths (t.parentNode p)
      ∧ (∃ m, t.node q = some m ∧ t.parentNode p = some m)
      ∧ t.readSlot (t.parentNode p) (t.slot p) = t.node p

/-- The paths of a tree agree with its arena, and no node has two paths. -/
structure Coherent (t : Tree) (r : NodeId) : Prop where
  arena : t.arena.WellOwned
  root : t.root = some r
  present : (t.arena.get? r).isSome
  rootPath : ∀ p, t.rootPath = some p → p.index < t.paths.size ∧ t.parentPath p = none
  inUse : ∀ p, (t.path p).removed = false ∧ (t.path p).stale = false
  anchored : ∀ p, p.index < t.paths.size → t.Anchored p
  cached : ∀ m p, p ∈ t.cachedPaths (some m) → p.index < t.paths.size ∧ t.parentNode p = some m
  unique : ∀ p q n, t.node p = some n → t.node q = some n → p = q

/-- The path of a node, and the nodes above. -/
structure Place (t : Tree) (r : NodeId) (p : PathId) (n : NodeId) (above : List NodeId) : Prop where
  node : t.node p = some n
  under : t.arena.Under r n above

variable {t t' t'' : Tree} {r n m : NodeId} {p q : PathId} {above : List NodeId}

theorem lt_of_node (h : t.node p = some n) : p.index < t.paths.size := by
  by_contra hp
  simp [node, path_of_size_le (Nat.le_of_not_lt hp)] at h

theorem mem_children_of_value? {o : Node} {field : String} {v : Value}
    (h : o.value? field = some v) (hn : n ∈ v.children) : n ∈ o.children := by
  have hpos := List.count_pos_iff.2 hn
  have hle := o.count_children_le h n
  exact List.count_pos_iff.1 (by omega)

theorem mem_children_of_readSlot {slot : Slot} (hs : slot ≠ .root)
    (h : t.readSlot (some m) slot = some n) : n ∈ t.arena.children (some m) := by
  cases hm : t.arena.get? m with
  | none =>
    cases slot <;> simp_all [readSlot, child?, items]
  | some o =>
    rw [children_some, hm]
    show n ∈ o.children
    cases slot with
    | root => exact absurd rfl hs
    | field name =>
      have hc : o.child? name = some n := by simpa [readSlot, child?, hm] using h
      unfold Node.child? at hc
      cases hv : o.value? name with
      | none => simp [hv] at hc
      | some v =>
        cases v with
        | node c =>
          obtain rfl : c = some n := by simpa [hv] using hc
          exact mem_children_of_value? hv (by simp [Value.children, Value.handles])
        | _ => simp [hv] at hc
    | entry name i =>
      have hc : (o.items name)[i]?.join = some n := by
        simpa [readSlot, Arena.items, hm] using h
      unfold Node.items at hc
      cases hv : o.value? name with
      | none => simp [hv] at hc
      | some v =>
        cases v with
        | list l =>
          have hi : l[i]? = some (some n) := by
            rw [hv] at hc
            exact Option.join_eq_some_iff.1 hc
          refine mem_children_of_value? hv ?_
          simpa [Value.children, Value.handles] using List.mem_of_getElem? hi
        | _ => simp [hv] at hc

theorem Coherent.parent_of_parentPath (ht : t.Coherent r) (hp : p.index < t.paths.size)
    (hq : t.parentPath p = some q) :
    q.index < p.index ∧ ∃ m, t.node q = some m ∧ t.parentNode p = some m
      ∧ ∀ n, t.node p = some n → n ∈ t.arena.children (some m) := by
  have h := ht.anchored p hp
  unfold Anchored at h
  rw [show (t.path p).parentPath = some q from hq] at h
  obtain ⟨hlt, hs, _, ⟨m, hqm, hpm⟩, hread⟩ := h
  refine ⟨hlt, m, hqm, hpm, fun n hn => ?_⟩
  rw [hpm, hn] at hread
  exact mem_children_of_readSlot hs hread

theorem Coherent.root_of_parentPath (ht : t.Coherent r) (hp : p.index < t.paths.size)
    (hq : t.parentPath p = none) :
    t.rootPath = some p ∧ t.slot p = .root ∧ t.parentNode p = none ∧ t.node p = some r := by
  have h := ht.anchored p hp
  unfold Anchored at h
  rw [show (t.path p).parentPath = none from hq] at h
  rw [← ht.root]
  exact h

theorem Coherent.place (ht : t.Coherent r) : ∀ (i : Nat) (p : PathId), p.index = i → ∀ n,
    t.node p = some n → ∃ above, t.Place r p n above := by
  intro i
  induction i using Nat.strongRecOn with
  | ind i ih =>
    rintro p rfl n hn
    have hp := lt_of_node hn
    cases hq : t.parentPath p with
    | none =>
      obtain ⟨_, _, _, hr⟩ := ht.root_of_parentPath hp hq
      obtain rfl := Option.some.inj (hn.symm.trans hr)
      exact ⟨[], hn, .root⟩
    | some q =>
      obtain ⟨hlt, m, hm, _, hc⟩ := ht.parent_of_parentPath hp hq
      obtain ⟨above, hpl⟩ := ih q.index hlt q rfl m hm
      exact ⟨m :: above, hn, .child hpl.under (hc n hn)⟩

theorem Coherent.exists_place (ht : t.Coherent r) (hn : t.node p = some n) :
    ∃ above, t.Place r p n above := ht.place p.index p rfl n hn

theorem Coherent.parent (ht : t.Coherent r) (h : t.Place r p n (m :: above)) :
    ∃ q, t.parentPath p = some q ∧ q.index < p.index ∧ t.parentNode p = some m
      ∧ t.Place r q m above := by
  have hp := lt_of_node h.node
  obtain ⟨hm, hc⟩ := under_cons.1 h.under
  cases hq : t.parentPath p with
  | none =>
    obtain ⟨_, _, _, hr⟩ := ht.root_of_parentPath hp hq
    obtain rfl := Option.some.inj (h.node.symm.trans hr)
    cases h.under.root_above ht.arena.owned
  | some q =>
    obtain ⟨hlt, m', hm', hpm, hc'⟩ := ht.parent_of_parentPath hp hq
    have howned := ht.arena.owned
    obtain rfl : m' = m :=
      (howned.owner_of_child m' n (hc' n h.node)).unique (howned.owner_of_child m n hc)
    exact ⟨q, rfl, hlt, hpm, hm', hm⟩

theorem Coherent.top (ht : t.Coherent r) (h : t.Place r p n []) :
    t.parentPath p = none ∧ t.parentNode p = none := by
  have hp := lt_of_node h.node
  obtain rfl := under_nil.1 h.under
  cases hq : t.parentPath p with
  | none => exact ⟨rfl, (ht.root_of_parentPath hp hq).2.2.1⟩
  | some q =>
    obtain ⟨_, m, hm, _, hc⟩ := ht.parent_of_parentPath hp hq
    obtain ⟨above, hpl⟩ := ht.exists_place hm
    cases (Under.child hpl.under (hc n h.node)).root_above ht.arena.owned

theorem Coherent.parentNode (ht : t.Coherent r) (h : t.Place r p n above) :
    t.parentNode p = above.head? := by
  cases above with
  | nil => exact (ht.top h).2
  | cons m above =>
    obtain ⟨_, _, _, hm, _⟩ := ht.parent h
    exact hm

theorem coherent_ofArena {a : Arena} (ha : a.WellOwned) (hr : (a.get? r).isSome)
    (options : Options) : (ofArena a (some r) options).Coherent r where
  arena := ha
  root := rfl
  present := hr
  rootPath p h := by simp [ofArena] at h
  inUse p := by simp [path, ofArena]
  anchored p h := absurd h (Nat.not_lt_zero _)
  cached m p h := by simp [cachedPaths, ofArena] at h
  unique p q n h := absurd (lt_of_node h) (Nat.not_lt_zero _)

/-! ## what grows and what is left alone -/

/-- More paths are known; the old ones stand where they stood and nothing was edited. -/
structure Grows (t t' : Tree) : Prop where
  arena : t'.arena = t.arena
  root : t'.root = t.root
  options : t'.options = t.options
  rootPath : ∀ p, t.rootPath = some p → t'.rootPath = some p
  size : t.paths.size ≤ t'.paths.size
  node : ∀ p, p.index < t.paths.size → t'.node p = t.node p
  parentPath : ∀ p, p.index < t.paths.size → t'.parentPath p = t.parentPath p
  parentNode : ∀ p, p.index < t.paths.size → t'.parentNode p = t.parentNode p

/-- Scopes and bindings are the same and so is the scope of every path. -/
structure SameNames (t t' : Tree) : Prop where
  scopes : t'.scopes = t.scopes
  scopeOfNode : t'.scopeOfNode = t.scopeOfNode
  bindings : t'.bindings = t.bindings
  scope : ∀ p, (t'.path p).scope = (t.path p).scope

/-- The passes under way are as they were, with the flags of all paths. -/
structure SameControl (t t' : Tree) : Prop where
  frames : t'.frames = t.frames
  depth : t'.depth = t.depth
  nextContext : t'.nextContext = t.nextContext
  control : ∀ p, (t'.path p).control = (t.path p).control

/-- The arena, the paths and where they stand are the same. -/
structure SamePlaces (t t' : Tree) : Prop where
  arena : t'.arena = t.arena
  root : t'.root = t.root
  options : t'.options = t.options
  rootPath : t'.rootPath = t.rootPath
  childPaths : t'.childPaths = t.childPaths
  size : t'.paths.size = t.paths.size
  position : ∀ p, (t'.path p).position = (t.path p).position

@[refl] theorem Grows.refl (t : Tree) : t.Grows t :=
  ⟨rfl, rfl, rfl, fun _ h => h, Nat.le_refl _, fun _ _ => rfl, fun _ _ => rfl, fun _ _ => rfl⟩

theorem Grows.trans (h : t.Grows t') (h' : t'.Grows t'') : t.Grows t'' where
  arena := h'.arena.trans h.arena
  root := h'.root.trans h.root
  options := h'.options.trans h.options
  rootPath p hp := h'.rootPath p (h.rootPath p hp)
  size := h.size.trans h'.size
  node p hp := (h'.node p (hp.trans_le h.size)).trans (h.node p hp)
  parentPath p hp := (h'.parentPath p (hp.trans_le h.size)).trans (h.parentPath p hp)
  parentNode p hp := (h'.parentNode p (hp.trans_le h.size)).trans (h.parentNode p hp)

@[refl] theorem SameNames.refl (t : Tree) : t.SameNames t := ⟨rfl, rfl, rfl, fun _ => rfl⟩

theorem SameNames.trans (h : t.SameNames t') (h' : t'.SameNames t'') : t.SameNames t'' where
  scopes := h'.scopes.trans h.scopes
  scopeOfNode := h'.scopeOfNode.trans h.scopeOfNode
  bindings := h'.bindings.trans h.bindings
  scope p := (h'.scope p).trans (h.scope p)

@[refl] theorem SameControl.refl (t : Tree) : t.SameControl t := ⟨rfl, rfl, rfl, fun _ => rfl⟩

theorem SameControl.trans (h : t.SameControl t') (h' : t'.SameControl t'') :
    t.SameControl t'' where
  frames := h'.frames.trans h.frames
  depth := h'.depth.trans h.depth
  nextContext := h'.nextContext.trans h.nextContext
  control p := (h'.control p).trans (h.control p)

theorem Place.grows (h : t.Place r p n above) (hg : t.Grows t') : t'.Place r p n above where
  node := by rw [hg.node p (lt_of_node h.node), h.node]
  under := by
    rw [hg.arena]
    exact h.under

theorem Place.lt (h : t.Place r p n above) : p.index < t.paths.size := lt_of_node h.node

section SamePlaces

theorem SamePlaces.node (h : t.SamePlaces t') (p : PathId) : t'.node p = t.node p :=
  congrArg (·.1) (h.position p)

theorem SamePlaces.parentPath (h : t.SamePlaces t') (p : PathId) :
    t'.parentPath p = t.parentPath p := congrArg (·.2.1) (h.position p)

theorem SamePlaces.parentNode (h : t.SamePlaces t') (p : PathId) :
    t'.parentNode p = t.parentNode p := congrArg (·.2.2.1) (h.position p)

theorem SamePlaces.slot (h : t.SamePlaces t') (p : PathId) : t'.slot p = t.slot p :=
  congrArg (·.2.2.2.1) (h.position p)

theorem SamePlaces.grows (h : t.SamePlaces t') : t.Grows t' where
  arena := h.arena
  root := h.root
  options := h.options
  rootPath _ hp := h.rootPath.trans hp
  size := h.size.ge
  node p _ := h.node p
  parentPath p _ := h.parentPath p
  parentNode p _ := h.parentNode p

theorem SamePlaces.cachedPaths (h : t.SamePlaces t') (m : Option NodeId) :
    t'.cachedPaths m = t.cachedPaths m := by
  unfold Tree.cachedPaths
  rw [h.childPaths]

theorem SamePlaces.readSlot (h : t.SamePlaces t') (m : Option NodeId) (slot : Slot) :
    t'.readSlot m slot = t.readSlot m slot := by
  unfold Tree.readSlot
  rw [h.arena, h.root]

theorem SamePlaces.coherent (h : t.SamePlaces t') (ht : t.Coherent r) : t'.Coherent r where
  arena := by
    rw [h.arena]
    exact ht.arena
  root := h.root.trans ht.root
  present := by
    rw [h.arena]
    exact ht.present
  rootPath p hp := by
    rw [h.size, h.parentPath]
    exact ht.rootPath p (h.rootPath.symm.trans hp)
  inUse p := by
    have hr : (t'.path p).removed = (t.path p).removed := congrArg (·.2.2.2.2.1) (h.position p)
    have hs : (t'.path p).stale = (t.path p).stale := congrArg (·.2.2.2.2.2) (h.position p)
    rw [hr, hs]
    exact ht.inUse p
  anchored p hp := by
    rw [h.size] at hp
    have ha := ht.anchored p hp
    unfold Anchored at ha ⊢
    rw [show (t'.path p).parentPath = (t.path p).parentPath from h.parentPath p]
    simp only [h.rootPath, h.slot, h.parentNode, h.node, h.root, h.cachedPaths, h.readSlot]
    exact ha
  cached m p hp := by
    rw [h.cachedPaths] at hp
    rw [h.size, h.parentNode]
    exact ht.cached m p hp
  unique p q n hp hq := by
    rw [h.node] at hp hq
    exact ht.unique p q n hp hq

theorem samePlaces_updatePath (t : Tree) (p : PathId) (f : PathData → PathData)
    (hf : ∀ d, (f d).position = d.position) : t.SamePlaces (t.updatePath p f) :=
  ⟨rfl, rfl, rfl, rfl, rfl, t.size_updatePath p f,
    fun q => t.path_updatePath_congr p q f PathData.position hf⟩

theorem sameControl_updatePath (t : Tree) (p : PathId) (f : PathData → PathData)
    (hf : ∀ d, (f d).control = d.control) : t.SameControl (t.updatePath p f) :=
  ⟨rfl, rfl, rfl, fun q => t.path_updatePath_congr p q f PathData.control hf⟩

theorem sameNames_updatePath (t : Tree) (p : PathId) (f : PathData → PathData)
    (hf : ∀ d, (f d).scope = d.scope) : t.SameNames (t.updatePath p f) :=
  ⟨rfl, rfl, rfl, fun q => t.path_updatePath_congr p q f PathData.scope hf⟩

end SamePlaces

/-! ## operations on paths -/

theorem resyncSlot_eq {node : Option NodeId} {owner : Option NodeId}
    (hs : t.readSlot (t.parentNode p) (t.slot p) = node) (hst : (t.path p).stale = false) :
    resyncSlot p owner node t = .ok () t := by
  have hsame : t.updatePath p ({ · with stale := false }) = t := by
    refine updatePath_eq_self _ _ ?_
    rw [← hst]
  unfold resyncSlot
  rw [run_get_bind]
  simp only [show t.readSlot (t.path p).parent (t.path p).slot = node from hs, beq_self_eq_true,
    if_true]
  show EStateM.Result.ok () (t.updatePath p ({ · with stale := false })) = _
  rw [hsame]

theorem resync_of_inLine (hq : t.parentPath p = some q) (hqm : t.node q = some m)
    (hpm : t.parentNode p = some m) (hs : t.slot p ≠ .root) (hn : t.node p = some n)
    (hread : t.readSlot (some m) (t.slot p) = some n) (ho : t.arena.parentOf (some n) = some m)
    (huse : (t.path p).removed = false ∧ (t.path p).stale = false) : resync p t = .ok () t := by
  have hparent : resyncParent p (some m) t = .ok () t := by
    unfold resyncParent
    rw [run_get_bind]
    simp only [show (t.path p).parent = some m from hpm, bne_self_eq_false,
      Bool.false_eq_true, if_false, show (t.path p).parentPath = some q from hq]
    rw [run_get_bind]
    simp [hqm]
    rfl
  unfold resync
  rw [run_get_bind]
  simp only [huse.1, show (t.path p).node = some n from hn, Option.isNone_some,
    Bool.or_false, Bool.false_or, beq_iff_eq, show (t.path p).slot ≠ .root from hs,
    if_false, ho]
  rw [run_bind_of_ok hparent]
  exact resyncSlot_eq (by rw [hpm, hread]) huse.2

theorem resync_of_root (hs : t.slot p = .root) : resync p t = .ok () t := by
  unfold resync
  rw [run_get_bind, if_pos (by simp [show (t.path p).slot = .root from hs])]
  rfl

theorem resync_of_none (hn : t.node p = none) : resync p t = .ok () t := by
  unfold resync
  rw [run_get_bind, if_pos (by simp [show (t.path p).node = none from hn])]
  rfl

/-- A path in a coherent tree is in line with it already. -/
theorem resync_eq (ht : t.Coherent r) (p : PathId) : resync p t = .ok () t := by
  by_cases hp : p.index < t.paths.size
  · cases hq : t.parentPath p with
    | none => exact resync_of_root (ht.root_of_parentPath hp hq).2.1
    | some q =>
      have ha := ht.anchored p hp
      unfold Anchored at ha
      rw [show (t.path p).parentPath = some q from hq] at ha
      obtain ⟨_, hslot, _, ⟨m, hqm, hpm⟩, hread⟩ := ha
      cases hn : t.node p with
      | none => exact resync_of_none hn
      | some n =>
        rw [hpm, hn] at hread
        exact resync_of_inLine hq hqm hpm hslot hn hread
          (ht.arena.owned.owner_of_child m n (mem_children_of_readSlot hslot hread)) (ht.inUse p)
  · exact resync_of_root (congrArg PathData.slot (path_of_size_le (Nat.le_of_not_lt hp)))

theorem assertLive_eq (ht : t.Coherent r) (p : PathId) : assertLive p t = .ok ⟨⟩ t := by
  unfold assertLive
  rw [run_bind_of_ok (resync_eq ht p), run_get_bind]
  simp [ht.inUse p]
  rfl

/-- More paths are known and nothing else happened. -/
structure Extends (t t' : Tree) (r : NodeId) : Prop where
  coherent : t'.Coherent r
  grows : t.Grows t'
  names : t.SameNames t'
  control : t.SameControl t'

theorem Extends.refl (ht : t.Coherent r) : t.Extends t r := ⟨ht, .refl t, .refl t, .refl t⟩

theorem Extends.trans (h : t.Extends t' r) (h' : t'.Extends t'' r) : t.Extends t'' r :=
  ⟨h'.coherent, h.grows.trans h'.grows, h.names.trans h'.names, h.control.trans h'.control⟩

def withPath (t : Tree) (d : PathData) : Tree := { t with paths := t.paths.push d }

theorem path_withPath (t : Tree) (d : PathData) (q : PathId) :
    (t.withPath d).path q = if q = ⟨t.paths.size⟩ then d else t.path q := by
  show (t.paths.push d)[q.index]?.getD {} = _
  rw [Array.getElem?_push]
  by_cases h : q = ⟨t.paths.size⟩
  · subst h
    simp
  · have hi : q.index ≠ t.paths.size := fun hi => h (by cases q; simp_all)
    rw [if_neg hi, if_neg h]
    rfl

theorem path_withPath_of_lt (t : Tree) (d : PathData) (h : q.index < t.paths.size) :
    (t.withPath d).path q = t.path q := by
  rw [path_withPath, if_neg]
  rintro rfl
  exact absurd h (Nat.lt_irrefl _)

/-- A tree that differs from `t` in a new path, its entry among the paths of its owner and maybe
in the path of the root. -/
structure Pushes (t t' : Tree) (d : PathData) : Prop where
  arena : t'.arena = t.arena
  root : t'.root = t.root
  options : t'.options = t.options
  scopes : t'.scopes = t.scopes
  scopeOfNode : t'.scopeOfNode = t.scopeOfNode
  bindings : t'.bindings = t.bindings
  frames : t'.frames = t.frames
  depth : t'.depth = t.depth
  nextContext : t'.nextContext = t.nextContext
  paths : t'.paths = t.paths.push d
  rootPath : ∀ p, t'.rootPath = some p ↔
    t.rootPath = some p ∨ p = ⟨t.paths.size⟩ ∧ d.parentPath = none
  listed : ∀ m, t'.cachedPaths (some m) =
    t.cachedPaths (some m) ++ if d.parent = some m then [⟨t.paths.size⟩] else []

section Pushes

variable {d : PathData}

theorem Pushes.path (h : t.Pushes t' d) (q : PathId) : t'.path q = (t.withPath d).path q := by
  unfold Tree.path withPath
  rw [h.paths]

theorem Pushes.path_new (h : t.Pushes t' d) : t'.path ⟨t.paths.size⟩ = d := by
  rw [h.path, path_withPath, if_pos rfl]

theorem Pushes.path_old (h : t.Pushes t' d) (hq : q.index < t.paths.size) :
    t'.path q = t.path q := by
  rw [h.path, t.path_withPath_of_lt d hq]

theorem Pushes.size (h : t.Pushes t' d) : t'.paths.size = t.paths.size + 1 := by
  rw [h.paths, Array.size_push]

theorem Pushes.cached (h : t.Pushes t' d) (m : NodeId) (p : PathId) : p ∈ t'.cachedPaths (some m) ↔
    p ∈ t.cachedPaths (some m) ∨ p = ⟨t.paths.size⟩ ∧ d.parent = some m := by
  rw [h.listed, List.mem_append]
  split <;> simp_all

theorem Pushes.rootPath_eq (h : t.Pushes t' d) (hd : d.parentPath ≠ none) :
    t'.rootPath = t.rootPath :=
  Option.ext fun p => (h.rootPath p).trans (or_iff_left fun hp => hd hp.2)

theorem Pushes.readSlot (h : t.Pushes t' d) (m : Option NodeId) (slot : Slot) :
    t'.readSlot m slot = t.readSlot m slot := by
  unfold Tree.readSlot
  rw [h.arena, h.root]

theorem Pushes.grows (h : t.Pushes t' d) : t.Grows t' where
  arena := h.arena
  root := h.root
  options := h.options
  rootPath p hp := (h.rootPath p).2 (.inl hp)
  size := by
    rw [h.size]
    exact Nat.le_succ _
  node p hp := congrArg PathData.node (h.path_old hp)
  parentPath p hp := congrArg PathData.parentPath (h.path_old hp)
  parentNode p hp := congrArg PathData.parent (h.path_old hp)

theorem Pushes.path_congr {α : Type} (h : t.Pushes t' d) (g : PathData → α) (hd : g d = g {})
    (q : PathId) : g (t'.path q) = g (t.path q) := by
  rw [h.path, path_withPath]
  split
  · next hq =>
    subst hq
    rw [hd, path_of_size_le (p := ⟨t.paths.size⟩) (Nat.le_refl t.paths.size)]
  · rfl

theorem Pushes.coherent (h : t.Pushes t' d) (ht : t.Coherent r) (hr : d.removed = false)
    (hs : d.stale = false) (hfresh : ∀ n, d.node = some n → ∀ p, t.node p ≠ some n)
    (hnew : t'.Anchored ⟨t.paths.size⟩) : t'.Coherent r where
  arena := by
    rw [h.arena]
    exact ht.arena
  root := h.root.trans ht.root
  present := by
    rw [h.arena]
    exact ht.present
  rootPath p hp := by
    rcases (h.rootPath p).1 hp with hp | ⟨rfl, hd⟩
    · obtain ⟨hlt, hq⟩ := ht.rootPath p hp
      exact ⟨hlt.trans_le h.grows.size, (h.grows.parentPath p hlt).trans hq⟩
    · refine ⟨by rw [h.size]; exact Nat.lt_succ_self _, ?_⟩
      unfold parentPath
      rw [h.path_new, hd]
  inUse p := by
    rw [h.path_congr PathData.removed hr p, h.path_congr PathData.stale hs p]
    exact ht.inUse p
  anchored p hp := by
    rw [h.size] at hp
    rcases Nat.lt_succ_iff_lt_or_eq.1 hp with hlt | heq
    · have ha := ht.anchored p hlt
      unfold Anchored at ha ⊢
      simp only [slot, parentNode, Tree.node, h.path_old hlt] at ha ⊢
      cases hq : (t.path p).parentPath with
      | none =>
        simp only [hq] at ha ⊢
        exact ⟨(h.rootPath p).2 (.inl ha.1), ha.2.1, ha.2.2.1, ha.2.2.2.trans h.root.symm⟩
      | some q =>
        simp only [hq] at ha ⊢
        obtain ⟨hqp, hslot, hc, ⟨m, hqm, hpm⟩, hread⟩ := ha
        refine ⟨hqp, hslot, ?_, ⟨m, ?_, hpm⟩, (h.readSlot _ _).trans hread⟩
        · rw [hpm] at hc ⊢
          exact (h.cached m p).2 (.inl hc)
        · rw [h.path_old (hqp.trans hlt)]
          exact hqm
    · obtain rfl : p = ⟨t.paths.size⟩ := by
        cases p
        simp_all
      exact hnew
  cached m p hp := by
    rcases (h.cached m p).1 hp with hp | ⟨rfl, hd⟩
    · obtain ⟨hlt, hm⟩ := ht.cached m p hp
      exact ⟨hlt.trans_le h.grows.size, (h.grows.parentNode p hlt).trans hm⟩
    · refine ⟨by rw [h.size]; exact Nat.lt_succ_self _, ?_⟩
      unfold parentNode
      rw [h.path_new, hd]
  unique p q n hp hq := by
    have hnode : ∀ p, t'.node p = some n →
        p = ⟨t.paths.size⟩ ∧ d.node = some n ∨ t.node p = some n := by
      intro p hp
      unfold Tree.node at hp ⊢
      rw [h.path, path_withPath] at hp
      split at hp
      · next hpn => exact .inl ⟨hpn, hp⟩
      · exact .inr hp
    rcases hnode p hp with ⟨rfl, hd⟩ | hp
    · rcases hnode q hq with ⟨rfl, _⟩ | hq
      · rfl
      · exact absurd hq (hfresh n hd q)
    · rcases hnode q hq with ⟨rfl, hd⟩ | hq
      · exact absurd hp (hfresh n hd p)
      · exact ht.unique p q n hp hq

theorem Pushes.anchored_below (h : t.Pushes t' d) (hd : d.parentPath = some q)
    (hq : t.node q = some m) (hm : d.parent = some m) (hs : d.slot ≠ .root)
    (hread : t.readSlot (some m) d.slot = d.node) : t'.Anchored ⟨t.paths.size⟩ := by
  have hlt : q.index < t.paths.size := lt_of_node hq
  unfold Anchored slot parentNode
  rw [h.path_new, hd]
  refine ⟨hlt, hs, ?_, ⟨m, (h.grows.node q hlt).trans hq, hm⟩, ?_⟩
  · rw [hm]
    exact (h.cached m _).2 (.inr ⟨rfl, hm⟩)
  · rw [h.readSlot, hm, hread]
    exact congrArg PathData.node h.path_new.symm

theorem Pushes.extends (h : t.Pushes t' d) (ht' : t'.Coherent r)
    (hcontrol : d.control = ({} : PathData).control) (hscope : d.scope = none) :
    t.Extends t' r where
  coherent := ht'
  grows := h.grows
  names := ⟨h.scopes, h.scopeOfNode, h.bindings, h.path_congr PathData.scope hscope⟩
  control := ⟨h.frames, h.depth, h.nextContext, h.path_congr PathData.control hcontrol⟩

end Pushes

theorem node_of_servesSlot {slot : Slot} {node : Option NodeId}
    (h : t.servesSlot slot node p = true) :
    t.node p = node := by
  unfold servesSlot at h
  unfold Tree.node
  cases node <;> simp_all

/-- The first of the paths made for a place is brought up to date. If there is none, a new path
comes last below its owner. -/
theorem getOrCreatePath_find (t : Tree) (q : PathId) (owner : Option NodeId) (slot : Slot) :
    (∃ p, (t.cachedPaths owner).find? (t.servesSlot slot (t.readSlot owner slot)) = some p
      ∧ getOrCreatePath (some q) owner slot t = .ok p (t.updatePath p fun d => { d with
          parentPath := some q, parent := owner, slot, node :=
            t.readSlot owner slot, stale := false }))
    ∨ (t.cachedPaths owner).find? (t.servesSlot slot (t.readSlot owner slot)) = none
      ∧ ∃ t', getOrCreatePath (some q) owner slot t = .ok ⟨t.paths.size⟩ t'
        ∧ t.Pushes t'
        { node := t.readSlot owner slot, parentPath := some q, parent := owner, slot } := by
  unfold getOrCreatePath
  rw [if_neg (by simp), run_get_bind]
  dsimp only
  cases hf : (t.cachedPaths owner).find? (t.servesSlot slot (t.readSlot owner slot)) with
  | some p => exact .inl ⟨p, rfl, rfl⟩
  | none =>
    refine .inr ⟨rfl, ?_⟩
    cases owner with
    | none =>
      exact ⟨_, rfl, ⟨rfl, rfl, rfl, rfl, rfl, rfl, rfl, rfl, rfl, rfl, fun p => by simp,
        fun m => by simp [cachedPaths]⟩⟩
    | some o =>
      refine ⟨_, rfl, ⟨rfl, rfl, rfl, rfl, rfl, rfl, rfl, rfl, rfl, rfl,
        fun p => by simp, fun m => ?_⟩⟩
      simp only [cachedPaths, Option.bind_some, IndexTable.get?_put, Option.some.injEq]
      by_cases hm : o = m
      · subst hm
        simp
      · have hi : m.index ≠ o.index := fun hi => hm (by cases m; cases o; simp_all)
        simp [hi, hm]

theorem getOrCreatePath_cases (t : Tree) (q : PathId) (owner : Option NodeId) (slot : Slot) :
    (∃ p ∈ t.cachedPaths owner, t.node p = t.readSlot owner slot
      ∧ getOrCreatePath (some q) owner slot t = .ok p (t.updatePath p fun d => { d with
          parentPath := some q, parent := owner, slot, node :=
            t.readSlot owner slot, stale := false }))
    ∨ ∃ t', getOrCreatePath (some q) owner slot t = .ok ⟨t.paths.size⟩ t'
      ∧ t.Pushes t'
      { node := t.readSlot owner slot, parentPath := some q, parent := owner, slot } := by
  obtain ⟨p, hp, hrun⟩ | ⟨-, t', hrun, hpush⟩ := getOrCreatePath_find t q owner slot
  · exact .inl ⟨p, List.mem_of_find?_eq_some hp, node_of_servesSlot (List.find?_some hp), hrun⟩
  · exact .inr ⟨t', hrun, hpush⟩

theorem getRootPath_find (t : Tree) : (∃ p, t.rootPath = some p ∧ getRootPath t = .ok p t)
    ∨ t.rootPath = none ∧ ∃ t', getRootPath t = .ok ⟨t.paths.size⟩ t'
      ∧ t.Pushes t' { node := t.root } := by
  unfold getRootPath
  rw [run_get_bind]
  cases hp : t.rootPath with
  | some p => exact .inl ⟨p, rfl, rfl⟩
  | none =>
    exact .inr ⟨rfl, _, rfl, ⟨rfl, rfl, rfl, rfl, rfl, rfl, rfl, rfl, rfl, rfl,
      fun p => by simp [hp, eq_comm], fun m => by simp [cachedPaths]⟩⟩

theorem ends_getRootPath (ht : t.Coherent r) :
    Ends (getRootPath t) (fun p t' => t.Extends t' r ∧ t'.Place r p r []) fun _ _ => False := by
  obtain ⟨p, hrp, hrun⟩ | ⟨hrp, t', hrun, hpush⟩ := getRootPath_find t <;> rw [hrun]
  · obtain ⟨hp, hq⟩ := ht.rootPath p hrp
    exact ⟨.refl ht, (ht.root_of_parentPath hp hq).2.2.2, .root⟩
  · have hfresh : ∀ p, t.node p ≠ some r := by
      intro p hn
      obtain ⟨above, hpl⟩ := ht.exists_place hn
      obtain rfl := hpl.under.root_above ht.arena.owned
      have hroot := (ht.root_of_parentPath hpl.lt (ht.top hpl).1).1
      rw [hrp] at hroot
      cases hroot
    refine ⟨hpush.extends (hpush.coherent ht rfl rfl ?_ ?_) rfl rfl, ?_, .root⟩
    · intro n hn
      obtain rfl := Option.some.inj (hn.symm.trans ht.root)
      exact hfresh
    · unfold Anchored slot parentNode Tree.node
      rw [hpush.path_new]
      exact ⟨(hpush.rootPath _).2 (.inr ⟨rfl, rfl⟩), rfl, rfl, hpush.root.symm⟩
    · unfold Tree.node
      rw [hpush.path_new]
      exact ht.root

theorem extends_getRootPath (ht : t.Coherent r) : t.Extends (final (getRootPath t)) r := by
  obtain ⟨p, t', hrun, hext, _⟩ := (ends_getRootPath ht).exists_ok
  rw [hrun]
  exact hext

theorem Extends.updateSlot (ht : t.Coherent r) {slot : Slot} (hq : t.parentPath p = some q)
    (hs : slot ≠ .root) (hread : t.readSlot (t.parentNode p) slot = t.node p) :
    t.Extends (t.updatePath p ({ · with slot })) r := by
  have hkeep : ∀ {α : Type} (g : PathData → α), (∀ d : PathData, g { d with slot } = g d) →
      ∀ p', g ((t.updatePath p ({ · with slot })).path p') = g (t.path p') :=
    fun g hg p' => t.path_updatePath_congr p p' _ g hg
  refine ⟨⟨ht.arena, ht.root, ht.present, fun p' hp' => ?_, fun p' => ?_, fun p' hp' => ?_,
    fun m p' hp' => ?_, fun p' q' n hp' hq' => ?_⟩, ⟨rfl, rfl, rfl,
      fun _ h => h, ?_, fun p' _ => ?_,
    fun p' _ => ?_, fun p' _ => ?_⟩, ?_, ?_⟩
  · have h := ht.rootPath p' hp'
    rw [size_updatePath]
    exact ⟨h.1, (hkeep PathData.parentPath (fun _ => rfl) p').trans h.2⟩
  · rw [hkeep PathData.removed (fun _ => rfl), hkeep PathData.stale (fun _ => rfl)]
    exact ht.inUse p'
  · rw [size_updatePath] at hp'
    have ha := ht.anchored p' hp'
    unfold Anchored at ha ⊢
    simp only [Tree.node, parentNode, hkeep PathData.parentPath fun _ => rfl,
      hkeep PathData.node fun _ => rfl, hkeep PathData.parent fun _ => rfl,
      rootPath_updatePath, root_updatePath, cachedPaths_updatePath, readSlot_updatePath] at ha ⊢
    by_cases hpp : p' = p
    · subst hpp
      rw [show (t.path p').parentPath = some q from hq] at ha ⊢
      obtain ⟨hlt, _, hc, hm, _⟩ := ha
      have hslot : (t.updatePath p' ({ · with slot })).slot p' = slot := by
        unfold Tree.slot
        rw [path_updatePath_self _ _ hp']
      simp only [hslot]
      exact ⟨hlt, hs, hc, hm, hread⟩
    · have hslot : (t.updatePath p ({ · with slot })).slot p' = t.slot p' := by
        unfold Tree.slot
        rw [path_updatePath_ne _ _ hpp]
      simp only [hslot]
      exact ha
  · have h := ht.cached m p' hp'
    rw [size_updatePath]
    exact ⟨h.1, (hkeep PathData.parent (fun _ => rfl) p').trans h.2⟩
  · refine ht.unique p' q' n ?_ ?_
    · exact (hkeep PathData.node (fun _ => rfl) p').symm.trans hp'
    · exact (hkeep PathData.node (fun _ => rfl) q').symm.trans hq'
  · exact (t.size_updatePath p _).ge
  · exact hkeep PathData.node (fun _ => rfl) p'
  · exact hkeep PathData.parentPath (fun _ => rfl) p'
  · exact hkeep PathData.parent (fun _ => rfl) p'
  · exact t.sameNames_updatePath p _ fun _ => rfl
  · exact t.sameControl_updatePath p _ fun _ => rfl

/-- The path of a place below a path. -/
theorem ends_getOrCreatePath (ht : t.Coherent r) (hq : t.node q = some m) (slot : Slot)
    (hs : slot ≠ .root) :
    Ends (getOrCreatePath (some q) (some m) slot t)
      (fun p t' => t.Extends t' r ∧ t'.parentPath p = some q ∧ p.index < t'.paths.size
        ∧ t'.node p = t.readSlot (some m) slot)
      fun _ _ => False := by
  obtain ⟨p, hf, hrun⟩ | ⟨hf, t', hrun, hpush⟩ := getOrCreatePath_find t q (some m) slot
  · rw [hrun]
    obtain ⟨hp, hpm⟩ := ht.cached m p (List.mem_of_find?_eq_some hf)
    have hnode : t.node p = t.readSlot (some m) slot := node_of_servesSlot (List.find?_some hf)
    have hqp : t.parentPath p = some q := by
      cases hp' : t.parentPath p with
      | none =>
        have hnone := (ht.root_of_parentPath hp hp').2.2.1
        rw [hpm] at hnone
        cases hnone
      | some q' =>
        obtain ⟨_, m', hm', hpm', _⟩ := ht.parent_of_parentPath hp hp'
        obtain rfl := Option.some.inj (hpm.symm.trans hpm')
        rw [ht.unique q' q m hm' hq]
    have heq : t.updatePath p (fun d => { d with
          parentPath := some q, parent := some m, slot, node := t.readSlot (some m) slot,
          stale := false })
        = t.updatePath p ({ · with slot }) := by
      refine t.updatePath_congr ?_
      rw [← hnode, ← hqp, ← hpm, ← (ht.inUse p).2]
      rfl
    rw [heq]
    have hext := Extends.updateSlot ht hqp hs (by rw [hpm, hnode])
    refine ⟨hext, ?_, hp.trans_le hext.grows.size, ?_⟩
    · rw [hext.grows.parentPath p hp, hqp]
    · rw [hext.grows.node p hp, hnode]
  · rw [hrun]
    refine ⟨hpush.extends (hpush.coherent ht rfl rfl ?_ ?_) rfl rfl, ?_, ?_, ?_⟩
    · intro n hn p hp
      -- a path of the node would have been found among those of its owner
      obtain ⟨above, hpl⟩ := ht.exists_place hp
      have hc : n ∈ t.arena.children (some m) := mem_children_of_readSlot hs hn
      obtain ⟨above', hpq⟩ := ht.exists_place hq
      obtain rfl := hpl.under.unique ht.arena.owned (.child hpq.under hc)
      obtain ⟨q', hq', _, hpm, _⟩ := ht.parent hpl
      have ha := ht.anchored p hpl.lt
      unfold Anchored at ha
      rw [show (t.path p).parentPath = some q' from hq', hpm] at ha
      refine List.find?_eq_none.1 hf p ha.2.2.1 ?_
      simp [servesSlot, (ht.inUse p).1, show t.readSlot (some m) slot = some n from hn,
        show (t.path p).node = some n from hp]
    · exact hpush.anchored_below rfl hq rfl hs rfl
    · exact congrArg PathData.parentPath hpush.path_new
    · exact hpush.size.symm ▸ Nat.lt_succ_self _
    · exact congrArg PathData.node hpush.path_new

theorem forall₂_exists_of_mem_right {β γ : Type} {R : β → γ → Prop} {l : List β} {l' : List γ}
    (h : List.Forall₂ R l l') {y : γ} (hy : y ∈ l') : ∃ x ∈ l, R x y := by
  induction h with
  | nil => simp at hy
  | cons hxy _ ih =>
    rcases List.mem_cons.1 hy with rfl | hy
    · exact ⟨_, List.mem_cons_self .., hxy⟩
    · obtain ⟨x, hx, hR⟩ := ih hy
      exact ⟨x, List.mem_cons_of_mem _ hx, hR⟩

theorem forall₂_exists_of_mem_left {β γ : Type} {R : β → γ → Prop} {l : List β} {l' : List γ}
    (h : List.Forall₂ R l l') {x : β} (hx : x ∈ l) : ∃ y ∈ l', R x y :=
  forall₂_exists_of_mem_right h.flip hx

end Tree

end ScopedTree
