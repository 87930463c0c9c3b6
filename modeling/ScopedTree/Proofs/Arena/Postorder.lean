import Mathlib.Data.List.Flatten
import ScopedTree.Proofs.Arena.Copy

/-!
# The post-order of a subtree

The walk that visits the children of a node, field by field and entry by entry, before the node
itself puts all nodes of a subtree into one order.

* `Arena.postorder`          the nodes of a subtree in that order;
* `Arena.mem_postorder`, `Arena.nodup_postorder`   each node of the subtree is there, once;
* `Arena.below_precedes`     what lies below a node comes before it;
* `Arena.branches_precede`   what lies below an earlier child comes before what lies below a later
  one;
* `Arena.precedes_of_fields`, `Arena.precedes_of_entries`   the order of two children is that of
  their places.
-/

namespace ScopedTree

/-! ## the order of a list -/

section Order

variable {α : Type} [DecidableEq α] {l : List α} {x y z : α}

/-- In a list without repetition one element comes before another exactly if its index is smaller.
-/
theorem pair_sublist_iff (hl : l.Nodup) : [x, y].Sublist l ↔ y ∈ l ∧ l.idxOf x < l.idxOf y := by
  constructor
  · refine fun h => ⟨h.subset (by simp), ?_⟩
    have hindex : l.Pairwise fun x y => l.idxOf x < l.idxOf y := by
      refine List.pairwise_iff_getElem.2 fun i j hi hj hij => ?_
      rwa [hl.idxOf_getElem i hi, hl.idxOf_getElem j hj]
    exact List.pairwise_iff_forall_sublist.1 hindex h
  · rintro ⟨hy, hlt⟩
    have hj := List.idxOf_lt_length_of_mem hy
    have hi := hlt.trans hj
    rw [← List.take_append_drop (l.idxOf y) l]
    have hx : x ∈ l.take (l.idxOf y) := by
      refine List.mem_iff_getElem.2 ⟨l.idxOf x, by rw [List.length_take]; omega, ?_⟩
      rw [List.getElem_take, List.getElem_idxOf]
    have hy : y ∈ l.drop (l.idxOf y) := by
      refine List.mem_iff_getElem.2 ⟨0, by rw [List.length_drop]; omega, ?_⟩
      simp only [List.getElem_drop, Nat.add_zero, List.getElem_idxOf]
    exact (List.singleton_sublist.2 hx).append (List.singleton_sublist.2 hy)

theorem pair_asymm (hl : l.Nodup) (h : [x, y].Sublist l) : ¬ [y, x].Sublist l := fun h' =>
  Nat.lt_asymm ((pair_sublist_iff hl).1 h).2 ((pair_sublist_iff hl).1 h').2

theorem pair_trans (hl : l.Nodup) (h : [x, y].Sublist l) (h' : [y, z].Sublist l) :
    [x, z].Sublist l := by
  obtain ⟨-, hxy⟩ := (pair_sublist_iff hl).1 h
  obtain ⟨hz, hyz⟩ := (pair_sublist_iff hl).1 h'
  exact (pair_sublist_iff hl).2 ⟨hz, hxy.trans hyz⟩

theorem pair_total (hl : l.Nodup) (hx : x ∈ l) (hy : y ∈ l) (hne : x ≠ y) :
    [x, y].Sublist l ∨ [y, x].Sublist l := by
  rcases Nat.lt_trichotomy (l.idxOf x) (l.idxOf y) with h | h | h
  · exact .inl ((pair_sublist_iff hl).2 ⟨hy, h⟩)
  · exact absurd ((List.idxOf_inj hx).1 h) hne
  · exact .inr ((pair_sublist_iff hl).2 ⟨hx, h⟩)

omit [DecidableEq α] in
theorem pair_of_getElem? {i j : Nat} (hi : l[i]? = some x) (hj : l[j]? = some y) (hij : i < j) :
    [x, y].Sublist l := by
  obtain ⟨hilt, rfl⟩ := List.getElem?_eq_some_iff.1 hi
  obtain ⟨hjlt, rfl⟩ := List.getElem?_eq_some_iff.1 hj
  exact List.pairwise_iff_getElem.1 (List.pairwise_iff_forall_sublist.2 id) i j hilt hjlt hij

end Order

namespace Arena

open Relation

variable {a : Arena} {c c' m n o x y : NodeId} {fuel : Nat} {s s' : Slot} {k : Node}
  {name name' : String} {i j : Nat}

/-- The nodes of a subtree, the children of a node before it. No way down is longer than there are
nodes. -/
def postorder (a : Arena) (n : NodeId) : List NodeId := a.postUpTo a.size n

theorem suffices_size (hn : n.index < a.size) : a.Suffices a.size n := ⟨hn, Nat.le_add_right _ _⟩

theorem mem_postorder (ha : a.Owned) (hn : n.index < a.size) :
    m ∈ a.postorder n ↔ ReflTransGen a.OwnedBy m n := mem_postUpTo ha (suffices_size hn)

theorem nodup_postorder (ha : a.Owned) (n : NodeId) : (a.postorder n).Nodup := nodup_postUpTo ha _ n

theorem exists_sublist_postUpTo (ha : a.Owned) : ∀ {fuel : Nat} {n : NodeId}, a.Suffices fuel n →
    ReflTransGen a.OwnedBy o n →
    ∃ fuel', a.Suffices (fuel' + 1) o ∧ (a.postUpTo (fuel' + 1) o).Sublist (a.postUpTo fuel n)
  | 0, _, h, _ => absurd rfl (h.pos ha)
  | fuel + 1, n, h, ho => by
    rcases ReflTransGen.cases_tail ho with rfl | ⟨c, hoc, hcn⟩
    · exact ⟨fuel, h, .refl _⟩
    · have hc := ha.mem_children hcn
      obtain ⟨fuel', hfuel', hsub⟩ := exists_sublist_postUpTo ha (h.child ha hc) hoc
      have hchild : (a.postUpTo fuel c).Sublist
          ((a.children (some n)).flatMap (a.postUpTo fuel)) := by
        rw [List.flatMap_def]
        exact List.sublist_flatten_of_mem (List.mem_map_of_mem hc)
      exact ⟨fuel', hfuel', (hsub.trans hchild).trans (List.sublist_append_left ..)⟩

theorem lt_of_below (ha : a.Owned) (h : TransGen a.OwnedBy x n) : n.index < a.size := by
  obtain ⟨_, -, hn⟩ := TransGen.tail'_iff.1 h
  exact ha.owner_lt hn

/-- **What lies below a node comes before it.** -/
theorem below_precedes (ha : a.Owned) (hx : TransGen a.OwnedBy x y)
    (hy : ReflTransGen a.OwnedBy y n) :
    [x, y].Sublist (a.postorder n) := by
  have hn := lt_of_below ha (hx.trans_left hy)
  obtain ⟨fuel, hfuel, hsub⟩ := exists_sublist_postUpTo ha (suffices_size hn) hy
  refine .trans ?_ hsub
  have hmem : x ∈ (a.children (some y)).flatMap (a.postUpTo fuel) := by
    rcases List.mem_append.1 ((mem_postUpTo ha hfuel).2 hx.to_reflTransGen) with h | h
    · exact h
    · exact absurd (List.mem_singleton.1 h ▸ hx) (ha.acyclic y)
  exact (List.singleton_sublist.2 hmem).append (.refl [y])

/-- **What lies below an earlier child comes before what lies below a later one.** -/
theorem branches_precede (ha : a.Owned) (hc : [c, c'].Sublist (a.children (some o)))
    (hx : ReflTransGen a.OwnedBy x c) (hy : ReflTransGen a.OwnedBy y c')
    (ho : ReflTransGen a.OwnedBy o n) :
    [x, y].Sublist (a.postorder n) := by
  have hn := lt_of_below ha (.head' (ha.owner_of_child o c (hc.subset (by simp))) ho)
  obtain ⟨fuel, hfuel, hsub⟩ := exists_sublist_postUpTo ha (suffices_size hn) ho
  have hx : x ∈ a.postUpTo fuel c := (mem_postUpTo ha (hfuel.child ha (hc.subset (by simp)))).2 hx
  have hy : y ∈ a.postUpTo fuel c' := (mem_postUpTo ha (hfuel.child ha (hc.subset (by simp)))).2 hy
  have hpair : [x, y].Sublist ([c, c'].flatMap (a.postUpTo fuel)) := by
    simpa using (List.singleton_sublist.2 hx).append (List.singleton_sublist.2 hy)
  exact ((hpair.trans (hc.flatMap _)).trans (List.sublist_append_left ..)).trans hsub

/-! ## places of children -/

/-- Children of a node in different fields come in the order of the fields. -/
theorem precedes_of_fields (hk : a.get? o = some k) {v v' : Value} (hv : k.values[i]? = some v)
    (hv' : k.values[j]? = some v') (hx : x ∈ v.children) (hy : y ∈ v'.children) (hij : i < j) :
    [x, y].Sublist (a.children (some o)) := by
  rw [children_some, hk]
  show [x, y].Sublist (k.values.flatMap Value.children)
  have hvalues := (pair_of_getElem? hv hv' hij).flatMap Value.children
  have hpair : [x, y].Sublist ([v, v'].flatMap Value.children) := by
    simpa using (List.singleton_sublist.2 hx).append (List.singleton_sublist.2 hy)
  exact hpair.trans hvalues

/-- Children of a node in one list come in the order of the list. -/
theorem precedes_of_entries (hk : a.get? o = some k) {items : List (Option NodeId)} {p : Nat}
    (hv : k.values[p]? = some (.list items)) (hi : items[i]? = some (some x))
    (hj : items[j]? = some (some y)) (hij : i < j) : [x, y].Sublist (a.children (some o)) := by
  rw [children_some, hk]
  show [x, y].Sublist (k.values.flatMap Value.children)
  have hpair : [x, y].Sublist (Value.list items).children :=
    (pair_of_getElem? hi hj hij).filterMap id
  refine hpair.trans ?_
  rw [List.flatMap_def]
  exact List.sublist_flatten_of_mem (List.mem_map_of_mem (List.mem_of_getElem? hv))

end Arena

end ScopedTree
