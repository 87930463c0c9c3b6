import ScopedTree.Arena.Walk
import ScopedTree.Proofs.Arena.Shape

/-!
# Places in a tree

A node below a root is known by the way up from it. Single ownership makes that way unique.

* `Arena.Under`            a node below the root, with the nodes above it, nearest first;
* `Arena.Under.unique`     there is one way up;
* `Arena.Under.not_mem`    a node is not above itself.
-/

namespace ScopedTree.Arena

open Relation

/-- `n` hangs under `root`, and `above` are the nodes above it, nearest first. -/
inductive Under (a : Arena) (root : NodeId) : NodeId → List NodeId → Prop
  | root : Under a root root []
  | child {p c : NodeId} {above : List NodeId} (h : Under a root p above)
      (hc : c ∈ a.children (some p)) : Under a root c (p :: above)

variable {a : Arena} {r n m c : NodeId} {above above' : List NodeId}

theorem under_nil : a.Under r n [] ↔ n = r := by
  constructor
  · rintro ⟨⟩
    rfl
  · rintro rfl
    exact .root

theorem under_cons : a.Under r n (m :: above) ↔ a.Under r m above ∧ n ∈ a.children (some m) := by
  constructor
  · intro h
    cases h with
    | child h hc => exact ⟨h, hc⟩
  · exact fun ⟨h, hc⟩ => .child h hc

theorem Under.reaches (ha : a.Owned) (h : a.Under r n above) :
    ∀ m ∈ above, TransGen a.OwnedBy n m := by
  induction h with
  | root => simp
  | @child p c above _ hc ih =>
    have hcp : a.OwnedBy c p := ha.owner_of_child p c hc
    intro m hm
    rcases List.mem_cons.1 hm with rfl | hm
    · exact .single hcp
    · exact .head hcp (ih m hm)

/-- No node is above itself. -/
theorem Under.not_mem (ha : a.Owned) (h : a.Under r n above) : n ∉ above :=
  fun hm => ha.acyclic n (h.reaches ha n hm)

theorem Under.reaches_root (ha : a.Owned) (h : a.Under r n above) :
    ReflTransGen a.OwnedBy n r := by
  induction h with
  | root => exact .refl
  | child _ hc ih => exact .head (ha.owner_of_child _ _ hc) ih

theorem Under.root_above (ha : a.Owned) (h : a.Under r r above) : above = [] := by
  cases above with
  | nil => rfl
  | cons m above =>
    obtain ⟨hm, hc⟩ := under_cons.1 h
    have hloop : TransGen a.OwnedBy r r :=
      .head' (ha.owner_of_child m r hc) (hm.reaches_root ha)
    exact absurd hloop (ha.acyclic r)

/-- There is one way up from a node. -/
theorem Under.unique (ha : a.Owned) (h : a.Under r n above) (h' : a.Under r n above') :
    above = above' := by
  induction h generalizing above' with
  | root => exact (h'.root_above ha).symm
  | @child p c above hp hc ih =>
    cases above' with
    | nil =>
      obtain rfl := under_nil.1 h'
      exact (Under.child hp hc).root_above ha
    | cons m above' =>
      obtain ⟨hm, hc'⟩ := under_cons.1 h'
      obtain rfl : p = m := (ha.owner_of_child p c hc).unique (ha.owner_of_child m c hc')
      rw [ih hm]

theorem Under.nodup (ha : a.Owned) (h : a.Under r n above) : (n :: above).Nodup := by
  induction h with
  | root => simp
  | child hp hc ih => exact List.nodup_cons.2 ⟨(Under.child hp hc).not_mem ha, ih⟩

theorem Under.get? (ha : a.Owned) (h : a.Under r n above) (hr : (a.get? r).isSome) :
    ∃ m, a.get? n = some m := by
  cases h with
  | root => exact Option.isSome_iff_exists.1 hr
  | child _ hc =>
    obtain ⟨m, hm, _⟩ := (ha.owner_of_child _ _ hc).get?
    exact ⟨m, hm⟩

theorem length_children_le {o : Node} (h : a.get? n = some o) :
    o.children.length ≤ a.childCount := by
  have hsum : ∀ (l : List Node) (k : Nat),
      k ≤ l.foldl (fun k m => k + m.children.length) k
        ∧ ∀ m ∈ l, m.children.length ≤ l.foldl (fun k m => k + m.children.length) k := by
    intro l
    induction l with
    | nil => simp
    | cons m l ih =>
      intro k
      obtain ⟨hk, hl⟩ := ih (k + m.children.length)
      refine ⟨(Nat.le_add_right ..).trans hk, fun m' hm' => ?_⟩
      rcases List.mem_cons.1 hm' with rfl | hm'
      · exact (Nat.le_add_left ..).trans hk
      · exact hl m' hm'
  unfold childCount
  rw [← Array.foldl_toList]
  exact (hsum _ 0).2 o (Array.mem_toList_iff.2 (Array.mem_of_getElem? h))

end ScopedTree.Arena
