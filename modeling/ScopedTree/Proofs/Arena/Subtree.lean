import ScopedTree.Arena.Walk
import ScopedTree.Proofs.Arena.Ownership

/-!
# The nodes of a subtree

The walk over a subtree gives each node that hangs under its root once, and no other.

* `Arena.Walking`        what a walk has seen, and what it has on its stack;
* `Arena.mem_preorder`   the nodes that it gives.
-/

namespace ScopedTree.Arena

open Relation

variable {a : Arena} {n m x : NodeId} {stack seen : List NodeId}

/-- A walk below `n` has seen some nodes and has others on its stack. All hang under `n`, and the
children of those it has seen are among them. -/
structure Walking (a : Arena) (n : NodeId) (stack seen : List NodeId) : Prop where
  nodup : (stack ++ seen).Nodup
  within : ∀ x ∈ stack ++ seen, ReflTransGen a.OwnedBy x n
  entered : ∀ x ∈ stack ++ seen, x = n ∨ ∃ o ∈ seen, a.OwnedBy x o
  closed : ∀ x ∈ seen, ∀ c ∈ a.children (some x), c ∈ stack ++ seen
  top : n ∈ stack ++ seen

theorem Walking.step (h : a.Walking n (x :: stack) seen) (ha : a.Owned) :
    a.Walking n (a.children (some x) ++ stack) (x :: seen) := by
  have hperm : (a.children (some x) ++ stack ++ x :: seen).Perm
      (a.children (some x) ++ (x :: stack ++ seen)) := by
    rw [List.append_assoc]
    exact List.perm_middle.append_left _
  have hmem {y : NodeId} : y ∈ a.children (some x) ++ stack ++ x :: seen
      ↔ y ∈ a.children (some x) ∨ y ∈ x :: stack ++ seen := by
    rw [hperm.mem_iff, List.mem_append]
  have hx : ReflTransGen a.OwnedBy x n := h.within x (List.mem_cons_self ..)
  have hnew (c : NodeId) (hc : c ∈ a.children (some x)) : c ∉ x :: stack ++ seen := fun hold => by
    have hcx := ha.owner_of_child x c hc
    rcases h.entered c hold with rfl | ⟨o, ho, hco⟩
    · -- a node does not hang under itself
      exact ha.acyclic c (.head' hcx hx)
    · obtain rfl := hcx.unique hco
      exact (List.nodup_cons.1 h.nodup).1 (List.mem_append_right _ ho)
  refine ⟨hperm.nodup_iff.2 (List.nodup_append.2 ⟨ha.nodup_children x, h.nodup,
    fun c hc y hy hcy => ?_⟩),
    fun y hy => ?_, fun y hy => ?_, fun y hy c hc => hmem.2 ?_, hmem.2 (.inr h.top)⟩
  · exact hnew c hc (hcy ▸ hy)
  · rcases hmem.1 hy with hy | hy
    · exact .head (ha.owner_of_child x y hy) hx
    · exact h.within y hy
  · rcases hmem.1 hy with hy | hy
    · exact .inr ⟨x, List.mem_cons_self .., ha.owner_of_child x y hy⟩
    · exact (h.entered y hy).imp_right fun ⟨o, ho, hyo⟩ => ⟨o, List.mem_cons_of_mem _ ho, hyo⟩
  · rcases List.mem_cons.1 hy with rfl | hy
    · exact .inl hc
    · exact .inr (h.closed y hy c hc)

theorem length_le_size {l : List NodeId} (hl : l.Nodup) (hlt : ∀ x ∈ l, x.index < a.size) :
    l.length ≤ a.size := by
  have hnodup : (l.map NodeId.index).Nodup := hl.map fun x y hxy => by cases x; cases y; simp_all
  have hsub : (l.map NodeId.index) ⊆ List.range a.size := fun i hi => by
    obtain ⟨x, hx, rfl⟩ := List.mem_map.1 hi
    exact List.mem_range.2 (hlt x hx)
  have hle := (hnodup.subperm hsub).length_le
  rwa [List.length_map, List.length_range] at hle

theorem Walking.length_le (h : a.Walking n stack seen) (hn : n.index < a.size) :
    seen.length ≤ a.size := by
  refine length_le_size (List.nodup_append.1 h.nodup).2.1 fun x hx => ?_
  rcases h.entered x (List.mem_append_right _ hx) with rfl | ⟨o, -, ho⟩
  · exact hn
  · exact ho.lt

theorem size_lt_walkBound (a : Arena) : a.size < a.walkBound := by
  unfold walkBound
  calc a.size < 1 * (a.size + 1) := by omega
    _ ≤ (a.childCount + 2) * (a.size + 1) := Nat.mul_le_mul_right _ (by omega)

theorem Walking.walkFrom (ha : a.Owned) (hn : n.index < a.size) : ∀ (fuel : Nat)
    {stack seen : List NodeId}, a.Walking n stack seen → a.size < fuel + seen.length →
    a.Walking n [] (a.walkFrom (fun seen id => (id :: seen, true)) fuel stack seen)
  | 0, _, _, h, hfuel => absurd hfuel (by have := h.length_le hn; omega)
  | fuel + 1, [], _, h, _ => h
  | fuel + 1, x :: stack, seen, h, hfuel => by
    have hlt : x.index < a.size := by
      rcases h.entered x (List.mem_cons_self ..) with rfl | ⟨o, -, ho⟩
      · exact hn
      · exact ho.lt
    obtain ⟨k, hk⟩ := Option.isSome_iff_exists.1 (isSome_get?_iff.2 hlt)
    have hnext := h.step ha
    rw [children_some, hk] at hnext
    rw [Arena.walkFrom, hk]
    exact Walking.walkFrom ha hn fuel hnext (by rw [List.length_cons]; omega)

/-- **The nodes of a subtree** are those that hang under its root. -/
theorem mem_preorder (ha : a.Owned) (hn : n.index < a.size) :
    m ∈ a.preorder (some n) ↔ ReflTransGen a.OwnedBy m n := by
  have hstart : a.Walking n [n] [] := by
    refine ⟨List.nodup_singleton n, fun x hx => ?_, fun x hx => ?_, nofun,
      List.mem_singleton_self n⟩
    · rw [List.append_nil, List.mem_singleton] at hx
      exact hx ▸ .refl
    · rw [List.append_nil, List.mem_singleton] at hx
      exact .inl hx
  have hend := Walking.walkFrom ha hn a.walkBound hstart a.size_lt_walkBound
  refine List.mem_reverse.trans ⟨hend.within m, fun hm => ?_⟩
  induction hm using ReflTransGen.head_induction_on with
  | refl => exact hend.top
  | head hmo _ ih => exact hend.closed _ ih _ (ha.mem_children_iff.2 hmo)

end ScopedTree.Arena
