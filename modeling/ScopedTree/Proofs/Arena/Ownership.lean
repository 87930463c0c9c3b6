import Mathlib.Data.Finset.Card
import Mathlib.Data.Finset.Filter
import Mathlib.Data.Finset.Range
import Mathlib.Logic.Relation
import ScopedTree.Proofs.Arena.Update

/-!
# Single ownership

Children and owners are two views of one forest.

* `Arena.OwnedBy`        `c` names `p` as its owner;
* `Arena.Owned`          what a node lists, it owns, once, and nothing lies below itself;
* `Arena.isWithin_iff`   the search along owner links finds every owner;
* `Arena.Owned.rewire`, `Owned.overwrite`   changes of the children of one node, and of one of its
  fields, that keep ownership single.
-/

namespace ScopedTree.Arena

open Relation

/-- `c` is a node whose owner link is `p`. -/
def OwnedBy (a : Arena) (c p : NodeId) : Prop := a.parentOf (some c) = some p

/-- Ownership is single: children and owner links agree, a node stands in one place, and no node
lies below itself. -/
structure Owned (a : Arena) : Prop where
  /-- what a node lists names it as its owner -/
  owner_of_child : ∀ p c, c ∈ a.children (some p) → a.OwnedBy c p
  /-- an owner lists the node in one place -/
  count_of_owner : ∀ p c, a.OwnedBy c p → (a.children (some p)).count c = 1
  /-- no node lies below itself -/
  acyclic : ∀ c, ¬ TransGen a.OwnedBy c c

variable {a b : Arena} {c p q m : NodeId}

theorem OwnedBy.get? (h : a.OwnedBy c p) : ∃ n, a.get? c = some n ∧ n.parent = some p :=
  get?_of_parentOf h

theorem OwnedBy.lt (h : a.OwnedBy c p) : c.index < a.size := by
  obtain ⟨n, hn, _⟩ := h.get?
  exact get?_eq_some_lt hn

theorem OwnedBy.unique (h : a.OwnedBy c p) (h' : a.OwnedBy c q) : p = q :=
  Option.some.inj (h.symm.trans h')

theorem Owned.mem_children (ha : a.Owned) (h : a.OwnedBy c p) : c ∈ a.children (some p) := by
  have h1 := ha.count_of_owner p c h
  exact List.count_pos_iff.1 (by omega)

theorem Owned.mem_children_iff (ha : a.Owned) : c ∈ a.children (some p) ↔ a.OwnedBy c p :=
  ⟨ha.owner_of_child p c, ha.mem_children⟩

theorem Owned.nodup_children (ha : a.Owned) (p : NodeId) : (a.children (some p)).Nodup := by
  rw [List.nodup_iff_count_le_one]
  intro c
  by_cases hc : c ∈ a.children (some p)
  · rw [ha.count_of_owner p c (ha.owner_of_child p c hc)]
  · rw [List.count_eq_zero_of_not_mem hc]
    exact Nat.zero_le 1

theorem Owned.owner_lt (ha : a.Owned) (h : a.OwnedBy c p) : p.index < a.size := by
  obtain ⟨n, hn, _⟩ := get?_of_mem_children (ha.mem_children h)
  exact get?_eq_some_lt hn

theorem Owned.owner_ne (ha : a.Owned) (h : a.OwnedBy c p) : c ≠ p := by
  rintro rfl
  exact ha.acyclic c (.single h)

theorem owned_empty : ({} : Arena).Owned where
  owner_of_child p c h := by
    obtain ⟨n, hn, _⟩ := get?_of_mem_children h
    simp [Arena.get?] at hn
  count_of_owner p c h := by
    obtain ⟨n, hn, _⟩ := h.get?
    simp [Arena.get?] at hn
  acyclic c h := by
    cases TransGen.head'_iff.1 h with
    | intro p hp =>
      obtain ⟨n, hn, _⟩ := hp.1.get?
      simp [Arena.get?] at hn

/-! ## the search along owner links -/

section Search

open Classical in
noncomputable def above (a : Arena) (c : NodeId) : Finset Nat :=
  (Finset.range a.size).filter fun i => TransGen a.OwnedBy c ⟨i⟩

theorem mem_above (ha : a.Owned) : p.index ∈ a.above c ↔ TransGen a.OwnedBy c p := by
  simp only [above, Finset.mem_filter, Finset.mem_range, and_iff_right_iff_imp]
  intro h
  obtain ⟨m, _, hm⟩ := TransGen.tail'_iff.1 h
  exact ha.owner_lt hm

theorem card_above_lt (ha : a.Owned) (h : a.OwnedBy c p) : (a.above p).card < (a.above c).card := by
  apply Finset.card_lt_card
  rw [Finset.ssubset_iff_of_subset]
  · refine ⟨p.index, (mem_above ha).2 (.single h), fun hp => ?_⟩
    exact ha.acyclic p ((mem_above ha).1 hp)
  · intro i hi
    exact (mem_above (p := ⟨i⟩) ha).2 (.head h ((mem_above (p := ⟨i⟩) ha).1 hi))

theorem card_above_le (a : Arena) (c : NodeId) : (a.above c).card ≤ a.size := by
  classical
  refine (Finset.card_filter_le _ _).trans ?_
  rw [Finset.card_range]

theorem reaches_of_above (ha : a.Owned) :
    ∀ (fuel : Nat) (c : NodeId), (a.above c).card < fuel → ReflTransGen a.OwnedBy c p →
      a.reaches (some p) fuel (some c) = true
  | 0, _, h, _ => absurd h (Nat.not_lt_zero _)
  | fuel + 1, c, h, hp => by
    rw [reaches, Bool.or_eq_true, beq_iff_eq]
    rcases ReflTransGen.cases_head hp with rfl | ⟨m, hm, hmp⟩
    · exact .inl rfl
    · right
      rw [show a.parentOf (some c) = some m from hm]
      have := card_above_lt ha hm
      exact reaches_of_above ha fuel m (by omega) hmp

theorem above_of_reaches :
    ∀ (fuel : Nat) (c : NodeId), a.reaches (some p) fuel (some c) = true →
      ReflTransGen a.OwnedBy c p
  | 0, _, h => by simp [reaches] at h
  | fuel + 1, c, h => by
    rw [reaches, Bool.or_eq_true, beq_iff_eq] at h
    rcases h with h | h
    · exact Option.some.inj h ▸ .refl
    · cases hm : a.parentOf (some c) with
      | none => simp [hm, reaches] at h
      | some m => exact .head hm (above_of_reaches fuel m (hm ▸ h))

/-- The search finds a node exactly if it is the starting point or lies above. -/
theorem isWithin_iff (ha : a.Owned) :
    a.isWithin (some c) (some p) = true ↔ ReflTransGen a.OwnedBy c p := by
  refine ⟨above_of_reaches _ c, reaches_of_above ha _ c ?_⟩
  have := card_above_le a c
  omega

end Search

/-! ## changing the children of one node -/

section Rewire

variable {out ins : List NodeId}

/-- After some nodes without owner were put below `p`, a way up either uses old links only or goes
through one of them to `p`. -/
theorem up_of_rewire (ho : ∀ c, b.parentOf (some c)
      = if c ∈ ins then some p else if c ∈ out then none else a.parentOf (some c))
    (hins : ∀ c ∈ ins, ¬ ReflTransGen a.OwnedBy p c) {x y : NodeId}
    (h : TransGen b.OwnedBy x y) :
    TransGen a.OwnedBy x y ∨ ∃ c ∈ ins, ReflTransGen a.OwnedBy x c
      ∧ ReflTransGen a.OwnedBy p y := by
  have hstep : ∀ {y z}, b.OwnedBy y z → y ∉ ins → a.OwnedBy y z := by
    intro y z hyz hy
    have hb : b.parentOf (some y) = some z := hyz
    rw [ho, if_neg hy] at hb
    by_cases hout : y ∈ out
    · simp [hout] at hb
    · rwa [if_neg hout] at hb
  have hnew : ∀ {y z}, b.OwnedBy y z → y ∈ ins → z = p := by
    intro y z hyz hy
    have hb : b.parentOf (some y) = some z := hyz
    rw [ho, if_pos hy] at hb
    exact (Option.some.inj hb).symm
  induction h with
  | @single y hxy =>
    by_cases hx : x ∈ ins
    · exact .inr ⟨x, hx, .refl, hnew hxy hx ▸ .refl⟩
    · exact .inl (.single (hstep hxy hx))
  | @tail y z _ hyz ih =>
    by_cases hy : y ∈ ins
    · obtain rfl := hnew hyz hy
      rcases ih with h | ⟨c, _, _, hpy⟩
      · exact .inr ⟨y, hy, h.to_reflTransGen, .refl⟩
      · exact absurd hpy (hins y hy)
    · rcases ih with h | ⟨c, hc, hxc, hpy⟩
      · exact .inl (h.tail (hstep hyz hy))
      · exact .inr ⟨c, hc, hxc, hpy.tail (hstep hyz hy)⟩

/-- **A change of the children of one node.** The nodes `out` leave the node `p` and the nodes `ins`
come to it: those had no owner and `p` does not lie below them. -/
theorem Owned.rewire (ha : a.Owned) (ins out : List NodeId)
    (hother : ∀ q, q ≠ p → b.children (some q) = a.children (some q))
    (hcount : ∀ c, (b.children (some p)).count c
      = if c ∈ ins then 1 else if c ∈ out then 0 else (a.children (some p)).count c)
    (ho : ∀ c, b.parentOf (some c)
      = if c ∈ ins then some p else if c ∈ out then none else a.parentOf (some c))
    (hout : ∀ c ∈ out, a.OwnedBy c p)
    (hins : ∀ c ∈ ins, a.parentOf (some c) = none ∧ ¬ ReflTransGen a.OwnedBy p c) :
    b.Owned where
  owner_of_child q c hc := by
    show b.parentOf (some c) = some q
    rw [ho]
    by_cases hq : q = p
    · subst hq
      have hpos := List.count_pos_iff.2 hc
      rw [hcount] at hpos
      by_cases hi : c ∈ ins
      · rw [if_pos hi]
      · rw [if_neg hi] at hpos ⊢
        by_cases h : c ∈ out
        · simp [h] at hpos
        · rw [if_neg h] at hpos ⊢
          exact ha.owner_of_child q c (List.count_pos_iff.1 hpos)
    · rw [hother q hq] at hc
      have hown : a.parentOf (some c) = some q := ha.owner_of_child q c hc
      have hi : c ∉ ins := fun hi => by simp [(hins c hi).1] at hown
      have h : c ∉ out := fun h => hq ((hout c h).unique hown).symm
      rw [if_neg hi, if_neg h, hown]
  count_of_owner q c hc := by
    have hb : b.parentOf (some c) = some q := hc
    rw [ho] at hb
    by_cases hi : c ∈ ins
    · rw [if_pos hi] at hb
      obtain rfl := Option.some.inj hb
      rw [hcount, if_pos hi]
    · rw [if_neg hi] at hb
      by_cases h : c ∈ out
      · simp [h] at hb
      · rw [if_neg h] at hb
        have h1 := ha.count_of_owner q c hb
        by_cases hq : q = p
        · subst hq
          rw [hcount, if_neg hi, if_neg h, h1]
        · rw [hother q hq, h1]
  acyclic c hc := by
    rcases up_of_rewire ho (fun c hc => (hins c hc).2) hc with h | ⟨i, hi, hci, hpc⟩
    · exact ha.acyclic c h
    · exact (hins i hi).2 (hpc.trans hci)

theorem Owned.of_eq (ha : a.Owned) (hc : ∀ q, b.children (some q) = a.children (some q))
    (ho : ∀ c, b.parentOf (some c) = a.parentOf (some c)) : b.Owned :=
  ha.rewire (p := ⟨0⟩) [] [] (fun q _ => hc q) (fun _ => by simp [hc])
    (fun _ => by simp [ho]) (by simp) (by simp)

end Rewire

/-! ## changing one field of one node -/

section Overwrite

variable {n : Node} {field : String} {old new : Value}

theorem Owned.owner_of_field (ha : a.Owned) (hn : a.get? p = some n)
    (hv : n.value? field = some old) (hc : c ∈ old.children) : a.OwnedBy c p := by
  have hpos := List.count_pos_iff.2 hc
  have hle := n.count_children_le hv c
  refine ha.owner_of_child p c ?_
  rw [children_some, hn]
  exact List.count_pos_iff.1 (show 0 < n.children.count c by omega)

theorem Owned.count_field_le_one (ha : a.Owned) (hn : a.get? p = some n)
    (hv : n.value? field = some old) (c : NodeId) : old.children.count c ≤ 1 := by
  refine (n.count_children_le hv c).trans ?_
  have h := List.nodup_iff_count_le_one.1 (ha.nodup_children p) c
  rw [children_some, hn] at h
  exact h

theorem Owned.count_field_eq_zero (ha : a.Owned) (hn : a.get? p = some n)
    (hv : n.value? field = some old) (hc : a.parentOf (some c) = none) :
    old.children.count c = 0 := by
  rw [List.count_eq_zero]
  intro hm
  have hown : a.parentOf (some c) = some p := ha.owner_of_field hn hv hm
  rw [hc] at hown
  cases hown

/-- **A field that is overwritten.** Of the children of the field the entries `out` go, and the
entries `ins` come. The owner links follow. -/
theorem Owned.overwrite (ha : a.Owned) (new : Value) (out ins : List (Option NodeId))
    (hn : a.get? p = some n) (hv : n.value? field = some old)
    (hnew : ∀ c, new.children.count c
      = if some c ∈ ins then 1 else if some c ∈ out then 0 else old.children.count c)
    (hout : ∀ c, some c ∈ out → c ∈ old.children)
    (hins : ∀ c, some c ∈ ins →
      c.index < a.size ∧ a.parentOf (some c) = none ∧ ¬ ReflTransGen a.OwnedBy p c) :
    (((a.update (some p) (·.withValue field new)).setParents out none).setParents ins
      (some p)).Owned := by
  have hp : a.children (some p) = n.children := by
    rw [children_some, hn]
    rfl
  have hown : ∀ c, some c ∈ out → a.OwnedBy c p := fun c hc => ha.owner_of_field hn hv (hout c hc)
  have hlist : ∀ {c : NodeId} {l : List (Option NodeId)}, c ∈ l.filterMap id ↔ some c ∈ l := by simp
  refine ha.rewire (p := p) (ins.filterMap id) (out.filterMap id) ?_ ?_ ?_ ?_ ?_
  · intro q hq
    rw [children_setParents, children_setParents, children_update, if_neg hq]
  · intro c
    have hc := n.count_children_withValue hv new c
    have hle := n.count_children_le hv c
    rw [children_setParents, children_setParents, children_update, if_pos rfl, hn, hp]
    simp only [hlist]
    show (n.withValue field new).children.count c = _
    rw [hnew c] at hc
    by_cases hi : some c ∈ ins
    · have h0 : n.children.count c = 0 := by
        rw [← hp, List.count_eq_zero]
        intro hm
        have hown : a.parentOf (some c) = some p := ha.owner_of_child p c hm
        rw [(hins c hi).2.1] at hown
        cases hown
      rw [if_pos hi] at hc ⊢
      omega
    · rw [if_neg hi] at hc ⊢
      by_cases h : some c ∈ out
      · have hpos := List.count_pos_iff.2 (hout c h)
        have h1 := ha.count_of_owner p c (hown c h)
        rw [hp] at h1
        rw [if_pos h] at hc ⊢
        omega
      · rw [if_neg h] at hc ⊢
        omega
  · intro c
    simp only [parentOf_setParents, size_setParents, size_update, hlist,
      parentOf_update_of_eq fun n => Node.parent_withValue n field new]
    by_cases hi : some c ∈ ins
    · rw [if_pos ⟨hi, (hins c hi).1⟩, if_pos hi]
    · rw [if_neg fun h => hi h.1, if_neg hi]
      by_cases h : some c ∈ out
      · rw [if_pos ⟨h, (hown c h).lt⟩, if_pos h]
      · rw [if_neg fun h' => h h'.1, if_neg h]
  · intro c hc
    exact hown c (hlist.1 hc)
  · intro c hc
    exact (hins c (hlist.1 hc)).2

end Overwrite

end ScopedTree.Arena
