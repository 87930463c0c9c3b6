/-!
# Tables keyed by index

A finite map from small numbers, stored as an array with gaps.
-/

namespace ScopedTree

/-- A finite map from numbers to `α`. -/
structure IndexTable (α : Type) where
  slots : Array (Option α) := #[]
  deriving Inhabited

namespace IndexTable

variable {α : Type}

def get? (t : IndexTable α) (i : Nat) : Option α := t.slots[i]?.join

/-- Puts an entry at `i`, in place of an older one. -/
def put (t : IndexTable α) (i : Nat) (x : α) : IndexTable α :=
  if i < t.slots.size then ⟨t.slots.setIfInBounds i (some x)⟩
  else ⟨(t.slots ++ Array.replicate (i - t.slots.size) none).push (some x)⟩

def drop (t : IndexTable α) (i : Nat) : IndexTable α := ⟨t.slots.setIfInBounds i none⟩

def filter (t : IndexTable α) (keep : α → Bool) : IndexTable α :=
  ⟨t.slots.map (·.filter keep)⟩

@[simp] theorem get?_empty (i : Nat) : ({} : IndexTable α).get? i = none := by simp [get?]

theorem get?_put (t : IndexTable α) (i j : Nat) (x : α) :
    (t.put i x).get? j = if j = i then some x else t.get? j := by
  unfold put get?
  by_cases h : i < t.slots.size
  · by_cases hj : j = i
    · simp [h, hj]
    · simp [h, hj, Ne.symm hj]
  · simp only [h, ↓reduceIte]
    grind

theorem get?_drop (t : IndexTable α) (i j : Nat) :
    (t.drop i).get? j = if j = i then none else t.get? j := by
  unfold drop get?
  grind

theorem get?_filter (t : IndexTable α) (keep : α → Bool) (i : Nat) :
    (t.filter keep).get? i = (t.get? i).filter keep := by
  unfold filter get?
  cases h : t.slots[i]? <;> simp [h]

end IndexTable

end ScopedTree
