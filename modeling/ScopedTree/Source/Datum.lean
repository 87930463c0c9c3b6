/-!
# Structured data

Free-form data that is attached to nodes, paths and scopes, and the form in which a subtree is
written out. Whole numbers and floating-point numbers are kept apart.

* `Datum`   the values, with readers such as `Datum.entry` and `Datum.asText`;
* `Table`   a table from names to values.
-/

namespace ScopedTree

/-- A value of structured data. -/
inductive Datum where
  | null
  | bool (value : Bool)
  | int (value : Int)
  | float (value : Float)
  | str (value : String)
  | arr (items : List Datum)
  | obj (entries : List (String × Datum))
  deriving Inhabited

namespace Datum

/-- Null in place of a missing value, else the value shown with `f`. -/
def ofOption {α : Type} (f : α → Datum) : Option α → Datum
  | some x => f x
  | none => null

def texts (ss : List String) : Datum := arr (ss.map str)

def flags (bs : List Bool) : Datum := arr (bs.map bool)

def items : Datum → List Datum
  | arr items => items
  | _ => []

def entries : Datum → List (String × Datum)
  | obj entries => entries
  | _ => []

def hasKey (d : Datum) (key : String) : Bool := (d.entries.lookup key).isSome

/-- The entry of a name, or null. -/
def entry (d : Datum) (key : String) : Datum := (d.entries.lookup key).getD null

def asText? : Datum → Option String
  | str s => some s
  | _ => none

/-- A text; empty for other data. -/
def asText (d : Datum) : String := d.asText?.getD ""

/-- A truth value; false for other data. -/
def asFlag : Datum → Bool
  | bool b => b
  | _ => false

/-- A whole number from zero on, if it is one. -/
def asNat? : Datum → Option Nat
  | int i => if i < 0 then none else some i.toNat
  | _ => none

/-- A whole number from zero on; zero for other data. -/
def asNat (d : Datum) : Nat := d.asNat?.getD 0

end Datum

/-- A table from names to `α`, in the order in which the names were first put in. -/
abbrev Table (α : Type) := List (String × α)

namespace Table

variable {α : Type}

def get? (t : Table α) (name : String) : Option α := t.lookup name

def has (t : Table α) (name : String) : Bool := (t.lookup name).isSome

/-- Puts an entry in: in place of an older one of that name, else at the end. -/
def put : Table α → String → α → Table α
  | [], name, value => [(name, value)]
  | (key, old) :: t, name, value =>
    if key = name then (name, value) :: t else (key, old) :: put t name value

def drop (t : Table α) (name : String) : Table α :=
  t.filter fun entry => entry.1 != name

def names (t : Table α) : List String := t.map (·.1)

@[simp] theorem get?_nil (name : String) : get? ([] : Table α) name = none := rfl

theorem get?_cons (key name : String) (value : α) (t : Table α) :
    get? ((key, value) :: t) name = if name = key then some value else t.get? name := by
  rw [get?, List.lookup_cons]
  by_cases h : name = key <;> simp [get?, h, beq_eq_false_iff_ne.2]

theorem get?_put (t : Table α) (name other : String) (value : α) :
    (t.put name value).get? other = if other = name then some value else t.get? other := by
  induction t with
  | nil => simp [put, get?_cons]
  | cons entry t ih =>
    obtain ⟨key, old⟩ := entry
    by_cases hk : key = name
    · by_cases ho : other = name <;> simp [put, get?_cons, hk, ho]
    · by_cases ho : other = key
      · simp [put, get?_cons, hk, ho]
      · simp [put, get?_cons, hk, ho, ih]

theorem get?_drop (t : Table α) (name other : String) :
    (t.drop name).get? other = if other = name then none else t.get? other := by
  induction t with
  | nil => simp [drop]
  | cons entry t ih =>
    obtain ⟨key, old⟩ := entry
    rw [drop] at ih ⊢
    by_cases hk : key = name
    · by_cases ho : other = name <;> simp_all [get?_cons]
    · by_cases ho : other = key <;> simp_all [get?_cons]

theorem names_put (t : Table α) (name : String) (value : α) :
    (t.put name value).names = if name ∈ t.names then t.names else t.names ++ [name] := by
  induction t with
  | nil => simp [put, names]
  | cons entry t ih =>
    obtain ⟨key, old⟩ := entry
    by_cases hk : key = name
    · simp [put, names, hk]
    · have hn : ¬ name = key := fun h => hk h.symm
      simp only [names] at ih
      by_cases hm : name ∈ t.map (·.1) <;> simp_all [put, names]

end Table

end ScopedTree
