import Mathlib.Logic.Relation
import ScopedTree.Proofs.Constant.Value

/-!
# The operands of an expression

The value of a node comes of the values of other nodes: those that its form is applied to, whichever
branch is taken, and for a name what its declarator starts it with. Where these nest no deeper than
so many levels, looking that far down finds all there is to find.

* `Arena.operands`            the nodes whose values a form asks for;
* `Arena.formValue?_congr`    nothing else matters to the value;
* `Tree.Exhausts`             so many levels reach all operands;
* `Tree.Exhausts.means_iff`   the value of a node is found on these levels;
* `Tree.Exhausts.not_above`   no node is among its own operands.
-/

namespace ScopedTree

/-- The nodes whose values an identifier asks for. -/
def Meaning.operands : Meaning → List (Option NodeId)
  | .starts init => [init]
  | _ => []

namespace Arena

variable (a : Arena) (value value' : Option NodeId → Option Primitive) (id : Option NodeId)

/-- Only the length of a string literal asks for the value of the object. -/
def memberOperands : List (Option NodeId) :=
  let property := a.child? id "property"
  if !a.isSet id "computed" && a.is property .identifier && a.name? property == some "length"
      && a.is (a.child? id "object") .stringLiteral then
    [a.child? id "object"]
  else []

/-- What `void` is applied to is not asked for, and neither is the value of a function or class. -/
def unaryOperands : List (Option NodeId) :=
  let op := (a.text? id "operator").getD ""
  let argument := a.child? id "argument"
  if op == "void" then []
  else if op == "typeof" && (a.isA argument .function || a.isA argument .classNode) then []
  else [argument]

/-- The nodes whose values a node asks for, in any branch. -/
def operands (meaning : Option NodeId → Meaning) (n : Node) : List (Option NodeId) :=
  match n.type with
  | .sequenceExpression => (a.items id "expressions").getLast?.toList
  | .templateLiteral => a.items id "expressions"
  | .conditionalExpression => ["test", "consequent", "alternate"].map (a.child? id)
  | .memberExpression => a.memberOperands id
  | .identifier => (meaning id).operands
  | .unaryExpression => a.unaryOperands id
  | .logicalExpression | .binaryExpression => ["left", "right"].map (a.child? id)
  | ty => if ty.isA .expressionWrapper then [a.child? id "expression"] else []

/-- Each text of a template is a node that texts are read from. -/
def Legible : Prop :=
  a.is id .templateLiteral = true → ∀ quasi ∈ a.items id "quasis",
    a.is quasi .templateElement = true

instance : Decidable (a.Legible id) :=
  inferInstanceAs (Decidable (_ → _))

theorem legible_of_forall {a : Arena} (h : ∀ i < a.size, a.Legible (some ⟨i⟩))
    (id : Option NodeId) :
    a.Legible id := by
  intro htemplate
  cases id with
  | none => cases htemplate
  | some n =>
    have hn : (a.get? n).isSome = true := by
      cases hn : a.get? n with
      | none => simp [Arena.is, Arena.type?, hn] at htemplate
      | some o => rfl
    exact h n.index (isSome_get?_iff.1 hn) htemplate

/-! ## values of operands -/

variable {a value value' id}

theorem templateValue?_congr {expressions : List (Option NodeId)}
    (h : ∀ d ∈ expressions, value d = value' d) (quasis : List (Option NodeId)) (text : String) :
    a.templateValue? value quasis expressions text = a.templateValue? value' quasis
    expressions text := by
  induction quasis generalizing expressions text with
  | nil => rfl
  | cons quasi quasis ih =>
    unfold templateValue?
    split
    · cases expressions with
      | nil => exact ih h _
      | cons e expressions =>
        obtain ⟨he, h⟩ := List.forall_mem_cons.1 h
        simp only [he]
        exact congrArg _ (funext fun _ => ih h _)
    · rfl

theorem memberValue?_congr (h : ∀ d ∈ a.memberOperands id, value d = value' d) :
    a.memberValue? value id = a.memberValue? value' id := by
  unfold memberOperands at h
  unfold memberValue?
  dsimp only at h ⊢
  split
  · next hlength =>
    rw [if_pos hlength] at h
    rw [h _ (List.mem_singleton_self _)]
  · rfl

theorem unaryValue?_congr (h : ∀ d ∈ a.unaryOperands id, value d = value' d) :
    a.unaryValue? value id = a.unaryValue? value' id := by
  unfold unaryOperands at h
  unfold unaryValue?
  dsimp only at h ⊢
  split
  · rfl
  · next hvoid =>
    rw [if_neg hvoid] at h
    split
    · rfl
    · next htypeof =>
      rw [if_neg htypeof] at h
      rw [h _ (List.mem_singleton_self _)]

theorem conditionalValue?_congr (htest : value (a.child? id "test") = value' (a.child? id "test"))
    (hthen : value (a.child? id "consequent") = value' (a.child? id "consequent"))
    (helse : value (a.child? id "alternate") = value' (a.child? id "alternate")) :
    a.conditionalValue? value id = a.conditionalValue? value' id := by
  unfold conditionalValue?
  rw [htest]
  refine congrArg _ (funext fun test => ?_)
  cases test.truthy with
  | true => exact hthen
  | false => exact helse

theorem meaningValue?_congr {m : Meaning} (h : ∀ d ∈ m.operands, value d = value' d) :
    meaningValue? value m = meaningValue? value' m := by
  cases m with
  | unclear => rfl
  | starts init => exact h init (List.mem_singleton_self _)
  | unbound name => rfl

/-- **The value of a node depends on the values of its operands only.** -/
theorem formValue?_congr {meaning : Option NodeId → Meaning} {n : Node}
    (h : ∀ d ∈ a.operands id meaning n, value d = value' d) :
    a.formValue? value meaning id n = a.formValue? value' meaning id n := by
  unfold operands at h
  unfold formValue?
  split
  · next hty =>
    simp only [hty] at h
    cases hlast : (a.items id "expressions").getLast? with
    | none => rfl
    | some last => exact h last (by simp [hlast])
  · rfl
  · rfl
  · rfl
  · rfl
  · next hty =>
    simp only [hty] at h
    exact templateValue?_congr h _ _
  · next hty =>
    simp only [hty] at h
    exact conditionalValue?_congr (h _ (by simp)) (h _ (by simp)) (h _ (by simp))
  · next hty =>
    simp only [hty] at h
    exact memberValue?_congr h
  · next hty =>
    simp only [hty] at h
    exact meaningValue?_congr h
  · next hty =>
    simp only [hty] at h
    exact unaryValue?_congr h
  · next hty =>
    simp only [hty] at h
    unfold logicalValue?
    rw [h _ (by simp), h (a.child? id "right") (by simp)]
  · next hty =>
    simp only [hty] at h
    unfold binaryValue?
    rw [h _ (by simp), h (a.child? id "right") (by simp)]
  · simp only [*] at h
    split
    · next hwrapper =>
      rw [if_pos hwrapper] at h
      exact h _ (List.mem_singleton_self _)
    · rfl

end Arena

namespace Tree

open Relation

variable {t : Tree} {id d : Option NodeId} {v : Primitive} {levels levels' : Nat}

/-- The nodes whose values the node asks for. -/
def operands (t : Tree) (id : Option NodeId) : List (Option NodeId) :=
  (t.arena.look id).elim [] (t.arena.operands id t.meaning)

/-- The value of the node may depend on that of `d`. -/
def Operand (t : Tree) (id d : Option NodeId) : Prop := d ∈ t.operands id

/-- Operands, their operands and so on end within so many levels. -/
def Exhausts (t : Tree) : Nat → Option NodeId → Prop
  | 0, _ => False
  | levels + 1, id => ∀ d ∈ t.operands id, t.Exhausts levels d

instance Exhausts.decidable (t : Tree) : ∀ levels id, Decidable (t.Exhausts levels id)
  | 0, _ => .isFalse not_false
  | levels + 1, id =>
    have (d : Option NodeId) : Decidable (t.Exhausts levels d) := Exhausts.decidable t levels d
    inferInstanceAs (Decidable (∀ d ∈ t.operands id, t.Exhausts levels d))

theorem Exhausts.constantValue?_eq (h : t.Exhausts levels id) (hle : levels ≤ levels') :
    t.constantValue? levels' id = t.constantValue? levels id := by
  induction levels generalizing id levels' with
  | zero => exact h.elim
  | succ levels ih =>
    obtain ⟨levels', rfl⟩ := Nat.exists_eq_succ_of_ne_zero (Nat.ne_zero_of_lt hle)
    cases hn : t.arena.look id with
    | none => simp [constantValue?, hn]
    | some n =>
      have hoperands : t.operands id = t.arena.operands id t.meaning n := by
        unfold operands
        rw [hn]
        rfl
      have hvalue : t.arena.formValue? (t.constantValue? levels') t.meaning id n
          = t.arena.formValue? (t.constantValue? levels) t.meaning id n :=
        Arena.formValue?_congr fun d hd => ih (h d (hoperands ▸ hd)) (Nat.le_of_succ_le_succ hle)
      simpa [constantValue?, hn] using hvalue

/-- **The value of a node is found on the levels that reach all operands.** -/
theorem Exhausts.means_iff (h : t.Exhausts levels id) :
    t.Means id v ↔ t.constantValue? levels id = some v := by
  refine ⟨fun ⟨levels', hv⟩ => ?_, fun hv => ⟨levels, hv⟩⟩
  rw [← h.constantValue?_eq (Nat.le_max_left levels levels')]
  exact constantValue?_mono (Nat.le_max_right levels levels') hv

/-- **Where operands end, no node is among its own.** -/
theorem Exhausts.not_above (h : t.Exhausts levels id) : ¬ TransGen t.Operand id id := by
  induction levels generalizing id with
  | zero => exact h.elim
  | succ levels ih =>
    intro hloop
    obtain ⟨d, hd, hback⟩ := TransGen.head'_iff.1 hloop
    exact ih (h d hd) (TransGen.tail' hback hd)

end Tree

end ScopedTree
