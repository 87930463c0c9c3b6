import ScopedTree.Constant.Evaluate
import ScopedTree.Proofs.Path.Coherent

/-!
# The value of a constant

What the value of an expression is can be said without memos and without keeping track of the nodes
met: by the forms of expressions, and for a name by what its declarator starts it with.

* `Tree.meaning`     what an identifier stands for;
* `Arena.Rises`      values that are found stay when more values are known;
* `Tree.constantValue?`   the value of a node, looking at most so many levels down;
* `Tree.Means`       the value of a node;
* `Tree.Asks`        what the evaluation of a node of a straight-line program asks for.
-/

namespace ScopedTree

/-- What an identifier stands for. -/
inductive Meaning where
  | unclear
  /-- A constant that starts with the value of a node. -/
  | starts (init : Option NodeId)
  /-- A name that nothing binds. -/
  | unbound (name : String)
  deriving DecidableEq

def unboundValue? : String → Option Primitive
  | "undefined" => some .undefined
  | "Infinity" => some (.number (1 / 0))
  | "NaN" => some (.number (0 / 0))
  | _ => none

namespace Arena

section Forms

variable (a : Arena) (value : Option NodeId → Option Primitive)

/-- The texts of a template joined with the values between them. -/
def templateValue? : List (Option NodeId) → List (Option NodeId) → String → Option Primitive
  | [], _, text => some (.string text)
  | quasi :: quasis, expressions, text =>
    match (do (← a.node quasi).text "cooked" : Except ShapeError (Option String)) with
    | .ok (some cooked) =>
      match expressions with
      | [] => templateValue? quasis [] (text ++ cooked)
      | e :: expressions =>
        (value e).bind fun v => templateValue? quasis expressions (text ++ cooked ++ v.text)
    | _ => none

def lengthValue? : Primitive → Option Primitive
  | .string s => some (.number (Float.ofNat (units16 s).length))
  | _ => none

def memberValue? (id : Option NodeId) : Option Primitive :=
  let property := a.child? id "property"
  if !a.isSet id "computed" && a.is property .identifier && a.name? property == some "length"
      && a.is (a.child? id "object") .stringLiteral then
    (value (a.child? id "object")).bind lengthValue?
  else none

def unaryValue? (id : Option NodeId) : Option Primitive :=
  let op := (a.text? id "operator").getD ""
  let argument := a.child? id "argument"
  if op == "void" then some .undefined
  else if op == "typeof" && (a.isA argument .function || a.isA argument .classNode) then
    some (.string "function")
  else (value argument).bind (·.applyUnary op)

def binaryValue? (id : Option NodeId) : Option Primitive :=
  (value (a.child? id "left")).bind fun left =>
    (value (a.child? id "right")).bind fun right =>
      Primitive.applyBinary ((a.text? id "operator").getD "") left right

/-- The left side of a logical expression, if that decides, and else the right one. -/
def decidedValue? (op : String) (left : Primitive) (right : Option Primitive) : Option Primitive :=
  (Evaluation.decidesLeft? op left).bind fun decided => if decided then some left else right

def logicalValue? (id : Option NodeId) : Option Primitive :=
  (value (a.child? id "left")).bind fun left =>
    decidedValue? ((a.text? id "operator").getD "") left (value (a.child? id "right"))

def conditionalValue? (id : Option NodeId) : Option Primitive :=
  (value (a.child? id "test")).bind fun test =>
    value (a.child? id (if test.truthy then "consequent" else "alternate"))

def meaningValue? : Meaning → Option Primitive
  | .unclear => none
  | .starts init => value init
  | .unbound name => unboundValue? name

def formValue? (meaning : Option NodeId → Meaning) (id : Option NodeId) (n : Node) :
    Option Primitive :=
  match n.type with
  | .sequenceExpression => (a.items id "expressions").getLast?.bind value
  | .stringLiteral => (n.text "value").toOption.map fun text => .string (text.getD "")
  | .numericLiteral => (n.number "value").toOption.map .number
  | .booleanLiteral => (n.flag "value").toOption.map .bool
  | .nullLiteral => some .null
  | .templateLiteral => a.templateValue? value (a.items id "quasis") (a.items id "expressions") ""
  | .conditionalExpression => a.conditionalValue? value id
  | .memberExpression => a.memberValue? value id
  | .identifier => meaningValue? value (meaning id)
  | .unaryExpression => a.unaryValue? value id
  | .logicalExpression => a.logicalValue? value id
  | .binaryExpression => a.binaryValue? value id
  | ty => if ty.isA .expressionWrapper then value (a.child? id "expression") else none

end Forms

/-! ## more values -/

/-- What comes of the values of some nodes stays as it is when more values are known. -/
def Rises (form : (Option NodeId → Option Primitive) → Option Primitive) : Prop :=
  ∀ ⦃value value' : Option NodeId → Option Primitive⦄,
    (∀ id v, value id = some v → value' id = some v) →
    ∀ v, form value = some v → form value' = some v

theorem rises_const (v : Option Primitive) : Rises fun _ => v := fun _ _ _ _ hv => hv

theorem rises_value (id : Option NodeId) : Rises fun value => value id := fun _ _ h => h id

theorem Rises.bind {form : (Option NodeId → Option Primitive) → Option Primitive}
    {next : Primitive → (Option NodeId → Option Primitive) → Option Primitive} (h : Rises form)
    (hnext : ∀ u, Rises (next u)) : Rises fun value => (form value).bind fun u => next u value := by
  intro value value' hle v hv
  obtain ⟨u, hu, hv⟩ := Option.bind_eq_some_iff.1 hv
  exact Option.bind_eq_some_iff.2 ⟨u, h hle u hu, hnext u hle v hv⟩

theorem Rises.ite {c : Prop} [Decidable c]
    {form form' : (Option NodeId → Option Primitive) → Option Primitive} (h : Rises form)
    (h' : Rises form') : Rises fun value => if c then form value else form' value := by
  split
  · exact h
  · exact h'

section Rises

variable (a : Arena) (id : Option NodeId)

theorem rises_templateValue? (quasis expressions : List (Option NodeId)) (text : String) :
    Rises fun value => a.templateValue? value quasis expressions text := by
  induction quasis generalizing expressions text with
  | nil => exact rises_const _
  | cons quasi quasis ih =>
    unfold templateValue?
    split
    · cases expressions with
      | nil => exact ih _ _
      | cons e expressions => exact (rises_value e).bind fun _ => ih _ _
    · exact rises_const _

theorem rises_memberValue? : Rises fun value => a.memberValue? value id :=
  ((rises_value _).bind fun _ => rises_const _).ite (rises_const _)

theorem rises_unaryValue? : Rises fun value => a.unaryValue? value id :=
  (rises_const _).ite ((rises_const _).ite ((rises_value _).bind fun _ => rises_const _))

theorem rises_binaryValue? : Rises fun value => a.binaryValue? value id :=
  (rises_value _).bind fun _ => (rises_value _).bind fun _ => rises_const _

theorem rises_decidedValue? (op : String) (left : Primitive) :
    Rises fun value => decidedValue? op left (value id) := by
  unfold decidedValue?
  cases Evaluation.decidesLeft? op left with
  | none => exact rises_const _
  | some decided => exact (rises_const _).ite (rises_value id)

theorem rises_logicalValue? : Rises fun value => a.logicalValue? value id :=
  (rises_value _).bind fun left => rises_decidedValue? _ _ left

theorem rises_conditionalValue? : Rises fun value => a.conditionalValue? value id :=
  (rises_value _).bind fun _ => rises_value _

theorem rises_meaningValue? (m : Meaning) : Rises fun value => meaningValue? value m := by
  cases m with
  | unclear => exact rises_const _
  | starts init => exact rises_value init
  | unbound name => exact rises_const _

theorem rises_formValue? (meaning : Option NodeId → Meaning) (n : Node) :
    Rises fun value => a.formValue? value meaning id n := by
  unfold formValue?
  split
  · cases (a.items id "expressions").getLast? with
    | none => exact rises_const _
    | some last => exact rises_value last
  · exact rises_const _
  · exact rises_const _
  · exact rises_const _
  · exact rises_const _
  · exact rises_templateValue? a _ _ _
  · exact rises_conditionalValue? a id
  · exact rises_memberValue? a id
  · exact rises_meaningValue? _
  · exact rises_unaryValue? a id
  · exact rises_logicalValue? a id
  · exact rises_binaryValue? a id
  · exact (rises_value _).ite (rises_const _)

end Rises

end Arena

namespace Tree

variable {t : Tree} {id : Option NodeId} {v w : Primitive}

/-! ## names -/

def pathOf? (t : Tree) (id : Option NodeId) : Option PathId :=
  ((List.range t.paths.size).map PathId.mk).find? fun p => t.node p == id

theorem pathOf?_eq {r n : NodeId} {p : PathId} (ht : t.Coherent r) (hp : t.node p = some n) :
    t.pathOf? (some n) = some p := by
  unfold pathOf?
  cases hq : ((List.range t.paths.size).map PathId.mk).find? fun p => t.node p == some n with
  | none =>
    have hmem : p ∈ (List.range t.paths.size).map PathId.mk :=
      List.mem_map.2 ⟨p.index, List.mem_range.2 (lt_of_node hp), rfl⟩
    simpa [hp] using List.find?_eq_none.1 hq p hmem
  | some q =>
    have hnode : t.node q = some n := by simpa using List.find?_some hq
    rw [ht.unique _ _ _ hnode hp]

/-- The node that the declarator of a binding starts it with. -/
def initializer? (t : Tree) (b : Binding) : Option (Option NodeId) :=
  let declarator := t.node b.path
  if b.kind != .imported && t.arena.is declarator .variableDeclarator
      && t.arena.is (t.arena.child? declarator "id") .identifier
      && (t.arena.child? declarator "init").isSome then
    some (t.arena.child? declarator "init")
  else none

def boundMeaning (t : Tree) (p : PathId) (b : Binding) : Meaning :=
  if !b.constantViolations.isEmpty || Evaluation.isBeforeDeclaration t p b.path then .unclear
  else (t.initializer? b).elim .unclear .starts

/-- What an identifier stands for in a tree whose scopes were all found. -/
def meaning (t : Tree) (id : Option NodeId) : Meaning :=
  match t.pathOf? id with
  | none => .unclear
  | some p =>
    if !t.isReferencedIdentifier p then .unclear
    else
      let name := (t.arena.name? id).getD ""
      match (t.path p).scope.bind (t.bindingOf? · name) with
      | some b => t.boundMeaning p b
      | none => .unbound name

/-! ## values -/

/-- The value of a node, looking at most so many levels down. -/
def constantValue? (t : Tree) : Nat → Option NodeId → Option Primitive
  | 0, _ => none
  | levels + 1, id =>
    (t.arena.look id).bind (t.arena.formValue? (constantValue? t levels) t.meaning id)

theorem constantValue?_succ (levels : Nat) :
    ∀ id v, t.constantValue? levels id = some v → t.constantValue? (levels + 1) id = some v := by
  induction levels with
  | zero => exact fun id v hv => nomatch hv
  | succ levels ih =>
    intro id v hv
    obtain ⟨n, hn, hv⟩ := Option.bind_eq_some_iff.1 hv
    exact Option.bind_eq_some_iff.2 ⟨n, hn, Arena.rises_formValue? t.arena id t.meaning n ih v hv⟩

theorem constantValue?_mono {levels levels' : Nat} (h : levels ≤ levels')
    (hv : t.constantValue? levels id = some v) : t.constantValue? levels' id = some v := by
  induction h with
  | refl => exact hv
  | step _ ih => exact constantValue?_succ _ id v ih

/-- What comes of the values of some nodes. -/
def Finds (t : Tree) (form : (Option NodeId → Option Primitive) → Option Primitive)
    (v : Primitive) :
    Prop := ∃ levels, form (t.constantValue? levels) = some v

/-- The value of a node. -/
def Means (t : Tree) (id : Option NodeId) (v : Primitive) : Prop :=
  t.Finds (fun value => value id) v

/-- The evaluation of the first node asks for the value of the second: for that of an operand,
unless the operands before it decide, or for what a name starts with. -/
inductive Asks (t : Tree) : NodeId → NodeId → Prop
  | argument {n m : NodeId} {op : String} (hn : t.arena.is (some n) .unaryExpression)
      (hop : t.arena.text? (some n) "operator" = some op) (hvoid : op ≠ "void")
      (hm : t.arena.child? (some n) "argument" = some m) : Asks t n m
  | operand {n m : NodeId} {key : String} (hn : t.arena.is (some n) .binaryExpression)
      (hkey : key = "left" ∨ key = "right") (hm : t.arena.child? (some n) key = some m) : Asks t n m
  | left {n m : NodeId} (hn : t.arena.is (some n) .logicalExpression)
      (hm : t.arena.child? (some n) "left" = some m) : Asks t n m
  | right {n l m : NodeId} {op : String} {u : Primitive}
    (hn : t.arena.is (some n) .logicalExpression)
      (hop : t.arena.text? (some n) "operator" = some op)
      (hl : t.arena.child? (some n) "left" = some l) (hu : t.Means (some l) u)
      (hdecides : Evaluation.decidesLeft? op u = some false)
      (hm : t.arena.child? (some n) "right" = some m) : Asks t n m
  | test {n m : NodeId} (hn : t.arena.is (some n) .conditionalExpression)
      (hm : t.arena.child? (some n) "test" = some m) : Asks t n m
  | branch {n l m : NodeId} {u : Primitive} (hn : t.arena.is (some n) .conditionalExpression)
      (hl : t.arena.child? (some n) "test" = some l) (hu : t.Means (some l) u)
      (hm : t.arena.child? (some n) (if u.truthy then "consequent" else "alternate") = some m) :
      Asks t n m
  | start {n m : NodeId} (hmeaning : t.meaning (some n) = .starts (some m)) : Asks t n m

section Finds

variable {form : (Option NodeId → Option Primitive) → Option Primitive}
  {next : Primitive → (Option NodeId → Option Primitive) → Option Primitive}

theorem finds_const (t : Tree) (v : Primitive) : t.Finds (fun _ => some v) v := ⟨0, rfl⟩

theorem Finds.bind (h : t.Finds form v) (hnext : t.Finds (next v) w) (hform : Arena.Rises form)
    (hrises : Arena.Rises (next v)) :
    t.Finds (fun value => (form value).bind fun u => next u value) w := by
  obtain ⟨k, hk⟩ := h
  obtain ⟨k', hk'⟩ := hnext
  refine ⟨max k k', Option.bind_eq_some_iff.2 ⟨v, hform (fun _ _ hv => ?_) v hk, ?_⟩⟩
  · exact constantValue?_mono (Nat.le_max_left k k') hv
  · exact hrises (fun _ _ hv => constantValue?_mono (Nat.le_max_right k k') hv) w hk'

theorem Finds.means {n : Node} (hn : t.arena.look id = some n)
    (h : t.Finds (fun value => t.arena.formValue? value t.meaning id n) v) : t.Means id v := by
  obtain ⟨k, hk⟩ := h
  exact ⟨k + 1, Option.bind_eq_some_iff.2 ⟨n, hn, hk⟩⟩

end Finds

end Tree

end ScopedTree
