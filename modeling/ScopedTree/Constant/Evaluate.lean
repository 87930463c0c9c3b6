import ScopedTree.Constant.Primitive
import ScopedTree.Scope.Crawl

/-!
# Constant expressions

An expression is evaluated where its value can be known without running the program. A name counts
if it is never written and has a known value.

* `Evaluated`             the value, or the path that could not be evaluated;
* `Tree.evaluate`         evaluates the expression at a path;
* `Tree.evaluateTruthy`   whether its value counts as true.
-/

namespace ScopedTree

/-- The outcome of an evaluation. -/
inductive Evaluated where
  | known (value : Primitive)
  /-- The value depends on what is at `blame`. -/
  | unknown (blame : Option PathId)
  deriving Inhabited

/-- The progress of an evaluation. -/
structure Evaluation where
  /-- Nothing unknown was met so far. -/
  confident : Bool := true
  /-- The first unknown that was met since the evaluation was confident. -/
  blame : Option PathId := none
  /-- The nodes met so far. Those without a value are being evaluated, or have no known value. -/
  seen : List (Option NodeId × Option Primitive) := []
  deriving Inhabited

abbrev EvalM := StateT Evaluation TreeM

namespace Evaluation

/-- The value is unknown because of what is at `p`. -/
def giveUp (p : PathId) : EvalM (Option Primitive) :=
  modifyGet fun e =>
    (none, { e with confident := false, blame := if e.confident then some p else e.blame })

def whenKnown (x : EvalM (Option Primitive)) (f : Primitive → EvalM (Option Primitive)) :
    EvalM (Option Primitive) := do
  match ← x with
  | some value => f value
  | none => return none

/-- The known value of a node met before; one that is met again without a value is unknown. Other
nodes are evaluated by `fresh`. -/
def unlessSeen (p : PathId) (fresh : EvalM (Option Primitive)) : EvalM (Option Primitive) := do
  let t ← getThe Tree
  match (← get).seen.lookup (t.node p) with
  | some (some value) => return some value
  | some none => giveUp p
  | none => fresh

/-- Evaluates the node at a path and keeps its value if that is known. -/
def record (p : PathId) (x : EvalM (Option Primitive)) : EvalM (Option Primitive) := do
  let node := (← getThe Tree).node p
  modify fun e => { e with seen := (node, none) :: e.seen }
  let value ← x
  modify fun e =>
    if e.confident && value.isSome then { e with seen := (node, value) :: e.seen } else e
  return value

def operator (p : PathId) : EvalM String := do
  let t ← getThe Tree
  return (t.arena.text? (t.node p) "operator").getD ""

section Forms

variable (eval : PathId → EvalM (Option Primitive))

def evalChild (p : PathId) (field : String) : EvalM (Option Primitive) := do
  eval (← Tree.follow p field)

/-- Joins the texts of a template with the values between them. -/
def evalTemplate : List PathId → List PathId → String → EvalM (Option Primitive)
  | [], _, text => return some (.string text)
  | quasi :: quasis, expressions, text => do
    let t ← getThe Tree
    match ← TreeM.ofShape (do (← t.arena.node (t.node quasi)).text "cooked") with
    | none => giveUp quasi
    | some cooked =>
      match expressions with
      | [] => evalTemplate quasis [] (text ++ cooked)
      | e :: expressions =>
        whenKnown (eval e) fun value =>
          evalTemplate quasis expressions (text ++ cooked ++ value.text)

/-- Evaluates the length of a string literal; other members are unknown. -/
def evalMember (p : PathId) : EvalM (Option Primitive) := do
  let object ← Tree.follow p "object"
  let property ← Tree.follow p "property"
  let t ← getThe Tree
  let isLength := !t.arena.isSet (t.node p) "computed" && t.nodeIs property .identifier
    && t.arena.name? (t.node property) == some "length"
  if !isLength || !t.nodeIs object .stringLiteral then giveUp p
  else
    whenKnown (eval object) fun
      | .string s => return some (.number (Float.ofNat (units16 s).length))
      | _ => return none

/-- Whether the node at a path stands before the end of its declaration. Nodes without a position
count as standing after. -/
def isBeforeDeclaration (t : Tree) (p declaration : PathId) : Bool :=
  let span (q : PathId) := (t.arena.look (t.node q)).elim Span.synthetic (·.span)
  span p != .synthetic && span declaration != .synthetic
    && (span p).start < (span declaration).stop

/-- Evaluates a name that is bound: the value that is remembered, or else what its declarator starts
it with. -/
def evalBound (p : PathId) (id : BindingId) (b : Binding) : EvalM (Option Primitive) := do
  let t ← getThe Tree
  if !b.constantViolations.isEmpty || isBeforeDeclaration t p b.path then giveUp b.path
  else
    if b.hasValue then return b.value
    else
      if b.kind == .imported || !t.nodeIs b.path .variableDeclarator then giveUp b.path
      else
        let target ← Tree.follow b.path "id"
        let start ← Tree.follow b.path "init"
        let t ← getThe Tree
        if !t.nodeIs target .identifier || (t.node start).isNone then giveUp b.path
        else
          whenKnown (eval start) fun value => do
            modifyThe Tree (·.updateBinding id (·.remember value))
            return some value

def evalUnbound (p : PathId) : String → EvalM (Option Primitive)
  | "undefined" => return some .undefined
  | "Infinity" => return some (.number (1 / 0))
  | "NaN" => return some (.number (0 / 0))
  | _ => giveUp p

def evalIdentifier (p : PathId) : EvalM (Option Primitive) := do
  let t ← getThe Tree
  if !t.isReferencedIdentifier p then giveUp p
  else
    let name := (t.arena.name? (t.node p)).getD ""
    let scope ← Tree.scopeOf p
    let t ← getThe Tree
    match scope.bind fun s => (t.getBinding? s name).bind fun id => (t.binding? id).map (id, ·) with
    | some (id, b) => evalBound eval p id b
    | none => evalUnbound p name

/-- Evaluates a unary expression. What `void` is applied to does not matter, and functions and
classes have a type without having a value. -/
def evalUnary (p : PathId) : EvalM (Option Primitive) := do
  let op ← operator p
  if op == "void" then return some .undefined
  let argument ← Tree.follow p "argument"
  let t ← getThe Tree
  if op == "typeof" && (t.nodeIsA argument .function || t.nodeIsA argument .classNode) then
    return some (.string "function")
  whenKnown (eval argument) fun value =>
    match value.applyUnary op with
    | some result => return some result
    | none => giveUp p

def evalBinary (p : PathId) : EvalM (Option Primitive) := do
  let op ← operator p
  whenKnown (evalChild eval p "left") fun left =>
    whenKnown (evalChild eval p "right") fun right =>
      match Primitive.applyBinary op left right with
      | some result => return some result
      | none => giveUp p

/-- Whether the left side alone decides a logical expression, if there is such an operator. -/
def decidesLeft? : String → Primitive → Option Bool
  | "||", left => some left.truthy
  | "&&", left => some !left.truthy
  | "??", left => some !left.isNullish
  | _, _ => none

/-- Evaluates a logical expression. The right side may be unknown where the left one decides. -/
def evalLogical (p : PathId) : EvalM (Option Primitive) := do
  let op ← operator p
  let before := (← get).confident
  let left ← evalChild eval p "left"
  let leftConfident := (← get).confident
  modify ({ · with confident := before })
  let right ← evalChild eval p "right"
  let rightConfident := (← get).confident
  match left with
  | some left =>
    if !leftConfident then unknown
    else
      match decidesLeft? op left with
      | none => giveUp p
      | some decided =>
        modify ({ · with confident := decided || rightConfident })
        if decided then return some left
        else if rightConfident then return right
        else return none
  | none => unknown
where
  /-- Neither side decides. -/
  unknown : EvalM (Option Primitive) := do
    modify ({ · with confident := false })
    return none

def evalSequence (p : PathId) : EvalM (Option Primitive) := do
  match (← Tree.entries p "expressions").getLast? with
  | some last => eval last
  | none => giveUp p

/-- Evaluates the branch that the test of a conditional expression picks. -/
def evalConditional (p : PathId) : EvalM (Option Primitive) :=
  whenKnown (evalChild eval p "test") fun test =>
    evalChild eval p (if test.truthy then "consequent" else "alternate")

def evalNode (p : PathId) : EvalM (Option Primitive) := do
  if !(← get).confident then return none
  let t ← getThe Tree
  let node := t.node p
  match t.arena.look node with
  | none => giveUp p
  | some n =>
    match n.type with
    | .sequenceExpression => evalSequence eval p
    | .stringLiteral => return some (.string ((← TreeM.ofShape (n.text "value")).getD ""))
    | .numericLiteral => return some (.number (← TreeM.ofShape (n.number "value")))
    | .booleanLiteral => return some (.bool (← TreeM.ofShape (n.flag "value")))
    | .nullLiteral => return some .null
    | .templateLiteral =>
      let quasis ← Tree.entries p "quasis"
      let expressions ← Tree.entries p "expressions"
      evalTemplate eval quasis expressions ""
    | .conditionalExpression => evalConditional eval p
    | .memberExpression => evalMember eval p
    | .identifier => evalIdentifier eval p
    | .unaryExpression => evalUnary eval p
    | .logicalExpression => evalLogical eval p
    | .binaryExpression => evalBinary eval p
    | ty => if ty.isA .expressionWrapper then evalChild eval p "expression" else giveUp p

end Forms

/-- Evaluates the node at a path, at most `fuel` nodes deep. -/
def evalLevels : Nat → PathId → EvalM (Option Primitive)
  | 0, p => unlessSeen p (giveUp p)
  | fuel + 1, p => unlessSeen p (record p (evalNode (evalLevels fuel) p))

end Evaluation

namespace Tree

/-- Evaluates the expression at a path. -/
def evaluate (p : PathId) : TreeM Evaluated := do
  assertLive p
  let (value, e) ← (Evaluation.evalLevels Limits.evaluation p).run {}
  match value with
  | some value => if e.confident then return .known value else return .unknown e.blame
  | none => return .unknown e.blame

/-- Whether the value of the expression at a path counts as true, if it is known. -/
def evaluateTruthy (p : PathId) : TreeM (Option Bool) := do
  match ← evaluate p with
  | .known value => return some value.truthy
  | .unknown _ => return none

end Tree

end ScopedTree
