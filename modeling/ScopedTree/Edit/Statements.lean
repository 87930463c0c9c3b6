import ScopedTree.Path.Shape
import ScopedTree.Scope.Declare

/-!
# Statements in place of an expression

Expressions become one sequence. Other statements become the body of an arrow function that is
called on the spot and returns their completion value.

* `Tree.replaceWithStatements`   replaces the expression at a path by statements;
* `Tree.returnRecord`            makes a completion record return its value.
-/

namespace ScopedTree.Tree

/-- The key under which a loop keeps the name of the variable for its completion value. -/
def completionKey : String := "expression_replacement_return_uid"

/-- The name of the variable that takes the completion value of a loop; it is declared and returned
at the end of the function when it is first needed. -/
def completionVariable (callee body loop : PathId) : TreeM String := do
  match (← get).getData loop completionKey with
  | some (.str name) => return name
  | _ =>
    match ← scopeOf callee with
    | none => throw ((← get).errorAt callee "no scope to declare a return value in")
    | some s =>
      let id ← declareUid s "ret"
      let name := ((← get).arena.name? (some id)).getD "ret"
      let ret ← TreeM.edit (Arena.returnStatement (some id))
      let _ ← pushContainer body "body" [some ret]
      setData loop completionKey (.str name)
      return name

/-- Lets a completion record inside a loop assign its value to the variable of the loop. -/
def assignRecord (callee body loop record : PathId) : TreeM Unit := do
  let name ← completionVariable callee body loop
  let p ← follow record "expression"
  let expression ← detachForWrap p
  let target ← TreeM.edit (Arena.identifier name)
  let assignment ← TreeM.edit (Arena.assignmentExpression "=" (some target) expression)
  replaceNode p assignment

/-- The loop around a completion record, inside the body of the function. -/
def loopAround? (t : Tree) (body record : PathId) : Option PathId :=
  (t.findParent record (t.nodeIsA · .loop)).filter fun loop => t.isDescendant loop body

/-- Lets a completion record give the function its value. -/
def returnRecord (callee body record : PathId) : TreeM Unit := do
  let t ← get
  if !t.nodeIs record .expressionStatement then return
  let expression ← TreeM.ofShape (t.arena.child (t.node record) "expression")
  match t.loopAround? body record with
  | some loop => assignRecord callee body loop record
  | none =>
    TreeM.edit (Arena.take expression)
    let ret ← TreeM.edit (Arena.returnStatement expression)
    replaceNode record ret

/-- The expression of an expression statement, taken out of it; another node as it is. -/
def expressionOf (id : Option NodeId) : TreeM (Option NodeId) := do
  let t ← get
  if t.arena.is id .expressionStatement then
    let expression ← TreeM.ofShape (t.arena.child id "expression")
    TreeM.edit (Arena.take expression)
    return expression
  else return id

/-- Replaces the expression at a path by several expressions in sequence. -/
def replaceWithSequence (p : PathId) (nodes : List (Option NodeId)) : TreeM Unit := do
  match ← nodes.mapM expressionOf with
  | [some single] => replaceNode p single
  | expressions => replaceNode p (← TreeM.edit (Arena.sequenceExpression expressions))

/-- Replaces the expression at a path by the call of a function with the given statements. -/
def replaceWithCall (p : PathId) (nodes : List (Option NodeId)) : TreeM Unit := do
  let block ← TreeM.edit (Arena.blockStatement nodes)
  let arrow ← TreeM.edit (Arena.arrowFunctionExpression [] (some block))
  let call ← TreeM.edit (Arena.callExpression (some arrow) [])
  replaceNode p call
  let callee ← follow p "callee"
  let body ← follow callee "body"
  (← completionRecords body).forM (returnRecord callee body)

/-- Replaces the expression at a path by statements; by `void 0` if there are none. -/
def replaceWithStatements (p : PathId) (nodes : List (Option NodeId)) : TreeM Unit := do
  assertLive p
  let a := (← get).arena
  if nodes.isEmpty then
    let zero ← TreeM.edit (Arena.numericLiteral 0)
    replaceNode p (← TreeM.edit (Arena.unaryExpression "void" (some zero)))
  else if nodes.all fun id => a.is id .expressionStatement || a.isA id .expression then
    replaceWithSequence p nodes
  else replaceWithCall p nodes

end ScopedTree.Tree
