import ScopedTree.Arena.Build
import ScopedTree.Path.Virtual

/-!
# What a path holds and may hold

* `Tree.has`                       whether a field of the node is filled;
* `Tree.isStatementBody`           whether a block may stand in place of the node;
* `Tree.isLoopHead`, `Tree.canSwapBody`   where statements and expressions may replace each other;
* `Tree.isCompletionRecord`        whether the node may give the program its completion value;
* `Tree.computedKey`               a member or property key as a computed one.
-/

namespace ScopedTree

/-- Whether a value counts as present: filled, not empty, not zero and not false. -/
def Value.isPresent : Value → Bool
  | node child => child.isSome
  | list items => !items.isEmpty
  | str s => !s.isEmpty
  | num x => x != 0 && !x.isNaN
  | bool b => b
  | null => false

/-- Equality of values; no number equals one that is not a number. -/
def Value.equals : Value → Value → Bool
  | node a, node b => a == b
  | list a, list b => a == b
  | str a, str b => a == b
  | num a, num b => a == b
  | bool a, bool b => a == b
  | null, null => true
  | _, _ => false

namespace Tree

/-- The value of a field of the node at a path, if there is one. -/
def value? (t : Tree) (p : PathId) (field : String) : Option Value :=
  (t.arena.look (t.node p)).bind (·.value? field)

/-- Whether a field of the node at a path is there and counts as present. -/
def has (t : Tree) (p : PathId) (field : String) : Bool := (t.value? p field).any (·.isPresent)

def fieldEquals (t : Tree) (p : PathId) (field : String) (value : Value) : Bool :=
  (t.value? p field).any (·.equals value)

/-- Whether the path is a body of a single statement, where a block could stand instead. -/
def isStatementBody (t : Tree) (p : PathId) : Bool :=
  let parent := t.parentNode p
  match t.slot p with
  | .field key =>
    !t.arena.is parent .labeledStatement && !t.arena.is parent .blockStatement
      && (key == "consequent" || key == "body" || key == "alternate")
  | _ => false

/-- Whether the path is the part of a loop head that takes a declaration or an expression. -/
def isLoopHead (t : Tree) (p : PathId) : Bool :=
  (t.slot p == .field "init" || t.slot p == .field "left") && t.arena.isA (t.parentNode p) .forLoop

/-- Whether the path is the body of an arrow function and `replacement` is of the other kind: a
block for an expression, or an expression for a block. -/
def canSwapBody (t : Tree) (p : PathId) (replacement : Option NodeId) : Bool :=
  t.slot p == .field "body" && t.arena.is (t.parentNode p) .arrowFunctionExpression
    && ((t.nodeIsA p .expression && t.arena.is replacement .blockStatement)
      || (t.nodeIs p .blockStatement && t.arena.isA replacement .expression))

/-- Whether the path is no list entry, or the last one of its list. -/
def isLastEntry (t : Tree) (p : PathId) : Bool :=
  match t.slot p with
  | .entry list index => index + 1 == (t.arena.items (t.parentNode p) list).length
  | _ => true

/-- Goes up from a path: is each path the last of its list up to the program? A function on the way
gives `insideFunction`. -/
def completesFrom (t : Tree) (insideFunction : Bool) : List PathId → Bool
  | [] => true
  | p :: above =>
    if t.nodeIs p .program then true
    else if t.nodeIsA p .function then insideFunction
    else t.isLastEntry p && t.completesFrom insideFunction above

/-- Whether the value of the node at a path may become the completion value of the program or, if
asked for, of the function around it. -/
def isCompletionRecord (t : Tree) (p : PathId) (insideFunction : Bool) : Bool :=
  t.nodeIs p .program || (t.isLastEntry p && t.completesFrom insideFunction (t.ancestors p))

def literalKey? (t : Tree) (id : Option NodeId) : Option String :=
  (t.arena.look id).bind fun n =>
    match n.type, n.value? "value" with
    | .stringLiteral, some (.str s) => some s
    | .numericLiteral, some (.num x) => some (numberText x)
    | _, _ => none

/-- The key of a member, property or method as it would be written computed: a plain identifier
becomes a string. Other keys are given as they are. -/
def computedKey (p : PathId) : TreeM (Option NodeId) := do
  resync p
  let t ← get
  let node := t.node p
  match t.arena.type? node with
  | none => throw (t.detachedError p)
  | some ty =>
    let field ←
      if ty == .memberExpression then pure "property"
      else if ty.isA .property || ty.isA .method then pure "key"
      else throw (t.errorAt p (ty.name ++ " has no computable key"))
    let key ← TreeM.ofShape (t.arena.child node field)
    match t.arena.name? key with
    | some name =>
      if !t.has p "computed" && t.arena.is key .identifier then
        return some (← TreeM.edit (Arena.stringLiteral name))
      else return key
    | none => return key

end Tree

end ScopedTree
