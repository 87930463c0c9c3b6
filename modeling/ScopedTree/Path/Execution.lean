import ScopedTree.Scope.Crawl

/-!
# Order of execution

Within one function, code runs in source order. A function declaration that is only called runs when
its calls do.

* `ExecutionOrder`        before or after;
* `Tree.executionOrder`   a guess whether one path runs before or after another.
-/

namespace ScopedTree

/-- Whether one path runs before or after another. -/
inductive ExecutionOrder where
  | before | after
  deriving DecidableEq, Inhabited

namespace Tree

/-- The path itself if it is a function, else the nearest function above it, else the root. -/
def functionOrRoot (p : PathId) : TreeM PathId := do
  let t ← get
  match t.find p (t.nodeIsA · .function) with
  | some function => return function
  | none => getRootPath

/-- The last of some ancestors before `common` is reached. -/
def branchBelow (common : PathId) (ancestors : List PathId) : Option PathId :=
  (ancestors.takeWhile (· != common)).getLast?

/-- The order of two paths in one function: that of the branches below their common ancestor. What
contains the target runs after it. -/
def orderWithin (t : Tree) (p target : PathId) : ExecutionOrder :=
  let own := t.ancestry p
  let other := t.ancestry target
  if other.contains p then .after
  else
    match own.find? other.contains with
    | none => .before
    | some common =>
      match branchBelow common own, branchBelow common other with
      | some a, some b => if t.comesBefore a b then .before else .after
      | _, _ => .before

def isCallee (t : Tree) (p : PathId) : Bool :=
  t.slot p == .field "callee" && t.arena.is (t.parentNode p) .callExpression

/-- The order in which `order` puts a path and all of some calls, unless they disagree. Calls inside
the called function itself do not count. -/
def commonOrder (order : PathId → PathId → TreeM ExecutionOrder) (function : Option NodeId)
    (p : PathId) : List PathId → Option ExecutionOrder → TreeM (Option ExecutionOrder)
  | [], found => return found
  | call :: calls, found => do
    let t ← get
    if (t.find call fun q => t.node q == function).isSome then
      commonOrder order function p calls found
    else
      let next ← order p call
      if found.any (· != next) then return none
      commonOrder order function p calls (some next)

/-- The order of a path and a function declaration, known if the function is never used or only
called, and all calls agree. -/
def orderOfCalls (order : PathId → PathId → TreeM ExecutionOrder) (p function : PathId) :
    TreeM (Option ExecutionOrder) := do
  let t ← get
  let node := t.node function
  if !t.arena.is node .functionDeclaration then return none
  match t.fieldName? node "id" with
  | none => return none
  | some name =>
    let scope ← scopeOf function
    let t ← get
    match scope.bind fun s => t.bindingOf? s name with
    | none => return none
    | some b =>
      if b.references = 0 then return some .before
      if !b.referencePaths.all t.isCallee then return none
      commonOrder order node p b.referencePaths none

/-- The order of two paths, where functions are looked into with `ofCalls`. -/
def orderWith (ofCalls : PathId → PathId → TreeM (Option ExecutionOrder)) (p target : PathId) :
    TreeM ExecutionOrder := do
  resync p
  resync target
  let function ← functionOrRoot target
  if (← functionOrRoot p) == function then return (← get).orderWithin p target
  match ← ofCalls p function with
  | some order => return order
  | none => return (← get).orderWithin p function

/-- The order of two paths, going through at most `fuel` functions. -/
def orderLevels : Nat → PathId → PathId → TreeM ExecutionOrder
  | 0, p, target => orderWith (fun _ _ => return none) p target
  | fuel + 1, p, target => orderWith (orderOfCalls (orderLevels fuel)) p target

/-- A guess whether a path runs before or after `target`. If the target is in a function declaration
that is only called, its calls decide; otherwise the function stands for it. -/
def executionOrder (p target : PathId) : TreeM ExecutionOrder :=
  orderLevels Limits.inference p target

end Tree

end ScopedTree
