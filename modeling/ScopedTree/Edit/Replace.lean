import ScopedTree.Edit.Statements

/-!
# Replacing and removing

* `Tree.replaceSome`   puts a node in place of another, adapting expressions and statements;
* `Tree.remove`        removes the node at a path, and with it what cannot do without;
* `Tree.replaceWith`   replaces by a node or removes.
-/

namespace ScopedTree.Tree

/-- Puts a node in place of the one at a path. An expression in place of a statement is wrapped into
an expression statement; a statement in place of an expression becomes one. -/
def replaceSome (p : PathId) (replacement : NodeId) : TreeM Unit := do
  assertLive p
  let t ← get
  let old := t.node p
  if old == some replacement then return
  match t.arena.get? replacement with
  | none => throw (.shape (.invalidNode (some replacement)))
  | some n =>
    if t.nodeIs p .program && n.type != .program then
      throw (t.errorAt p "a Program can only be replaced by another Program")
    let swappable := t.isLoopHead p || t.canSwapBody p (some replacement)
    let exported := t.arena.is (t.parentNode p) .exportDefaultDeclaration
    if !swappable && !exported && t.nodeIsA p .statement && n.type.isA .expression then
      takeFrom (some replacement) old
      replaceNode p (← TreeM.edit (Arena.expressionStatement (some replacement)))
    else if !swappable && t.nodeIsA p .expression && n.type.isA .statement then
      replaceWithStatements p [some replacement]
    else replaceNode p replacement

/-- What has to happen when the node at a path is removed. -/
inductive Removal where
  /-- The owner goes. -/
  | owner (parent : PathId)
  /-- The owner becomes the other one of its two parts. -/
  | become (parent : PathId) (other : Option NodeId)
  /-- An empty block takes the place. -/
  | emptyBlock
  /-- Just the node goes. -/
  | plain

/-- Whether a node cannot do without the node in one of its fields. -/
def removesOwner (t : Tree) (owner : Option NodeId) (ty : NodeType) (key : String) : Bool :=
  (key == "test" && (ty.isA .whileLoop || ty == .switchCase))
    || (key == "declaration" && ty.isA .exportDeclaration)
    || (key == "body" && ty == .labeledStatement)
    || (key == "expression" && ty == .expressionStatement)
    || (key == "declarations" && ty == .variableDeclaration
      && (t.arena.items owner "declarations").length == 1)

def removal (t : Tree) (p : PathId) : Removal :=
  match t.parentPath p with
  | none => .plain
  | some parent =>
    let owner := t.node parent
    match t.arena.type? owner with
    | none => .plain
    | some ty =>
      let key := (t.slot p).key?.getD ""
      if t.removesOwner owner ty key then .owner parent
      else
        let expressions := t.arena.items owner "expressions"
        if ty == .sequenceExpression && expressions.length == 2 then
          match expressions.find? (· != t.node p) with
          | some other => .become parent other
          | none => .plain
        else if ty.isA .binary && (key == "left" || key == "right") then
          .become parent (t.arena.child? owner (if key == "left" then "right" else "left"))
        else if (ty == .ifStatement && key == "consequent")
            || (key == "body" && (ty.isA .loop || ty == .arrowFunctionExpression)) then .emptyBlock
        else .plain

/-- Hands the comments of a list entry on: leading ones to the end of the entry before, trailing
ones to the start of the one after. At the ends of the list the only neighbour gets both. -/
def shareComments (p : PathId) : TreeM Unit := do
  let t ← get
  match t.slot p with
  | .entry list index =>
    let node := t.node p
    let comments := (t.arena.look node).elim {} (·.comments)
    if comments.isEmpty then return
    modify fun t => { t with arena := t.arena.update node ({ · with comments := {} }) }
    let siblings ← TreeM.ofShape (t.arena.list (t.parentNode p) list)
    let before := if index = 0 then none else siblings[index - 1]?
    let after := siblings[index + 1]?
    match before <|> after, after <|> before with
    | some before, some after =>
      modify fun t =>
        let arena := t.arena.update before fun n =>
          { n with comments := { n.comments with
              trailing := n.comments.trailing ++ comments.leading } }
        { t with arena := arena.update after fun n =>
          { n with comments := { n.comments with
              leading := n.comments.leading ++ comments.trailing } } }
    | _, _ => return
  | _ => return

/-- Takes the node at a path out of its place. A list closes up, a required slot gets a
placeholder. -/
def removeFromOwner (p : PathId) : TreeM Unit := do
  let t ← get
  let owner := t.parentNode p
  match t.slot p with
  | .entry list index =>
    let _ ← TreeM.edit (Arena.listRemove owner list index)
    shiftEntries owner list (index + 1) (· - 1) (some p)
  | .field name =>
    let required := ((t.arena.type? owner).bind (·.field? name)).any (·.kind == .node)
    let filler ← if required then some <$> TreeM.edit Arena.noop else pure none
    let _ ← TreeM.edit (Arena.setChild owner name filler)
  | .root => throw (t.errorAt p "cannot remove the root node")

def removePlain (p : PathId) : TreeM Unit := do
  let old := (← get).node p
  shareComments p
  let t ← get
  let enclosing := (t.parentPath p).bind t.existingScope
  removeFromOwner p
  match old with
  | some old => modify (invalidate { old, keep := none, holder := none, enclosing })
  | none => pure ()
  modify (·.markRemoved p)

/-- Marks a path as removed unless something else took the place of its node. -/
def markUnlessFilled (p : PathId) (old : Option NodeId) : TreeM Unit := do
  if (← get).node p == old then modify (·.markRemoved p)

/-- Removes the node at a path, over at most `fuel` owners that go with it. -/
def removeUpTo : Nat → PathId → TreeM Unit
  | 0, _ => throw .outOfSteps
  | fuel + 1, p => do
    assertLive p
    let t ← get
    let old := t.node p
    match t.removal p with
    | .plain => removePlain p
    | .owner parent =>
      removeUpTo fuel parent
      markUnlessFilled p old
    | .become parent (some other) =>
      replaceSome parent other
      markUnlessFilled p old
    | .become parent none =>
      assertLive parent
      if ((← get).node parent).isSome then removeUpTo fuel parent
      markUnlessFilled p old
    | .emptyBlock =>
      replaceSome p (← TreeM.edit (Arena.blockStatement []))
      markUnlessFilled p old

/-- Removes the node at a path. Owners that cannot do without it are removed or simplified. -/
def remove (p : PathId) : TreeM Unit := do
  let t ← get
  removeUpTo (t.paths.size + t.arena.size + 2) p

/-- Puts a node in place of the one at a path, or removes that. -/
def replaceWith (p : PathId) (replacement : Option NodeId) : TreeM Unit := do
  match replacement with
  | some replacement => replaceSome p replacement
  | none =>
    assertLive p
    if ((← get).node p).isSome then remove p

end ScopedTree.Tree
