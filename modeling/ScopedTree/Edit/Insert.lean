import ScopedTree.Edit.Replace

/-!
# Inserting next to a path

* `Tree.insertBefore`, `Tree.insertAfter`   statements next to a node;
* `Tree.replaceWithMultiple`                several nodes in place of one;
* `Tree.replaceInline`                      the same in whatever way the place allows.
-/

namespace ScopedTree.Tree

/-- The statement or label around a path, which insertions next to the path are meant for. -/
def statementWrapper? (t : Tree) (p : PathId) : Option PathId :=
  (t.parentPath p).filter fun q => t.nodeIs q .expressionStatement || t.nodeIs q .labeledStatement

/-- Puts nodes into the list a path is in, from a position on. -/
def insertBeside (p : PathId) (list : String) (position : Nat) (nodes : List (Option NodeId)) :
    TreeM (List PathId) := do
  let t ← get
  match t.parentPath p with
  | none => throw (t.detachedError p)
  | some parent => insertEntries parent (t.parentNode p) list position nodes

/-- Wraps the body at a path and the nodes before and after it into a block. An empty statement is
left out. -/
def insertIntoBody (p : PathId) (before after : List (Option NodeId)) : TreeM (List PathId) := do
  let current ← detachForWrap p
  let own := if (← get).arena.is current .emptyStatement then [] else [current]
  let block ← TreeM.edit (Arena.blockStatement (before ++ own ++ after))
  replaceNode p block
  return [p]

/-- Inserts before a path that is itself what the insertion is meant for. -/
def insertBeforeHere (p : PathId) (nodes : List (Option NodeId)) : TreeM (List PathId) := do
  let t ← get
  if t.nodeIsA p .expression then
    let current ← detachForWrap p
    replaceWithStatements p (nodes ++ [current])
    return [p]
  match t.slot p with
  | .entry list index => insertBeside p list index nodes
  | _ =>
    if t.isStatementBody p then insertIntoBody p nodes []
    else throw (t.errorAt p "cannot insert statements next to this node")

/-- Inserts after an expression: its value is kept in a temporary, so that the sequence still has
it. -/
def insertAfterExpression (p : PathId) (nodes : List (Option NodeId)) : TreeM (List PathId) := do
  match ← scopeOf p with
  | none => throw ((← get).errorAt p "no scope to declare a temporary in")
  | some s =>
    let temp ← declareUid s "temp"
    let name := ((← get).arena.name? (some temp)).getD "temp"
    let current ← detachForWrap p
    let assign ← TreeM.edit (Arena.assignmentExpression "=" (some temp) current)
    let first ← TreeM.edit (Arena.expressionStatement (some assign))
    let result ← TreeM.edit (Arena.identifier name)
    let last ← TreeM.edit (Arena.expressionStatement (some result))
    replaceWithStatements p (some first :: nodes ++ [some last])
    return [p]

/-- Inserts after a path that is itself what the insertion is meant for. -/
def insertAfterHere (p : PathId) (nodes : List (Option NodeId)) : TreeM (List PathId) := do
  let t ← get
  if t.nodeIsA p .expression then insertAfterExpression p nodes
  else
    match t.slot p with
    | .entry list index => insertBeside p list (index + 1) nodes
    | _ =>
      if t.isStatementBody p then insertIntoBody p [] nodes
      else throw (t.errorAt p "cannot insert statements next to this node")

/-- Goes up from a path over the statements and labels around it, at most `fuel` of them, to what an
insertion is meant for. -/
def insertionTarget : Nat → PathId → TreeM PathId
  | 0, _ => throw .outOfSteps
  | fuel + 1, p => do
    assertLive p
    match (← get).statementWrapper? p with
    | some q => insertionTarget fuel q
    | none => return p

def insertWith (insertHere : PathId → List (Option NodeId) → TreeM (List PathId)) (p : PathId)
    (nodes : List (Option NodeId)) : TreeM (List PathId) := do
  assertLive p
  if nodes.isEmpty then return []
  insertHere (← insertionTarget ((← get).paths.size + (← get).arena.size + 2) p) nodes

/-- Inserts nodes before a path. In a list the later entries shift. Before an expression the nodes
and the expression become one sequence. The body of a statement becomes a block. -/
def insertBefore (p : PathId) (nodes : List (Option NodeId)) : TreeM (List PathId) :=
  insertWith insertBeforeHere p nodes

/-- Inserts nodes after a path. After an expression the sequence still has its value. -/
def insertAfter (p : PathId) (nodes : List (Option NodeId)) : TreeM (List PathId) :=
  insertWith insertAfterHere p nodes

/-- Hands the comments of a node on to those that take its place: the trailing ones to the last, all
others to the first. -/
def spreadComments (old first last : Option NodeId) : TreeM Unit :=
  modify fun t =>
    let comments := (t.arena.look old).elim {} (·.comments)
    let arena := t.arena.update old ({ · with comments := {} })
    let arena := arena.update first fun n =>
      { n with comments := n.comments.absorb { comments with trailing := [] } }
    { t with arena := arena.update last fun n =>
        { n with comments := { n.comments with
            trailing := n.comments.trailing ++ comments.trailing } } }

/-- Replaces the node at a path by several: the first takes its place, the others are inserted after
it. Without nodes the path is removed. -/
def replaceWithMultiple (p : PathId) (nodes : List (Option NodeId)) : TreeM (List PathId) := do
  assertLive p
  match nodes with
  | [] =>
    remove p
    return []
  | first :: rest =>
    spreadComments ((← get).node p) first (rest.getLast?.getD first)
    replaceWith p first
    if rest.isEmpty then return [p]
    return p :: (← insertAfter p rest)

/-- Replaces the node at a path by whatever number of nodes. In a list the path itself is removed
unless there is exactly one node. -/
def replaceInline (p : PathId) (nodes : List (Option NodeId)) : TreeM (List PathId) := do
  assertLive p
  match nodes with
  | [node] =>
    replaceWith p node
    return [p]
  | _ =>
    if ((← get).slot p).list?.isNone then replaceWithMultiple p nodes
    else
      let inserted ← insertAfter p nodes
      remove p
      return inserted

end ScopedTree.Tree
