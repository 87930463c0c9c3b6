import ScopedTree.Arena.Build
import ScopedTree.Edit.Invalidate
import ScopedTree.Scope.Crawl

/-!
# Writing places

The edits that all others are made of.

* `Tree.replaceNode`       puts a node in place of the one at a path;
* `Tree.detachForWrap`     takes the node at a path out, so that it can be put into a wrapper;
* `Tree.insertEntries`     puts nodes into a list;
* `Tree.unshiftContainer`, `Tree.pushContainer`   at the start or end of a list;
* `Tree.ensureBlock`       wraps a body into a block.
-/

namespace ScopedTree.Tree

/-- Moves the comments of a node to the end of those of another. -/
def moveComments (source target : Option NodeId) : TreeM Unit :=
  modify fun t =>
    let comments := (t.arena.look source).elim {} (·.comments)
    let arena := t.arena.update source ({ · with comments := {} })
    { t with arena := arena.update target fun n =>
        { n with comments := n.comments.absorb comments } }

/-- Takes a node out of its place if it lies in the subtree `old` that is to be replaced. -/
def takeFrom (id old : Option NodeId) : TreeM Unit := do
  if (← get).arena.isWithin id old then TreeM.edit (Arena.take id)

/-- Puts a node in place of the one at a path. The node may come from the subtree that it replaces.
What the old subtree declared and used is forgotten, the new one is registered, and passes under way
will visit it. -/
def replaceNode (p : PathId) (replacement : NodeId) : TreeM Unit := do
  let old := (← get).node p
  if some replacement != old then takeFrom (some replacement) old
  let t ← get
  let enclosing ← match t.parentPath p with
    | some parent => if t.options.noScope then pure none else scopeOf parent
    | none => pure none
  let _ ← writeSlot p (some replacement)
  moveComments old (some replacement)
  modify (·.updatePath p ({ · with node := some replacement, scope := none, stale := false }))
  match old with
  | some old =>
    modify (invalidate { old, keep := some replacement, holder := some p, enclosing })
  | none => pure ()
  registerSubtree p
  requeue p

/-- Puts a placeholder in place of the node at a path and gives the node, which then has no
owner. -/
def detachForWrap (p : PathId) : TreeM (Option NodeId) := do
  assertLive p
  let old := (← get).node p
  let placeholder ← TreeM.edit Arena.noop
  let _ ← writeSlot p (some placeholder)
  modify (·.updatePath p ({ · with node := some placeholder }))
  return old

def listField (p : PathId) (key : String) : TreeM String := do
  let (ty, f) ← fieldOf p key
  if f.kind == .list then return f.name else throw (.shape (.fieldKind ty key f.kind))

/-- Puts nodes into a list of `owner`, the node at `parentPath`, before the entry at `index`. Paths
of later entries move along; the new entries are registered and queued. Gives their paths. -/
def insertEntries (parentPath : PathId) (owner : Option NodeId) (list : String) (index : Nat)
    (nodes : List (Option NodeId)) : TreeM (List PathId) := do
  let index ← TreeM.edit (Arena.listInsert owner list index nodes)
  shiftEntries owner list index (· + nodes.length) none
  let paths ← (List.range nodes.length).mapM fun i =>
    getOrCreatePath (some parentPath) owner (.entry list (index + i))
  paths.forM fun p => do
    registerSubtree p
    queueNewPath p true
  return paths

/-- Puts nodes at the start of a list of the node at a path. -/
def unshiftContainer (p : PathId) (key : String) (nodes : List (Option NodeId)) :
    TreeM (List PathId) := do
  assertLive p
  let list ← listField p key
  insertEntries p ((← get).node p) list 0 nodes

/-- Puts nodes at the end of a list of the node at a path. -/
def pushContainer (p : PathId) (key : String) (nodes : List (Option NodeId)) :
    TreeM (List PathId) := do
  assertLive p
  let list ← listField p key
  let node := (← get).node p
  let items ← TreeM.ofShape ((← get).arena.list node list)
  insertEntries p node list items.length nodes

/-- The statements of a block that stands for a body. The expression body of a function is what the
function returns. -/
def bodyStatements (body : Option NodeId) (inFunction : Bool) : TreeM (List (Option NodeId)) := do
  let t ← get
  if t.arena.is body .emptyStatement then return []
  else if t.arena.isA body .statement then return [body]
  else if inFunction then return [some (← TreeM.edit (Arena.returnStatement body))]
  else return [some (← TreeM.edit (Arena.expressionStatement body))]

/-- Makes the body of the node at a path a block and gives the path of the body. -/
def ensureBlock (p : PathId) : TreeM PathId := do
  assertLive p
  let node := (← get).node p
  let body ← follow p "body"
  if (← get).nodeIs body .blockStatement then return body
  let current ← detachForWrap body
  let statements ← bodyStatements current ((← get).arena.isA node .function)
  let block ← TreeM.edit (Arena.blockStatement statements)
  if (← get).arena.is node .arrowFunctionExpression then
    modify fun t =>
      { t with arena := t.arena.update node (·.withValue "expression" (.bool false)) }
  replaceNode body block
  return body

end ScopedTree.Tree
