import ScopedTree.Pass.Dispatch
import ScopedTree.Pass.Queue

/-!
# The traversal engine

A pass visits the nodes below a path: the enter handlers of a node, its children field by field, and
its exit handlers. Nodes that handlers put into the tree are queued and visited in the same pass.

* `Engine`        the handlers of a pass, and how it gives a path its scope;
* `visitQueue`    visits the paths queued on a frame;
* `visitPath`     visits one path;
* `visitNode`     visits the children of a node.

Every step is paid for out of a number of steps that is granted to the pass.
-/

namespace ScopedTree

/-- What a pass needs: its handlers and a way to assign scopes. -/
structure Engine (σ : Type) where
  dispatch : Dispatch σ
  /-- Assigns a path the scope it lives in. -/
  assign : PathId → TreeM Unit

namespace Engine

variable {σ : Type}

/-- Puts a path on a frame, with its flags cleared and its scope assigned. -/
def pushContext (e : Engine σ) (id : ContextId) (p : PathId) : TreeM Unit := do
  modify (·.updatePath p fun d =>
    { d with
      contexts := id :: d.contexts, shouldSkip := false, shouldStop := false, skipKeys := [] })
  e.assign p
  modify (·.updateFrame id fun f => { f with entered := f.entered ++ [p] })

/-- Takes a path off the frame it was put on last. -/
def popContext (t : Tree) (p : PathId) : Tree :=
  t.updatePath p fun d => { d with contexts := d.contexts.drop 1 }

def takePending (id : ContextId) : TreeM (Option PathId) :=
  modifyGet fun t =>
    match (t.frame? id).map (·.pending) with
    | some (p :: rest) => (some p, t.updateFrame id ({ · with pending := rest }))
    | _ => (none, t)

def takePriority (id : ContextId) : TreeM (List PathId) :=
  modifyGet fun t =>
    (((t.frame? id).map (·.priority)).getD [], t.updateFrame id ({ · with priority := [] }))

/-- The node at a path if the path is to be visited on a frame: it stands for a place, holds a node
and is not among those visited. -/
def visitable? (e : Engine σ) (id : ContextId) (visited : List NodeId) (p : PathId) :
    TreeM (Option NodeId) := do
  Tree.resync p
  let d := (← get).path p
  if d.removed || d.stale then return none
  if d.contexts.head? != some id then e.pushContext id p
  return ((← get).node p).filter fun node => !visited.contains node

/-- Whether a handler changed the node of a path or flagged the path. -/
def changed (t : Tree) (p : PathId) (node : Option NodeId) : Bool :=
  let d := t.path p
  d.node != node || d.shouldSkip || d.shouldStop || d.removed

/-- Runs handlers one after the other until one of them changes the path. A handler whose check
fails at its turn is left out. -/
def runHandlers (p : PathId) (node : Option NodeId) :
    List ((Tree → Bool) × Handler σ) → PassM σ Bool
  | [] => return false
  | (check, run) :: rest => do
    if ← PassM.ask check then
      run p
      if ← PassM.ask (changed · p node) then return true
    runHandlers p node rest

/-- Runs the handlers of a phase on a path. Gives whether one of them changed it. -/
def call (e : Engine σ) (p : PathId) (phase : Phase) : PassM σ Bool := do
  let t ← PassM.ask id
  let node := t.node p
  match t.arena.type? node with
  | none => return false
  | some ty =>
    let general := (e.dispatch.generalHandlers phase).map fun run => ((fun _ : Tree => true), run)
    let typed := (e.dispatch.entries ty phase).map fun entry =>
      ((fun t : Tree => entry.key.passes t p), entry.run)
    runHandlers p node (general ++ typed)

/-- The paths of the children in a field that a pass has to visit. -/
def childQueue (e : Engine σ) (p : PathId) (node : Option NodeId) (f : Field) :
    TreeM (List PathId) := do
  let t ← get
  let visits (child : Option NodeId) := child.any (e.dispatch.shouldVisit t.arena)
  match ← TreeM.ofShape (do (← t.arena.node node).field f.name) with
  | .node child =>
    if visits child then return [← Tree.getOrCreatePath (some p) node (.field f.name)]
    else return []
  | .list items =>
    let indices := (List.range items.length).filter fun i => visits items[i]?.join
    indices.mapM fun i => Tree.getOrCreatePath (some p) node (.entry f.name i)
  | _ => return []

mutual

/-- Visits paths on a frame. What the frame had queued is put back at the end. Gives whether the
pass was stopped. -/
def visitQueue (e : Engine σ) : Nat → ContextId → List PathId → PassM σ Bool
  | 0, _, _ => throw .outOfSteps
  | steps + 1, id, queue => do
    match ← PassM.ask (·.frame? id) with
    | none => return false
    | some saved =>
      PassM.onTree <| modify (·.updateFrame id
        ({ · with pending := queue, priority := [], entered := [] }))
      let result ← PassM.attempt (runQueue e steps id [])
      PassM.onTree <| modify fun t =>
        let entered := ((t.frame? id).map (·.entered)).getD []
        (entered.foldl popContext t).updateFrame id fun _ => saved
      PassM.resume result

/-- Visits the paths that a frame has queued, each node once; after each path come those with
priority. -/
def runQueue (e : Engine σ) : Nat → ContextId → List NodeId → PassM σ Bool
  | 0, _, _ => throw .outOfSteps
  | steps + 1, id, visited => do
    match ← PassM.onTree (takePending id) with
    | none => return false
    | some p =>
      match ← PassM.onTree (e.visitable? id visited p) with
      | none => runQueue e steps id visited
      | some node =>
        if ← visitPath e steps p then return true
        let priority ← PassM.onTree (takePriority id)
        if priority.isEmpty then runQueue e steps id (node :: visited)
        else if ← visitQueue e steps id priority then return true
        else runQueue e steps id (node :: visited)

/-- Visits a path: enter, children, exit. Gives whether the pass was stopped. -/
def visitPath (e : Engine σ) : Nat → PathId → PassM σ Bool
  | 0, _ => throw .outOfSteps
  | steps + 1, p => do
    let t ← PassM.ask id
    let node := t.node p
    match t.arena.type? node with
    | none => return false
    | some ty =>
      if e.dispatch.isDenied ty then return false
      let entered ← e.call p .enter
      let d ← PassM.ask (·.path p)
      if entered || d.shouldSkip then return d.shouldStop
      PassM.onTree <| modify (·.updatePath p ({ · with childrenDone := false }))
      let children ← PassM.attempt (visitNode e steps p node)
      PassM.onTree <| modify (·.updatePath p ({ · with childrenDone := true }))
      if ← PassM.resume children then
        PassM.onTree <| modify (·.updatePath p ({ · with shouldStop := true }))
        return true
      let d ← PassM.ask (·.path p)
      if d.removed || d.node != node then return d.shouldStop
      let _ ← e.call p .exit
      PassM.ask fun t => (t.path p).shouldStop

/-- Visits the children of the node at a path, one level deeper. -/
def visitNode (e : Engine σ) : Nat → PathId → Option NodeId → PassM σ Bool
  | 0, _, _ => throw .outOfSteps
  | steps + 1, p, node => do
    let t ← PassM.ask id
    if t.depth ≥ Limits.traversal then throw .depthLimit
    PassM.onTree <| modify fun t => { t with depth := t.depth + 1 }
    let fields := ((t.arena.type? node).map (·.childFields)).getD []
    let result ← PassM.attempt (visitFields e steps p node fields)
    PassM.onTree <| modify fun t => { t with depth := t.depth - 1 }
    PassM.resume result

/-- Visits the children in the given fields, as long as the path holds the node. -/
def visitFields (e : Engine σ) : Nat → PathId → Option NodeId → List Field → PassM σ Bool
  | 0, _, _, _ => throw .outOfSteps
  | _, _, _, [] => return false
  | steps + 1, p, node, f :: fields => do
    let d ← PassM.ask (·.path p)
    if d.removed || d.node != node then return false
    if d.skipKeys.contains f.name then visitFields e steps p node fields
    else
      let queue ← PassM.onTree (e.childQueue p node f)
      if queue.isEmpty then visitFields e steps p node fields
      else
        let id ← PassM.onTree (Tree.pushFrame node f.name)
        let result ← PassM.attempt (visitQueue e steps id queue)
        PassM.onTree (Tree.popFrame id)
        if ← PassM.resume result then return true
        visitFields e steps p node fields

end

/-- Visits the root and everything below. -/
def traverse (e : Engine σ) (steps : Nat) : PassM σ Unit := do
  let root ← PassM.onTree Tree.getRootPath
  let id ← PassM.onTree (Tree.pushFrame none "")
  let result ← PassM.attempt (e.visitQueue steps id [root])
  PassM.onTree (Tree.popFrame id)
  let _ ← PassM.resume result

/-- Makes sure that a path has a scope that is still in use. -/
def ensureScope (e : Engine σ) (p : PathId) : TreeM Unit := do
  let t ← get
  match (t.path p).scope with
  | some s => if (t.scope s).detached then e.assign p
  | none => e.assign p

def traversePath (e : Engine σ) (steps : Nat) (p : PathId) : PassM σ Unit := do
  PassM.onTree do
    Tree.assertLive p
    e.ensureScope p
  let node ← PassM.ask (·.node p)
  let _ ← e.visitNode steps p node

/-- Visits a path and everything below. Gives whether the visit asked to stop. -/
def visit (e : Engine σ) (steps : Nat) (p : PathId) : PassM σ Bool := do
  PassM.onTree do
    Tree.assertLive p
    e.ensureScope p
  e.visitPath steps p

end Engine

end ScopedTree
