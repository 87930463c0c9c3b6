import ScopedTree.Path.Basic

/-!
# Frames and queues

A pass has a frame for each list or slot of children it is in. A path that is put into the tree
while the pass runs is queued on the frame that will come by it.

* `Tree.pushFrame`, `Tree.popFrame`   start and end the work on a field;
* `Tree.queueOn`                      queues a path on a frame;
* `Tree.queueNewPath`                 queues a path wherever the passes under way will visit it;
* `Tree.requeue`                      has a path visited again.
-/

namespace ScopedTree.Tree

/-- Starts a frame on a field of a node. -/
def pushFrame (owner : Option NodeId) (key : String) : TreeM ContextId :=
  modifyGet fun t =>
    let id : ContextId := ⟨t.nextContext⟩
    (id, { t with nextContext := t.nextContext + 1, frames := { id, owner, key } :: t.frames })

/-- Ends a frame. -/
def popFrame (id : ContextId) : TreeM Unit :=
  modify fun t => { t with frames := t.frames.eraseP (·.id == id) }

def frame? (t : Tree) (id : ContextId) : Option Frame := t.frames.find? (·.id == id)

/-- Changes the first of several frames with the given handle. -/
def replaceFrame (id : ContextId) (f : Frame → Frame) : List Frame → List Frame
  | [] => []
  | frame :: frames =>
    if frame.id == id then f frame :: frames else frame :: replaceFrame id f frames

def updateFrame (t : Tree) (id : ContextId) (f : Frame → Frame) : Tree :=
  { t with frames := replaceFrame id f t.frames }

/-- Adds a path at the end unless it is there. -/
def addOnce (ps : List PathId) (p : PathId) : List PathId :=
  if ps.contains p then ps else ps ++ [p]

/-- Queues a path on a frame. With priority it comes right after the path being visited. -/
def queueOn (t : Tree) (p : PathId) (priority : Bool) (id : ContextId) : Tree :=
  t.updateFrame id fun f =>
    if priority then { f with priority := addOnce f.priority p }
    else { f with pending := addOnce f.pending p }

def frameAround? (t : Tree) (d : PathData) : Option Frame :=
  d.slot.key?.bind fun key => t.frames.find? fun f => f.owner == d.parent && f.key == key

/-- Queues a path with the nearest of the given ancestors that is itself queued. -/
def queueWithAncestor (t : Tree) (p : PathId) (ancestors : List PathId) : Tree :=
  match ancestors.find? fun q => !(t.path q).contexts.isEmpty with
  | some q => (t.path q).contexts.reverse.foldl (fun t id => t.queueOn p false id) t
  | none => t

/-- Queues a path on the frames it was put on before, else on the frame of its field, else, if a
pass is through with the children of its parent, with its nearest queued ancestor. -/
def queueNewPath (p : PathId) (priority : Bool) : TreeM Unit :=
  modify fun t =>
    let d := t.path p
    if !d.contexts.isEmpty then
      d.contexts.reverse.foldl (fun t id => t.queueOn p priority id) t
    else
      match t.frameAround? d with
      | some f => t.queueOn p priority f.id
      | none =>
        match d.parentPath with
        | some parent =>
          if (t.path parent).childrenDone then t.queueWithAncestor p (t.ancestry parent) else t
        | none => t

/-- Has a path visited again by the passes it belongs to. -/
def requeue (p : PathId) : TreeM Unit := do
  modify (·.updatePath p ({ · with shouldSkip := false }))
  queueNewPath p true

end ScopedTree.Tree
