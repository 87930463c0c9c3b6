import ScopedTree.Tree.State

/-!
# Paths

A path stands for a place in the tree and remembers the node it saw there. Lists shift under edits,
so operations first bring a path in line with the tree.

* `Tree.getOrCreatePath`   the path of a place, made on first request;
* `Tree.pathFor`           the path of a node under the root;
* `Tree.location`          the dotted text of a path;
* `Tree.resync`            follows a node that moved, or marks the path stale;
* `Tree.assertLive`        fails unless the path stands for a place with its node in it.
-/

namespace ScopedTree.Tree

def readSlot (t : Tree) (owner : Option NodeId) : Slot → Option NodeId
  | .root => t.root
  | .field name => t.arena.child? owner name
  | .entry list index => (t.arena.items owner list)[index]?.join

/-- The first place among the given fields and values that holds `id`. -/
def slotAmong (id : Option NodeId) : List (Field × Value) → Option Slot
  | [] => none
  | (f, value) :: rest =>
    match value with
    | .node child => if child == id then some (.field f.name) else slotAmong id rest
    | .list items =>
      match items.findIdx? (· == id) with
      | some index => some (.entry f.name index)
      | none => slotAmong id rest
    | _ => slotAmong id rest

/-- Where `id` stands among the children of `owner`. -/
def findSlot (t : Tree) (owner id : Option NodeId) : Option Slot :=
  (t.arena.look owner).bind fun n => slotAmong id (n.type.fields.zip n.values)

/-- The ancestors of a path, nearest first, over at most `fuel` links. -/
def ancestorsFrom (t : Tree) : Nat → Option PathId → List PathId
  | 0, _ => []
  | _, none => []
  | fuel + 1, some p => p :: t.ancestorsFrom fuel (t.parentPath p)

def ancestors (t : Tree) (p : PathId) : List PathId :=
  t.ancestorsFrom (t.paths.size + 1) (t.parentPath p)

def ancestry (t : Tree) (p : PathId) : List PathId := p :: t.ancestors p

/-- The text of the root in locations: the name of its type, starting with a small letter. -/
def rootLabel (t : Tree) : String :=
  match ((t.arena.type? t.root).elim "root" (·.name)).toList with
  | c :: cs => String.ofList (c.toLower :: cs)
  | [] => ""

/-- The part of a location that one path adds. -/
def slotLabel (t : Tree) : Slot → String
  | .root => t.rootLabel
  | .field name => "." ++ name
  | .entry list index => "." ++ list ++ "[" ++ toString index ++ "]"

/-- The dotted location of a path, such as `program.body[2].expression`. -/
def location (t : Tree) (p : PathId) : String :=
  String.join ((t.ancestry p).reverse.map fun q => t.slotLabel (t.slot q))

def errorAt (t : Tree) (p : PathId) (message : String) : TreeError :=
  .custom (t.location p) message

def detachedError (t : Tree) (p : PathId) : TreeError := .detachedPath (t.location p)

def notAListError (t : Tree) (p : PathId) : TreeError := .notAList (t.location p)

def allocPath (data : PathData) : TreeM PathId :=
  modifyGet fun t => (⟨t.paths.size⟩, { t with paths := t.paths.push data })

def getRootPath : TreeM PathId := do
  let t ← get
  match t.rootPath with
  | some p => return p
  | none =>
    let p ← allocPath { node := t.root }
    modify ({ · with rootPath := some p })
    return p

def cachedPaths (t : Tree) (owner : Option NodeId) : List PathId :=
  (owner.bind fun id => t.childPaths.get? id.index).getD []

/-- Whether a path made earlier is the one of the place `slot`, which now holds `node`. -/
def servesSlot (t : Tree) (slot : Slot) (node : Option NodeId) (p : PathId) : Bool :=
  let d := t.path p
  !d.removed && (if node.isSome then d.node == node else d.node.isNone && d.slot == slot)

/-- The path of a place below `parentPath`, brought up to date if it was made before. -/
def getOrCreatePath (parentPath : Option PathId) (owner : Option NodeId) (slot : Slot) :
    TreeM PathId := do
  if parentPath.isNone then getRootPath
  else
    let t ← get
    let node := t.readSlot owner slot
    match (t.cachedPaths owner).find? (t.servesSlot slot node) with
    | some p =>
      modify (·.updatePath p ({ · with parentPath, parent := owner, slot, node, stale := false }))
      return p
    | none =>
      let p ← allocPath { node, parentPath, parent := owner, slot }
      match owner with
      | some id =>
        modify fun t =>
          { t with childPaths := t.childPaths.put id.index (t.cachedPaths owner ++ [p]) }
      | none => pure ()
      return p

/-- The owners from the root down to `id`, if there are at most `fuel` of them. `below` are the
nodes already found below `id`. -/
def chainFromRoot (t : Tree) : Nat → Option NodeId → List (Option NodeId) →
    Option (List (Option NodeId))
  | fuel, id, below =>
    if id == t.root then some (id :: below)
    else
      match fuel with
      | 0 => none
      | fuel + 1 =>
        match t.arena.parentOf id with
        | none => none
        | some owner => t.chainFromRoot fuel (some owner) (id :: below)

/-- Walks down from `path`, which holds `owner`, to the last of the nodes. -/
def descend (path : PathId) (owner : Option NodeId) :
    List (Option NodeId) → TreeM (Option PathId)
  | [] => return some path
  | id :: below => do
    match (← get).findSlot owner id with
    | none => return none
    | some slot => descend (← getOrCreatePath (some path) owner slot) id below

/-- The path of a node that hangs under the root. -/
def pathFor (id : Option NodeId) : TreeM (Option PathId) := do
  match (← get).chainFromRoot Limits.chain id [] with
  | some (root :: below) => descend (← getRootPath) root below
  | _ => return none

/-- Removes what is attached to a node and forgets the paths made below it. -/
def clearNode (id : Option NodeId) : TreeM Unit :=
  modify fun t =>
    { t with
      arena := t.arena.update id Node.bare
      childPaths := match id with
        | some id => t.childPaths.drop id.index
        | none => t.childPaths }

def resyncParent (p : PathId) (owner : Option NodeId) : TreeM Unit := do
  let d := (← get).path p
  if owner != d.parent then
    let parentPath ← pathFor owner
    modify (·.updatePath p fun d =>
      { d with parent := owner, parentPath := parentPath <|> d.parentPath })
  else
    match d.parentPath with
    | some q =>
      if (← get).node q != owner then
        let parentPath ← pathFor owner
        modify (·.updatePath p fun d => { d with parentPath := parentPath <|> d.parentPath })
    | none => pure ()

/-- Lets the place of a path follow its node among the children of its owner. -/
def resyncSlot (p : PathId) (owner node : Option NodeId) : TreeM Unit := do
  let t ← get
  let d := t.path p
  if t.readSlot d.parent d.slot == node then
    modify (·.updatePath p ({ · with stale := false }))
  else
    match t.findSlot owner node with
    | some slot => modify (·.updatePath p ({ · with slot, stale := false }))
    | none => modify (·.updatePath p ({ · with stale := true }))

/-- Brings a path in line with the tree. Its parent becomes the owner of its node and its place the
one where the node stands there. A node without an owner makes the path stale. -/
def resync (p : PathId) : TreeM Unit := do
  let t ← get
  let d := t.path p
  if d.removed || d.slot == .root || d.node.isNone then return
  match t.arena.parentOf d.node with
  | none => modify (·.updatePath p ({ · with stale := true }))
  | some owner =>
    resyncParent p (some owner)
    resyncSlot p (some owner) d.node

/-- Brings a path in line with the tree and fails if it does not stand for a place any more. -/
def assertLive (p : PathId) : TreeM Unit := do
  resync p
  let t ← get
  let d := t.path p
  if d.removed || d.stale then throw (t.detachedError p)

/-- Moves the index of every path made below `owner` in `list` from index `start` on. -/
def shiftEntries (owner : Option NodeId) (list : String) (start : Nat) (move : Nat → Nat)
    (except : Option PathId) : TreeM Unit :=
  modify fun t =>
    (t.cachedPaths owner).foldl (fun t p =>
      if some p == except then t
      else t.updatePath p fun d =>
        match d.slot with
        | .entry l i =>
          if !d.removed && l == list && start ≤ i then { d with slot := .entry l (move i) } else d
        | _ => d) t

/-- Writes `node` to the place of a path and gives the node that was there. -/
def writeSlot (p : PathId) (node : Option NodeId) : TreeM (Option NodeId) := do
  let t ← get
  let d := t.path p
  match d.slot with
  | .root =>
    if node.isNone then throw (t.errorAt p "cannot clear the root slot")
    modify ({ · with root := node })
    return t.root
  | .field name => TreeM.edit (Arena.setChild d.parent name node)
  | .entry list index => TreeM.edit (Arena.listSet d.parent list index node)

def field (p : PathId) (name : String) : TreeM Value := do
  let t ← get
  TreeM.ofShape (do (← t.arena.node (t.node p)).field name)

/-- Marks a path so that its children and its exit are left out of the current pass. -/
def skip (p : PathId) : TreeM Unit := modify (·.updatePath p ({ · with shouldSkip := true }))

/-- Leaves one field of the node at a path out of the current visit. -/
def skipKey (p : PathId) (key : String) : TreeM Unit :=
  modify (·.updatePath p fun d =>
    { d with skipKeys := if d.skipKeys.contains key then d.skipKeys else key :: d.skipKeys })

def stop (p : PathId) : TreeM Unit :=
  modify (·.updatePath p ({ · with shouldStop := true, shouldSkip := true }))

def setData (p : PathId) (key : String) (value : Datum) : TreeM Unit :=
  modify (·.updatePath p fun d => { d with data := d.data.put key value })

def getData (t : Tree) (p : PathId) (key : String) : Option Datum := (t.path p).data.get? key

/-- Appends comments to one of the lists of the node at a path. -/
def addComments (p : PathId) (place : CommentPlace) (comments : List Comment) : TreeM Unit := do
  assertLive p
  if comments.isEmpty then return
  let t ← get
  let _ ← TreeM.ofShape (t.arena.node (t.node p))
  modify fun t =>
    { t with
      arena := t.arena.update (t.node p) fun n =>
        { n with comments := comments.foldl (·.push place ·) n.comments } }

end ScopedTree.Tree
