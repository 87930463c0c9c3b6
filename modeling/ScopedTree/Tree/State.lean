import ScopedTree.Arena.Edit
import ScopedTree.Scope.Binding
import ScopedTree.Tree.Error
import ScopedTree.Tree.IndexTable

/-!
# The state of a tree

A tree is an arena with a root, together with the paths, scopes and bindings found in it so far and
the passes under way.

* `Slot`, `PathData`    where a node stands, and a cursor on that place;
* `ScopeData`           the names of one scope;
* `Frame`               the work of a pass on one list or slot of children;
* `Tree`, `TreeM`       the state, and operations on it;
* `TreeM.edit`          runs a write to the arena.
-/

namespace ScopedTree

/-- The handle of a frame. -/
structure ContextId where
  index : Nat
  deriving DecidableEq, Inhabited

/-- The place of a node in its owner. -/
inductive Slot where
  | root
  /-- A single child. -/
  | field (name : String)
  /-- The entry of a list. -/
  | entry (list : String) (index : Nat)
  deriving DecidableEq, Inhabited

namespace Slot

def key? : Slot → Option String
  | root => none
  | field name => some name
  | entry list _ => some list

def list? : Slot → Option String
  | entry list _ => some list
  | _ => none

def index? : Slot → Option Nat
  | entry _ index => some index
  | _ => none

end Slot

/-- A cursor: a place in the tree and the node last seen there. -/
structure PathData where
  node : Option NodeId := none
  parentPath : Option PathId := none
  parent : Option NodeId := none
  slot : Slot := .root
  scope : Option ScopeId := none
  removed : Bool := false
  /-- The node was not found in its owner. -/
  stale : Bool := false
  shouldSkip : Bool := false
  shouldStop : Bool := false
  /-- A pass went through the children. -/
  childrenDone : Bool := false
  /-- Fields left out of the current visit. -/
  skipKeys : List String := []
  /-- A node with the type inferred for it. -/
  inferred : Option (Option NodeId × Option NodeId) := none
  data : Table Datum := []
  /-- The frames the path is queued on, the latest first. -/
  contexts : List ContextId := []
  deriving Inhabited

/-- The names of a scope. The last five fields are used in the outermost scope only, save for
`pushed`. -/
structure ScopeData where
  /-- The node that owns the scope. -/
  block : NodeId
  path : PathId
  parent : Option ScopeId
  bindings : Table BindingId := []
  labels : Table PathId := []
  data : Table Datum := []
  /-- The scope was crawled, or is being crawled. -/
  crawled : Bool := false
  /-- The block left the tree. -/
  detached : Bool := false
  /-- Names without a declaration, each with the first node that uses it. -/
  globals : Table NodeId := []
  /-- Names generated so far. -/
  uids : List String := []
  /-- Names that occur. -/
  references : List String := []
  /-- Where to go on trying names, for each base. -/
  uidCounters : Table Nat := []
  /-- Declarations put in on behalf of others, for each keyword. -/
  pushed : Table PathId := []
  deriving Inhabited

/-- The work of a pass on the children in one field of a node. -/
structure Frame where
  id : ContextId
  /-- The node whose field it is; none for the root of a pass. -/
  owner : Option NodeId
  key : String
  /-- The paths yet to be visited. -/
  pending : List PathId := []
  /-- The paths to be visited right after the current one. -/
  priority : List PathId := []
  /-- The paths that this frame was put on. -/
  entered : List PathId := []
  deriving Inhabited

/-- What a tree is set up with. -/
structure Options where
  /-- No scope is ever made. -/
  noScope : Bool := false
  /-- Names that generated names keep clear of and are added to. -/
  registry : Option (List String) := none
  deriving Inhabited

/-- A tree with all that is known about it. -/
structure Tree where
  arena : Arena := {}
  root : Option NodeId := none
  rootPath : Option PathId := none
  paths : Array PathData := #[]
  /-- The paths made below each node. -/
  childPaths : IndexTable (List PathId) := {}
  scopes : Array ScopeData := #[]
  /-- The scope of each node that owns one. -/
  scopeOfNode : IndexTable ScopeId := {}
  /-- Bindings; `none` once one is destroyed. -/
  bindings : Array (Option Binding) := #[]
  /-- The frames under way, the latest first. -/
  frames : List Frame := []
  nextContext : Nat := 0
  /-- How deep the passes under way are nested. -/
  depth : Nat := 0
  options : Options := {}
  deriving Inhabited

/-- Operations on a tree, which keep what they did also when they fail. -/
abbrev TreeM := EStateM TreeError Tree

namespace TreeM

variable {α : Type}

/-- Runs a write to the arena. -/
def edit (x : ArenaM α) : TreeM α := fun t =>
  let arena := t.arena
  let t := { t with arena := {} }
  match x arena with
  | .ok a arena => .ok a { t with arena }
  | .error e arena => .error (.shape e) { t with arena }

def ofShape (x : Except ShapeError α) : TreeM α :=
  match x with
  | .ok a => pure a
  | .error e => throw (.shape e)

/-- Runs an operation and hands its failure on as a value. -/
def attempt (x : TreeM α) : TreeM (Except TreeError α) := fun t =>
  match x t with
  | .ok a t => .ok (.ok a) t
  | .error e t => .ok (.error e) t

end TreeM

namespace Tree

def ofArena (arena : Arena) (root : Option NodeId) (options : Options := {}) : Tree :=
  { arena, root, options }

def path (t : Tree) (p : PathId) : PathData := t.paths[p.index]?.getD {}

def scope (t : Tree) (s : ScopeId) : ScopeData :=
  t.scopes[s.index]?.getD { block := ⟨0⟩, path := ⟨0⟩, parent := none }

def binding? (t : Tree) (b : BindingId) : Option Binding := t.bindings[b.index]?.join

def node (t : Tree) (p : PathId) : Option NodeId := (t.path p).node

def nodeType? (t : Tree) (p : PathId) : Option NodeType := t.arena.type? (t.node p)

def nodeIs (t : Tree) (p : PathId) (ty : NodeType) : Bool := t.arena.is (t.node p) ty

/-- Whether the type of the node at a path belongs to the group. -/
def nodeIsA (t : Tree) (p : PathId) (group : Alias) : Bool := t.arena.isA (t.node p) group

def parentPath (t : Tree) (p : PathId) : Option PathId := (t.path p).parentPath

def parentNode (t : Tree) (p : PathId) : Option NodeId := (t.path p).parent

def slot (t : Tree) (p : PathId) : Slot := (t.path p).slot

def updatePath (t : Tree) (p : PathId) (f : PathData → PathData) : Tree :=
  { t with paths := t.paths.modify p.index f }

def updateScope (t : Tree) (s : ScopeId) (f : ScopeData → ScopeData) : Tree :=
  { t with scopes := t.scopes.modify s.index f }

def updateBinding (t : Tree) (b : BindingId) (f : Binding → Binding) : Tree :=
  { t with bindings := t.bindings.modify b.index (·.map f) }

def destroyBinding (t : Tree) (b : BindingId) : Tree :=
  { t with bindings := t.bindings.modify b.index fun _ => none }

end Tree

end ScopedTree
