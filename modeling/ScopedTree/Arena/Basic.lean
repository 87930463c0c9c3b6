import ScopedTree.Arena.Node

/-!
# Arenas

An arena stores nodes and hands out a handle for each. All writes of children go through the arena,
so that the owner of a node is the one slot that holds it.

* `Arena`, `ArenaM`           the store, and steps on it that may fail;
* `Arena.get?`, `Arena.look`  the node behind a handle, behind a handle that may be absent;
* `Arena.isWithin`            whether a node lies at or below another;
* `Arena.alloc`               a new node that takes over its children.
-/

namespace ScopedTree

/-- A store of nodes. -/
structure Arena where
  nodes : Array Node := #[]
  deriving Inhabited

/-- Steps on an arena that may fail. -/
abbrev ArenaM := EStateM ShapeError Arena

namespace Arena

def size (a : Arena) : Nat := a.nodes.size

/-- The node behind a handle. -/
def get? (a : Arena) (id : NodeId) : Option Node := a.nodes[id.index]?

/-- The node behind a handle that may be absent. -/
def look (a : Arena) (id : Option NodeId) : Option Node := id.bind a.get?

/-- The node behind a handle, or the error of a handle without a node. -/
def node (a : Arena) (id : Option NodeId) : Except ShapeError Node :=
  match a.look id with
  | some n => .ok n
  | none => .error (.invalidNode id)

def type? (a : Arena) (id : Option NodeId) : Option NodeType := (a.look id).map (·.type)

/-- Whether a node is there and has the given type. -/
def is (a : Arena) (id : Option NodeId) (ty : NodeType) : Bool := a.type? id == some ty

/-- Whether a node is there and its type belongs to the group. -/
def isA (a : Arena) (id : Option NodeId) (group : Alias) : Bool := (a.type? id).any (·.isA group)

def parentOf (a : Arena) (id : Option NodeId) : Option NodeId := (a.look id).bind (·.parent)

/-- The node in a single slot of a node. -/
def child (a : Arena) (id : Option NodeId) (field : String) : Except ShapeError (Option NodeId) :=
  do (← a.node id).child field

def list (a : Arena) (id : Option NodeId) (field : String) :
    Except ShapeError (List (Option NodeId)) :=
  do (← a.node id).list field

/-- The node in a single slot of a node, or `none` where there is no such slot. -/
def child? (a : Arena) (id : Option NodeId) (field : String) : Option NodeId :=
  (a.look id).bind (·.child? field)

/-- The entries of a list of a node, or `[]` where there is no such list. -/
def items (a : Arena) (id : Option NodeId) (field : String) : List (Option NodeId) :=
  (a.look id).elim [] (·.items field)

def text? (a : Arena) (id : Option NodeId) (field : String) : Option String :=
  (a.look id).bind (·.text? field)

/-- Whether a truth value of a node is true. -/
def isSet (a : Arena) (id : Option NodeId) (field : String) : Bool :=
  (a.look id).any (·.isSet field)

def holds (a : Arena) (owner : Option NodeId) (field : String) (id : Option NodeId) : Bool :=
  (a.look owner).any (·.holds field id)

def name? (a : Arena) (id : Option NodeId) : Option String := (a.look id).bind (·.name?)

/-- The children of a node in visiting order, without holes. -/
def children (a : Arena) (id : Option NodeId) : List NodeId := (a.look id).elim [] (·.children)

/-- Follows at most `fuel` owner links from `id` in search of `ancestor`. -/
def reaches (a : Arena) (ancestor : Option NodeId) : Nat → Option NodeId → Bool
  | _, none => false
  | 0, some _ => false
  | fuel + 1, some id => some id == ancestor || a.reaches ancestor fuel (a.parentOf (some id))

/-- Whether `ancestor` is `id` or one of its owners. -/
def isWithin (a : Arena) (id ancestor : Option NodeId) : Bool :=
  a.reaches ancestor (a.size + 1) id

/-- Changes the node behind a handle; nothing happens if there is none. -/
def update (a : Arena) (id : Option NodeId) (f : Node → Node) : Arena :=
  match id with
  | some id => { a with nodes := a.nodes.modify id.index f }
  | none => a

def setParent (a : Arena) (id parent : Option NodeId) : Arena :=
  a.update id ({ · with parent })

def setParents (a : Arena) (ids : List (Option NodeId)) (parent : Option NodeId) : Arena :=
  ids.foldl (·.setParent · parent) a

/-- Runs a check or a reading on the arena. -/
def ask {α : Type} (f : Arena → Except ShapeError α) : ArenaM α := do
  match f (← get) with
  | .ok x => pure x
  | .error e => throw e

/-- The values fit the fields of the type, one by one, and no required child is absent. -/
def checkFields (ty : NodeType) : List Field → List Value → Except ShapeError Unit
  | f :: fs, value :: values => do
    if !value.fits f.kind then .error (.fieldKind ty f.name f.kind)
    else match f.kind, value with
      | .node, .node none => .error (.missingField ty f.name)
      | _, _ => checkFields ty fs values
  | _, _ => .ok ()

/-- Each of `ids` is a node without an owner. -/
def checkUnowned (a : Arena) : List NodeId → Except ShapeError Unit
  | [] => .ok ()
  | id :: ids => do
    if (← a.node (some id)).parent.isSome then .error (.alreadyAttached id)
    else a.checkUnowned ids

/-- No node is listed twice; `seen` are those before. -/
def checkDistinct (seen : List NodeId) : List NodeId → Except ShapeError Unit
  | [] => .ok ()
  | id :: ids =>
    if seen.contains id then .error (.alreadyAttached id) else checkDistinct (id :: seen) ids

/-- Whether a node of the given type and values may be made. -/
def checkAlloc (a : Arena) (ty : NodeType) (values : List Value) : Except ShapeError Unit := do
  if values.length ≠ ty.fields.length then
    .error (.missingField ty (ty.fields[values.length]?.elim "" (·.name)))
  checkFields ty ty.fields values
  let children := values.flatMap (·.handles.filterMap id)
  a.checkUnowned children
  checkDistinct [] children

/-- Makes a node with values in schema order, which becomes the owner of its children. -/
def alloc (ty : NodeType) (values : List Value) : ArenaM NodeId := do
  ask (·.checkAlloc ty values)
  modifyGet fun a =>
    let id : NodeId := ⟨a.size⟩
    let node : Node := { type := ty, values }
    (id, { a with nodes := a.nodes.push node }.setParents (node.children.map some) (some id))

end Arena

end ScopedTree
