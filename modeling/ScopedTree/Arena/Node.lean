import ScopedTree.Schema.NodeType
import ScopedTree.Source.Comment
import ScopedTree.Source.Datum

/-!
# Nodes

A node is a type with a value for each field of that type. Children are handles into the arena that
stores the nodes.

* `NodeId`, `Value`, `Node`   a handle, the value of a field, a node;
* `ShapeError`                what can be wrong with the shape of a node, with `message`;
* `Node.field`, `Node.child`, `Node.list`, …   the fields read by name;
* `Node.children`             the children in visiting order, without holes.
-/

namespace ScopedTree

/-- The handle of a node in an arena. -/
structure NodeId where
  index : Nat
  deriving DecidableEq, Inhabited

def NodeId.text (id : Option NodeId) : String :=
  "NodeIndex(" ++ toString (match id with | some id => id.index | none => 4294967295) ++ ")"

/-- The value of a field. -/
inductive Value where
  /-- A single child, or none. -/
  | node (child : Option NodeId)
  /-- A list of children; `none` is a hole. -/
  | list (items : List (Option NodeId))
  | str (text : String)
  | num (value : Float)
  | bool (value : Bool)
  /-- The null of an optional string. -/
  | null
  deriving Inhabited

namespace Value

def default? : FieldKind → Option Value
  | .node | .str | .num => none
  | .optNode => some (node none)
  | .list => some (list [])
  | .optStr => some null
  | .bool => some (bool false)

/-- Whether a field of the given kind can store the value. -/
def fits : Value → FieldKind → Bool
  | node _, .node | node _, .optNode => true
  | list _, .list => true
  | str _, .str | str _, .optStr => true
  | null, .optStr => true
  | num _, .num => true
  | bool _, .bool => true
  | _, _ => false

/-- The children in a value, holes included. -/
def handles : Value → List (Option NodeId)
  | node child => [child]
  | list items => items
  | _ => []

end Value

/-- What is wrong with the shape of a node. -/
inductive ShapeError where
  | unknownField (ty : NodeType) (field : String)
  | fieldKind (ty : NodeType) (field : String) (expected : FieldKind)
  | missingField (ty : NodeType) (field : String)
  /-- A node that has an owner, or would own itself, was to be put into a slot. -/
  | alreadyAttached (node : NodeId)
  /-- A handle without a node behind it. -/
  | invalidNode (node : Option NodeId)
  deriving DecidableEq, Inhabited

/-- The text of an error. -/
def ShapeError.message : ShapeError → String
  | unknownField ty field => "`" ++ ty.name ++ "` has no field `" ++ field ++ "`"
  | fieldKind ty field expected =>
    "field `" ++ ty.name ++ "." ++ field ++ "` is " ++ expected.name ++ ", not the requested kind"
  | missingField ty field => "required field `" ++ ty.name ++ "." ++ field ++ "` was not provided"
  | alreadyAttached node =>
    "node " ++ NodeId.text (some node) ++ " already belongs to another parent slot"
  | invalidNode node => "node index " ++ NodeId.text node ++ " does not refer to a node"

/-- A node: its type, its values in schema order, its owner and what is attached to it. -/
structure Node where
  type : NodeType
  values : List Value
  parent : Option NodeId := none
  span : Span := .synthetic
  loc : Option Location := none
  comments : NodeComments := {}
  extra : Table Datum := []
  deriving Inhabited

namespace Node

/-- The error of a field that stores something else than what was asked for. -/
def kindError (n : Node) (field : String) : ShapeError :=
  .fieldKind n.type field ((n.type.field? field).elim .node (·.kind))

def value? (n : Node) (field : String) : Option Value :=
  (n.type.fieldPosition? field).bind (n.values[·]?)

/-- The value of a field. -/
def field (n : Node) (name : String) : Except ShapeError Value :=
  match n.value? name with
  | some value => .ok value
  | none => .error (.unknownField n.type name)

def hasField (n : Node) (field : String) : Bool := (n.type.fieldPosition? field).isSome

/-- The node in a single slot. -/
def child (n : Node) (field : String) : Except ShapeError (Option NodeId) := do
  match ← n.field field with
  | .node id => .ok id
  | _ => .error (n.kindError field)

/-- The entries of a list. -/
def list (n : Node) (field : String) : Except ShapeError (List (Option NodeId)) := do
  match ← n.field field with
  | .list items => .ok items
  | _ => .error (n.kindError field)

/-- A string, or `none` for the null of an optional string. -/
def text (n : Node) (field : String) : Except ShapeError (Option String) := do
  match ← n.field field with
  | .str s => .ok (some s)
  | .null => .ok none
  | _ => .error (n.kindError field)

def number (n : Node) (field : String) : Except ShapeError Float := do
  match ← n.field field with
  | .num x => .ok x
  | _ => .error (n.kindError field)

def flag (n : Node) (field : String) : Except ShapeError Bool := do
  match ← n.field field with
  | .bool b => .ok b
  | _ => .error (n.kindError field)

/-- The node in a single slot, or `none` where there is no such slot. -/
def child? (n : Node) (field : String) : Option NodeId :=
  match n.value? field with
  | some (.node id) => id
  | _ => none

/-- The entries of a list, or `[]` where there is no such list. -/
def items (n : Node) (field : String) : List (Option NodeId) :=
  match n.value? field with
  | some (.list items) => items
  | _ => []

/-- The string in a field, or `none` where there is none. -/
def text? (n : Node) (field : String) : Option String :=
  match n.value? field with
  | some (.str s) => some s
  | _ => none

/-- Whether a truth value is there and true. -/
def isSet (n : Node) (field : String) : Bool :=
  match n.value? field with
  | some (.bool b) => b
  | _ => false

def name? (n : Node) : Option String :=
  match n.type with
  | .identifier | .jsxIdentifier => n.text? "name"
  | _ => none

/-- The children in visiting order, without holes. -/
def children (n : Node) : List NodeId :=
  n.values.flatMap fun value => value.handles.filterMap id

def holds (n : Node) (field : String) (child : Option NodeId) : Bool :=
  match n.value? field with
  | some (.node id) => id == child
  | some (.list items) => items.contains child
  | _ => false

/-- Overwrites a field; `n` stays as it is if there is no such field. -/
def withValue (n : Node) (field : String) (value : Value) : Node :=
  match n.type.fieldPosition? field with
  | some i => { n with values := n.values.set i value }
  | none => n

/-- Overwrites a field that holds no children. -/
def setScalar (n : Node) (field : String) (value : Value) : Except ShapeError Node :=
  match n.type.field? field with
  | none => .error (.unknownField n.type field)
  | some f =>
    if f.kind.isChild || !value.fits f.kind then .error (n.kindError field)
    else .ok (n.withValue field value)

def putExtra (n : Node) (key : String) (value : Datum) : Node :=
  { n with extra := n.extra.put key value }

/-- The node without position, comments and extra data. -/
def bare (n : Node) : Node :=
  { n with span := .synthetic, loc := none, comments := {}, extra := [] }

end Node

end ScopedTree
