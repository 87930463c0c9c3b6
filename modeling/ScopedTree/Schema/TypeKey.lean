import ScopedTree.Schema.NodeType

/-!
# Type keys

A key of a visitor or of a type test names one node type or a group.

* `TypeKey.ofName?`   reads a key;
* `TypeKey.expand`    the node types it stands for;
* `NodeType.isNamed`  whether a key covers a node type.
-/

namespace ScopedTree

/-- A key that names one node type or a group. -/
inductive TypeKey where
  | ofType (ty : NodeType)
  | ofGroup (group : Alias)
  deriving DecidableEq, Inhabited

namespace TypeKey

/-- Reads a key; a type name wins over a group name. -/
def ofName? (name : String) : Option TypeKey :=
  (NodeType.ofName? name).map ofType <|> (Alias.ofName? name).map ofGroup

def covers : TypeKey → NodeType → Bool
  | ofType t, ty => t == ty
  | ofGroup group, ty => ty.isA group

/-- The node types a key stands for, in schema order. -/
def expand : TypeKey → List NodeType
  | ofType ty => [ty]
  | ofGroup group => group.members

end TypeKey

/-- Whether `key` names `ty` or a group with `ty` in it; unknown keys name nothing. -/
def NodeType.isNamed (ty : NodeType) (key : String) : Bool :=
  (TypeKey.ofName? key).any (·.covers ty)

end ScopedTree
