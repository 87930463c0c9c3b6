/-!
# Fields

What the fields of a node store.

* `FieldKind`  the kinds of field;
* `Field`      a name with its kind.
-/

namespace ScopedTree

/-- What a field stores. -/
inductive FieldKind where
  /-- A child that has to be there. -/
  | node
  /-- A child that may be absent. -/
  | optNode
  /-- An ordered list of children, possibly with holes. -/
  | list
  | str
  /-- A string that may be null. -/
  | optStr
  | num
  | bool
  deriving DecidableEq, Inhabited

def FieldKind.name : FieldKind → String
  | node => "Node"
  | optNode => "OptNode"
  | list => "List"
  | str => "Str"
  | optStr => "OptStr"
  | num => "Num"
  | bool => "Bool"

def FieldKind.isChild : FieldKind → Bool
  | node | optNode | list => true
  | _ => false

/-- A field of a node type. -/
structure Field where
  name : String
  kind : FieldKind
  deriving DecidableEq, Inhabited

end ScopedTree
