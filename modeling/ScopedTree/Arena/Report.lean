import ScopedTree.Arena.Predicates

/-!
# Reports on nodes

* `NodeType.report`          what the schema says of a node type;
* `Arena.propertyText`       what a node is where it stands, and the names it binds.
-/

namespace ScopedTree

/-- What the schema says of a node type, and of one field of it. -/
def NodeType.report (ty : NodeType) (field : String) : Datum :=
  .obj [("name", .str ty.name), ("index", .int ty.index), ("count", .int NodeType.all.length),
    ("fields", .texts (ty.fields.map fun f => f.name ++ ":" ++ f.kind.name)),
    ("visitor_keys", .texts (ty.childFields.map (·.name))),
    ("has_visitor_keys", .bool !ty.childFields.isEmpty),
    ("aliases", .texts (ty.aliases.map (·.name))), ("binding_keys", .texts ty.bindingKeys),
    ("position", .ofOption (fun i => .int i) (ty.fieldPosition? field)),
    ("kind", .ofOption (fun f => .str f.kind.name) (ty.field? field))]

namespace Arena

def properties (a : Arena) (id : Option NodeId) : List (String × Bool) :=
  let owner := a.parentOf id
  [("ref", a.isReferenced id owner (a.parentOf owner)), ("ref0", a.isReferenced id owner none),
    ("bind", a.isBinding id owner), ("scope", a.isScope id owner), ("block", a.isBlockScoped id),
    ("let", a.isLet id), ("var", a.isVar id), ("imm", a.isImmutable id)]

/-- The type and name of a node, the properties it has, and the names it binds, inside and outside
of its own scope. -/
def propertyText (a : Arena) (id : Option NodeId) : String :=
  let names (outer : Bool) := "[" ++ ",".intercalate (a.bindingIds id outer).names ++ "]"
  let held := ((a.properties id).filter (·.2)).map (·.1)
  " ".intercalate [(a.type? id).elim "" (·.name) ++ (a.name? id).elim "" ("=" ++ ·),
    "+".intercalate held, names false, names true]

end Arena

end ScopedTree
