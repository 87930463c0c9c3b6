import ScopedTree.Arena.Basic

/-!
# Binding identifiers

Which identifiers a declaration or a pattern binds.

* `NodeType.bindingKeys`   the fields that bind, for each type;
* `Arena.bindingIds`       the identifiers a node binds, by name;
* `Arena.isBinding`        whether a node stands in a binding field of its owner.
-/

namespace ScopedTree

/-- The fields that hold what a node of this type binds. -/
def NodeType.bindingKeys : NodeType → List String
  | .declareClass | .declareFunction | .declareModule | .declareVariable | .interfaceDeclaration
  | .typeAlias | .classDeclaration | .classExpression | .variableDeclarator => ["id"]
  | .catchClause => ["param"]
  | .labeledStatement => ["label"]
  | .unaryExpression | .updateExpression | .restElement | .restProperty => ["argument"]
  | .assignmentExpression | .assignmentPattern => ["left"]
  | .importSpecifier | .importNamespaceSpecifier | .importDefaultSpecifier => ["local"]
  | .importDeclaration => ["specifiers"]
  | .exportSpecifier | .exportNamespaceSpecifier | .exportDefaultSpecifier => ["exported"]
  | .functionDeclaration | .functionExpression => ["id", "params"]
  | .objectProperty | .assignmentProperty => ["value"]
  | .arrayPattern => ["elements"]
  | .objectPattern => ["properties"]
  | .variableDeclaration => ["declarations"]
  | _ => []

namespace Arena

/-- Whether `id` stands in a binding field of `owner`. -/
def isBinding (a : Arena) (id owner : Option NodeId) : Bool :=
  (a.type? owner).any fun ty => ty.bindingKeys.any (a.holds owner · id)

/-- Where to look on for what `n` binds. With `outer`, a function binds its own name at most. -/
def bindingTargets (a : Arena) (outer : Bool) (n : Node) : List (Option NodeId) :=
  if n.type == .identifier then []
  else if n.type.isA .exportDeclaration then
    let declaration := n.child? "declaration"
    if a.isA declaration .declaration then [declaration] else []
  else if outer && n.type == .functionDeclaration then [n.child? "id"]
  else if outer && n.type == .functionExpression then []
  else n.type.bindingKeys.flatMap fun field => ((n.value? field).elim [] (·.handles))

/-- The identifiers found on a level of the search and on the levels below it. -/
def bindingLevels (a : Arena) (outer : Bool) : Nat → List NodeId → List (String × NodeId)
  | 0, _ => []
  | _, [] => []
  | fuel + 1, level =>
    let found := level.filterMap fun id => (a.get? id).bind fun n =>
      if n.type == .identifier then n.name?.map (·, id) else none
    let next := level.flatMap fun id =>
      (a.get? id).elim [] fun n => (a.bindingTargets outer n).reduceOption
    found ++ a.bindingLevels outer fuel next

/-- Collects the values of each name, names in the order in which they first come up. -/
def groupByName {α : Type} (pairs : List (String × α)) : Table (List α) :=
  pairs.foldl (fun t (name, x) => t.put name ((t.get? name).getD [] ++ [x])) []

/-- The identifiers a node binds, by name, in the order of a search level by level. -/
def bindingIds (a : Arena) (id : Option NodeId) (outer : Bool) : Table (List NodeId) :=
  groupByName (a.bindingLevels outer (a.size + 1) id.toList)

end Arena

end ScopedTree
