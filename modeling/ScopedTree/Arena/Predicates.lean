import ScopedTree.Arena.Binding
import ScopedTree.Text.Parts

/-!
# Shapes

Questions about a node and its owners that need no scope.

* `Arena.isReferenced`                    whether a node is read where it stands;
* `Arena.isScope`                         whether a node owns a scope;
* `Arena.isLet`, `isVar`, `isBlockScoped`   the kinds of declaration;
* `Arena.matchesPattern`                  whether a member chain spells a dotted name;
* `Arena.isImmutable`                     whether evaluating a node cannot be observed.
-/

namespace ScopedTree.Arena

/-- Whether `id`, standing in `owner`, is a read of its name. `grand` is the owner of `owner`; it
tells patterns from objects and re-exports from exports. -/
def isReferenced (a : Arena) (id owner grand : Option NodeId) : Bool :=
  match a.look owner with
  | none => true
  | some o =>
    match o.type with
    | .bindExpression => o.holds "object" id || o.holds "callee" id
    | .memberExpression | .jsxMemberExpression =>
      (o.holds "property" id && o.isSet "computed") || o.holds "object" id
    | .metaProperty => false
    | .objectProperty | .assignmentProperty =>
      if o.holds "key" id then o.isSet "computed" else !a.is grand .objectPattern
    | .variableDeclarator => !o.holds "id" id
    | .arrowFunctionExpression | .functionDeclaration | .functionExpression =>
      !o.holds "params" id && !o.holds "id" id
    | .exportSpecifier => (a.child? grand "source").isNone && o.holds "local" id
    | .exportNamespaceSpecifier | .exportDefaultSpecifier => false
    | .jsxAttribute => !o.holds "name" id
    | .classProperty => if o.holds "key" id then o.isSet "computed" else o.holds "value" id
    | .importDefaultSpecifier | .importNamespaceSpecifier | .importSpecifier => false
    | .classDeclaration | .classExpression => !o.holds "id" id
    | .classMethod | .objectMethod => o.holds "key" id && o.isSet "computed"
    | .labeledStatement => false
    | .breakStatement | .continueStatement => false
    | .catchClause => !o.holds "param" id
    | .restElement => false
    | .assignmentExpression => o.holds "right" id
    | .assignmentPattern => o.holds "right" id
    | .objectPattern | .arrayPattern => false
    | _ => true

/-- A variable declaration other than `var`. -/
def isLet (a : Arena) (id : Option NodeId) : Bool :=
  a.is id .variableDeclaration && (a.text? id "kind").any (· != "var")

/-- A `var` declaration. -/
def isVar (a : Arena) (id : Option NodeId) : Bool :=
  a.is id .variableDeclaration && a.text? id "kind" == some "var"

/-- Declarations of functions and classes, `let` and `const`. -/
def isBlockScoped (a : Arena) (id : Option NodeId) : Bool :=
  a.is id .functionDeclaration || a.is id .classDeclaration || a.isLet id

/-- Whether a node owns a scope. The body of a function or catch clause shares its owner's. -/
def isScope (a : Arena) (id owner : Option NodeId) : Bool :=
  if a.is id .blockStatement && (a.isA owner .function || a.is owner .catchClause)
      && a.holds owner "body" id then false
  else a.isA id .scopable

/-- The parts of a member chain, the outermost property first and the innermost object last. -/
def memberChain (a : Arena) : Nat → Option NodeId → List (Option NodeId)
  | 0, id => [id]
  | fuel + 1, id =>
    if a.is id .memberExpression then
      a.child? id "property" :: a.memberChain fuel (a.child? id "object")
    else [id]

def spells (a : Arena) (id : Option NodeId) (part : String) : Bool :=
  match a.look id with
  | none => false
  | some n =>
    match n.type with
    | .identifier => n.name? == some part
    | .stringLiteral => n.text? "value" == some part
    | _ => false

/-- Whether a member chain spells a dotted name. With `partly`, a longer chain that starts with the
name counts as well. -/
def matchesPattern (a : Arena) (id : Option NodeId) (pattern : String) (partly : Bool) : Bool :=
  let names := parts '.' pattern
  let chain := (a.memberChain (a.size + 1) id).reverse
  a.is id .memberExpression && names.length ≤ chain.length
    && (partly || chain.length ≤ names.length)
    && (names.zip chain).all fun (name, node) => a.spells node name

/-- Literals and other nodes whose evaluation cannot be observed. -/
def isImmutable (a : Arena) (id : Option NodeId) : Bool :=
  a.isA id .immutable || (a.is id .identifier && a.name? id == some "undefined")

end ScopedTree.Arena
