import ScopedTree.Path.Execution
import ScopedTree.Path.Resolve
import ScopedTree.Typing.Union

/-!
# Inferring types

The type of an expression is found from its form and from what is written to the names it reads.
What cannot be found has the type of everything.

* `Tree.typeOf`         the type of the node at a path, kept until another node stands there;
* `Tree.baseTypeOfName?`   the types without parts that have a name;
* `Tree.isBaseType`, `Tree.couldBeBaseType`, `Tree.baseTypesMatch`, `Tree.isGenericType`   tests.
-/

namespace ScopedTree

/-- The type of the result of a binary operator for any operands. -/
def binaryResult? (operator : String) : Option NodeType :=
  if ["-", "/", "%", "*", "**", "&", "|", ">>", ">>>", "<<", "^"].contains operator then
    some .numberType
  else if ["==", "!=", "===", "!==", "in", "instanceof", ">", "<", ">=", "<="].contains
      operator then
    some .booleanType
  else none

def unaryResult? (operator : String) : Option NodeType :=
  match operator with
  | "void" => some .voidType
  | "+" | "-" | "~" => some .numberType
  | "typeof" => some .stringType
  | "delete" | "!" => some .booleanType
  | _ => none

def unboundType? (name : String) : Option NodeType :=
  match name with
  | "undefined" => some .voidType
  | "NaN" | "Infinity" => some .numberType
  | _ => none

namespace Tree

def annotation? (t : Tree) (id : Option NodeId) (field : String) : Option NodeId :=
  t.arena.child? id field

def baseType? (ty : Option NodeType) : TreeM (Option NodeId) :=
  match ty with
  | some ty => some <$> baseType ty
  | none => return none

/-- The type of an empty place: that of the variable of a loop, nothing for a declarator without a
start value, and anything elsewhere. -/
def emptyType (t : Tree) (p : PathId) : NodeType :=
  let declarator := (t.parentPath p).filter fun q =>
    t.slot p == .field "init" && t.nodeIs q .variableDeclarator
  match declarator.bind t.parentPath with
  | none => .anyType
  | some declaration =>
    if t.slot declaration == .field "left" then
      match t.arena.type? (t.parentNode declaration) with
      | some .forInStatement => .stringType
      | some .forOfStatement => .anyType
      | _ => .voidType
    else .voidType

/-- The result of calling what is in a field: what the function says it returns, or what an
asynchronous function gives. -/
def inferCall (p : PathId) (field : String) : TreeM (Option NodeId) := do
  let callee ← resolve (← follow p field) false
  let t ← get
  if !t.nodeIsA callee .function then return none
  if t.has callee "async" then
    return some (← genericType (if t.has callee "generator" then "AsyncIterator" else "Promise"))
  return t.annotation? (t.node callee) "return_type"

def inferNew (p : PathId) : TreeM (Option NodeId) := do
  let t ← get
  let callee := t.arena.child? (t.node p) "callee"
  match t.arena.name? callee with
  | some name =>
    if t.arena.is callee .identifier then return some (← genericType name) else return none
  | none => return none

section Forms

variable (infer : PathId → TreeM (Option NodeId))

def inferChild (p : PathId) (field : String) : TreeM (Option NodeId) := do
  infer (← follow p field)

/-- The union of the types of two children. -/
def inferEither (p : PathId) (first second : String) : TreeM (Option NodeId) := do
  let a ← inferChild infer p first
  let b ← inferChild infer p second
  return some (← unionType [a, b])

def typesWritten (p : PathId) : List PathId → TreeM (List (Option NodeId))
  | [] => return []
  | write :: writes => do
    let source ← resolve write false
    if (← executionOrder source p) == .before then
      let type ← infer write
      return type :: (← typesWritten p writes)
    else typesWritten p writes

/-- The type of a name that is read: the annotation of its declaration, or else the union of all
that may have been written to it. -/
def inferIdentifier (p : PathId) : TreeM (Option NodeId) := do
  let t ← get
  if !t.isReferenced p then return none
  let name := (t.arena.name? (t.node p)).getD ""
  let scope ← scopeOf p
  let t ← get
  match scope.bind fun s => t.bindingOf? s name with
  | none => baseType? (unboundType? name)
  | some b =>
    match t.annotation? (some b.identifier) "type_annotation" with
    | some annotation => return some annotation
    | none =>
      let types ← typesWritten infer p (b.path :: b.constantViolations)
      if types.isEmpty then return none
      return some (← unionType types)

/-- The type of a sum: a number if both operands are, a string if one of them is, or else either. -/
def inferSum (p : PathId) : TreeM (Option NodeId) := do
  let left ← inferChild infer p "left"
  let right ← inferChild infer p "right"
  let a := (← get).arena
  if a.is left .numberType && a.is right .numberType then baseType? (some .numberType)
  else if a.is left .stringType || a.is right .stringType then baseType? (some .stringType)
  else
    let string ← baseType .stringType
    let number ← baseType .numberType
    return some (← unionType [some string, some number])

def inferDeclarator (p : PathId) : TreeM (Option NodeId) := do
  let t ← get
  let target ← TreeM.ofShape (t.arena.child (t.node p) "id")
  if t.arena.is target .identifier then inferChild infer p "init" else return none

/-- The type of the last of several expressions in sequence. -/
def inferSequence (p : PathId) : TreeM (Option NodeId) := do
  let t ← get
  match (t.arena.items (t.node p) "expressions").length with
  | 0 => return none
  | n + 1 => inferChild infer p ("expressions." ++ toString n)

def inferForm (p : PathId) (n : Node) : TreeM (Option NodeId) := do
  let operator := (n.text? "operator").getD ""
  match n.type with
  | .variableDeclarator => inferDeclarator infer p
  | .identifier => inferIdentifier infer p
  | .newExpression => inferNew p
  | .stringLiteral | .templateLiteral => baseType? (some .stringType)
  | .numericLiteral => baseType? (some .numberType)
  | .booleanLiteral => baseType? (some .booleanType)
  | .nullLiteral => baseType? (some .nullLiteralType)
  | .regExpLiteral => some <$> genericType "RegExp"
  | .objectExpression => some <$> genericType "Object"
  | .arrayExpression | .restElement => some <$> genericType "Array"
  | .unaryExpression => baseType? (unaryResult? operator)
  | .updateExpression =>
    baseType? (if operator == "++" || operator == "--" then some .numberType else none)
  | .binaryExpression =>
    if operator == "+" then inferSum infer p else baseType? (binaryResult? operator)
  | .logicalExpression => inferEither infer p "left" "right"
  | .conditionalExpression => inferEither infer p "consequent" "alternate"
  | .sequenceExpression => inferSequence infer p
  | .assignmentExpression => inferChild infer p "right"
  | .callExpression => inferCall p "callee"
  | .taggedTemplateExpression => inferCall p "tag"
  | ty =>
    if ty.isA .function || ty.isA .classNode then some <$> genericType "Function" else return none

/-- The type of a node: the annotation it carries itself, or else by its form. -/
def inferNode (p : PathId) : TreeM (Option NodeId) := do
  let t ← get
  let node := t.node p
  match t.arena.look node with
  | none => some <$> baseType (t.emptyType p)
  | some n =>
    match if n.type.isA .flowType then none else t.annotation? node "type_annotation" with
    | some annotation => return some annotation
    | none => inferForm infer p n

end Forms

def unwrapType (id : Option NodeId) : TreeM (Option NodeId) := do
  let t ← get
  if t.arena.is id .typeNote then TreeM.ofShape (t.arena.child id "type_annotation") else return id

/-- The type of the node at a path as found by `infer`, unless it was found before. -/
def typeWith (infer : PathId → TreeM (Option NodeId)) (p : PathId) : TreeM (Option NodeId) := do
  resync p
  let t ← get
  let node := t.node p
  match (t.path p).inferred.filter (·.1 == node) with
  | some (_, type) => return type
  | none =>
    let type ← match ← infer p with
      | some type => pure type
      | none => baseType .anyType
    let type ← unwrapType (some type)
    modify (·.updatePath p ({ · with inferred := some (node, type) }))
    return type

/-- The type of the node at a path, looking at most `fuel` nodes deep. -/
def typeLevels : Nat → PathId → TreeM (Option NodeId)
  | 0, p => typeWith (fun _ => return none) p
  | fuel + 1, p => typeWith (inferNode (typeLevels fuel)) p

/-- The type of the node at a path. -/
def typeOf (p : PathId) : TreeM (Option NodeId) := typeLevels Limits.inference p

/-- The node type of the base type with a name. -/
def baseTypeOfName? : String → Option NodeType
  | "string" => some .stringType
  | "number" => some .numberType
  | "boolean" => some .booleanType
  | "any" => some .anyType
  | "mixed" => some .mixedType
  | "void" => some .voidType
  | _ => none

def isNamedBase (t : Tree) (type : Option NodeId) (name : String) : Bool :=
  (baseTypeOfName? name).any (t.arena.is type)

/-- Whether the node at a path has the base type with a name. A name of no base type is an error
unless `lenient`. -/
def isBaseType (p : PathId) (name : String) (lenient : Bool) : TreeM Bool := do
  let type ← typeOf p
  let t ← get
  if (baseTypeOfName? name).isNone && !lenient then
    throw (t.errorAt p ("unknown base type `" ++ name ++ "`"))
  return t.isNamedBase type name

/-- Whether the node at a path may have the base type with a name. -/
def couldBeBaseType (p : PathId) (name : String) : TreeM Bool := do
  let type ← typeOf p
  let t ← get
  match t.arena.type? type with
  | some .anyType => return true
  | some .unionType => return (t.arena.items type "types").any (t.isNamedBase · name)
  | _ => return t.isNamedBase type name

/-- Whether the nodes at two paths have the same base type, and not that of everything. -/
def baseTypesMatch (p q : PathId) : TreeM Bool := do
  let left ← typeOf p
  let right ← typeOf q
  let a := (← get).arena
  match a.type? left with
  | none => return false
  | some ty => return ty != .anyType && ty.isA .flowBase && a.type? right == some ty

/-- Whether the node at a path has the generic type with a name. -/
def isGenericType (p : PathId) (name : String) : TreeM Bool := do
  let type ← typeOf p
  let a := (← get).arena
  let id := a.child? type "id"
  return a.is type .genericType && a.is id .identifier && a.name? id == some name

end Tree

end ScopedTree
