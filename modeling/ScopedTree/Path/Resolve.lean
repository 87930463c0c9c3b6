import ScopedTree.Path.Shape
import ScopedTree.Scope.Crawl

/-!
# Resolving names

* `Tree.resolve`            follows constant names to the expression they stand for;
* `Tree.referencesImport`   whether an identifier reads a given import;
* `Tree.isStaticHere`       whether a node always has the same value.
-/

namespace ScopedTree.Tree

abbrev ResolveM := StateT (List PathId) TreeM

section Forms

variable (resolve : PathId → ResolveM (Option PathId))

def resolveOrSelf (p : PathId) : ResolveM (Option PathId) := do
  return some ((← resolve p).getD p)

/-- A declarator of a single name stands for what the name starts with. -/
def resolveDeclarator (p : PathId) : ResolveM (Option PathId) := do
  let t ← getThe Tree
  let target ← TreeM.ofShape (t.arena.child (t.node p) "id")
  if !t.arena.is target .identifier then return none
  let start ← follow p "init"
  if ((← getThe Tree).node start).isNone then return none
  resolveOrSelf resolve start

/-- A name that is never written stands for what its declaration resolves to, unless the name is
part of that. -/
def resolveIdentifier (p : PathId) : ResolveM (Option PathId) := do
  let t ← getThe Tree
  let name := (t.arena.name? (t.node p)).getD ""
  let scope ← scopeOf p
  let t ← getThe Tree
  match scope.bind fun s => t.bindingOf? s name with
  | none => return none
  | some b =>
    if !b.constant || b.kind == .imported || b.path == p then return none
    let resolved ← resolveOrSelf resolve b.path
    let t ← getThe Tree
    let node := resolved.bind t.node
    if (t.find p fun q => t.node q == node).isSome then return none
    return resolved

def hasKey (t : Tree) (property : PathId) (key : Option NodeId) (name : String) : Bool :=
  (!t.has property "computed" && t.arena.name? key == some name) || t.literalKey? key == some name

/-- The value of the first of some properties with the key `name`. -/
def resolveProperty (name : String) : List PathId → ResolveM (Option PathId)
  | [] => return none
  | property :: properties => do
    let t ← getThe Tree
    if !t.nodeIsA property .property then resolveProperty name properties
    else
      let key ← TreeM.ofShape (t.arena.child (t.node property) "key")
      if t.hasKey property key name then resolveOrSelf resolve (← follow property "value")
      else resolveProperty name properties

def resolveMember (p : PathId) : ResolveM (Option PathId) := do
  let key ← computedKey p
  match (← getThe Tree).literalKey? key with
  | none => return none
  | some name =>
    let object ← follow p "object"
    let target := (← resolve object).getD object
    let t ← getThe Tree
    if t.nodeIs target .objectExpression then
      resolveProperty resolve name (← entries target "properties")
    else if t.nodeIs target .arrayExpression then
      match readIndex? name with
      | none => return none
      | some index =>
        let elements := t.arena.items (t.node target) "elements"
        if elements[index]?.join.isNone then return none
        resolveOrSelf resolve (← follow target ("elements." ++ toString index))
    else return none

/-- Resolves a path by the type of its node. Members are followed only if `intoLiterals`. -/
def resolveNode (intoLiterals : Bool) (p : PathId) : ResolveM (Option PathId) := do
  resync p
  let t ← getThe Tree
  match t.nodeType? p with
  | some .variableDeclarator => resolveDeclarator resolve p
  | some .typeCastExpression => resolveOrSelf resolve (← follow p "expression")
  | some .identifier =>
    if t.isReferencedIdentifier p then resolveIdentifier resolve p else return none
  | some .memberExpression => if intoLiterals then resolveMember resolve p else return none
  | _ => return none

end Forms

/-- Resolves a path that was not met before, at most `fuel` steps deep. -/
def resolveLevels (intoLiterals : Bool) : Nat → PathId → ResolveM (Option PathId)
  | 0, _ => return none
  | fuel + 1, p => do
    let met ← get
    if met.contains p || met.length ≥ Limits.inference then return none
    set (p :: met)
    resolveNode (resolveLevels intoLiterals fuel) intoLiterals p

/-- The expression that a path stands for: names that are never written, declarators and type casts
are followed. With `intoLiterals` so are members of object and array literals, though the literal
may be changed elsewhere. -/
def resolve (p : PathId) (intoLiterals : Bool) : TreeM PathId := do
  let (found, _) ← (resolveLevels intoLiterals (Limits.inference + 1) p).run []
  return found.getD p

/-- Whether an import specifier imports `name`: `default` and `*` stand for the default and the
namespace. -/
def importsName (t : Tree) (specifier : Option NodeId) (name : String) : Bool :=
  match t.arena.type? specifier with
  | some .importDefaultSpecifier => name == "default"
  | some .importNamespaceSpecifier => name == "*"
  | some .importSpecifier => t.fieldName? specifier "imported" == some name
  | _ => false

def readBinding? (p : PathId) : TreeM (Option Binding) := do
  if !(← get).isReferencedIdentifier p then return none
  let scope ← scopeOf p
  let t ← get
  return scope.bind fun s => (t.arena.name? (t.node p)).bind (t.bindingOf? s)

/-- Whether the identifier at a path reads something imported from `source`: if given, the import of
that name. -/
def referencesImport (p : PathId) (source : String) (name : Option String) : TreeM Bool := do
  match ← readBinding? p with
  | none => return false
  | some b =>
    let t ← get
    let declaration := t.parentNode b.path
    if b.kind != .imported || !t.arena.is declaration .importDeclaration then return false
    let origin ← TreeM.ofShape do
      (← t.arena.node (← t.arena.child declaration "source")).text "value"
    return origin == some source && name.all (t.importsName (t.node b.path))

/-- Whether the node at a path always has the same value there. -/
def isStaticHere (p : PathId) : TreeM Bool := do
  let node := (← get).node p
  let scope ← scopeOf p
  let t ← get
  return scope.any (t.isStatic · node)

end ScopedTree.Tree
