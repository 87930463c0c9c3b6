import ScopedTree.Arena.Build
import ScopedTree.Scope.Lookup
import ScopedTree.Text.Identifier

/-!
# Generated names

A generated name is one that nothing in the program uses. It is tried as `name`, `_name`, `_name2`,
`_name3` and so on.

* `uidBase`, `uidCandidate`   the base of a name and the names tried for it;
* `Tree.generateUid`          a new name;
* `Tree.generateUidBasedOn`   an identifier with a new name that recalls a node.
-/

namespace ScopedTree

/-- The name that is tried at a given attempt. -/
def uidCandidate (base : String) : Nat → String
  | 0 => base
  | 1 => "_" ++ base
  | n => "_" ++ base ++ toString n

/-- The name without leading underscores and trailing digits, as an identifier. -/
def uidBase (name : String) : String :=
  let cs := (toIdentifier name).toList.dropWhile (· == '_')
  let cs := (cs.reverse.dropWhile Char.isDigit).reverse
  if cs.isEmpty then "temp" else String.ofList cs

namespace Tree

/-- Whether a name is used in any way that is seen from a scope. -/
def isTaken (t : Tree) (s : ScopeId) (name : String) : Bool :=
  t.hasLabel s name || t.hasBinding s name true || t.hasGlobal s name || t.hasReference s name

/-- Claims a name in the registry; fails if it was claimed before. Without a registry every name is
free. -/
def claim (name : String) : TreeM Bool :=
  modifyGet fun t =>
    match t.options.registry with
    | none => (true, t)
    | some names =>
      if names.contains name then (false, t)
      else (true, { t with options := { t.options with registry := some (names ++ [name]) } })

/-- Keeps a generated name, and from which attempt to go on for its base. -/
def reserve (s : ScopeId) (base uid : String) (next : Nat) : TreeM Unit := do
  noteReference s uid
  modify fun t => t.updateScope (t.programScope s) fun d =>
    { d with
      uidCounters := d.uidCounters.put base next
      uids := if d.uids.contains uid then d.uids else uid :: d.uids }

/-- Tries names from a given attempt on. -/
def tryUids (s : ScopeId) (base : String) : Nat → Nat → TreeM String
  | 0, _ => do
    let t ← get
    throw (t.errorAt (t.scope s).path ("no free identifier based on `" ++ base ++ "`"))
  | fuel + 1, attempt => do
    let uid := uidCandidate base attempt
    if (← get).isTaken s uid then tryUids s base fuel (attempt + 1)
    else if ← claim uid then
      reserve s base uid (attempt + 1)
      return uid
    else tryUids s base fuel (attempt + 1)

/-- A name that nothing seen from a scope uses, and that was not generated before. -/
def generateUid (s : ScopeId) (name : String) : TreeM String := do
  let t ← get
  let base := uidBase name
  let start := ((t.scope (t.programScope s)).uidCounters.get? base).getD 0
  tryUids s base (Limits.generatedNames + 1 - start) start

def generateUidIdentifier (s : ScopeId) (name : String) : TreeM NodeId := do
  let uid ← generateUid s name
  TreeM.edit (Arena.identifier uid)

/-- The names and values that a node is made of, at most `fuel` levels deep. -/
def nameParts (a : Arena) : Nat → Option NodeId → List String
  | 0, _ => []
  | fuel + 1, id =>
    match a.look id with
    | none => []
    | some n =>
      let parts (field : String) := nameParts a fuel (n.child? field)
      match n.type with
      | .memberExpression => parts "object" ++ parts "property"
      | .identifier => n.name?.toList
      | .stringLiteral => (n.text? "value").toList
      | .numericLiteral =>
        match n.value? "value" with
        | some (.num x) => [numberText x]
        | _ => []
      | .booleanLiteral => [if n.isSet "value" then "true" else "false"]
      | .nullLiteral => ["null"]
      | .callExpression => parts "callee"
      | .objectExpression | .objectPattern =>
        (n.items "properties").flatMap fun property =>
          (a.look property).elim [] fun q =>
            nameParts a fuel (match q.child "key" with
              | .ok key => key
              | .error _ => q.child? "argument")
      | ty =>
        if ty.isA .moduleDeclaration then
          if (n.child? "source").isSome then parts "source"
          else if !(n.items "specifiers").isEmpty then
            (n.items "specifiers").flatMap (nameParts a fuel)
          else parts "declaration"
        else if ty.isA .moduleSpecifier then parts "local"
        else []

def nameSource (a : Arena) (id : Option NodeId) : Except ShapeError (Option NodeId) :=
  match a.type? id with
  | some .assignmentExpression => a.child id "left"
  | some .variableDeclarator => a.child id "id"
  | some .objectProperty | some .objectMethod => a.child id "key"
  | _ => .ok id

def nodeNameLimit : Nat := 20

/-- A name that recalls a node: its parts joined by dollar signs. -/
def nodeName (a : Arena) (id : Option NodeId) (fallback : String) : Except ShapeError String := do
  let parts := nameParts a (a.size + 1) (← nameSource a id)
  let joined := match ("$".intercalate parts).toList with
    | '_' :: cs => cs
    | cs => cs
  let name := if joined.isEmpty then fallback.toList else joined
  return String.ofList (name.take nodeNameLimit)

/-- An identifier with a new name that recalls a node. -/
def generateUidBasedOn (s : ScopeId) (id : Option NodeId) (fallback : String) : TreeM NodeId := do
  let name ← TreeM.ofShape (nodeName (← get).arena id fallback)
  generateUidIdentifier s name

end Tree

end ScopedTree
