import ScopedTree.Arena.Predicates
import ScopedTree.Path.Basic
import ScopedTree.Scope.Globals

/-!
# Looking names up

Names are resolved along the chain of scopes from the inside out.

* `Tree.scopeChain`                       a scope and the scopes around it;
* `Tree.ownBinding?`, `Tree.getBinding?`  the binding of a name in a scope, and seen from it;
* `Tree.allBindings`                      all bindings seen from a scope;
* `Tree.programScope`, `Tree.functionScope`, `Tree.blockScope`   the scopes that take declarations;
* `Tree.isPure`, `Tree.isStatic`          what evaluating a node can do or see.
-/

namespace ScopedTree.Tree

def scopeChainFrom (t : Tree) : Nat → ScopeId → List ScopeId
  | 0, s => [s]
  | fuel + 1, s =>
    match (t.scope s).parent with
    | some parent => s :: t.scopeChainFrom fuel parent
    | none => [s]

/-- A scope followed by the scopes around it. -/
def scopeChain (t : Tree) (s : ScopeId) : List ScopeId := t.scopeChainFrom Limits.chain s

def scopeIds (t : Tree) : List ScopeId := (List.range t.scopes.size).map ScopeId.mk

/-- The scopes directly inside a scope, in the order in which they were made. -/
def childScopes (t : Tree) (s : ScopeId) : List ScopeId :=
  t.scopeIds.filter fun c => !(t.scope c).detached && (t.scope c).parent == some s

/-- The scopes inside a scope at any depth, in the order in which they were made. -/
def descendantScopes (t : Tree) (s : ScopeId) : List ScopeId :=
  t.scopeIds.filter fun c =>
    !(t.scope c).detached && c != s && (t.scope c).parent.any fun p => (t.scopeChain p).contains s

/-- The binding a scope itself has of a name. -/
def ownBinding? (t : Tree) (s : ScopeId) (name : String) : Option BindingId :=
  ((t.scope s).bindings.get? name).filter fun b => (t.binding? b).isSome

/-- The nearest binding of a name seen from a scope. -/
def getBinding? (t : Tree) (s : ScopeId) (name : String) : Option BindingId :=
  (t.scopeChain s).findSome? (t.ownBinding? · name)

def bindingOf? (t : Tree) (s : ScopeId) (name : String) : Option Binding :=
  (t.getBinding? s name).bind t.binding?

def getLabel? (t : Tree) (s : ScopeId) (name : String) : Option PathId :=
  (t.scopeChain s).findSome? fun c => (t.scope c).labels.get? name

def hasLabel (t : Tree) (s : ScopeId) (name : String) : Bool := (t.getLabel? s name).isSome

/-- Whether a name is used without a declaration. -/
def hasGlobal (t : Tree) (s : ScopeId) (name : String) : Bool :=
  (t.scopeChain s).any fun c => (t.scope c).globals.has name

/-- Whether a name occurs in the program. -/
def hasReference (t : Tree) (s : ScopeId) (name : String) : Bool :=
  (t.scopeChain s).any fun c => (t.scope c).references.contains name

def hasUid (t : Tree) (s : ScopeId) (name : String) : Bool :=
  (t.scopeChain s).any fun c => (t.scope c).uids.contains name

/-- Whether a name is declared, generated or, if `builtin`, bound everywhere. -/
def hasBinding (t : Tree) (s : ScopeId) (name : String) (builtin : Bool) : Bool :=
  name != "" && ((t.getBinding? s name).isSome || t.hasUid s name
    || (builtin && (isBuiltinGlobal name || contextVariables.contains name)))

/-- Whether a name is bound around a scope. -/
def parentHasBinding (t : Tree) (s : ScopeId) (name : String) (builtin : Bool) : Bool :=
  (t.scope s).parent.any fun p => t.hasBinding p name builtin

/-- The identifier that declares the nearest binding of a name. -/
def bindingIdentifier? (t : Tree) (s : ScopeId) (name : String) : Option NodeId :=
  (t.bindingOf? s name).map (·.identifier)

/-- The identifier that declares a scope's own binding of a name. -/
def ownBindingIdentifier? (t : Tree) (s : ScopeId) (name : String) : Option NodeId :=
  ((t.ownBinding? s name).bind t.binding?).map (·.identifier)

/-- The outermost scope. -/
def programScope (t : Tree) (s : ScopeId) : ScopeId := ((t.scopeChain s).getLast?).getD s

def blockType? (t : Tree) (s : ScopeId) : Option NodeType :=
  t.arena.type? (some (t.scope s).block)

/-- The nearest scope of a function or of the program. -/
def functionScope (t : Tree) (s : ScopeId) : ScopeId :=
  ((t.scopeChain s).find? fun c => (t.blockType? c).any (·.isA .functionParent)).getD
    (t.programScope s)

/-- The nearest scope that takes block-scoped declarations. -/
def blockScope (t : Tree) (s : ScopeId) : ScopeId :=
  ((t.scopeChain s).find? fun c =>
    (t.blockType? c).any fun ty => ty.isA .blockParent || ty == .catchClause).getD
    (t.programScope s)

/-- The names used without a declaration, in the order in which they were found. -/
def globals (t : Tree) (s : ScopeId) : List String := (t.scope (t.programScope s)).globals.names

/-- The bindings of a scope that are alive and pass a test. -/
def liveEntries (t : Tree) (s : ScopeId) (test : Binding → Bool) : Table BindingId :=
  (t.scope s).bindings.filter fun entry => (t.binding? entry.2).any test

def ownBindings (t : Tree) (s : ScopeId) : Table BindingId := t.liveEntries s fun _ => true

/-- Adds the entries whose names are not there yet. -/
def addMissing {α : Type} (table entries : Table α) : Table α :=
  entries.foldl (fun table (name, x) => if table.has name then table else table.put name x) table

/-- The bindings seen from a scope that pass a test; of one name the nearest that passes. -/
def visibleBindings (t : Tree) (s : ScopeId) (test : Binding → Bool) : Table BindingId :=
  (t.scopeChain s).foldl (fun table c => addMissing table (t.liveEntries c test)) []

/-- All bindings seen from a scope; the nearest declaration of a name wins. -/
def allBindings (t : Tree) (s : ScopeId) : Table BindingId := t.visibleBindings s fun _ => true

/-- The nearest binding of each name that has one of the given kinds. -/
def allBindingsOfKind (t : Tree) (s : ScopeId) (kinds : List BindingKind) : Table BindingId :=
  t.visibleBindings s fun b => kinds.contains b.kind

def scopeDatum? (t : Tree) (s : ScopeId) (key : String) : Option Datum :=
  (t.scopeChain s).findSome? fun c => (t.scope c).data.get? key

def setScopeDatum (s : ScopeId) (key : String) (value : Datum) : TreeM Unit :=
  modify (·.updateScope s fun d => { d with data := d.data.put key value })

def removeScopeDatum (s : ScopeId) (key : String) : TreeM (Option Datum) := do
  let t ← get
  match (t.scopeChain s).find? fun c => (t.scope c).data.has key with
  | none => return none
  | some owner =>
    modify (·.updateScope owner fun d => { d with data := d.data.drop key })
    return (t.scope owner).data.get? key

/-- Records that a name occurs in the program around a scope. -/
def noteReference (s : ScopeId) (name : String) : TreeM Unit :=
  modify fun t => t.updateScope (t.programScope s) fun d =>
    { d with references := if d.references.contains name then d.references
        else name :: d.references }

/-- Records an identifier that is used without a declaration. -/
def addGlobal (s : ScopeId) (id : Option NodeId) : TreeM Unit := do
  let t ← get
  match id, t.arena.name? id with
  | some id, some name =>
    noteReference s name
    modify (·.updateScope (t.programScope s) fun d =>
      { d with globals := if d.globals.has name then d.globals else d.globals.put name id })
  | _, _ => return

/-- Destroys a binding, and takes the name out of the table of the scope if it leads to that
binding. -/
def retire (t : Tree) (s : ScopeId) (name : String) (b : BindingId) : Tree :=
  let t := t.updateScope s fun d =>
    if d.bindings.get? name == some b then { d with bindings := d.bindings.drop name } else d
  t.destroyBinding b

/-- Forgets a scope's own binding of a name and destroys it. -/
def removeOwnBinding (s : ScopeId) (name : String) : TreeM Unit :=
  modify fun t =>
    match (t.scope s).bindings.get? name with
    | some b => t.retire s name b
    | none => t

/-- Removes the nearest binding of a name and lets the name be generated again. -/
def removeBinding (s : ScopeId) (name : String) : TreeM Unit := do
  match (← get).bindingOf? s name with
  | some b => removeOwnBinding b.scope name
  | none => pure ()
  modify fun t => (t.scopeChain s).foldl (fun t c =>
    t.updateScope c fun d => { d with uids := d.uids.filter (· != name) }) t

def moveBinding (s : ScopeId) (name : String) (target : ScopeId) : TreeM Unit :=
  modify fun t =>
    match t.getBinding? s name with
    | none => t
    | some b =>
      match t.binding? b with
      | none => t
      | some record =>
        let t := t.updateScope record.scope fun d => { d with bindings := d.bindings.drop name }
        let t := t.updateBinding b ({ · with scope := target })
        t.updateScope target fun d => { d with bindings := d.bindings.put name b }

/-- Whether a node always has the same value where it stands: `this`, `super` or an identifier that
is never written. -/
def isStatic (t : Tree) (s : ScopeId) (id : Option NodeId) : Bool :=
  match t.arena.type? id with
  | some .thisExpression | some .super => true
  | some .identifier =>
    match t.arena.name? id with
    | none => false
    | some name =>
      match t.bindingOf? s name with
      | some b => b.constant
      | none => t.hasBinding s name true
  | _ => false

/-- Whether evaluating a node has no side effect, looking at most `fuel` levels down. -/
def isPureLevels (t : Tree) (s : ScopeId) (constantsOnly : Bool) : Nat → Option NodeId → Bool
  | 0, _ => true
  | fuel + 1, id =>
    match t.arena.look id with
    | none => true
    | some n =>
      let pure := t.isPureLevels s constantsOnly fuel
      let child (field : String) := pure (n.child? field)
      let all (field : String) :=
        match n.value? field with
        | some (.list items) => items.all pure
        | _ => false
      let key := !n.isSet "computed" || child "key"
      match n.type with
      | .identifier =>
        match n.name?.bind (t.bindingOf? s) with
        | some b => !constantsOnly || b.constant
        | none => false
      | .classBody => all "body"
      | .arrayExpression => all "elements"
      | .objectExpression => all "properties"
      | .classMethod =>
        key && n.text? "kind" != some "get" && n.text? "kind" != some "set"
      | .classProperty | .objectProperty => key && child "value"
      | .unaryExpression => child "argument"
      | .templateLiteral => all "expressions"
      | ty =>
        if ty.isA .classNode then
          ((n.child? "super_class").isNone || child "super_class") && child "body"
        else if ty.isA .binary then child "left" && child "right"
        else ty.isA .pureish

/-- Whether evaluating a node has no side effect. With `constantsOnly`, the identifiers it reads
have to be bound and never written. -/
def isPure (t : Tree) (s : ScopeId) (id : Option NodeId) (constantsOnly : Bool) : Bool :=
  t.isPureLevels s constantsOnly (t.arena.size + 1) id

def fieldName? (t : Tree) (id : Option NodeId) (field : String) : Option String :=
  t.arena.name? (t.arena.child? id field)

end ScopedTree.Tree
