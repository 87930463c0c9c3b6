import ScopedTree.Edit.Insert

/-!
# Hoisting

An expression that is the same wherever it is evaluated can move out of the functions around it. It
is kept in a new variable, as far out as all names it reads mean the same.

* `Hoisting`        what an expression reads;
* `Tree.hoist`      moves the expression at a path out.
-/

namespace ScopedTree

/-- What limits how far an expression can move out. -/
structure Hoisting where
  /-- The bindings it reads that are declared outside of it. -/
  bindings : Table BindingId := []
  /-- Scopes it cannot leave: those that its `this` belongs to. -/
  barriers : List ScopeId := []
  deriving Inhabited

/-- The place a hoisted declaration goes to: next to a path. -/
structure Attachment where
  path : PathId
  after : Bool := false
  deriving Inhabited

namespace Tree

def thisScope? (t : Tree) (s : ScopeId) : Option ScopeId :=
  (t.scopeChain s).find? fun c =>
    (t.blockType? c).any fun ty => ty.isA .function && ty != .arrowFunctionExpression

/-- Adds what one identifier or `this` inside the expression reads. `s` is the scope of the
expression. -/
def addHoistedRead (s : ScopeId) (h : Hoisting) (node : NodeId) : TreeM Hoisting := do
  match ← pathFor (some node) with
  | none => return h
  | some p =>
    match ← scopeOf p with
    | none => return h
    | some inner =>
      let t ← get
      if t.arena.is (some node) .thisExpression then
        return { h with barriers := h.barriers ++ (t.thisScope? inner).toList }
      if !t.isReferencedIdentifier p then return h
      let name := (t.arena.name? (some node)).getD ""
      match t.getBinding? inner name with
      | none => return h
      | some b =>
        if t.getBinding? s name == some b then return { h with bindings := h.bindings.put name b }
        else return h

def hoistedReads (p : PathId) (s : ScopeId) : TreeM Hoisting := do
  let t ← get
  let candidates := (t.arena.preorder (t.node p)).filter fun id =>
    t.arena.is (some id) .identifier || t.arena.is (some id) .thisExpression
  candidates.foldlM (addHoistedRead s) {}

/-- Whether every name that the expression reads means the same in a scope. -/
def resolvesAll (t : Tree) (h : Hoisting) (s : ScopeId) : Bool :=
  h.bindings.all fun (name, id) =>
    (t.binding? id).any fun b => t.bindingIdentifier? s name == some b.identifier

/-- The beginning of a list up to the first entry with a property, this included. -/
def throughFirst {α : Type} (test : α → Bool) : List α → List α
  | [] => []
  | x :: xs => if test x then [x] else x :: throughFirst test xs

/-- The scopes that the expression can move to, the innermost first. -/
def hoistScopes (t : Tree) (h : Hoisting) (s : ScopeId) : List ScopeId :=
  throughFirst h.barriers.contains ((t.scopeChain s).takeWhile (t.resolvesAll h))

/-- Whether a path is a statement in a list, or a declarator with siblings. -/
def takesAttachment (t : Tree) (p : PathId) : Bool :=
  match t.parentPath p with
  | none => true
  | some parent =>
    ((t.slot p).list?.isSome && t.nodeIsA p .statement)
      || (t.nodeIs p .variableDeclarator
        && (t.arena.items (t.node parent) "declarations").length > 1)

/-- The nearest path at or above a path next to which a declaration can be put. -/
def attachmentParent (t : Tree) (p : PathId) : PathId := (t.find p t.takesAttachment).getD p

/-- Whether a function scope has a parameter that the expression reads and that is never written. -/
def readsOwnParam (t : Tree) (h : Hoisting) (s : ScopeId) : Bool :=
  h.bindings.any fun (name, id) =>
    (t.ownBinding? s name).isSome && (t.binding? id).any fun b => b.kind == .param && b.constant

/-- The first statement of the body of a function, if there is one. -/
def firstStatement? (function : PathId) : TreeM (Option PathId) := do
  let body ← follow function "body"
  let t ← get
  if t.nodeIs body .blockStatement && t.has body "body" then return some (← follow body "body.0")
  else return none

/-- Where a declaration goes so that it is as far out as the scopes allow. `s` is the scope of the
expression. -/
def outermostAttachment (h : Hoisting) (s : ScopeId) : TreeM (Option PathId) := do
  let t ← get
  match (t.hoistScopes h s).reverse with
  | [] => return none
  | outermost :: inner =>
    let next := inner.head?.map fun c => t.attachmentParent (t.scope c).path
    match t.blockType? outermost with
    | none => return none
    | some ty =>
      if ty.isA .function then
        if !t.readsOwnParam h outermost then return next
        if outermost == s then return none
        firstStatement? (t.scope outermost).path
      else if ty == .program then return next
      else return none

/-- Whether a path stands later in its list than another in its own. -/
def laterInList (t : Tree) (p q : PathId) : Bool :=
  match (t.slot p).index?, (t.slot q).index? with
  | some i, some j => i > j
  | _, _ => false

/-- Moves an attachment behind the declaration of a binding and its writes if these come later. -/
def afterBinding (t : Tree) (target : ScopeId) (place : Attachment) (entry : String × BindingId) :
    Attachment :=
  match (t.ownBinding? target entry.1).bind fun _ => t.binding? entry.2 with
  | none => place
  | some b =>
    if b.kind != .param && t.laterInList (t.attachmentParent b.path) place.path then
      let path := b.constantViolations.foldl (fun last write =>
        if t.laterInList (t.attachmentParent write) last then write else last) b.path
      { path, after := true }
    else place

def surroundingScope (p : PathId) : TreeM (Option ScopeId) := do
  match ← scopeOf p with
  | none => return none
  | some s =>
    let t ← get
    if (t.scope s).path == p then return (t.scope s).parent else return some s

/-- The place of the declaration: behind all that declares and writes what the expression reads. -/
def attachment (h : Hoisting) (s : ScopeId) : TreeM (Option Attachment) := do
  match ← outermostAttachment h s with
  | none => return none
  | some p =>
    let target ← surroundingScope p
    let t ← get
    let target := target.filter fun c =>
      (t.blockType? c).any fun ty => ty == .program || ty.isA .function
    let place : Attachment := match target with
      | some c => h.bindings.foldl (t.afterBinding c) { path := p }
      | none => { path := p }
    match t.parentPath place.path with
    | some parent =>
      if t.nodeIsA parent .exportDeclaration then return some { place with path := parent }
      else return some place
    | none => return some place

/-- Moves the expression at a path into a new variable next to the given place. -/
def hoistTo (p : PathId) (s : ScopeId) (place : Attachment) : TreeM (Option PathId) := do
  let uid ← generateUid s "ref"
  let expression ← detachForWrap p
  let id ← TreeM.edit (Arena.identifier uid)
  let declarator ← TreeM.edit (Arena.variableDeclarator (some id) expression)
  let declaration ←
    if (← get).nodeIs place.path .variableDeclarator then pure declarator
    else TreeM.edit (Arena.variableDeclaration "var" [some declarator])
  let inserted ←
    if place.after then insertAfter place.path [some declaration]
    else insertBefore place.path [some declaration]
  replaceWith p (some (← TreeM.edit (Arena.identifier uid)))
  return inserted.head?

/-- Moves the expression at a path into a new variable, as far out as the bindings it reads allow,
and leaves a read of the variable behind. Gives the path of the declaration, or `none` if the
expression cannot leave its function. -/
def hoist (p : PathId) : TreeM (Option PathId) := do
  assertLive p
  match ← scopeOf p with
  | none => return none
  | some s =>
    let h ← hoistedReads p s
    match ← attachment h s with
    | none => return none
    | some place =>
      let t ← get
      if t.functionParent place.path == t.functionParent p then return none
      match ← scopeOf place.path with
      | none => return none
      | some target => hoistTo p target place

end Tree

end ScopedTree
