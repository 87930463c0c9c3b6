import ScopedTree.Path.Relatives
import ScopedTree.Scope.Lookup

/-!
# Registering declarations

* `Tree.registerBinding`      enters the names that the node at a path binds into a scope;
* `Tree.registerDeclaration`  enters whatever a declaration declares;
* `Tree.registerHeads`        enters what the node of a scope itself declares;
* `Tree.registerViolation`    marks what a node writes as not constant;
* `Tree.resetScope`           empties a scope.
-/

namespace ScopedTree.Tree

/-- Enters one name into a scope. A second declaration of a name is an error if one of the two is
exclusive; otherwise it is merged into the first and counts as a write. A handle that belongs to no
scope takes no names. -/
def declareName (s : ScopeId) (kind : BindingKind) (p : PathId) (name : String) (id : NodeId) :
    TreeM Unit := do
  let t ← get
  match (t.ownBinding? s name).bind fun b => (t.binding? b).map (b, ·) with
  | none =>
    if t.scopes.size ≤ s.index then return
    let b : BindingId := ⟨t.bindings.size⟩
    let record : Binding := { identifier := id, name, scope := s, path := p, kind }
    modify fun t =>
      { t with bindings := t.bindings.push (some record) }.updateScope s fun d =>
        { d with bindings := d.bindings.put name b }
    noteReference s name
  | some (b, old) =>
    if old.identifier == id then return
    if kind != .param && !old.kind.isReplaceable && (kind.isExclusive || old.kind.isExclusive) then
      throw (.duplicateDeclaration name (t.location p))
    modify (·.updateBinding b (Binding.merge kind p id))
    noteReference s name

/-- Enters the names that `target` binds, as declared by the construct at `p`. -/
def declareNames (s : ScopeId) (kind : BindingKind) (p : PathId) (target : Option NodeId) :
    TreeM Unit := do
  let ids := (← get).arena.bindingIds target true
  ids.forM fun (name, nodes) => nodes.forM (declareName s kind p name)

/-- Enters the names bound at a path, where declarations are nested at most `fuel` deep. -/
def registerBindingLevels (s : ScopeId) (kind : BindingKind) : Nat → PathId → TreeM Unit
  | 0, _ => return
  | fuel + 1, p => do
    let t ← get
    if t.nodeIs p .variableDeclaration then
      (← entries p "declarations").forM (registerBindingLevels s kind fuel)
    else declareNames s kind p (t.node p)

/-- Enters the names that the node at a path binds into a scope; those of a variable declaration
are declared by its declarators. -/
def registerBinding (s : ScopeId) (kind : BindingKind) (p : PathId) : TreeM Unit := do
  registerBindingLevels s kind ((← get).arena.size + 1) p

def registerLabel (s : ScopeId) (p : PathId) : TreeM Unit :=
  modify fun t =>
    match t.fieldName? (t.node p) "label" with
    | some name => t.updateScope s fun d => { d with labels := d.labels.put name p }
    | none => t

def keyword (id : Option NodeId) : TreeM String := do
  let t ← get
  return ((← TreeM.ofShape (do (← t.arena.node id).text "kind")).getD "")

/-- Enters what is declared at a path, where exports are nested at most `fuel` deep. -/
def registerDeclarationLevels (s : ScopeId) : Nat → PathId → TreeM Unit
  | 0, _ => return
  | fuel + 1, p => do
    let t ← get
    let node := t.node p
    match t.arena.type? node with
    | none => return
    | some .labeledStatement => registerLabel s p
    | some .functionDeclaration => registerBinding s .hoisted p
    | some .variableDeclaration =>
      let kind := BindingKind.ofKeyword (← keyword node)
      (← entries p "declarations").forM (registerBinding s kind)
    | some .classDeclaration => registerBinding s .letName p
    | some .importDeclaration =>
      (← entries p "specifiers").forM (registerBinding s .imported)
    | some ty =>
      if ty.isA .exportDeclaration then
        if (t.arena.child? node "declaration").isSome then
          registerDeclarationLevels s fuel (← follow p "declaration")
      else registerBinding s .unknown p

/-- Enters whatever the node at a path declares into a scope. -/
def registerDeclaration (s : ScopeId) (p : PathId) : TreeM Unit := do
  registerDeclarationLevels s ((← get).arena.size + 1) p

/-- Marks every binding that the node at a path writes as not constant. -/
def registerViolation (s : ScopeId) (p : PathId) : TreeM Unit := do
  let t ← get
  (t.arena.bindingIds (t.node p) false).forM fun (name, _) =>
    modify fun t =>
      match t.getBinding? s name with
      | some b => t.updateBinding b (·.reassign p)
      | none => t

/-- Empties a scope and destroys its bindings. -/
def resetScope (s : ScopeId) : TreeM Unit :=
  modify fun t =>
    let t := (t.scope s).bindings.foldl (fun t (_, b) => t.destroyBinding b) t
    t.updateScope s fun d =>
      let d := { d with bindings := [], labels := [], data := [] }
      if d.parent.isNone then { d with globals := [], uids := [], references := [] } else d

/-- Enters what the head of a loop declares into the scope of the loop. -/
def registerLoopHead (s : ScopeId) (key : String) : TreeM Unit := do
  let t ← get
  let d := t.scope s
  let head := t.arena.child? (some d.block) key
  if t.arena.isLet head then
    let kind := BindingKind.ofLoopKeyword (← keyword head)
    registerBinding s kind (← follow d.path key)

/-- Enters what the node of a scope itself declares: loop heads, the own name of a function or
class expression, parameters and the catch parameter. -/
def registerHeads (s : ScopeId) : TreeM Unit := do
  let t ← get
  let d := t.scope s
  match t.arena.type? (some d.block) with
  | none => return
  | some ty =>
    if ty.isA .loop then
      registerLoopHead s "init"
      registerLoopHead s "left"
    if ty == .functionExpression || ty == .classExpression then
      let id := t.arena.child? (some d.block) "id"
      if id.isSome then declareNames s .selfName d.path id
    if ty.isA .function then
      (← entries d.path "params").forM (registerBinding s .param)
    if ty == .catchClause then registerBinding s .catchParam d.path

/-- Empties a scope and all scopes inside, and enters what their own nodes declare. -/
def restartScope (s : ScopeId) : TreeM Unit := do
  let targets := s :: (← get).descendantScopes s
  targets.forM resetScope
  targets.forM registerHeads

end ScopedTree.Tree
