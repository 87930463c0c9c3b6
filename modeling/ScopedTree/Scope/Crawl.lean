import ScopedTree.Arena.Walk
import ScopedTree.Pass.Engine
import ScopedTree.Scope.Assign
import ScopedTree.Scope.Register

/-!
# Crawling

A crawl finds all that a scope and the scopes inside declare, read and write. A pass over the
subtree enters declarations and collects reads and writes; these are resolved when all declarations
are known.

* `Collected`, `collector`   what the pass collects, and its visitor;
* `Tree.crawl`               rebuilds a scope and the scopes inside;
* `Tree.scopeOf`             the scope of a path, made and crawled on first request;
* `Tree.registerSubtree`     registers what a subtree that was put into the tree declares and uses.
-/

namespace ScopedTree

/-- The uses that a crawl comes by. -/
structure Collected where
  references : List PathId := []
  violations : List PathId := []
  assignments : List PathId := []
  deriving Inhabited

namespace Tree

/-- The scope of a path while a crawl is under way: new scopes get what their own nodes declare, and
the crawl comes by the rest. -/
def quietScopeOf (p : PathId) : TreeM (Option ScopeId) := scopeOfWith restartScope p

/-- The scope that the declaration at a path belongs to; for one that owns a scope itself the scope
around that. -/
def declaringScope (p : PathId) : TreeM (Option ScopeId) := do
  match ← quietScopeOf p with
  | none => return none
  | some s =>
    let t ← get
    if some (t.scope s).block == t.node p then return (t.scope s).parent else return some s

/-- Registers a declaration with the scope that `target` picks around the declaring one. -/
def registerWith (target : Tree → ScopeId → ScopeId) (p : PathId) : TreeM Unit := do
  match ← declaringScope p with
  | none => return
  | some s => registerDeclaration (target (← get) s) p

/-- Registers the `var` declaration in a part of a loop head. -/
def collectLoopVar (p : PathId) (key : String) : TreeM Unit := do
  let t ← get
  if t.arena.isVar (t.arena.child? (t.node p) key) then
    let head ← follow p key
    match ← quietScopeOf head with
    | none => return
    | some s => registerBinding ((← get).functionScope s) .loopVar head

/-- Registers a declaration that is not block-scoped; an export of a declaration leaves it to that
declaration. -/
def collectDeclaration (p : PathId) : TreeM Unit := do
  let t ← get
  let node := t.node p
  let blockScoped := t.arena.isBlockScoped node && !t.arena.is node .functionDeclaration
  let exported := t.arena.isA node .exportDeclaration
    && t.arena.isA (t.arena.child? node "declaration") .declaration
  if (t.arena.type? node).isSome && !blockScoped && !exported then registerWith functionScope p

/-- Registers a block-scoped declaration other than of a function. -/
def collectBlockScoped (p : PathId) : TreeM Unit := do
  if !(← get).nodeIs p .functionDeclaration then registerWith blockScope p

def exportedNames (t : Tree) (declaration : Option NodeId) : List String :=
  match t.arena.type? declaration with
  | some .classDeclaration | some .functionDeclaration => (t.fieldName? declaration "id").toList
  | some .variableDeclaration => (t.arena.bindingIds declaration false).names
  | _ => []

def collectExport (p : PathId) : TreeM Unit := do
  let t ← get
  if !(t.arena.look (t.node p)).any (·.hasField "declaration") then return
  match ← quietScopeOf p with
  | none => return
  | some s =>
    modify fun t =>
      (t.exportedNames (t.arena.child? (t.node p) "declaration")).foldl (fun t name =>
        match t.getBinding? s name with
        | some b => t.updateBinding b (·.reference p)
        | none => t) t

def collectLabel (p : PathId) : TreeM Unit := do
  match ← quietScopeOf p with
  | none => return
  | some s =>
    let t ← get
    match t.fieldName? (t.node p) "label" with
    | some label => noteReference s label
    | none => pure ()
    registerDeclaration ((← get).blockScope s) p

end Tree

/-- The visitor of a crawl. -/
def collector : Visitor Collected :=
  let onTree (f : PathId → TreeM Unit) : Handler Collected := fun p => PassM.onTree (f p)
  let violation (p : PathId) : PassM Collected Unit :=
    PassM.note fun c => { c with violations := c.violations ++ [p] }
  ({} : Visitor Collected)
    |>.enter "For" (onTree fun p => ["init", "left"].forM (Tree.collectLoopVar p))
    |>.enter "Declaration" (onTree Tree.collectDeclaration)
    |>.enter "BlockScoped" (onTree Tree.collectBlockScoped)
    |>.enter "ReferencedIdentifier" (fun p =>
      PassM.note fun c => { c with references := c.references ++ [p] })
    |>.enter "ForXStatement" (fun p => do
      let left ← PassM.onTree (Tree.follow p "left")
      if ← PassM.ask fun t => t.nodeIs left .identifier || t.nodeIsA left .pattern then
        violation left)
    |>.exit "ExportDeclaration" (onTree Tree.collectExport)
    |>.enter "LabeledStatement" (onTree Tree.collectLabel)
    |>.enter "AssignmentExpression" (fun p =>
      PassM.note fun c => { c with assignments := c.assignments ++ [p] })
    |>.enter "UpdateExpression" (fun p => do
      violation (← PassM.onTree (Tree.follow p "argument")))
    |>.enter "UnaryExpression" (fun p => do
      match ← PassM.onTree (Tree.field p "operator") with
      | .str "delete" => violation (← PassM.onTree (Tree.follow p "argument"))
      | _ => return)

namespace Tree

/-- How many steps a pass needs that puts nothing into the tree. -/
def passSteps (t : Tree) : Nat := (Limits.traversal + 1) * (t.arena.childCount + 16)

/-- The engine of a visitor whose pass assigns scopes with `assign`. -/
def engineOf {σ : Type} (v : Visitor σ) (assign : PathId → TreeM Unit) : TreeM (Engine σ) :=
  match v.dispatch with
  | .ok dispatch => return { dispatch, assign }
  | .error e => throw e

/-- Runs a pass of the collector. -/
def collect {α : Type} (x : Engine Collected → PassM Collected α) : TreeM Collected := do
  let engine ← engineOf collector (assignWith restartScope)
  return (← TreeM.runPass {} (x engine)).2

section Link

variable (resolve : PathId → TreeM (Option ScopeId))

/-- Resolves the targets of an assignment: what is bound counts as written, and what is not is a
global. -/
def linkAssignment (p : PathId) : TreeM Unit := do
  match ← resolve p with
  | none => return
  | some s =>
    let t ← get
    (t.arena.bindingIds (t.node p) false).forM fun (name, nodes) => do
      if ((← get).getBinding? s name).isNone then addGlobal s nodes.head?
    registerViolation s p

/-- Resolves a read: it is counted by its binding, or its name is a global. -/
def linkReference (p : PathId) : TreeM Unit := do
  match ← resolve p with
  | none => return
  | some s =>
    let t ← get
    match t.arena.name? (t.node p) with
    | none => return
    | some name =>
      match t.getBinding? s name with
      | some b => modify (·.updateBinding b (·.reference p))
      | none => addGlobal s (t.node p)

/-- Resolves a write other than an assignment. -/
def linkViolation (p : PathId) : TreeM Unit := do
  match ← resolve p with
  | none => return
  | some s => registerViolation s p

/-- Resolves all that was collected: assignments, then reads, then other writes. -/
def link (c : Collected) : TreeM Unit := do
  c.assignments.forM (linkAssignment resolve)
  c.references.forM (linkReference resolve)
  c.violations.forM (linkViolation resolve)

end Link

/-- Rebuilds a scope and the scopes inside. Scopes that come up only when uses are resolved are
crawled in turn, at most `fuel` deep. -/
def crawlLevels : Nat → ScopeId → TreeM Unit
  | 0, s => restartScope s
  | fuel + 1, s => do
    restartScope s
    let t ← get
    let collected ← collect fun engine => engine.traversePath t.passSteps (t.scope s).path
    link (scopeOfWith (crawlLevels fuel)) collected

/-- Drops all that a scope and the scopes inside hold, and finds it again in the subtree. -/
def crawl (s : ScopeId) : TreeM Unit := do crawlLevels ((← get).arena.size + 1) s

/-- Assigns a path the scope it lives in; a new scope is crawled. -/
def assign (p : PathId) : TreeM Unit := assignWith crawl p

/-- The scope of a path, made and crawled if need be. -/
def scopeOf (p : PathId) : TreeM (Option ScopeId) := scopeOfWith crawl p

/-- Registers what the subtree at a path declares, reads and writes, without crawling the scopes
around it. Scopes around it that are made now are crawled and see the subtree anyway. -/
def registerSubtree (p : PathId) : TreeM Unit := do
  let t ← get
  if t.options.noScope then return
  match t.parentPath p with
  | none =>
    let _ ← scopeOf p
  | some parent =>
    let _ ← scopeOf parent
    let d := (← get).path p
    modify (·.updatePath p ({ · with shouldSkip := false, shouldStop := false }))
    let collected ← TreeM.attempt <| collect fun engine => do
      let _ ← PassM.onTree (quietScopeOf p)
      engine.visitPath (← PassM.ask passSteps) p
    modify (·.updatePath p ({ · with
      shouldSkip := d.shouldSkip, shouldStop := d.shouldStop, childrenDone := false }))
    match collected with
    | .ok collected => link scopeOf collected
    | .error e => throw e

end Tree

end ScopedTree
