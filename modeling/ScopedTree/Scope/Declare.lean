import ScopedTree.Edit.Slot
import ScopedTree.Scope.Uid

/-!
# Adding declarations to a scope

* `Tree.declare`           declares a variable at the start of the block of a scope;
* `Tree.declareUid`        declares a variable with a new name;
* `Tree.memoise`           a variable to keep the value of a node in, if that can change.
-/

namespace ScopedTree.Tree

/-- The path of the block that takes declarations for a scope. -/
def declarationBlock (s : ScopeId) : TreeM PathId := do
  let t ← get
  let takesAny := t.blockType? s == some .blockStatement || t.blockType? s == some .program
  let target := if takesAny then s else t.blockScope s
  let target :=
    if t.blockType? target == some .switchStatement then t.functionScope target else target
  let p := (t.scope target).path
  if t.nodeIsA p .loop || t.nodeIsA p .function || t.nodeIs p .catchClause then ensureBlock p
  else return p

/-- The declaration put into a scope before for a keyword, if it is still there. -/
def pushedDeclaration? (t : Tree) (s : ScopeId) (kind : String) : Option PathId :=
  ((t.scope s).pushed.get? kind).filter fun p =>
    !(t.path p).removed && t.nodeIs p .variableDeclaration

def firstInserted (p : PathId) (message : String) : List PathId → TreeM PathId
  | q :: _ => return q
  | [] => do throw ((← get).errorAt p message)

/-- The declaration that takes a new declarator: the one of earlier times, or a new one at the start
of `block`. -/
def declarationFor (s : ScopeId) (block : PathId) (kind : String) (unique : Bool) :
    TreeM PathId := do
  let t ← get
  match if unique then none else t.pushedDeclaration? s kind with
  | some p => return p
  | none =>
    let node ← TreeM.edit (Arena.variableDeclaration kind [])
    let inserted ← unshiftContainer block "body" [some node]
    let p ← firstInserted block "declaration was not inserted" inserted
    if !unique then modify (·.updateScope s fun d => { d with pushed := d.pushed.put kind p })
    return p

/-- Declares `id`, with `init` as its value, at the start of the block of a scope. Declarations of
one keyword share a statement unless `unique`. Gives the path of the declarator. -/
def declare (s : ScopeId) (id init : Option NodeId) (kind : String) (unique : Bool) :
    TreeM PathId := do
  let block ← declarationBlock s
  let declaration ← declarationFor s block kind unique
  let declarator ← TreeM.edit (Arena.variableDeclarator id init)
  let inserted ← pushContainer declaration "declarations" [some declarator]
  let p ← firstInserted declaration "declarator was not inserted" inserted
  registerBinding s (.ofKeyword kind) p
  return p

/-- Declares a `var` with a new name and gives an identifier that refers to it. -/
def declareUid (s : ScopeId) (name : String) : TreeM NodeId := do
  let uid ← generateUid s name
  let declared ← TreeM.edit (Arena.identifier uid)
  let _ ← declare s (some declared) none "var" false
  TreeM.edit (Arena.identifier uid)

/-- An identifier to keep the value of a node in; none if the value cannot change. The variable is
declared unless `undeclared`. -/
def memoise (s : ScopeId) (id : Option NodeId) (undeclared : Bool) : TreeM (Option NodeId) := do
  if (← get).isStatic s id then return none
  let temporary ← generateUidBasedOn s id "ref"
  if undeclared then return some temporary
  let name := ((← get).arena.name? (some temporary)).getD "ref"
  let _ ← declare s (some temporary) none "var" false
  return some (← TreeM.edit (Arena.identifier name))

end ScopedTree.Tree
