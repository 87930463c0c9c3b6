import ScopedTree.Pass.Run
import ScopedTree.Scope.Uid

/-!
# Renaming

* `Renaming`, `renamer`   what is renamed, and the visitor that does it;
* `Tree.respell`          gives the uses of a binding another name;
* `Tree.rename`           gives it to the binding, too.
-/

namespace ScopedTree

/-- The binding being renamed, known by the identifier that declares it. -/
structure Renaming where
  old : String
  new : String
  identifier : NodeId
  deriving Inhabited

namespace Tree

def setName (id : Option NodeId) (name : String) : TreeM Unit := do
  let t ← get
  let n ← TreeM.ofShape (do (← t.arena.node id).setScalar "name" (.str name))
  modify fun t => { t with arena := t.arena.update id fun _ => n }

/-- Renames the identifiers of the old name that the node at a path declares or assigns. -/
def renameBound (r : Renaming) (p : PathId) : TreeM Unit := do
  let t ← get
  if t.nodeIs p .variableDeclaration then return
  let ids := ((t.arena.bindingIds (t.node p) true).get? r.old).getD []
  ids.forM fun id => setName (some id) r.new

/-- Leaves out a scope in which the old name means something else. -/
def skipShadowed (r : Renaming) (p : PathId) : TreeM Unit := do
  match ← scopeOf p with
  | none => return
  | some s => if (← get).bindingIdentifier? s r.old != some r.identifier then skip p

def renameRead (r : Renaming) (p : PathId) : TreeM Unit := do
  let t ← get
  if t.arena.name? (t.node p) == some r.old then setName (t.node p) r.new

end Tree

/-- The visitor that renames the uses of a binding. -/
def renamer (r : Renaming) : Visitor Unit :=
  let onTree (f : PathId → TreeM Unit) : Handler Unit := fun p => PassM.onTree (f p)
  ({} : Visitor Unit)
    |>.enter "AssignmentExpression|Declaration|VariableDeclarator" (onTree (Tree.renameBound r))
    |>.enter "Scope" (onTree (Tree.skipShadowed r))
    |>.enter "ReferencedIdentifier" (onTree (Tree.renameRead r))

namespace Tree

/-- Enters a binding under another name. -/
def rebind (s : ScopeId) (id : BindingId) (old new : String) : TreeM Unit := do
  modify fun t =>
    let t := t.updateScope s fun d =>
      let bindings :=
        if d.bindings.get? old == some id then d.bindings.drop old else d.bindings
      { d with bindings := bindings.put new id }
    t.updateBinding id ({ · with name := new })
  noteReference s new

/-- Renames the uses of a binding and the identifier that declares it. -/
def respell (b : Binding) (old new : String) : TreeM Unit := do
  let engine ← engineOf (renamer { old, new, identifier := b.identifier }) assign
  let t ← get
  let _ ← TreeM.runPass () (engine.traversePath t.passSteps (t.scope b.scope).path)
  setName (some b.identifier) new

/-- Gives the binding that `old` means in a scope the name `new`, or else a generated one. Scopes
inside that declare `old` themselves keep theirs. Gives the new name, or `none` if `old` is not
bound. -/
def rename (s : ScopeId) (old : String) (new : Option String) : TreeM (Option String) := do
  let t ← get
  match (t.getBinding? s old).bind fun id => (t.binding? id).map (id, ·) with
  | none => return none
  | some (id, b) =>
    let new ← match new with
      | some name => pure name
      | none => generateUid s old
    respell b old new
    rebind b.scope id old new
    return some new

end Tree

end ScopedTree
