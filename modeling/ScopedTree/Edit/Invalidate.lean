import ScopedTree.Arena.Walk
import ScopedTree.Scope.Lookup

/-!
# Forgetting a subtree

When a subtree leaves the tree, all that was known of it goes: paths below it are marked removed,
its scopes go out of use, and bindings forget the uses in it. A binding that loses its declaration
passes to a later one of the same name if there is one.

* `Tree.markRemovedBelow`   marks the paths in a subtree;
* `Tree.detachScopes`       puts the scopes of a subtree out of use;
* `Tree.pruneBinding`       forgets uses and finds the successor of a lost declaration;
* `Tree.invalidate`         does all of it.
-/

namespace ScopedTree

/-- What is edited: the subtree that leaves, the one that takes its place, the path of that place
and the scope around it. -/
structure Departure where
  old : NodeId
  keep : Option NodeId
  holder : Option PathId
  enclosing : Option ScopeId

namespace Departure

/-- Whether a node lies in the subtree that leaves. -/
def inOld (d : Departure) (a : Arena) (id : Option NodeId) : Bool :=
  id.isSome && a.isWithin id (some d.old)

/-- Whether a node lies in the subtree that takes its place. -/
def inKeep (d : Departure) (a : Arena) (id : Option NodeId) : Bool :=
  d.keep.isSome && id.isSome && a.isWithin id d.keep

/-- Whether a use recorded at a path is to be forgotten. -/
def drops (d : Departure) (t : Tree) (p : PathId) : Bool :=
  some p == d.holder || (t.path p).removed || d.inKeep t.arena (t.node p)

end Departure

namespace Tree

def markRemoved (t : Tree) (p : PathId) : Tree :=
  t.updatePath p ({ · with removed := true, shouldSkip := true })

/-- Marks the paths below the given nodes that hold a node of the subtree. -/
def markRemovedBelow (d : Departure) (nodes : List NodeId) (t : Tree) : Tree :=
  let mark (t : Tree) (p : PathId) : Tree :=
    if some p != d.holder && !(t.path p).removed && d.inOld t.arena (t.node p) then
      t.markRemoved p
    else t
  nodes.foldl (fun t id => (t.cachedPaths (some id)).foldl mark t) t

def scopesAmong (t : Tree) (nodes : List NodeId) : List ScopeId :=
  nodes.filterMap fun id =>
    (t.scopeOfNode.get? id.index).filter fun s => !(t.scope s).detached

/-- Puts scopes out of use. -/
def detachScopes (scopes : List ScopeId) (t : Tree) : Tree :=
  scopes.foldl (fun t s => t.updateScope s ({ · with detached := true })) t

/-- Hangs scopes whose parent went out of use under another scope. -/
def reattachScopes (detached kept : List ScopeId) (enclosing : Option ScopeId) (t : Tree) : Tree :=
  kept.foldl (fun t s => t.updateScope s fun d =>
    if d.parent.any detached.contains then { d with parent := enclosing } else d) t

/-- The bindings that the names of the given nodes can reach, and all of the scopes out of use, in
order of their making. -/
def affectedBindings (t : Tree) (nodes : List NodeId) (enclosing : Option ScopeId)
    (detached kept : List ScopeId) : List BindingId :=
  let names := nodes.filterMap fun id => t.arena.name? (some id)
  let searched := (enclosing.elim [] t.scopeChain) ++ kept
  let found := detached.flatMap (fun s => (t.scope s).bindings.map (·.2))
    ++ searched.flatMap fun s => ((t.scope s).bindings.filter (names.contains ·.1)).map (·.2)
  ((List.range t.bindings.size).map BindingId.mk).filter found.contains

def forgetUses (drops : PathId → Bool) (b : Binding) : Binding :=
  let reads := b.referencePaths.filter (!drops ·)
  let writes := b.constantViolations.filter (!drops ·)
  { b with
    referencePaths := reads
    references := if reads.length != b.referencePaths.length then reads.length else b.references
    referenced :=
      if reads.length != b.referencePaths.length then reads.length > 0 else b.referenced
    constantViolations := writes
    constant := if writes.length != b.constantViolations.length then writes.isEmpty else b.constant
    redeclarations := b.redeclarations.filter (!drops ·.1) }

/-- The first later declaration of the name of a binding, with the identifier it declares it by. -/
def successor? (t : Tree) (b : Binding) : Option (PathId × BindingKind × NodeId) :=
  b.redeclarations.findSome? fun (p, kind) =>
    (((t.arena.bindingIds (t.node p) true).get? b.name).bind (·.head?)).map (p, kind, ·)

/-- A binding that passes to a later declaration. A name that is constant then may be evaluated
again. -/
def succeed (b : Binding) (p : PathId) (kind : BindingKind) (id : NodeId) : Binding :=
  let writes := b.constantViolations.filter (· != p)
  let b := if writes.isEmpty then b.clearMemo else b
  { b with
    identifier := id
    path := p
    kind
    redeclarations := b.redeclarations.filter (·.1 != p)
    constantViolations := writes
    constant := writes.isEmpty }

/-- A binding that loses its declaration, with the reads that have to be resolved again. -/
structure Destroyed where
  scope : ScopeId
  name : String
  id : BindingId
  reads : List PathId

/-- Lets a binding forget its uses in the edited subtrees. Gives it back if its declaration is gone
and no other takes its place. -/
def pruneBinding (d : Departure) (detached : List ScopeId) (t : Tree) (id : BindingId) :
    Tree × Option Destroyed :=
  match t.binding? id with
  | none => (t, none)
  | some b =>
    if detached.contains b.scope then (t, some ⟨b.scope, b.name, id, []⟩)
    else
      let b := forgetUses (d.drops t) b
      let t := t.updateBinding id fun _ => b
      if !d.inOld t.arena (some b.identifier) then (t, none)
      else
        match t.successor? b with
        | some (p, kind, node) => (t.updateBinding id fun _ => succeed b p kind node, none)
        | none => (t, some ⟨b.scope, b.name, id, b.referencePaths⟩)

def resolveAgain (s : ScopeId) (name : String) (p : PathId) (t : Tree) : Tree :=
  match t.getBinding? s name with
  | some b => t.updateBinding b (·.reference p)
  | none =>
    match addGlobal s (t.node p) t with
    | .ok _ t => t
    | .error _ t => t

def destroy (x : Destroyed) (t : Tree) : Tree :=
  x.reads.foldl (fun t p => resolveAgain x.scope x.name p t) (t.retire x.scope x.name x.id)

/-- Forgets what is known of the subtree that leaves. What the subtree in its place declares and
uses is forgotten too, to be registered again. -/
def invalidate (d : Departure) (t : Tree) : Tree :=
  let oldNodes := t.arena.preorder (some d.old)
  let keepNodes := t.arena.preorder d.keep
  let t := markRemovedBelow d oldNodes t
  let detached := t.scopesAmong oldNodes
  let t := detachScopes detached t
  let kept := t.scopesAmong keepNodes
  let t := reattachScopes detached kept d.enclosing t
  let affected := t.affectedBindings (oldNodes ++ keepNodes) d.enclosing detached kept
  let (t, destroyed) := affected.foldl (fun (t, destroyed) id =>
    let (t, lost) := pruneBinding d detached t id
    (t, destroyed ++ lost.toList)) (t, [])
  let t := destroyed.foldl (fun t x => destroy x t) t
  { t with scopeOfNode := t.scopeOfNode.filter fun s => !detached.contains s }

end Tree

end ScopedTree
