import ScopedTree.Pass.Run

/-!
# Plugins

* `runPlugins`   several visitors in one pass over a tree;
* `transform`    the same over a new tree, which is given up again.
-/

namespace ScopedTree

/-- A visitor with a name. -/
structure Plugin (σ : Type) where
  name : String
  visitor : Visitor σ

variable {σ : Type}

/-- Runs all plugins in one pass: on each node the handlers of earlier plugins run first. -/
def runPlugins (plugins : List (Plugin σ)) (steps : Nat) : PassM σ Unit := do
  let merged := plugins.foldl (fun merged plugin => merged.merge plugin.visitor) ({} : Visitor σ)
  match merged.dispatch with
  | .ok dispatch => dispatch.traverse steps
  | .error e => throw e

/-- Runs plugins over the program `root` of an arena. Gives the arena and the root back, and the
final state of the visitors. -/
def transform (arena : Arena) (root : Option NodeId) (options : Options)
    (plugins : List (Plugin σ)) (own : σ) (steps : Nat) :
    Except TreeError (Arena × Option NodeId) × σ :=
  match runPlugins plugins steps ⟨Tree.ofArena arena root options, own⟩ with
  | .ok _ s => (.ok (s.tree.arena, s.tree.root), s.own)
  | .error e s => (.error e, s.own)

end ScopedTree
