import ScopedTree.Scope.Crawl

/-!
# Passes

A pass of a visitor whose keys were read. Scopes are made and crawled as the pass comes by them.

* `Dispatch.traverse`       the whole tree;
* `Dispatch.traversePath`   everything below a path;
* `Dispatch.visit`          a path and everything below.

Handlers may go on putting nodes into the tree, so each pass is granted a number of steps.
-/

namespace ScopedTree.Dispatch

variable {σ : Type}

def engine (d : Dispatch σ) : Engine σ := { dispatch := d, assign := Tree.assign }

/-- Visits the whole tree. -/
def traverse (d : Dispatch σ) (steps : Nat) : PassM σ Unit := d.engine.traverse steps

/-- Visits everything below a path. -/
def traversePath (d : Dispatch σ) (steps : Nat) (p : PathId) : PassM σ Unit :=
  d.engine.traversePath steps p

/-- Visits a path and everything below. Gives whether the visit was stopped. -/
def visit (d : Dispatch σ) (steps : Nat) (p : PathId) : PassM σ Bool := d.engine.visit steps p

end ScopedTree.Dispatch
