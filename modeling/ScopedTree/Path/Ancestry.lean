import ScopedTree.Path.Basic
import ScopedTree.Schema.TypeKey

/-!
# Ancestors

* `Tree.findParent`, `Tree.find`   the nearest ancestor with a property;
* `Tree.statementParent`           the statement around a path;
* `Tree.deepestCommon`, `Tree.earliestCommon`   common ancestors of several paths;
* `Tree.comesBefore`               source order of siblings.
-/

namespace ScopedTree.Tree

/-- The nearest strict ancestor with a property. -/
def findParent (t : Tree) (p : PathId) (test : PathId → Bool) : Option PathId :=
  (t.ancestors p).find? test

/-- The nearest of a path and its ancestors with a property. -/
def find (t : Tree) (p : PathId) (test : PathId → Bool) : Option PathId :=
  (t.ancestry p).find? test

def functionParent (t : Tree) (p : PathId) : Option PathId :=
  t.findParent p (t.nodeIsA · .function)

/-- Whether the search for a statement ends at a path: it is a statement, an entry of a list or the
root. -/
def endsStatement (t : Tree) (p : PathId) : Bool :=
  (t.parentPath p).isNone || (t.slot p).list?.isSome || t.nodeIsA p .statement

/-- The statement around a path; whatever stands in a list counts as one. -/
def statementParent (t : Tree) (p : PathId) : Except TreeError PathId :=
  let found := (t.find p t.endsStatement).getD p
  if t.nodeIs found .program || t.nodeIs found .file then
    .error (t.errorAt p "file/program node has no statement parent")
  else .ok found

def isDescendant (t : Tree) (p q : PathId) : Bool := (t.ancestors p).contains q

def isAncestor (t : Tree) (p q : PathId) : Bool := t.isDescendant q p

/-- Whether a path or an ancestor has one of the given types or groups. -/
def inType (t : Tree) (p : PathId) (keys : List String) : Bool :=
  (t.ancestry p).any fun q => (t.nodeType? q).any fun ty => keys.any ty.isNamed

def positionBefore : Option Nat → Option Nat → Bool
  | none, some _ => true
  | some i, some j => i < j
  | _, none => false

/-- Source order of two paths below one owner. -/
def comesBefore (t : Tree) (p q : PathId) : Bool :=
  match t.arena.type? (t.parentNode p) with
  | none => false
  | some ty =>
    let position (r : PathId) := (t.slot r).key?.bind ty.fieldPosition?
    if position p == position q then positionBefore (t.slot p).index? (t.slot q).index?
    else positionBefore (position p) (position q)

def commonBeginning : List (List PathId) → List PathId
  | [] => []
  | first :: rest => go first rest
where
  /-- The part of the first list that all others start with. -/
  go : List PathId → List (List PathId) → List PathId
    | [], _ => []
    | p :: ps, others =>
      if others.all (·.head? == some p) then p :: go ps (others.map (·.drop 1)) else []

def rootFirst (t : Tree) (ps : List PathId) : List (List PathId) :=
  ps.map fun p => (t.ancestry p).reverse

/-- The deepest path that is at or above all of `ps`. -/
def deepestCommon (t : Tree) (ps : List PathId) : Option PathId :=
  (commonBeginning (t.rootFirst ps)).getLast?

/-- The first of several branches in source order; of equal ones the first given. -/
def firstBranch (t : Tree) : List PathId → Option PathId
  | [] => none
  | p :: ps => some (ps.foldl (fun first q => if t.comesBefore q first then q else first) p)

/-- The branch below the deepest common ancestor that comes first in source order; the ancestor
itself if it is one of `ps`. -/
def earliestCommon (t : Tree) (ps : List PathId) : Option PathId :=
  let ancestries := t.rootFirst ps
  let common := commonBeginning ancestries
  match common.getLast? with
  | none => none
  | some deepest =>
    let branches := ancestries.map (·[common.length]?)
    if branches.any Option.isNone then some deepest else t.firstBranch branches.reduceOption

end ScopedTree.Tree
