import ScopedTree.Arena.Node
import ScopedTree.Limits

/-!
# Errors of tree operations
-/

namespace ScopedTree

/-- Why an operation on a tree failed. -/
inductive TreeError where
  /-- A node has the wrong shape for what was asked of it. -/
  | shape (error : ShapeError)
  /-- A path whose node left the place the path stands for. -/
  | detachedPath (location : String)
  /-- A name was declared twice in one scope where that is not allowed. -/
  | duplicateDeclaration (name location : String)
  /-- A visitor key that names neither a type, nor a group, nor a virtual type. -/
  | unknownVisitorKey (key : String)
  /-- A path that stands for no entry of a list. -/
  | notAList (location : String)
  /-- Nodes nested too deep for a traversal. -/
  | depthLimit
  /-- An error with a text of its own. -/
  | custom (location message : String)
  /-- A pass took more steps than it was granted. -/
  | outOfSteps
  deriving DecidableEq, Inhabited

def TreeError.message : TreeError → String
  | shape e => e.message
  | detachedPath location =>
    "path at `" ++ location ++ "` has been removed or no longer matches the tree"
  | duplicateDeclaration name location =>
    "duplicate declaration \"" ++ name ++ "\" at `" ++ location ++ "`"
  | unknownVisitorKey key => "unknown visitor key `" ++ key ++ "`"
  | notAList location => "path at `" ++ location ++ "` is not inside a list container"
  | depthLimit => "traversals nested deeper than " ++ toString Limits.traversal ++ " levels"
  | custom location message => message ++ " (at `" ++ location ++ "`)"
  | outOfSteps => "the pass was granted too few steps"

end ScopedTree
