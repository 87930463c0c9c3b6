/-!
# Limits

Bounds on nesting and on walks along links.
-/

namespace ScopedTree.Limits

/-- The most parent links followed on a chain of scopes or paths. -/
def chain : Nat := 10000

/-- The deepest nesting of nodes that a traversal enters, nested passes included. -/
def traversal : Nat := 512

def generatedNames : Nat := 1000000

def evaluation : Nat := 256

/-- The deepest nesting of inference, resolution and guesses on execution order. -/
def inference : Nat := 64

end ScopedTree.Limits
