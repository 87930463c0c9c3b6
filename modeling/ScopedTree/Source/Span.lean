/-!
# Spans and positions

Where a node or a comment stands in the source text.

* `Position`, `Location`   lines and columns;
* `Span`                   a half-open range of bytes, with `merge` and `slice`.
-/

namespace ScopedTree

/-- A line, counted from one, and a column, counted from zero. -/
structure Position where
  line : Nat
  column : Nat
  deriving DecidableEq, Inhabited

/-- The lines and columns a node covers. -/
structure Location where
  start : Position
  stop : Position
  deriving DecidableEq, Inhabited

/-- The bytes from `start` up to but not including `stop`. -/
structure Span where
  start : Nat
  stop : Nat
  deriving DecidableEq, Inhabited

namespace Span

/-- The span of nodes that no source text stands behind. -/
def synthetic : Span := ⟨0, 0⟩

def length (s : Span) : Nat := s.stop - s.start

def isEmpty (s : Span) : Bool := s.stop ≤ s.start

/-- Whether the byte at `offset` is covered. -/
def contains (s : Span) (offset : Nat) : Bool := s.start ≤ offset && offset < s.stop

/-- The smallest span around two spans; an empty span adds nothing. -/
def merge (s t : Span) : Span :=
  if s.isEmpty then t else if t.isEmpty then s else ⟨min s.start t.start, max s.stop t.stop⟩

end Span

/-- What is left of a text after its first `n` bytes, if a character ends there. -/
def dropBytes : List Char → Nat → Option (List Char)
  | cs, 0 => some cs
  | [], _ + 1 => none
  | c :: cs, n => if c.utf8Size ≤ n then dropBytes cs (n - c.utf8Size) else none

/-- The first `n` bytes of a text, if a character ends there. -/
def takeBytes : List Char → Nat → Option (List Char)
  | _, 0 => some []
  | [], _ + 1 => none
  | c :: cs, n => if c.utf8Size ≤ n then (takeBytes cs (n - c.utf8Size)).map (c :: ·) else none

/-- The text under a span, or nothing when the span leaves the text or cuts a character. -/
def Span.slice (s : Span) (source : String) : String :=
  if s.stop < s.start then "" else
    match (dropBytes source.toList s.start).bind (takeBytes · (s.stop - s.start)) with
    | some cs => String.ofList cs
    | none => ""

end ScopedTree
