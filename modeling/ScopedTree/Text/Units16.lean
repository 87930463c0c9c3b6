/-!
# Text in sixteen-bit units

Lengths and order of texts are those of their UTF-16 form: a character beyond `U+FFFF` counts twice
and sorts before some characters below.

* `units16`      the units of a text;
* `unitsBefore`  lexicographic order of units.
-/

namespace ScopedTree

def charUnits (c : Char) : List Nat :=
  let code := c.toNat
  if code < 0x10000 then [code]
  else [0xd800 + (code - 0x10000) / 0x400, 0xdc00 + (code - 0x10000) % 0x400]

/-- The units of a text. -/
def units16 (text : String) : List Nat := text.toList.flatMap charUnits

/-- Whether the first of two lists of units comes before the second. -/
def unitsBefore : List Nat → List Nat → Bool
  | _, [] => false
  | [], _ :: _ => true
  | x :: xs, y :: ys => x < y || (x == y && unitsBefore xs ys)

end ScopedTree
