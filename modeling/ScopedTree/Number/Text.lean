import ScopedTree.Number.Shortest

/-!
# Numbers as text

A number is written with the shortest digits that read back: positionally where the point stands
close enough, else with an exponent.

* `Decimal.positional`, `Decimal.scientific`   the two notations;
* `numberText`                                 the text of any number.
-/

namespace ScopedTree

def Decimal.digitChars (d : Decimal) : List Char :=
  ((toString d.digits).toList.reverse.dropWhile (· == '0')).reverse

/-- The decimal with its point at its place. -/
def Decimal.positional (d : Decimal) : String :=
  let ds := d.digitChars
  if d.point ≤ 0 then
    String.ofList ('0' :: '.' :: (List.replicate (-d.point).toNat '0' ++ ds))
  else
    let n := d.point.toNat
    if ds.length ≤ n then String.ofList (ds ++ List.replicate (n - ds.length) '0')
    else String.ofList (ds.take n ++ '.' :: ds.drop n)

/-- The decimal with one digit before the point and a signed exponent. -/
def Decimal.scientific (d : Decimal) : String :=
  let ds := d.digitChars
  let mantissa := if ds.length ≤ 1 then ds else ds.take 1 ++ '.' :: ds.drop 1
  let exponent := d.point - 1
  String.ofList mantissa ++ (if exponent < 0 then "e-" else "e+") ++ toString exponent.natAbs

/-- Positional from a millionth up to but not including `10 ^ 21`, else with an exponent. -/
def Decimal.text (d : Decimal) : String :=
  if -5 ≤ d.point ∧ d.point ≤ 21 then d.positional else d.scientific

/-- The text of a number; both zeros are `0`. -/
def numberText (x : Float) : String :=
  match Binary.ofFloat? x with
  | none => if x.isNaN then "NaN" else if x < 0 then "-Infinity" else "Infinity"
  | some b =>
    if b.mantissa = 0 then "0"
    else (if b.negative then "-" else "") ++ (shortest b).text

end ScopedTree
