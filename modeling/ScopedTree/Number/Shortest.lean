import ScopedTree.Number.Binary

/-!
# Shortest decimals

The decimal with the fewest digits that rounds to a given number, and of those the nearest; of two
that are equally near the larger.

* `Decimal`           digits and the place of the point;
* `Interval`          the reals that round to a number;
* `shortest`          the shortest decimal of a positive number.
-/

namespace ScopedTree

/-- The number `0.d₁d₂… · 10 ^ point`, where `d₁d₂…` are the decimal digits of `digits`. -/
structure Decimal where
  digits : Nat
  point : Int
  deriving DecidableEq, Inhabited

/-- A positive number with the ends of the interval of reals that round to it, all over one
denominator. The ends belong to it if `closed`. -/
structure Interval where
  low : Nat
  value : Nat
  high : Nat
  den : Nat
  closed : Bool
  deriving DecidableEq, Inhabited

namespace Interval

/-- The reals that round to a positive number. Below a power of two they are half as far off. -/
def ofBinary (b : Binary) : Interval :=
  let m := 4 * b.mantissa
  let below := if b.mantissa = Binary.leadingBit ∧ b.exponent ≠ Binary.minExponent then 1 else 2
  let scale := if b.exponent < 0 then 1 else 1 <<< b.exponent.toNat
  let den := if b.exponent < 0 then 4 <<< (-b.exponent).toNat else 4
  ⟨(m - below) * scale, m * scale, (m + 2) * scale, den, b.mantissa % 2 = 0⟩

/-- Whether `num / den` lies in the interval. -/
def holds (i : Interval) (num den : Nat) : Bool :=
  if i.closed then i.low * den ≤ num * i.den && num * i.den ≤ i.high * den
  else i.low * den < num * i.den && num * i.den < i.high * den

/-- The multiple of `10 ^ step` in the interval that is nearest to the value, as a factor. -/
def onGrid (i : Interval) (step : Int) : Option Nat :=
  let up := if step < 0 then 1 else Nat.pow 10 step.toNat
  let down := if step < 0 then Nat.pow 10 (-step).toNat else 1
  let q := i.value * down / (i.den * up)
  let rest := i.value * down % (i.den * up)
  let lower := i.holds (q * up) down
  let upper := i.holds ((q + 1) * up) down
  if lower && (!upper || 2 * rest < i.den * up) then some q
  else if upper then some (q + 1)
  else none

end Interval

/-- The least `p` with `num / den < 10 ^ p`, found by stepping from a first guess. -/
def decimalPoint (num den : Nat) : Int :=
  let guess : Int := (((num.log2 : Int) - den.log2) * 30103 / 100000)
  let below (p : Int) : Bool :=
    if p < 0 then num * Nat.pow 10 (-p).toNat < den else num < den * Nat.pow 10 p.toNat
  if below (guess - 1) then guess - 1
  else if below guess then guess
  else if below (guess + 1) then guess + 1
  else guess + 2

/-- Tries grids of one digit more each time. -/
def shortestFrom (i : Interval) (point : Int) : Nat → Nat → Decimal
  | 0, _ => ⟨0, 0⟩
  | fuel + 1, count =>
    match i.onGrid (point - count) with
    | some n => ⟨n, if n = Nat.pow 10 count then point + 1 else point⟩
    | none => shortestFrom i point fuel (count + 1)

/-- The shortest decimal that rounds to a positive number; its digits may end in zeros. -/
def shortest (b : Binary) : Decimal :=
  let i := Interval.ofBinary b
  shortestFrom i (decimalPoint i.value i.den) 17 1

end ScopedTree
