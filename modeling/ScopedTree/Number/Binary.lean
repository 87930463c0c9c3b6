/-!
# Binary floating-point numbers taken apart

A finite number is an integer times a power of two. Working on that pair is exact, so truncation,
remainder and rounding are stated on whole numbers.

* `Binary`             a finite number as sign, mantissa and exponent;
* `Binary.ofFloat?`    takes a number apart;
* `Binary.toFloat`     puts it together again;
* `roundRatio`         the number nearest to a quotient, ties to even;
* `truncate`, `remainder`, `toWord`   exact arithmetic on numbers.
-/

namespace ScopedTree

/-- The finite number `± mantissa · 2 ^ exponent`. -/
structure Binary where
  negative : Bool
  mantissa : Nat
  exponent : Int
  deriving DecidableEq, Inhabited

namespace Binary

def minExponent : Int := -1074

def leadingBit : Nat := 1 <<< 52

/-- Takes a finite number apart; the mantissa has 53 bits unless the exponent is the least. -/
def ofFloat? (x : Float) : Option Binary :=
  let bits := x.toBits.toNat
  let negative := (bits >>> 63) = 1
  let biased : Nat := (bits >>> 52) % 2048
  let fraction : Nat := bits % leadingBit
  if biased = 2047 then none
  else if biased = 0 then some ⟨negative, fraction, minExponent⟩
  else some ⟨negative, leadingBit + fraction, (biased : Int) - 1075⟩

/-- The number of a mantissa below `2 ^ 53 + 1` with its least exponent or of 53 bits; infinite if
the exponent is too large. -/
def toFloat (b : Binary) : Float :=
  let subnormal := b.mantissa < leadingBit
  let biased : Nat := if subnormal then 0 else (b.exponent + 1075).toNat
  let magnitude := (biased <<< 52) + (if subnormal then b.mantissa else b.mantissa - leadingBit)
  let bits := min magnitude (2047 <<< 52)
  Float.ofBits (UInt64.ofNat (if b.negative then (1 <<< 63) + bits else bits))

def wholePart (b : Binary) : Int :=
  let n : Nat := if b.exponent < 0 then b.mantissa >>> (-b.exponent).toNat
    else b.mantissa <<< b.exponent.toNat
  if b.negative then -n else n

end Binary

/-- `num / den · 2 ^ (-exponent)` as numerator and denominator. -/
def scaleDown (num den : Nat) (exponent : Int) : Nat × Nat :=
  if exponent < 0 then (num <<< (-exponent).toNat, den) else (num, den <<< exponent.toNat)

def roundHalfEven (num den : Nat) : Nat :=
  let q := num / den
  let twice := 2 * (num % den)
  if twice < den || (twice = den && q % 2 = 0) then q else q + 1

/-- The number nearest to `num / den`, ties to even. -/
def roundRatio (negative : Bool) (num den : Nat) : Float :=
  if num = 0 then Binary.toFloat ⟨negative, 0, Binary.minExponent⟩
  else
    let guess : Int := (num.log2 : Int) - den.log2 - 52
    let (n, d) := scaleDown num den guess
    let exponent := max (if n < d <<< 52 then guess - 1 else guess) Binary.minExponent
    let (n, d) := scaleDown num den exponent
    Binary.toFloat ⟨negative, roundHalfEven n d, exponent⟩

/-- The number nearest to a whole number. -/
def roundNat (n : Nat) : Float := roundRatio false n 1

/-- A number without its fraction, if it is finite. -/
def truncate (x : Float) : Option Int :=
  (Binary.ofFloat? x).map Binary.wholePart

/-- A number modulo `2 ^ 32`, without its fraction; zero if it is not finite. -/
def toWord (x : Float) : BitVec 32 :=
  match truncate x with
  | some n => BitVec.ofInt 32 n
  | none => 0

/-- The remainder of a division that rounds toward zero; it has the sign of `x`. -/
def remainder (x y : Float) : Float :=
  match Binary.ofFloat? x, Binary.ofFloat? y with
  | some a, some b =>
    if b.mantissa = 0 then 0 / 0
    else
      let e := min a.exponent b.exponent
      let m := a.mantissa <<< (a.exponent - e).toNat
      let n := b.mantissa <<< (b.exponent - e).toNat
      if e < 0 then roundRatio a.negative (m % n) (1 <<< (-e).toNat)
      else roundRatio a.negative ((m % n) <<< e.toNat) 1
  | some _, none => if y.isNaN then 0 / 0 else x
  | none, _ => 0 / 0

end ScopedTree
