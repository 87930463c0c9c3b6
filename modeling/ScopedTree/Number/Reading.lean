import ScopedTree.Number.Binary
import ScopedTree.Text.Ranges

/-!
# Reading numbers

* `decimalValue`    the number nearest to `m · 10 ^ e`;
* `readDecimal?`    reads a decimal literal with optional sign, point and exponent;
* `readNumber`      reads the numeric strings: also infinities and binary, octal and hexadecimal
                    whole numbers, with blanks around.
-/

namespace ScopedTree

def digitsValue (digits : List Char) : Nat :=
  digits.foldl (fun n c => 10 * n + (c.toNat - '0'.toNat)) 0

/-- The number nearest to `± digits · 10 ^ exponent`, where an exponent far out of range is cut off
before powers are taken. -/
def decimalValue (negative : Bool) (digits : Nat) (exponent : Int) : Float :=
  if digits = 0 then roundRatio negative 0 1
  else
    let size : Int := (digits.log2 : Int) * 30103 / 100000 + exponent
    if size > 310 then roundRatio negative (1 <<< 1100) 1
    else if size < -330 then roundRatio negative 0 1
    else if exponent < 0 then roundRatio negative digits (Nat.pow 10 (-exponent).toNat)
    else roundRatio negative (digits * Nat.pow 10 exponent.toNat) 1

def splitSign : List Char → Bool × List Char
  | '+' :: cs => (false, cs)
  | '-' :: cs => (true, cs)
  | cs => (false, cs)

/-- Reads what follows the digits of a literal: nothing, or `e` with a signed whole number. -/
def readExponent? : List Char → Option Int
  | [] => some 0
  | c :: cs =>
    if c == 'e' || c == 'E' then
      let (negative, ds) := splitSign cs
      if ds.isEmpty || !ds.all Char.isDigit then none
      else some (if negative then -(digitsValue ds : Int) else digitsValue ds)
    else none

/-- Reads a decimal literal. -/
def readDecimal? (text : List Char) : Option Float :=
  let (negative, cs) := splitSign text
  let whole := cs.takeWhile Char.isDigit
  let rest := cs.dropWhile Char.isDigit
  let (fraction, rest) := match rest with
    | '.' :: rest => (rest.takeWhile Char.isDigit, rest.dropWhile Char.isDigit)
    | rest => ([], rest)
  if whole.isEmpty && fraction.isEmpty then none
  else (readExponent? rest).map fun e =>
    decimalValue negative (digitsValue (whole ++ fraction)) (e - fraction.length)

def radixDigit? (radix : Nat) (c : Char) : Option Nat :=
  let value? :=
    if c.isDigit then some (c.toNat - '0'.toNat)
    else if 'a' ≤ c && c ≤ 'z' then some (c.toNat - 'a'.toNat + 10)
    else if 'A' ≤ c && c ≤ 'Z' then some (c.toNat - 'A'.toNat + 10)
    else none
  value?.filter (· < radix)

def radixValue? (radix : Nat) (digits : List Char) : Option Nat :=
  digits.foldlM (fun n c => (radixDigit? radix c).map (radix * n + ·)) 0

/-- Reads a whole number below `2 ^ 64` in the given radix; a plus sign may stand before it. -/
def readRadix? (radix : Nat) (text : List Char) : Option Float :=
  let digits := match text with
    | '+' :: rest => if rest.isEmpty then text else rest
    | _ => text
  if digits.isEmpty then none
  else ((radixValue? radix digits).filter (· < UInt64.size)).map roundNat

/-- Reads a numeric string; the empty string is zero and any other text is no number. -/
def readNumber (text : String) : Float :=
  let nan : Float := 0 / 0
  match (trimBlank text).toList with
  | [] => 0
  | '0' :: 'x' :: digits | '0' :: 'X' :: digits => (readRadix? 16 digits).getD nan
  | '0' :: 'o' :: digits | '0' :: 'O' :: digits => (readRadix? 8 digits).getD nan
  | '0' :: 'b' :: digits | '0' :: 'B' :: digits => (readRadix? 2 digits).getD nan
  | cs =>
    if cs == "Infinity".toList || cs == "+Infinity".toList then 1 / 0
    else if cs == "-Infinity".toList then -1 / 0
    else (readDecimal? cs).getD nan

end ScopedTree
