import ScopedTree.Number.Reading
import ScopedTree.Number.Text
import ScopedTree.Text.Units16

/-!
# Primitive values

The values that constant expressions can have, with their conversions and operators.

* `Primitive`                         the values;
* `Primitive.truthy`, `toNumber`, `text`, `typeName`   conversions;
* `strictEquals`, `looseEquals`       the two equalities;
* `applyBinary`, `applyUnary`         the operators by their spelling.
-/

namespace ScopedTree

/-- A primitive value. -/
inductive Primitive where
  | undefined
  | null
  | bool (value : Bool)
  | number (value : Float)
  | string (value : String)
  deriving Inhabited

namespace Primitive

/-- Whether the value counts as true. -/
def truthy : Primitive → Bool
  | undefined | null => false
  | bool b => b
  | number x => x != 0 && !x.isNaN
  | string s => !s.isEmpty

/-- The value as a number. -/
def toNumber : Primitive → Float
  | undefined => 0 / 0
  | null => 0
  | bool b => if b then 1 else 0
  | number x => x
  | string s => readNumber s

/-- The value as text. -/
def text : Primitive → String
  | undefined => "undefined"
  | null => "null"
  | bool b => if b then "true" else "false"
  | number x => numberText x
  | string s => s

/-- The name of the value's type; that of null is `object`. -/
def typeName : Primitive → String
  | undefined => "undefined"
  | null => "object"
  | bool _ => "boolean"
  | number _ => "number"
  | string _ => "string"

def isNullish : Primitive → Bool
  | undefined | null => true
  | _ => false

/-- Equality of values of one type. -/
def strictEquals : Primitive → Primitive → Bool
  | undefined, undefined | null, null => true
  | bool a, bool b => a == b
  | number x, number y => x == y
  | string s, string t => s == t
  | _, _ => false

/-- Equality with conversion: undefined equals null, and values of two types are compared as
numbers. -/
def looseEquals (a b : Primitive) : Bool :=
  if a.isNullish || b.isNullish then a.isNullish && b.isNullish
  else if a.typeName == b.typeName then strictEquals a b
  else a.toNumber == b.toNumber

/-- Whether `a` is less than `b`; unknown if one of them is no number. -/
def less? : Primitive → Primitive → Option Bool
  | string s, string t => some (unitsBefore (units16 s) (units16 t))
  | a, b =>
    let x := a.toNumber
    let y := b.toNumber
    if x.isNaN || y.isNaN then none else some (x < y)

/-- A power; that of one to an infinite exponent is no number. -/
def power (x y : Float) : Float :=
  if x.abs == 1 && y.isInf then 0 / 0 else x.pow y

def ofWord (w : BitVec 32) : Primitive := number (Float.ofInt w.toInt)

/-- How far a shift by the given amount goes: its last five bits. -/
def shiftAmount (x : Float) : Nat := (toWord x).toNat % 32

/-- Applies a binary operator, if there is one of that spelling. -/
def applyBinary (operator : String) (a b : Primitive) : Option Primitive :=
  let x := a.toNumber
  let y := b.toNumber
  match operator with
  | "+" =>
    match a, b with
    | string _, _ | _, string _ => some (string (a.text ++ b.text))
    | _, _ => some (number (x + y))
  | "-" => some (number (x - y))
  | "*" => some (number (x * y))
  | "/" => some (number (x / y))
  | "%" => some (number (remainder x y))
  | "**" => some (number (power x y))
  | "<" => some (bool ((less? a b).getD false))
  | ">" => some (bool ((less? b a).getD false))
  | "<=" => some (bool ((less? b a).any (!·)))
  | ">=" => some (bool ((less? a b).any (!·)))
  | "==" => some (bool (looseEquals a b))
  | "!=" => some (bool (!looseEquals a b))
  | "===" => some (bool (strictEquals a b))
  | "!==" => some (bool (!strictEquals a b))
  | "|" => some (ofWord (toWord x ||| toWord y))
  | "&" => some (ofWord (toWord x &&& toWord y))
  | "^" => some (ofWord (toWord x ^^^ toWord y))
  | "<<" => some (ofWord (toWord x <<< shiftAmount y))
  | ">>" => some (ofWord ((toWord x).sshiftRight (shiftAmount y)))
  | ">>>" => some (number (Float.ofNat ((toWord x) >>> shiftAmount y).toNat))
  | _ => none

/-- Applies a unary operator to the value of its argument, if there is one of that spelling. -/
def applyUnary (operator : String) (a : Primitive) : Option Primitive :=
  match operator with
  | "!" => some (bool !a.truthy)
  | "+" => some (number a.toNumber)
  | "-" => some (number (-a.toNumber))
  | "~" => some (ofWord (~~~(toWord a.toNumber)))
  | "typeof" => some (string a.typeName)
  | _ => none

end Primitive

end ScopedTree
