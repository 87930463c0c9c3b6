import ScopedTree.Number.Reading
import ScopedTree.Number.Text
import ScopedTree.Source.Datum

/-!
# Structured data as text

* `signedText`        the text of a floating-point number, which keeps the sign of zero;
* `Datum.text`        the canonical text: names sorted, no blanks, floating-point numbers in quotes;
* `Datum.ofText?`     reads data with blanks between its parts;
* `Datum.asNumber`    a floating-point number, in quotes or not.
-/

namespace ScopedTree

/-- The text of a number that tells the two zeros apart. -/
def signedText (x : Float) : String := if x == 0 && 1 / x < 0 then "-0" else numberText x

namespace Datum

def escapeChar (c : Char) : String :=
  if c == '"' then "\\\""
  else if c == '\\' then "\\\\"
  else if c == '\n' then "\\n"
  else if c == '\r' then "\\r"
  else if c == '\t' then "\\t"
  else if c == '\x08' then "\\b"
  else if c == '\x0c' then "\\f"
  else if c.toNat < 32 then
    "\\u00" ++ (if c.toNat < 16 then "0" else "") ++ String.ofList (Nat.toDigits 16 c.toNat)
  else String.singleton c

def quoted (s : String) : String := "\"" ++ String.join (s.toList.map escapeChar) ++ "\""

mutual

/-- The canonical text. Floating-point numbers stand in quotes, so that all can be written. -/
def text : Datum → String
  | .null => "null"
  | .bool b => if b then "true" else "false"
  | .int i => toString i
  | .float x => quoted (signedText x)
  | .str s => quoted s
  | .arr items => "[" ++ ",".intercalate (itemTexts items) ++ "]"
  | .obj entries =>
    let sorted := (entryTexts entries).mergeSort fun a b => decide (a.1 ≤ b.1)
    "\x7b" ++ ",".intercalate (sorted.map fun e => quoted e.1 ++ ":" ++ e.2) ++ "\x7d"

def itemTexts : List Datum → List String
  | [] => []
  | d :: ds => text d :: itemTexts ds

def entryTexts : List (String × Datum) → List (String × String)
  | [] => []
  | (key, d) :: entries => (key, text d) :: entryTexts entries

end

def skipBlanks (cs : List Char) : List Char :=
  cs.dropWhile fun c => c == ' ' || c == '\t' || c == '\n' || c == '\r'

def hexDigit (c : Char) : Nat := (radixDigit? 16 c).getD 0

def hexUnit (a b c d : Char) : Nat :=
  16 * (16 * (16 * hexDigit a + hexDigit b) + hexDigit c) + hexDigit d

/-- The character of a unit, or of two units that only together stand for one. -/
def pairUnits (high low : Nat) : Char :=
  Char.ofNat (0x10000 + (high - 0xd800) * 0x400 + (low - 0xdc00))

/-- What a character after a backslash stands for. -/
def unescape (c : Char) : Char :=
  match c with
  | 'n' => '\n'
  | 't' => '\t'
  | 'r' => '\r'
  | 'b' => '\x08'
  | 'f' => '\x0c'
  | c => c

/-- Reads up to the closing quote. `out` holds what was read before, the latest first. -/
def readQuoted (out : List Char) : List Char → Option (String × List Char)
  | [] => none
  | '"' :: cs => some (String.ofList out.reverse, cs)
  | '\\' :: 'u' :: a :: b :: c :: d :: '\\' :: 'u' :: e :: f :: g :: h :: cs =>
    let unit := hexUnit a b c d
    let next := hexUnit e f g h
    if 0xd800 ≤ unit && unit < 0xdc00 then readQuoted (pairUnits unit next :: out) cs
    else readQuoted (Char.ofNat next :: Char.ofNat unit :: out) cs
  | '\\' :: 'u' :: a :: b :: c :: d :: cs => readQuoted (Char.ofNat (hexUnit a b c d) :: out) cs
  | '\\' :: c :: cs => readQuoted (unescape c :: out) cs
  | c :: cs => readQuoted (c :: out) cs

/-- Reads a number. One without point and exponent is a whole number if it fits into 64 bits; minus
zero is not. -/
def readNumeral? (cs : List Char) : Option Datum :=
  let whole := match cs with
    | '-' :: ds => -(digitsValue ds : Int)
    | ds => digitsValue ds
  let digits := cs.all fun c => c.isDigit || c == '-'
  let fits := Int64.minValue.toInt ≤ whole && whole < UInt64.size
  if digits && cs != ['-', '0'] && fits then some (.int whole)
  else (readDecimal? cs).map .float

/-- Whether a character can be part of a number. -/
def isNumeral (c : Char) : Bool := c.isDigit || ['-', '+', '.', 'e', 'E'].contains c

mutual

/-- Reads one value; the rest of the text is left. Each part takes one of `fuel`. -/
def readDatum : Nat → List Char → Option (Datum × List Char)
  | 0, _ => none
  | fuel + 1, cs =>
    match skipBlanks cs with
    | '"' :: cs => (readQuoted [] cs).map fun (s, cs) => (.str s, cs)
    | '[' :: cs => readItems fuel [] cs
    | '\x7b' :: cs => readEntries fuel [] cs
    | 't' :: 'r' :: 'u' :: 'e' :: cs => some (.bool true, cs)
    | 'f' :: 'a' :: 'l' :: 's' :: 'e' :: cs => some (.bool false, cs)
    | 'n' :: 'u' :: 'l' :: 'l' :: cs => some (.null, cs)
    | cs => (readNumeral? (cs.takeWhile isNumeral)).map (·, cs.dropWhile isNumeral)

def readItems : Nat → List Datum → List Char → Option (Datum × List Char)
  | 0, _, _ => none
  | fuel + 1, out, cs =>
    match skipBlanks cs with
    | ']' :: cs => some (.arr out.reverse, cs)
    | ',' :: cs => readItems fuel out cs
    | cs => do
      let (d, cs) ← readDatum fuel cs
      readItems fuel (d :: out) cs

/-- Reads the rest of a table; of several entries of one name the last counts. -/
def readEntries : Nat → Table Datum → List Char → Option (Datum × List Char)
  | 0, _, _ => none
  | fuel + 1, out, cs =>
    match skipBlanks cs with
    | '\x7d' :: cs => some (.obj out, cs)
    | ',' :: cs => readEntries fuel out cs
    | '"' :: cs => do
      let (key, cs) ← readQuoted [] cs
      let (d, cs) ← readDatum fuel ((skipBlanks cs).drop 1)
      readEntries fuel (out.put key d) cs
    | _ => none

end

/-- Reads the value that a text starts with. -/
def ofText? (text : String) : Option Datum :=
  (readDatum (2 * text.length + 2) text.toList).map (·.1)

/-- A floating-point number. Whole numbers count as such, and so does a text that spells one. -/
def asNumber : Datum → Float
  | .int i => if i < 0 then -(roundNat i.natAbs) else roundNat i.natAbs
  | .float x => x
  | .str s => readNumber s
  | _ => 0

end Datum

end ScopedTree
