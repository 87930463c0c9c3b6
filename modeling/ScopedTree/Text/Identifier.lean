import ScopedTree.Text.Ranges
import ScopedTree.Text.Uppercase

/-!
# Identifier names

* `isReservedWord`   the words that no variable may be called;
* `isIdentifier`     the names a variable may have;
* `toIdentifier`     makes a name out of any text;
* `isHostTag`        tells the tags of host elements from those that refer to a variable.
-/

namespace ScopedTree

def reservedWords : List String :=
  ["break", "case", "catch", "class", "const", "continue", "debugger", "default", "delete", "do",
   "else", "enum", "export", "extends", "false", "finally", "for", "function", "if", "import",
   "in", "instanceof", "new", "null", "return", "super", "switch", "this", "throw", "true", "try",
   "typeof", "var", "void", "while", "with", "yield", "await", "implements", "interface", "let",
   "package", "private", "protected", "public", "static", "arguments", "eval"]

/-- Whether a text is a reserved word. -/
def isReservedWord (text : String) : Bool := reservedWords.contains text

def isIdentifierStart (c : Char) : Bool := c == '$' || c == '_' || isAlphabetic c

def isIdentifierPart (c : Char) : Bool := c == '$' || c == '_' || isAlphanumeric c

/-- Whether the characters spell an identifier, reserved words included. -/
def spellsIdentifier : List Char → Bool
  | [] => false
  | c :: cs => isIdentifierStart c && cs.all isIdentifierPart

/-- Whether a text is an identifier and no reserved word. -/
def isIdentifier (text : String) : Bool :=
  spellsIdentifier text.toList && !isReservedWord text

/-- The camel-cased words of a text. What cannot stand in an identifier ends a word, and digits
before the first other character are left out. `out` is what is written so far and `upper` says
that a new word starts. -/
def camelCase (out : List Char) (upper : Bool) : List Char → List Char
  | [] => out
  | c :: cs =>
    if !isIdentifierPart c then camelCase out true cs
    else if out.isEmpty && c.isDigit then camelCase out upper cs
    else if upper && !out.isEmpty then camelCase (out ++ uppercase c) false cs
    else camelCase (out ++ [c]) false cs

/-- An identifier made out of any text; what is still no identifier gets a leading `_`. -/
def toIdentifier (text : String) : String :=
  let words := String.ofList (camelCase [] false text.toList)
  if isIdentifier words then words else "_" ++ words

/-- Whether a tag names a host element: it starts with a small letter or holds a hyphen. -/
def isHostTag (tag : String) : Bool :=
  tag.toList.head?.any Char.isLower || tag.toList.contains '-'

end ScopedTree
