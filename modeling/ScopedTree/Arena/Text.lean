import ScopedTree.Arena.Basic
import ScopedTree.Source.DatumText

/-!
# Nodes as text

* `Arena.nodeText`     a subtree in nested parentheses, each node with the values of its fields;
* `Arena.handleTexts`  all nodes of an arena, with handles in place of children.
-/

namespace ScopedTree

/-- A text in quotes, with quotes, backslashes and line ends escaped. -/
def quoteText (s : String) : String :=
  let escape (c : Char) : String :=
    if c == '\\' then "\\\\" else if c == '"' then "\\\"" else if c == '\n' then "\\n"
    else String.singleton c
  "\"" ++ String.join (s.toList.map escape) ++ "\""

def Value.text (child : Option NodeId → String) : Value → String
  | node id => child id
  | list items => "[" ++ " ".intercalate (items.map child) ++ "]"
  | str s => quoteText s
  | num x => signedText x
  | bool b => if b then "T" else "F"
  | null => "~"

/-- A value as data, with the name of its kind and the given data for children. -/
def Value.toDatum (child : Option NodeId → Datum) : Value → Datum
  | node id => .arr [.str "node", child id]
  | list items => .arr [.str "list", .arr (items.map child)]
  | str s => .texts ["str", s]
  | num x => .texts ["num", signedText x]
  | bool b => .arr [.str "bool", .bool b]
  | null => .texts ["null"]

def Position.text (p : Position) : String := toString p.line ++ ":" ++ toString p.column

/-- What is attached to a node: where it stands, its comments and extra data; nothing if there is
nothing. -/
def Node.attachedText (n : Node) : String :=
  let comments (key : String) (cs : List Comment) := cs.map fun c => key ++ "=" ++ quoteText c.text
  let span := if n.span == .synthetic then []
    else ["span=" ++ toString n.span.start ++ "-" ++ toString n.span.stop]
  let loc := n.loc.toList.map fun l => "loc=" ++ l.start.text ++ "-" ++ l.stop.text
  let extra := if n.extra.isEmpty then [] else ["extra=" ++ (Datum.obj n.extra).text]
  let parts := span ++ loc ++ comments "leading" n.comments.leading
    ++ comments "trailing" n.comments.trailing ++ comments "inner" n.comments.inner ++ extra
  if parts.isEmpty then "" else "\x7b" ++ ",".intercalate parts ++ "\x7d"

def NodeId.short : Option NodeId → String
  | some id => "#" ++ toString id.index
  | none => "_"

namespace Arena

def nodeTextLevels (a : Arena) : Nat → Option NodeId → String
  | fuel, id =>
    match a.look id with
    | none => "_"
    | some n =>
      match fuel with
      | 0 => "^"
      | fuel + 1 =>
        "(" ++ " ".intercalate (n.type.name :: n.values.map (·.text (a.nodeTextLevels fuel))) ++ ")"
          ++ n.attachedText

/-- The deepest level that is written out. -/
def textDepth : Nat := 700

/-- A subtree. What lies too deep is left out. -/
def nodeText (a : Arena) (id : Option NodeId) : String := a.nodeTextLevels (textDepth + 1) id

/-- All nodes of an arena, each with its owner. -/
def handleTexts (a : Arena) : List String :=
  a.nodes.toList.map fun n =>
    " ".intercalate ((n.type.name ++ "^" ++ NodeId.short n.parent)
      :: n.values.map (·.text NodeId.short)) ++ n.attachedText

end Arena

end ScopedTree
