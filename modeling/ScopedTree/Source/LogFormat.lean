import ScopedTree.Text.Ranges

/-!
# Log formats

The three ways in which a log can be laid out, and how their names are read.
-/

namespace ScopedTree

inductive LogFormat where
  /-- One line for each event. -/
  | text
  /-- Events indented by nesting. -/
  | tree
  /-- One object for each event. -/
  | json
  deriving DecidableEq, Inhabited

/-- Reads a format without regard to case and blanks around; what is unknown is text. -/
def LogFormat.ofName (name : String) : LogFormat :=
  match String.ofList ((trimBlank name).toList.map Char.toLower) with
  | "tree" => tree
  | "json" => json
  | _ => text

end ScopedTree
