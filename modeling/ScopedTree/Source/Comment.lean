import ScopedTree.Source.Datum
import ScopedTree.Source.Span

/-!
# Comments

Comments are attached to nodes in three lists; they are no part of a node's fields.

* `Comment`        a block or line comment; `Comment.text` writes it, `Comment.ofText` reads it;
* `NodeComments`   the leading, trailing and inner comments of a node.
-/

namespace ScopedTree

inductive CommentKind where
  | block | line
  deriving DecidableEq, Inhabited

/-- A comment without its delimiters. -/
structure Comment where
  kind : CommentKind
  value : String
  span : Span := .synthetic
  loc : Option Location := none
  deriving DecidableEq, Inhabited

/-- A comment with its delimiters. -/
def Comment.text (c : Comment) : String :=
  match c.kind with
  | .block => "/*" ++ c.value ++ "*/"
  | .line => "//" ++ c.value

/-- Reads a comment with its delimiters; text without delimiters is the value of a block comment. -/
def Comment.ofText (text : String) : Comment :=
  match text.toList with
  | '/' :: '/' :: cs => { kind := .line, value := String.ofList cs }
  | '/' :: '*' :: cs => { kind := .block, value := String.ofList (cs.take (cs.length - 2)) }
  | _ => { kind := .block, value := text }

def Position.toDatum (p : Position) : Datum :=
  .obj [("line", .int p.line), ("column", .int p.column)]

def Comment.toDatum (c : Comment) : Datum :=
  .obj [("kind", .str (if c.kind == .block then "Block" else "Line")), ("value", .str c.value),
    ("span", .obj [("start", .int c.span.start), ("end", .int c.span.stop)]),
    ("loc", .ofOption (fun l =>
      .obj [("start", l.start.toDatum), ("end", l.stop.toDatum)]) c.loc)]

/-- Which list of a node a comment belongs to. -/
inductive CommentPlace where
  | leading | trailing | inner
  deriving DecidableEq, Inhabited

/-- The comments of one node. -/
structure NodeComments where
  leading : List Comment := []
  trailing : List Comment := []
  inner : List Comment := []
  deriving DecidableEq, Inhabited

namespace NodeComments

/-- The lists that are not empty, as data. -/
def toDatum (c : NodeComments) : Datum :=
  let entry (key : String) (cs : List Comment) :=
    if cs.isEmpty then [] else [(key, Datum.arr (cs.map (·.toDatum)))]
  .obj (entry "leading" c.leading ++ entry "trailing" c.trailing ++ entry "inner" c.inner)

def isEmpty (c : NodeComments) : Bool :=
  c.leading.isEmpty && c.trailing.isEmpty && c.inner.isEmpty

/-- The comments of `c` followed by those of `d`, list by list. -/
def absorb (c d : NodeComments) : NodeComments :=
  ⟨c.leading ++ d.leading, c.trailing ++ d.trailing, c.inner ++ d.inner⟩

/-- One comment more at the end of a list. -/
def push (c : NodeComments) (place : CommentPlace) (comment : Comment) : NodeComments :=
  match place with
  | .leading => { c with leading := c.leading ++ [comment] }
  | .trailing => { c with trailing := c.trailing ++ [comment] }
  | .inner => { c with inner := c.inner ++ [comment] }

theorem isEmpty_iff (c : NodeComments) : c.isEmpty ↔ c = {} := by
  cases c
  simp [isEmpty, and_assoc]

@[simp] theorem absorb_empty (c : NodeComments) : c.absorb {} = c := by simp [absorb]

@[simp] theorem empty_absorb (c : NodeComments) : absorb {} c = c := by simp [absorb]

end NodeComments

end ScopedTree
