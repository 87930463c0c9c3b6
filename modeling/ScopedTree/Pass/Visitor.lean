import ScopedTree.Path.Virtual

/-!
# Visitors

A visitor is a list of handlers, each with the key of the nodes it runs on and the phase it runs in.

* `Pass`, `PassM`    a tree together with the state of the visitor, and operations on both;
* `Handler`          what runs on a node;
* `Visitor`          the list of entries and the types left out, with `merge` and `mapState`;
* `Visitor.text`     shows a visitor without its handlers.
-/

namespace ScopedTree

/-- A tree in a pass whose visitor has a state of its own. -/
structure Pass (σ : Type) where
  tree : Tree
  own : σ

/-- Operations in a pass, which keep what they did also when they fail. -/
abbrev PassM (σ : Type) := EStateM TreeError (Pass σ)

namespace PassM

variable {σ τ α : Type}

def onTree (x : TreeM α) : PassM σ α := fun ⟨tree, own⟩ =>
  match x tree with
  | .ok a tree => .ok a ⟨tree, own⟩
  | .error e tree => .error e ⟨tree, own⟩

def ask (f : Tree → α) : PassM σ α := fun s => .ok (f s.tree) s

def note (f : σ → σ) : PassM σ Unit := modify fun s => { s with own := f s.own }

/-- Runs an operation and hands its failure on as a value. -/
def attempt (x : PassM σ α) : PassM σ (Except TreeError α) := fun s =>
  match x s with
  | .ok a s => .ok (.ok a) s
  | .error e s => .ok (.error e) s

def resume : Except TreeError α → PassM σ α
  | .ok a => pure a
  | .error e => throw e

/-- Runs an operation whose visitor state is a part of a larger one. -/
def within (part : τ → σ) (put : τ → σ → τ) (x : PassM σ α) : PassM τ α := fun ⟨tree, own⟩ =>
  match x ⟨tree, part own⟩ with
  | .ok a s => .ok a ⟨s.tree, put own s.own⟩
  | .error e s => .error e ⟨s.tree, put own s.own⟩

end PassM

/-- Runs a pass on a tree and gives the final state of its visitor with the result. -/
def TreeM.runPass {σ α : Type} (own : σ) (x : PassM σ α) : TreeM (α × σ) := fun tree =>
  match x ⟨tree, own⟩ with
  | .ok a s => .ok (a, s.own) s.tree
  | .error e s => .error e s.tree

/-- When a handler runs: before or after the children of the node. -/
inductive Phase where
  | enter | exit
  deriving DecidableEq, Inhabited

def Phase.name : Phase → String
  | enter => "Enter"
  | exit => "Exit"

/-- What runs on a path. -/
abbrev Handler (σ : Type) := PathId → PassM σ Unit

/-- A handler with its key and phase; without a key it runs on every node. -/
structure VisitorEntry (σ : Type) where
  key : Option String
  phase : Phase
  run : Handler σ

/-- Handlers in order, and the node types that are left out with all below them. -/
structure Visitor (σ : Type) where
  entries : List (VisitorEntry σ) := []
  denied : List NodeType := []

namespace Visitor

variable {σ τ : Type}

def add (v : Visitor σ) (key : Option String) (phase : Phase) (run : Handler σ) : Visitor σ :=
  { v with entries := v.entries ++ [⟨key, phase, run⟩] }

/-- Adds a handler that runs before the children of the nodes of a key. -/
def enter (v : Visitor σ) (key : String) (run : Handler σ) : Visitor σ :=
  v.add (some key) .enter run

/-- Adds a handler that runs after the children of the nodes of a key. -/
def exit (v : Visitor σ) (key : String) (run : Handler σ) : Visitor σ := v.add (some key) .exit run

def addTypes (types more : List NodeType) : List NodeType :=
  more.foldl (fun types ty => if types.contains ty then types else types ++ [ty]) types

def deny (v : Visitor σ) (ty : NodeType) : Visitor σ := { v with denied := addTypes v.denied [ty] }

/-- The handlers of `v` followed by those of `w`; what either leaves out is left out. -/
def merge (v w : Visitor σ) : Visitor σ :=
  { entries := v.entries ++ w.entries, denied := addTypes v.denied w.denied }

/-- The visitor on a larger state that has its own as a part. -/
def mapState (v : Visitor σ) (part : τ → σ) (put : τ → σ → τ) : Visitor τ :=
  { entries := v.entries.map fun e => ⟨e.key, e.phase, fun p => (e.run p).within part put⟩
    denied := v.denied }

/-- A text in double quotes, with quotes, backslashes and control characters escaped. -/
def quote (text : String) : String :=
  let escape (c : Char) : String :=
    if c == '"' then "\\\""
    else if c == '\\' then "\\\\"
    else if c == '\n' then "\\n"
    else if c == '\r' then "\\r"
    else if c == '\t' then "\\t"
    else if c == '\x00' then "\\0"
    else if c.toNat < 32 || c.toNat == 127 then
      "\\u\x7b" ++ String.ofList (Nat.toDigits 16 c.toNat) ++ "\x7d"
    else String.singleton c
  "\"" ++ String.join (text.toList.map escape) ++ "\""

/-- Shows the keys, phases and types left out; an entry without a key shows as `*`. -/
def text (v : Visitor σ) : String :=
  let entries := v.entries.map fun e =>
    "(" ++ quote (e.key.getD "*") ++ ", " ++ e.phase.name ++ ")"
  "Visitor \x7b entries: [" ++ ", ".intercalate entries
    ++ "], options: TraverseOptions \x7b denylist: [" ++ ", ".intercalate (v.denied.map (·.name))
    ++ "] \x7d \x7d"

end Visitor

end ScopedTree
