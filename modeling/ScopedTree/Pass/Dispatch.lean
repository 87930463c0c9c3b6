import ScopedTree.Pass.Visitor
import ScopedTree.Text.Parts

/-!
# Dispatch

Before a pass starts, the keys of its visitor are read. Several keys may be joined with `|`.

* `VisitKey`             a key that was read;
* `Dispatch`             the handlers with their keys read;
* `Visitor.dispatch`     reads the keys of a visitor;
* `Dispatch.entries`     the handlers for a node type.
-/

namespace ScopedTree

/-- The key of a handler. -/
inductive VisitKey where
  | ofType (key : TypeKey)
  | ofCheck (check : VirtualType)
  deriving DecidableEq, Inhabited

namespace VisitKey

/-- Reads one key; a virtual type wins over a type, and that over a group. -/
def ofName? (name : String) : Option VisitKey :=
  (VirtualType.ofName? name).map ofCheck <|> (TypeKey.ofName? name).map ofType

/-- Whether nodes of a type can match the key. -/
def covers : VisitKey → NodeType → Bool
  | ofType key, ty => key.covers ty
  | ofCheck check, ty => check.mayCover ty

/-- The check that a node of a matching type has to pass besides. -/
def check? : VisitKey → Option VirtualType
  | ofType _ => none
  | ofCheck check => some check

def passes (key : VisitKey) (t : Tree) (p : PathId) : Bool := key.check?.all (·.matches t p)

end VisitKey

/-- A handler under one key. -/
structure DispatchEntry (σ : Type) where
  key : VisitKey
  phase : Phase
  run : Handler σ

/-- A visitor with its keys read. -/
structure Dispatch (σ : Type) where
  /-- The handlers that run on every node. -/
  general : List (Phase × Handler σ) := []
  typed : List (DispatchEntry σ) := []
  denied : List NodeType := []

variable {σ : Type}

/-- Reads the keys of an entry. -/
def VisitorEntry.dispatch (e : VisitorEntry σ) (key : String) :
    Except TreeError (List (DispatchEntry σ)) :=
  (parts '|' key).mapM fun part =>
    let part := trimBlank part
    match VisitKey.ofName? part with
    | some key => .ok ⟨key, e.phase, e.run⟩
    | none => .error (.unknownVisitorKey part)

/-- Adds an entry to the handlers whose keys were read. -/
def Dispatch.push (d : Dispatch σ) (e : VisitorEntry σ) : Except TreeError (Dispatch σ) :=
  match e.key with
  | none => .ok { d with general := d.general ++ [(e.phase, e.run)] }
  | some key => do return { d with typed := d.typed ++ (← e.dispatch key) }

/-- Reads the keys of a visitor; the first unknown one is an error. -/
def Visitor.dispatch (v : Visitor σ) : Except TreeError (Dispatch σ) :=
  v.entries.foldlM Dispatch.push { denied := v.denied }

namespace Dispatch

def generalHandlers (d : Dispatch σ) (phase : Phase) : List (Handler σ) :=
  (d.general.filter (·.1 == phase)).map (·.2)

/-- The handlers for nodes of a type in a phase, in order of registration. -/
def entries (d : Dispatch σ) (ty : NodeType) (phase : Phase) : List (DispatchEntry σ) :=
  d.typed.filter fun e => e.phase == phase && e.key.covers ty

def isDenied (d : Dispatch σ) (ty : NodeType) : Bool := d.denied.contains ty

def handles (d : Dispatch σ) (ty : NodeType) : Bool := d.typed.any (·.key.covers ty)

/-- Whether a pass has to visit a node: it has a handler or children. -/
def shouldVisit (d : Dispatch σ) (a : Arena) (id : NodeId) : Bool :=
  match a.get? id with
  | none => false
  | some n => !d.general.isEmpty || d.handles n.type || !n.children.isEmpty

end Dispatch

end ScopedTree
