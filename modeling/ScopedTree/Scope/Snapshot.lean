import ScopedTree.Scope.Lookup

/-!
# Snapshots of scopes

A snapshot shows a scope and those inside it without handles, so that two trees can be compared.
-/

namespace ScopedTree

/-- What a snapshot shows of a binding. -/
structure BindingSnapshot where
  name : String
  kind : BindingKind
  constant : Bool
  references : Nat
  violations : Nat
  deriving DecidableEq, Inhabited

/-- What a snapshot shows of a scope: bindings in order of declaration, labels sorted. -/
structure ScopeSnapshot where
  blockType : String
  bindings : List BindingSnapshot
  globals : List String
  labels : List String
  children : List ScopeSnapshot
  deriving Inhabited

def ScopeSnapshot.binding? (s : ScopeSnapshot) (name : String) : Option BindingSnapshot :=
  s.bindings.find? (·.name == name)

def BindingSnapshot.text (b : BindingSnapshot) : String :=
  b.name ++ ":" ++ b.kind.name ++ ":r" ++ toString b.references ++ ":v" ++ toString b.violations
    ++ (if b.constant then "" else "!")

def BindingSnapshot.toDatum (b : BindingSnapshot) : Datum :=
  .obj [("name", .str b.name), ("kind", .str b.kind.name), ("constant", .bool b.constant),
    ("references", .int b.references), ("violations", .int b.violations)]

namespace ScopeSnapshot

mutual

/-- A snapshot in short: bindings, names without a declaration, labels and the scopes inside. -/
def text : ScopeSnapshot → String
  | ⟨blockType, bindings, globals, labels, children⟩ =>
    let part (key : String) (names : List String) : String :=
      if names.isEmpty then "" else key ++ "[" ++ ",".intercalate names ++ "]"
    blockType ++ "\x7b" ++ ",".intercalate (bindings.map (·.text)) ++ "\x7d"
      ++ part "g" globals ++ part "l" labels
      ++ (if children.isEmpty then "" else "(" ++ " ".intercalate (listTexts children) ++ ")")

def listTexts : List ScopeSnapshot → List String
  | [] => []
  | s :: rest => text s :: listTexts rest

end

mutual

def toDatum : ScopeSnapshot → Datum
  | ⟨blockType, bindings, globals, labels, children⟩ =>
    .obj [("block_type", .str blockType), ("bindings", .arr (bindings.map (·.toDatum))),
      ("globals", .texts globals), ("labels", .texts labels),
      ("children", .arr (listData children))]

def listData : List ScopeSnapshot → List Datum
  | [] => []
  | s :: rest => toDatum s :: listData rest

end

end ScopeSnapshot

namespace Tree

/-- A snapshot of a scope and at most `fuel` levels of scopes inside. -/
def snapshotLevels (t : Tree) : Nat → ScopeId → ScopeSnapshot
  | 0, _ => ⟨"", [], [], [], []⟩
  | fuel + 1, s =>
    let d := t.scope s
    { blockType := (t.blockType? s).elim "" (·.name)
      bindings := d.bindings.filterMap fun (_, id) => (t.binding? id).map fun b =>
        ⟨b.name, b.kind, b.constant, b.references, b.constantViolations.length⟩
      globals := d.globals.names
      labels := d.labels.names.mergeSort fun a b => decide (a ≤ b)
      children := (t.childScopes s).map (t.snapshotLevels fuel) }

def snapshot (t : Tree) (s : ScopeId) : ScopeSnapshot := t.snapshotLevels (t.scopes.size + 1) s

end Tree

end ScopedTree
