import ScopedTree.Arena.Basic

/-!
# Walks over subtrees

* `Arena.walk`        visits a subtree parents first; the visitor may keep it from going below;
* `Arena.preorder`    the nodes of a subtree in that order;
* `Arena.hasType`     whether a type occurs in a subtree;
* `Arena.cloneDeep`   copies a subtree;
* `Arena.strip`       removes positions, comments and extra data from a subtree;
* `Arena.toDatum`     writes a subtree out as data.
-/

namespace ScopedTree.Arena

variable {σ : Type}

def childCount (a : Arena) : Nat := a.nodes.foldl (fun n node => n + node.children.length) 0

/-- How many handles a walk may take from its stack: more than a tree can give it. -/
def walkBound (a : Arena) : Nat := (a.childCount + 2) * (a.size + 1)

/-- Visits the nodes on the stack. After a node its children come next, unless `enter` says no. -/
def walkFrom (a : Arena) (enter : σ → NodeId → σ × Bool) : Nat → List NodeId → σ → σ
  | 0, _, s => s
  | _, [], s => s
  | fuel + 1, id :: stack, s =>
    match a.get? id with
    | none => walkFrom a enter fuel stack s
    | some n =>
      let (s, below) := enter s id
      walkFrom a enter fuel (if below then n.children ++ stack else stack) s

/-- Visits the subtree of `root`, parents first and children in field order. What `enter` returns
is handed to the next visit, together with whether to visit below the node. -/
def walk (a : Arena) (enter : σ → NodeId → σ × Bool) (root : Option NodeId) (s : σ) : σ :=
  a.walkFrom enter a.walkBound root.toList s

/-- The nodes of a subtree, parents first; nothing below a node that fails `below`. -/
def preorderWhile (a : Arena) (below : NodeId → Bool) (root : Option NodeId) : List NodeId :=
  (a.walk (fun seen id => (id :: seen, below id)) root []).reverse

/-- The nodes of a subtree, parents first. -/
def preorder (a : Arena) (root : Option NodeId) : List NodeId :=
  a.preorderWhile (fun _ => true) root

/-- Whether `root` or a node below it has type `ty`, where nothing at or below a node of a denied
type counts. -/
def hasType (a : Arena) (root : Option NodeId) (ty : NodeType) (denied : List NodeType) : Bool :=
  match a.type? root with
  | none => false
  | some top =>
    if denied.contains top then false
    else if top == ty then true
    else a.walk (fun found id =>
      match a.type? (some id) with
      | none => (found, false)
      | some t =>
        if found || denied.contains t then (found, false) else (t == ty, t != ty)) root false

/-- Copies the subtree of `root` into new nodes, at most `fuel` levels deep. -/
def cloneLevels (metadata : Bool) : Nat → Option NodeId → ArenaM NodeId
  | 0, root => throw (.invalidNode root)
  | fuel + 1, root => do
    let n ← ask (·.node root)
    let values ← n.values.mapM fun
      | .node (some c) => do return .node (some (← cloneLevels metadata fuel (some c)))
      | .list items => do
        return .list (← items.mapM fun
          | some c => do return some (← cloneLevels metadata fuel (some c))
          | none => pure none)
      | value => pure value
    let copy ← alloc n.type values
    if metadata then
      modify fun a => a.update (some copy) fun m =>
        { m with span := n.span, loc := n.loc, comments := n.comments, extra := n.extra }
    return copy

/-- Copies the subtree of `root` into new nodes without an owner. Positions, comments and extra data
are copied on request. -/
def cloneDeep (root : Option NodeId) (metadata : Bool) : ArenaM NodeId := do
  cloneLevels metadata ((← get).size + 1) root

/-- Removes positions, comments and extra data from the subtree of `root`. -/
def strip (root : Option NodeId) : ArenaM Unit :=
  modify fun a => (a.preorder root).foldl (fun a id => a.update (some id) Node.bare) a

def datumLevels (a : Arena) : Nat → Option NodeId → Datum
  | 0, _ => .null
  | fuel + 1, root =>
    match a.look root with
    | none => .null
    | some n =>
      let fields := (n.type.fields.zip n.values).map fun (f, value) => (f.name,
        match value with
        | .node child => a.datumLevels fuel child
        | .list items => .arr (items.map (a.datumLevels fuel))
        | .str s => .str s
        | .num x => if x.isFinite then .float x else .null
        | .bool b => .bool b
        | .null => .null)
      let extra := if n.extra.isEmpty then [] else [("extra", .obj n.extra)]
      .obj (("type", .str n.type.name) :: fields ++ extra)

/-- A subtree written out as data: its type, its fields and its extra data. -/
def toDatum (a : Arena) (root : Option NodeId) : Datum := a.datumLevels (a.size + 1) root

end ScopedTree.Arena
