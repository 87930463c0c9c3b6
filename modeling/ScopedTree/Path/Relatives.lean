import ScopedTree.Arena.Binding
import ScopedTree.Path.Basic
import ScopedTree.Text.Parts

/-!
# Related paths

From a path to the paths of children, siblings and bound identifiers.

* `Tree.follow`, `Tree.entries`   children by a dotted key;
* `Tree.getSibling`, …            other entries of the same list;
* `Tree.completionRecords`        the statements that can give a statement list its value;
* `Tree.bindingPaths`             the identifiers a node binds.
-/

namespace ScopedTree

def readIndex? (text : String) : Option Nat :=
  let digits := match text.toList with
    | '+' :: rest => rest
    | cs => cs
  if digits.isEmpty || !digits.all Char.isDigit then none
  else (some (digitsValue digits)).filter (· < UInt64.size)

namespace Tree

/-- The type and the field of that name of the node at a path. -/
def fieldOf (p : PathId) (name : String) : TreeM (NodeType × Field) := do
  let t ← get
  match t.nodeType? p with
  | none => throw (t.detachedError p)
  | some ty =>
    match ty.field? name with
    | none => throw (.shape (.unknownField ty name))
    | some f => return (ty, f)

/-- The path reached from `p` by field names, each list followed by an index. -/
def followParts (p : PathId) : List String → TreeM PathId
  | [] => return p
  | part :: rest => do
    let (ty, f) ← fieldOf p part
    let owner := (← get).node p
    match f.kind with
    | .list =>
      match rest with
      | index :: rest =>
        match readIndex? index with
        | some i => followParts (← getOrCreatePath (some p) owner (.entry f.name i)) rest
        | none => throw (.shape (.fieldKind ty f.name .list))
      | [] => throw (.shape (.fieldKind ty f.name .list))
    | .node | .optNode => followParts (← getOrCreatePath (some p) owner (.field f.name)) rest
    | kind => throw (.shape (.fieldKind ty f.name kind))

/-- The path of a child. A dotted key walks several levels and a number in it picks an entry of the
list named before, as in `body.0.expression`. -/
def follow (p : PathId) (key : String) : TreeM PathId := do
  resync p
  followParts p (parts '.' key)

def splitKey (key : String) : Option (String × String) :=
  match (parts '.' key).reverse with
  | last :: first :: before => some (".".intercalate (first :: before).reverse, last)
  | _ => none

/-- The paths of all entries of a list. The key may be dotted; its last part names the list. -/
def entries (p : PathId) (key : String) : TreeM (List PathId) := do
  resync p
  let (owner, name) ← match splitKey key with
    | some (before, name) => pure (← follow p before, name)
    | none => pure (p, key)
  let (ty, f) ← fieldOf owner name
  if f.kind != .list then throw (.shape (.fieldKind ty f.name f.kind))
  let node := (← get).node owner
  let items ← TreeM.ofShape ((← get).arena.list node f.name)
  (List.range items.length).mapM fun i => getOrCreatePath (some owner) node (.entry f.name i)

/-- The entry at `index` of the list that `p` is in; past the end it is an empty path. -/
def getSibling (p : PathId) (index : Nat) : TreeM PathId := do
  resync p
  let t ← get
  let d := t.path p
  match d.slot with
  | .entry list _ => getOrCreatePath d.parentPath d.parent (.entry list index)
  | _ => throw (t.notAListError p)

def getPrevSibling (p : PathId) : TreeM (Option PathId) := do
  resync p
  let t ← get
  match (t.slot p).index? with
  | some 0 => return none
  | some (i + 1) => return some (← getSibling p i)
  | none => throw (t.notAListError p)

def getNextSibling (p : PathId) : TreeM PathId := do
  resync p
  let t ← get
  match (t.slot p).index? with
  | some i => getSibling p (i + 1)
  | none => throw (t.notAListError p)

def getPrevSiblings (p : PathId) : TreeM (List PathId) := do
  resync p
  match ((← get).slot p).index? with
  | some i => (List.range i).reverse.mapM (getSibling p)
  | none => return []

def getNextSiblings (p : PathId) : TreeM (List PathId) := do
  resync p
  let t ← get
  match t.slot p with
  | .entry list i =>
    let items ← TreeM.ofShape (t.arena.list (t.parentNode p) list)
    ((List.range items.length).drop (i + 1)).mapM (getSibling p)
  | _ => return []

/-- The fields of a node type whose statements give it its value, or `none` if it gives a value
itself. The list of a block counts by its last entry. -/
def completionKeys (ty : NodeType) : Option (List String) :=
  if ty == .ifStatement then some ["consequent", "alternate"]
  else if ty == .doExpression || ty.isA .forLoop || ty.isA .whileLoop || ty.isA .function
      || ty == .catchClause then some ["body"]
  else if ty == .tryStatement then some ["block", "handler", "finalizer"]
  else none

/-- The completion records at or below a path, at most `fuel` levels deep. -/
def completionLevels : Nat → PathId → TreeM (List PathId)
  | 0, _ => return []
  | fuel + 1, p => do
    let t ← get
    let node := t.node p
    match t.arena.type? node with
    | none => return []
    | some ty =>
      if ty == .program || ty == .blockStatement then
        match (← entries p "body").getLast? with
        | some last => completionLevels fuel last
        | none => return []
      else
        match completionKeys ty with
        | none => return [p]
        | some keys =>
          let found ← keys.mapM fun key => do
            let child ← TreeM.ofShape ((← get).arena.child node key)
            if child.isSome then completionLevels fuel (← follow p key) else return []
          return found.flatten

/-- The paths whose value can become the completion value of `p`. -/
def completionRecords (p : PathId) : TreeM (List PathId) := do
  completionLevels ((← get).arena.size + 1) p

/-- The paths of the identifiers a node binds, by name; of several of one name the last. -/
def bindingPaths (p : PathId) (outer : Bool) : TreeM (Table PathId) := do
  resync p
  let t ← get
  let ids := (t.arena.bindingIds (t.node p) outer).flatMap fun (name, nodes) =>
    nodes.map (name, ·)
  ids.foldlM (fun (table : Table PathId) (name, node) => do
    match ← pathFor (some node) with
    | some q => return table.put name q
    | none => return table) []

/-- The other side of a pair of `left` and `right`. -/
def getOpposite (p : PathId) : TreeM (Option PathId) := do
  resync p
  let t ← get
  let opposite? := match t.slot p with
    | .field "left" => some "right"
    | .field "right" => some "left"
    | _ => none
  match opposite?, t.parentPath p with
  | some opposite, some parent => return some (← follow parent opposite)
  | _, _ => return none

end Tree

end ScopedTree
