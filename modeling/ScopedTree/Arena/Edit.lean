import ScopedTree.Arena.Basic

/-!
# Writing children

Each write first checks that it is legal and then changes the slot and the owners together.

* `Arena.setChild`                                a single slot;
* `Arena.setList`, `listInsert`, `listRemove`, `listSet`   a list or one entry of it;
* `Arena.take`                                    pulls a node out of the slot that holds it;
* `Arena.detach`                                  forgets the owner of a node.
-/

namespace ScopedTree.Arena

/-- A hole, or a node without an owner that `parent` does not lie within, may go below `parent`. -/
def checkAttachable (a : Arena) (parent child : Option NodeId) : Except ShapeError Unit := do
  match child with
  | none => .ok ()
  | some id =>
    if (← a.node child).parent.isSome || a.isWithin parent child then
      .error (.alreadyAttached id)

/-- Whether `child` may be written to a single slot; gives the node now there. -/
def checkSetChild (a : Arena) (parent : Option NodeId) (field : String) (child : Option NodeId) :
    Except ShapeError (Option NodeId) := do
  let n ← a.node parent
  match n.type.field? field with
  | none => .error (.unknownField n.type field)
  | some f =>
    match f.kind, child with
    | .node, none => .error (.missingField n.type field)
    | .node, some _ | .optNode, _ => pure ()
    | kind, _ => .error (.fieldKind n.type field kind)
  let old ← n.child field
  if old != child then a.checkAttachable parent child
  return old

/-- Writes a single slot and gives the node that was there, which has no owner any more. -/
def setChild (parent : Option NodeId) (field : String) (child : Option NodeId) :
    ArenaM (Option NodeId) := do
  let old ← ask (·.checkSetChild parent field child)
  if old != child then
    modify fun a =>
      let placed := a.update parent (·.withValue field (.node child))
      (placed.setParent old none).setParent child parent
  return old

/-- The new entries of a list may be attached to `parent`: those that are not among the `current`
entries, and those that come up a second time. `seen` are the entries before. -/
def checkEntries (a : Arena) (parent : Option NodeId) (current seen : List (Option NodeId)) :
    List (Option NodeId) → Except ShapeError Unit
  | [] => .ok ()
  | item :: items => do
    if seen.contains item || !current.contains item then a.checkAttachable parent item
    a.checkEntries parent current (item :: seen) items

/-- Writes a whole list and gives the entries that were there; those left out lose their owner. -/
def setList (parent : Option NodeId) (field : String) (items : List (Option NodeId)) :
    ArenaM (List (Option NodeId)) := do
  let old ← ask (·.list parent field)
  ask (·.checkEntries parent old [] items)
  modify fun a =>
    ((a.update parent (·.withValue field (.list items))).setParents
      (old.filter (!items.contains ·)) none).setParents items parent
  return old

/-- The inserted entries may be attached to `parent` and none comes up twice. `seen` are the
entries before. -/
def checkInserted (a : Arena) (parent : Option NodeId) (seen : List (Option NodeId)) :
    List (Option NodeId) → Except ShapeError Unit
  | [] => .ok ()
  | item :: items => do
    match item with
    | some id => if seen.contains item then .error (.alreadyAttached id)
    | none => pure ()
    a.checkAttachable parent item
    a.checkInserted parent (item :: seen) items

/-- Inserts entries into a list before the entry at `index`, or at the end of a shorter list. Gives
the place of the first. -/
def listInsert (parent : Option NodeId) (field : String) (index : Nat)
    (items : List (Option NodeId)) : ArenaM Nat := do
  ask (·.checkInserted parent [] items)
  let old ← ask (·.list parent field)
  let index := min index old.length
  modify fun a =>
    let children := old.take index ++ items ++ old.drop index
    (a.update parent (·.withValue field (.list children))).setParents items parent
  return index

/-- Takes an entry out of a list; `none` if the list is shorter. -/
def listRemove (parent : Option NodeId) (field : String) (index : Nat) :
    ArenaM (Option (Option NodeId)) := do
  let old ← ask (·.list parent field)
  match old[index]? with
  | none => return none
  | some removed =>
    modify fun a =>
      (a.update parent (·.withValue field (.list (old.eraseIdx index)))).setParent removed none
    return some removed

/-- Whether `item` may be written to an entry of a list; gives the list and the present entry. -/
def checkListSet (a : Arena) (parent : Option NodeId) (field : String) (index : Nat)
    (item : Option NodeId) : Except ShapeError (List (Option NodeId) × Option NodeId) := do
  let items ← a.list parent field
  match items[index]? with
  | none => .error (.invalidNode item)
  | some old =>
    if old != item then a.checkAttachable parent item
    return (items, old)

/-- Overwrites an entry of a list and gives the one that was there. -/
def listSet (parent : Option NodeId) (field : String) (index : Nat) (item : Option NodeId) :
    ArenaM (Option NodeId) := do
  let (items, old) ← ask (·.checkListSet parent field index item)
  if old != item then
    modify fun a =>
      ((a.update parent (·.withValue field (.list (items.set index item)))).setParent old
        none).setParent item parent
  return old

/-- A value without the child `id`: a single slot becomes empty, a list entry is dropped. -/
def withoutChild (id : NodeId) : Value → Value
  | .node child => if child = some id then .node none else .node child
  | .list items => .list (items.filter (· != some id))
  | value => value

/-- Pulls a node out of whatever slot holds it, also out of one that has to be filled. -/
def take (id : Option NodeId) : ArenaM Unit := do
  let n ← ask (·.node id)
  match id, n.parent with
  | some id, some owner =>
    let _ ← ask (·.node (some owner))
    modify fun a =>
      (a.update (some owner) fun o => { o with values := o.values.map (withoutChild id) }).setParent
        (some id) none
  | _, _ => return

/-- Forgets the owner of a node, which keeps the node in its slot. -/
def detach (id : Option NodeId) : ArenaM Unit := modify (·.setParent id none)

end ScopedTree.Arena
