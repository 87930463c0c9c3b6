import ScopedTree.Arena.Build
import ScopedTree.Arena.Walk
import ScopedTree.Scope.Lookup

/-!
# Union types

* `Arena.unionMembers`   the types that a list of types is made of;
* `Tree.unionType`       the union of several types.
-/

namespace ScopedTree

namespace Arena

/-- The types that a list of types is made of, with unions opened: those that are no union first,
then what the unions are made of, at most `fuel` deep. -/
def unionMembers (a : Arena) : Nat → List (Option NodeId) → List NodeId
  | 0, _ => []
  | fuel + 1, types =>
    if types.isEmpty then []
    else
      let (unions, others) := types.partition (a.is · .unionType)
      others.filterMap (fun id => id.filter fun n => (a.get? n).isSome)
        ++ a.unionMembers fuel (unions.flatMap (a.items · "types"))

/-- A type that is made once: a base type of the language, or a generic one by its name. -/
inductive TypeClass where
  | base (ty : NodeType)
  | generic (name : String)
  | other (id : NodeId)
  deriving DecidableEq, Inhabited

def typeClass (a : Arena) (id : NodeId) : TypeClass :=
  match a.type? (some id) with
  | some .genericType => .generic ((a.name? (a.child? (some id) "id")).getD "")
  | some ty => if ty.isA .flowBase then .base ty else .other id
  | none => .other id

/-- Adds a type unless it is there; of the same base type the latest stays. -/
def addMember (a : Arena) (members : List (TypeClass × NodeId)) (id : NodeId) :
    List (TypeClass × NodeId) :=
  let c := a.typeClass id
  if !members.any (·.1 == c) then members ++ [(c, id)]
  else
    match c with
    | .base _ => members.map fun m => if m.1 == c then (c, id) else m
    | _ => members

/-- One type of each class: first the others, then the base types, then the generic ones. -/
def distinctMembers (a : Arena) (types : List NodeId) : List NodeId :=
  let members := types.foldl a.addMember []
  let pick (test : TypeClass → Bool) := (members.filter (test ·.1)).map (·.2)
  pick (fun | .other _ => true | _ => false) ++ pick (fun | .base _ => true | _ => false)
    ++ pick (fun | .generic _ => true | _ => false)

end Arena

namespace Tree

def baseType (ty : NodeType) : TreeM NodeId := TreeM.edit (Arena.build ty [])

def genericType (name : String) : TreeM NodeId := do
  let id ← TreeM.edit (Arena.identifier name)
  TreeM.edit (Arena.build .genericType [("id", .node (some id))])

/-- A type that may be put into another one: itself if it has no owner, or else a copy. -/
def unowned (id : NodeId) : TreeM (Option NodeId) := do
  if ((← get).arena.parentOf (some id)).isSome then TreeM.edit (Arena.cloneDeep (some id) false)
  else return some id

/-- The union of types. Unions inside are opened, and of each base type and generic name one is
kept. A type that covers everything is the result itself, and so is a single type. -/
def unionType (types : List (Option NodeId)) : TreeM NodeId := do
  let a := (← get).arena
  let members := a.unionMembers (a.size + 1) types
  match members.find? fun id => a.is (some id) .anyType with
  | some any => return any
  | none =>
    match a.distinctMembers members with
    | [] => baseType .anyType
    | [single] => return single
    | several =>
      let owned ← several.mapM unowned
      TreeM.edit (Arena.build .unionType [("types", .list owned)])

end Tree

end ScopedTree
