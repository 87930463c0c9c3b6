import ScopedTree.Proofs.Typing.Writes
import ScopedTree.Typing.Infer

/-!
# What is found of the type of a node

What is found of the type of a node can be said without memos, by the forms of expressions and by
what may have been written to the names that are read, looking at so many nodes on the way. More
levels find the same, if the levels were enough.

* `Finding.Plain`              what is found of types that are no notes;
* `Tree.foundLevels?`        what is found of the type of a node, if the levels are enough;
* `Tree.foundLevels?_mono`   more levels find the same;
* `Arena.Unnested`           notes stand neither in notes nor in unions;
* `Tree.plain_of_foundLevels?`   then no note is found.
-/

namespace ScopedTree

open Arena

/-! ## what is found -/

def Finding.ofType (ty : Option NodeType) : Finding := .ofKind (ty.getD .anyType).plainKind

def Finding.sum (left right : Finding) : Finding :=
  if left.base = some .numberType ∧ right.base = some .numberType then .ofType (some .numberType)
  else if left.base = some .stringType ∨ right.base = some .stringType
    then .ofType (some .stringType)
  else .unite [.ofType (some .stringType), .ofType (some .numberType)]

namespace Arena

variable (a : Arena)

/-- The type inside a note; another type as it is. -/
def unwrapped (x : Option NodeId) : Option NodeId :=
  if a.is x .typeNote then a.child? x "type_annotation" else x

def foundAt (x : Option NodeId) : Finding :=
  ⟨(a.unionMembers (a.size + 1) [x]).map a.kind, (a.type? x).filter (·.isA .flowBase)⟩

def carried? (n : NodeId) : Option NodeId :=
  if (a.type? (some n)).any (·.isA .flowType) then none else a.child? (some n) "type_annotation"

def foundNew (n : NodeId) : Finding :=
  let callee := a.child? (some n) "callee"
  if a.is callee .identifier then (a.name? callee).elim .any fun name =>
    .ofKind (.generic name) else .any

def foundResult (f : NodeId) : Finding :=
  if !a.isA (some f) .function then .any
  else if ((a.look (some f)).bind (·.value? "async")).any (·.isPresent) then
    .ofKind (.generic (if ((a.look (some f)).bind (·.value? "generator")).any (·.isPresent)
      then "AsyncIterator"
      else "Promise"))
  else (a.child? (some f) "return_type").elim .any fun x => a.foundAt (a.unwrapped (some x))

end Arena

namespace Tree

section Forms

variable (t : Tree) (r : NodeId) (found? : Option NodeId → NodeType → Option Finding) (n : NodeId)

def emptyStart : NodeType :=
  let declaration := t.arena.parentOf (some n)
  let loop := t.arena.parentOf declaration
  if declaration != some r && t.arena.child? loop "left" == declaration then
    match t.arena.type? loop with
    | some .forInStatement => .stringType
    | some .forOfStatement => .anyType
    | _ => .voidType
  else .voidType

def foundIn? (key : String) : Option Finding := found? (t.arena.child? (some n) key) .anyType

def foundEither? (first second : String) : Option Finding := do
  return .unite [← t.foundIn? found? n first, ← t.foundIn? found? n second]

def foundSum? : Option Finding := do
  return .sum (← t.foundIn? found? n "left") (← t.foundIn? found? n "right")

def foundLast? : Option Finding :=
  match (t.arena.items (some n) "expressions").length with
  | 0 => some .any
  | k + 1 =>
    if k < UInt64.size then found? (t.arena.items (some n) "expressions")[k]?.join .anyType
      else none

/-- What is found of the start value of a declarator of a single name. -/
def foundStart? : Option Finding :=
  if t.arena.is (t.arena.child? (some n) "id") .identifier then
    found? (t.arena.child? (some n) "init") (t.emptyStart r n)
  else some .any

def foundCall? (key : String) : Option Finding :=
  (t.arena.child? (some n) key).map fun c => t.arena.foundResult (t.sourceOf c)

/-- What is found of the writes that may have been made when the node is reached. -/
def foundWritten? : List PathId → Option (List Finding)
  | [] => some []
  | write :: writes =>
    (t.node write).bind fun w =>
      if t.runsFirst r w n then do return (← found? (some w) .anyType) :: (← foundWritten? writes)
      else foundWritten? writes

/-- What is found of a name that is read: of the annotation of its declaration, or else of the
writes. -/
def foundName? : Option Finding :=
  if (t.pathOf? (some n)).any t.isReferenced then
    let name := (t.arena.name? (some n)).getD ""
    match t.bindingAt? n name with
    | none => some (.ofType (unboundType? name))
    | some b =>
      match t.arena.child? (some b.identifier) "type_annotation" with
      | some annotation => some (t.arena.foundAt (t.arena.unwrapped (some annotation)))
      | none => (t.foundWritten? r found? n (b.path :: b.constantViolations)).map .unite
  else some .any

def foundForm? (ty : NodeType) : Option Finding :=
  let operator := (t.arena.text? (some n) "operator").getD ""
  match ty with
  | .variableDeclarator => t.foundStart? r found? n
  | .identifier => t.foundName? r found? n
  | .newExpression => some (t.arena.foundNew n)
  | .stringLiteral | .templateLiteral => some (.ofType (some .stringType))
  | .numericLiteral => some (.ofType (some .numberType))
  | .booleanLiteral => some (.ofType (some .booleanType))
  | .nullLiteral => some (.ofType (some .nullLiteralType))
  | .regExpLiteral => some (.ofKind (.generic "RegExp"))
  | .objectExpression => some (.ofKind (.generic "Object"))
  | .arrayExpression | .restElement => some (.ofKind (.generic "Array"))
  | .unaryExpression => some (.ofType (unaryResult? operator))
  | .updateExpression =>
    some (.ofType (if operator == "++" || operator == "--" then some .numberType else none))
  | .binaryExpression =>
    if operator == "+" then t.foundSum? found? n else some (.ofType (binaryResult? operator))
  | .logicalExpression => t.foundEither? found? n "left" "right"
  | .conditionalExpression => t.foundEither? found? n "consequent" "alternate"
  | .sequenceExpression => t.foundLast? found? n
  | .assignmentExpression => t.foundIn? found? n "right"
  | .callExpression => t.foundCall? n "callee"
  | .taggedTemplateExpression => t.foundCall? n "tag"
  | ty => some (if ty.isA .function || ty.isA .classNode then .ofKind (.generic "Function")
    else .any)

/-- What is found of a node: of the annotation that it carries, or else by its form. -/
def foundNode? : Option Finding :=
  match t.arena.carried? n with
  | some annotation => some (t.arena.foundAt (t.arena.unwrapped (some annotation)))
  | none => (t.arena.type? (some n)).bind (t.foundForm? r found? n)

end Forms

/-- What is found of a place, if so many levels are enough; `empty` is the type of the place where
it is empty. -/
def foundLevels? (t : Tree) (r : NodeId) : Nat → Option NodeId → NodeType → Option Finding
  | 0, _, _ => none
  | _ + 1, none, empty => some (.ofType (some empty))
  | fuel + 1, some n, _ => t.foundNode? r (t.foundLevels? r fuel) n

/-! ## more levels -/

section Widens

variable {t : Tree} {r n : NodeId} {found? found?' : Option NodeId → NodeType → Option Finding}
  {F : Finding}

/-- What is found before is found after. -/
def Widens (found? found?' : Option NodeId → NodeType → Option Finding) : Prop :=
  ∀ x ty F, found? x ty = some F → found?' x ty = some F

variable (h : Widens found? found?')

include h

theorem Widens.foundEither? {first second : String}
    (hF : t.foundEither? found? n first second = some F) :
    t.foundEither? found?' n first second = some F := by
  obtain ⟨left, hleft, hF⟩ := Option.bind_eq_some_iff.1 hF
  obtain ⟨right, hright, hF⟩ := Option.bind_eq_some_iff.1 hF
  exact Option.bind_eq_some_iff.2 ⟨left, h _ _ _ hleft,
    Option.bind_eq_some_iff.2 ⟨right, h _ _ _ hright, hF⟩⟩

theorem Widens.foundSum? (hF : t.foundSum? found? n = some F) : t.foundSum? found?' n = some F := by
  obtain ⟨left, hleft, hF⟩ := Option.bind_eq_some_iff.1 hF
  obtain ⟨right, hright, hF⟩ := Option.bind_eq_some_iff.1 hF
  exact Option.bind_eq_some_iff.2 ⟨left, h _ _ _ hleft,
    Option.bind_eq_some_iff.2 ⟨right, h _ _ _ hright, hF⟩⟩

theorem Widens.foundLast? (hF : t.foundLast? found? n = some F) :
    t.foundLast? found?' n = some F := by
  unfold Tree.foundLast? at hF ⊢
  split at hF
  · next hlen => simpa [hlen] using hF
  · next k hlen =>
    split at hF
    · next hk => exact (if_pos hk).trans (h _ _ _ hF)
    · cases hF

theorem Widens.foundStart? (hF : t.foundStart? r found? n = some F) :
    t.foundStart? r found?' n = some F := by
  unfold Tree.foundStart? at hF ⊢
  split
  · next hid => exact h _ _ _ ((if_pos hid).symm.trans hF)
  · next hid => exact (if_neg hid).symm.trans hF

theorem Widens.foundWritten? {writes : List PathId} {Fs : List Finding}
    (hFs : t.foundWritten? r found? n writes = some Fs) :
    t.foundWritten? r found?' n writes = some Fs := by
  induction writes generalizing Fs with
  | nil => exact hFs
  | cons write writes ih =>
    obtain ⟨w, hw, hFs⟩ := Option.bind_eq_some_iff.1 hFs
    refine Option.bind_eq_some_iff.2 ⟨w, hw, ?_⟩
    split at hFs
    · next hruns =>
      rw [if_pos hruns]
      obtain ⟨F, hF, hFs⟩ := Option.bind_eq_some_iff.1 hFs
      obtain ⟨rest, hrest, hFs⟩ := Option.bind_eq_some_iff.1 hFs
      exact Option.bind_eq_some_iff.2 ⟨F, h _ _ _ hF,
        Option.bind_eq_some_iff.2 ⟨rest, ih hrest, hFs⟩⟩
    · next hruns =>
      rw [if_neg hruns]
      exact ih hFs

theorem Widens.foundName? (hF : t.foundName? r found? n = some F) :
    t.foundName? r found?' n = some F := by
  unfold Tree.foundName? at hF ⊢
  split at hF
  · next hread =>
    rw [if_pos hread]
    dsimp only at hF ⊢
    split at hF
    · exact hF
    · split at hF
      · exact hF
      · obtain ⟨Fs, hFs, hF⟩ := Option.map_eq_some_iff.1 hF
        exact Option.map_eq_some_iff.2 ⟨Fs, h.foundWritten? hFs, hF⟩
  · next hread => rwa [if_neg hread]

theorem Widens.foundForm? {ty : NodeType} (hF : t.foundForm? r found? n ty = some F) :
    t.foundForm? r found?' n ty = some F := by
  unfold Tree.foundForm? at hF ⊢
  dsimp only at hF ⊢
  split at hF
  · exact h.foundStart? hF
  · exact h.foundName? hF
  all_goals try exact hF
  · split at hF
    · next hop => exact (if_pos hop).trans (h.foundSum? hF)
    · next hop => exact (if_neg hop).trans hF
  · exact h.foundEither? hF
  · exact h.foundEither? hF
  · exact h.foundLast? hF
  · exact h _ _ _ hF

theorem Widens.foundNode? (hF : t.foundNode? r found? n = some F) :
    t.foundNode? r found?' n = some F := by
  unfold Tree.foundNode? at hF ⊢
  split at hF
  · exact hF
  · obtain ⟨ty, hty, hF⟩ := Option.bind_eq_some_iff.1 hF
    exact Option.bind_eq_some_iff.2 ⟨ty, hty, h.foundForm? hF⟩

end Widens

variable {t : Tree} {r n : NodeId} {F F' : Finding} {x : Option NodeId} {empty : NodeType}

theorem widens_foundLevels? (t : Tree) (r : NodeId) (fuel : Nat) :
    Widens (t.foundLevels? r fuel) (t.foundLevels? r (fuel + 1)) := by
  induction fuel with
  | zero => exact fun _ _ _ hF => nomatch hF
  | succ fuel ih =>
    intro x empty F hF
    cases x with
    | none => exact hF
    | some n => exact ih.foundNode? hF

/-- More levels find the same. -/
theorem foundLevels?_mono {fuel fuel' : Nat} (hle : fuel ≤ fuel')
    (hF : t.foundLevels? r fuel x empty = some F) :
    t.foundLevels? r fuel' x empty = some F := by
  induction fuel', hle using Nat.le_induction with
  | base => exact hF
  | succ fuel' _ ih => exact widens_foundLevels? t r fuel' x empty F ih

theorem foundLevels?_unique {fuel fuel' : Nat} (hF : t.foundLevels? r fuel x empty = some F)
    (hF' : t.foundLevels? r fuel' x empty = some F') : F = F' := by
  rcases Nat.le_total fuel fuel' with hle | hle
  · exact Option.some.inj ((foundLevels?_mono hle hF).symm.trans hF')
  · exact Option.some.inj (hF.symm.trans (foundLevels?_mono hle hF'))

end Tree

/-! ## notes -/

namespace Finding

variable {F : Finding} {Fs : List Finding} {k : Kind}

/-- None of the types is a note. -/
def Plain (F : Finding) : Prop := ∀ written, .other (some .typeNote) written ∉ F.kinds

theorem plain_ofKind (hk : ∀ written, k ≠ .other (some .typeNote) written) : (ofKind k).Plain :=
  fun written h =>
  hk written (List.mem_singleton.1 h).symm

theorem plain_generic (name : String) : (ofKind (.generic name)).Plain :=
  plain_ofKind fun _ h => nomatch h

theorem plain_ofType {ty : Option NodeType} (hty : ∀ ty', ty = some ty' → ty'.fields = []) :
    (ofType ty).Plain := by
  refine plain_ofKind fun written => ?_
  unfold NodeType.plainKind
  split
  · exact fun h => nomatch h
  · intro h
    have hnote : ty.getD .anyType = .typeNote := Option.some.inj (Kind.other.inj h).1
    cases ty with
    | none => cases hnote
    | some ty =>
      have hfields := hty ty rfl
      rw [show ty = .typeNote from hnote] at hfields
      cases hfields

theorem plain_any : any.Plain := plain_ofKind fun _ h => nomatch h

theorem plain_unite (h : ∀ F ∈ Fs, F.Plain) : (unite Fs).Plain := by
  intro written hmem
  by_cases hany : .base .anyType ∈ Fs.flatMap kinds
  · rw [unite_of_any hany] at hmem
    exact plain_any written hmem
  · by_cases hnil : Fs.flatMap kinds = []
    · rw [unite_of_nil hnil] at hmem
      exact plain_any written hmem
    · rw [kinds_unite hany hnil] at hmem
      obtain ⟨F, hF, hmem⟩ := List.mem_flatMap.1 hmem
      exact h F hF written hmem

theorem plain_sum (left right : Finding) : (sum left right).Plain := by
  have hstring : (ofType (some .stringType)).Plain :=
    plain_ofType fun ty h => Option.some.inj h ▸ rfl
  have hnumber : (ofType (some .numberType)).Plain :=
    plain_ofType fun ty h => Option.some.inj h ▸ rfl
  unfold sum
  split
  · exact hnumber
  · split
    · exact hstring
    · refine plain_unite fun F hF => ?_
      rcases List.mem_pair.1 hF with rfl | rfl
      · exact hstring
      · exact hnumber

end Finding

namespace Arena

variable {a : Arena} {m n u : NodeId} {x : Option NodeId}

/-- Notes stand neither in notes nor in unions. -/
structure Unnested (a : Arena) : Prop where
  note : ∀ n m, a.is (some n) .typeNote = true → a.child? (some n) "type_annotation" = some m →
    a.is (some m) .typeNote = false
  union : ∀ n m, a.is (some n) .unionType = true → some m ∈ a.items (some n) "types" →
    a.is (some m) .typeNote = false

theorem unnested_iff : a.Unnested ↔ ∀ i < a.size,
    (a.is (some ⟨i⟩) .typeNote = true → a.is (a.child? (some ⟨i⟩) "type_annotation")
      .typeNote = false) ∧ (a.is (some ⟨i⟩) .unionType = true → ∀ x ∈ a.items (some ⟨i⟩) "types",
        a.is x .typeNote = false) := by
  have hlt {n : NodeId} {ty : NodeType} (h : a.is (some n) ty = true) : n.index < a.size := by
    obtain ⟨o, ho, -⟩ := is_some.1 h
    exact get?_eq_some_lt ho
  constructor
  · refine fun h i _ => ⟨fun hi => ?_, fun hi x hx => ?_⟩
    · cases hm : a.child? (some ⟨i⟩) "type_annotation" with
      | none => rfl
      | some m => exact h.note _ m hi hm
    · cases x with
      | none => rfl
      | some m => exact h.union _ m hi hx
  · refine fun h => ⟨fun n m hn hm => ?_, fun n m hn hm => (h n.index (hlt hn)).2 hn _ hm⟩
    have hnote := (h n.index (hlt hn)).1 hn
    rwa [hm] at hnote

instance (a : Arena) : Decidable a.Unnested := decidable_of_iff _ unnested_iff.symm

theorem Unnested.unwrapped (ha : a.Unnested) (hu : a.unwrapped x = some u) :
    a.is (some u) .typeNote = false := by
  unfold Arena.unwrapped at hu
  split at hu
  · next hx =>
    cases x with
    | none => cases hu
    | some n => exact ha.note n u hx hu
  · next hx =>
    subst hu
    simpa using hx

theorem Unnested.opens (ha : a.Unnested) (hu : a.is (some u) .typeNote = false) (h : a.Opens u m) :
    a.is (some m) .typeNote = false := by
  induction h with
  | self => exact hu
  | entry hunion hc _ ih => exact ih (ha.union _ _ hunion hc)

theorem kind_other_type? {ty : Option NodeType} {written : Datum}
    (h : a.kind m = .other ty written) :
    a.type? (some m) = ty := by
  unfold kind at h
  split at h
  · cases h
  · cases h
  · exact (Kind.other.inj h).1

theorem Unnested.plain (ha : a.Unnested) (howned : a.Owned) (x : Option NodeId) :
    (a.foundAt (a.unwrapped x)).Plain := by
  intro written hmem
  obtain ⟨m, hm, hkind⟩ := List.mem_map.1 hmem
  obtain ⟨u, hu, hopens⟩ := (mem_unionMembers howned (sufficesAll_of_le (Nat.le_succ _) _)).1 hm
  have hnot := ha.opens (ha.unwrapped (List.mem_singleton.1 hu).symm) hopens
  unfold Arena.is at hnot
  rw [kind_other_type? hkind] at hnot
  cases hnot

theorem Unnested.plain_foundResult (ha : a.Unnested) (howned : a.Owned)
    (f : NodeId) : (a.foundResult f).Plain := by
  unfold foundResult
  split
  · exact Finding.plain_any
  · split
    · exact Finding.plain_generic _
    · cases a.child? (some f) "return_type" with
      | none => exact Finding.plain_any
      | some x => exact ha.plain howned (some x)

theorem plain_foundNew (a : Arena) (n : NodeId) : (a.foundNew n).Plain := by
  unfold foundNew
  dsimp only
  split
  · cases a.name? (a.child? (some n) "callee") with
    | none => exact Finding.plain_any
    | some name => exact Finding.plain_generic name
  · exact Finding.plain_any

end Arena

theorem fields_of_unboundType? {name : String} {ty : NodeType}
    (h : unboundType? name = some ty) : ty.fields = [] := by
  unfold unboundType? at h
  split at h <;> first | (cases h; rfl) | cases h

theorem fields_of_unaryResult? {op : String} {ty : NodeType} (h : unaryResult? op = some ty) :
    ty.fields = [] := by
  unfold unaryResult? at h
  split at h <;> first | (cases h; rfl) | cases h

theorem fields_of_binaryResult? {op : String} {ty : NodeType}
    (h : binaryResult? op = some ty) : ty.fields = [] := by
  unfold binaryResult? at h
  split at h
  · cases h
    rfl
  · split at h
    · cases h
      rfl
    · cases h

namespace Tree

variable {t : Tree} {r n : NodeId} {found? : Option NodeId → NodeType → Option Finding}
  {F : Finding} {x : Option NodeId} {empty : NodeType}

theorem fields_emptyStart (t : Tree) (r n : NodeId) : (t.emptyStart r n).fields = [] := by
  unfold emptyStart
  dsimp only
  split
  · split <;> rfl
  · rfl

section Plain

variable (ha : t.arena.Unnested) (howned : t.arena.Owned)
  (hfound : ∀ x ty F, ty.fields = [] → found? x ty = some F → F.Plain)

include hfound

theorem plain_foundEither? {first second : String}
    (hF : t.foundEither? found? n first second = some F) : F.Plain := by
  obtain ⟨left, hleft, hF⟩ := Option.bind_eq_some_iff.1 hF
  obtain ⟨right, hright, hF⟩ := Option.bind_eq_some_iff.1 hF
  obtain rfl := Option.some.inj hF
  refine Finding.plain_unite fun F hF => ?_
  rcases List.mem_pair.1 hF with rfl | rfl
  · exact hfound _ _ _ rfl hleft
  · exact hfound _ _ _ rfl hright

theorem plain_foundLast? (hF : t.foundLast? found? n = some F) : F.Plain := by
  unfold foundLast? at hF
  split at hF
  · cases hF
    exact Finding.plain_any
  · split at hF
    · exact hfound _ _ _ rfl hF
    · cases hF

theorem plain_foundStart? (hF : t.foundStart? r found? n = some F) : F.Plain := by
  unfold foundStart? at hF
  split at hF
  · exact hfound _ _ _ (fields_emptyStart t r n) hF
  · cases hF
    exact Finding.plain_any

theorem plain_foundWritten? {writes : List PathId} {Fs : List Finding}
    (hFs : t.foundWritten? r found? n writes = some Fs) : ∀ F ∈ Fs, F.Plain := by
  induction writes generalizing Fs with
  | nil =>
    cases hFs
    exact fun _ h => nomatch h
  | cons write writes ih =>
    obtain ⟨w, hw, hFs⟩ := Option.bind_eq_some_iff.1 hFs
    split at hFs
    · obtain ⟨F, hF, hFs⟩ := Option.bind_eq_some_iff.1 hFs
      obtain ⟨rest, hrest, hFs⟩ := Option.bind_eq_some_iff.1 hFs
      obtain rfl := Option.some.inj hFs
      exact List.forall_mem_cons.2 ⟨hfound _ _ _ rfl hF, ih hrest⟩
    · exact ih hFs

include ha howned

theorem plain_foundName? (hF : t.foundName? r found? n = some F) : F.Plain := by
  unfold foundName? at hF
  split at hF
  · dsimp only at hF
    split at hF
    · cases hF
      exact Finding.plain_ofType fun _ => fields_of_unboundType?
    · split at hF
      · cases hF
        exact ha.plain howned _
      · obtain ⟨Fs, hFs, rfl⟩ := Option.map_eq_some_iff.1 hF
        exact Finding.plain_unite (plain_foundWritten? hfound hFs)
  · cases hF
    exact Finding.plain_any

theorem plain_foundForm? {ty : NodeType} (hF : t.foundForm? r found? n ty = some F) : F.Plain := by
  have hmade {ty : NodeType} (hty : ty.fields = [])
      (hF : some (Finding.ofType (some ty)) = some F) : F.Plain := by
    cases hF
    exact Finding.plain_ofType fun ty' h => Option.some.inj h ▸ hty
  unfold foundForm? at hF
  dsimp only at hF
  split at hF
  · exact plain_foundStart? hfound hF
  · exact plain_foundName? ha howned hfound hF
  · cases hF
    exact plain_foundNew _ _
  · exact hmade rfl hF
  · exact hmade rfl hF
  · exact hmade rfl hF
  · exact hmade rfl hF
  · exact hmade rfl hF
  iterate 4
    · cases hF
      exact Finding.plain_generic _
  · cases hF
    exact Finding.plain_ofType fun _ => fields_of_unaryResult?
  · cases hF
    refine Finding.plain_ofType fun ty h => ?_
    split at h <;> cases h
    rfl
  · split at hF
    · obtain ⟨left, -, hF⟩ := Option.bind_eq_some_iff.1 hF
      obtain ⟨right, -, hF⟩ := Option.bind_eq_some_iff.1 hF
      obtain rfl := Option.some.inj hF
      exact Finding.plain_sum left right
    · cases hF
      exact Finding.plain_ofType fun _ => fields_of_binaryResult?
  · exact plain_foundEither? hfound hF
  · exact plain_foundEither? hfound hF
  · exact plain_foundLast? hfound hF
  · exact hfound _ _ _ rfl hF
  · obtain ⟨c, -, rfl⟩ := Option.map_eq_some_iff.1 hF
    exact ha.plain_foundResult howned _
  · obtain ⟨c, -, rfl⟩ := Option.map_eq_some_iff.1 hF
    exact ha.plain_foundResult howned _
  · cases hF
    split
    · exact Finding.plain_generic _
    · exact Finding.plain_any

theorem plain_foundNode? (hF : t.foundNode? r found? n = some F) : F.Plain := by
  unfold foundNode? at hF
  split at hF
  · cases hF
    exact ha.plain howned _
  · obtain ⟨ty, -, hF⟩ := Option.bind_eq_some_iff.1 hF
    exact plain_foundForm? ha howned hfound hF

end Plain

/-- No note is found. -/
theorem plain_of_foundLevels? (ha : t.arena.Unnested) (howned : t.arena.Owned) {fuel : Nat}
    (hempty : empty.fields = []) (hF : t.foundLevels? r fuel x empty = some F) : F.Plain := by
  induction fuel generalizing x empty F with
  | zero => cases hF
  | succ fuel ih =>
    cases x with
    | none =>
      cases hF
      exact Finding.plain_ofType fun ty h => Option.some.inj h ▸ hempty
    | some n => exact plain_foundNode? ha howned (fun _ _ _ => ih) hF

end Tree

end ScopedTree
