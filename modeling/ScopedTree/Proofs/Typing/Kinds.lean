import ScopedTree.Proofs.Scope.Declaration
import ScopedTree.Proofs.Typing.Members

/-!
# What types say

A type says of each of the types that it is made of what kind it is: the base type, the generic type
by the name that is read, or another type, written out. Nothing of it changes when types get owners
or are copied.

* `Arena.Retains`          nodes stay as they are but for their owners;
* `Arena.bareDatum`        a subtree written out, without what is attached to its nodes;
* `Arena.kind`             what kind a type is;
* `Arena.HasKind`          a type is made of one of a kind;
* `Arena.kind_retained`, `Arena.CopyOf.kind_eq`   kinds stay, and copies are of the kind of the
  original.
-/

namespace ScopedTree

/-- What kind a type is that is no union. -/
inductive Kind where
  | base (ty : NodeType)
  | generic (name : String)
  | other (ty : Option NodeType) (written : Datum)

def Kind.base? : Kind → Option NodeType
  | .base ty => some ty
  | _ => none

def Kind.isBase (ty : NodeType) (k : Kind) : Bool := k.base? == some ty

theorem Kind.base?_iff {k : Kind} {ty : NodeType} : k.base? = some ty ↔ k = .base ty := by
  cases k <;> simp [Kind.base?]

theorem Kind.isBase_iff {k : Kind} {ty : NodeType} : k.isBase ty = true ↔ k = .base ty := by
  rw [Kind.isBase, beq_iff_eq, Kind.base?_iff]

namespace Arena

open Relation

variable {a b b' : Arena} {m n r u c : NodeId} {σ : NodeId → NodeId}

/-! ## nodes that stay -/

/-- The nodes of `a` are in `b`, as they are but for their owners. -/
structure Retains (a b : Arena) : Prop where
  size : a.size ≤ b.size
  get? : ∀ q k, a.get? q = some k → ∃ owner, b.get? q = some (k.withOwner owner)

theorem Extends.retains (h : Extends a b) : Retains a b :=
  ⟨h.size, fun q k hk => ⟨k.parent, (h.get? q (get?_eq_some_lt hk)).trans hk⟩⟩

theorem Extends.parentOf (h : Extends a b) (hm : m.index < a.size) :
    b.parentOf (some m) = a.parentOf (some m) := by
  rw [parentOf_some, parentOf_some, h.get? m hm]

theorem exists_get? (hm : m.index < a.size) : ∃ k, a.get? m = some k :=
  Option.isSome_iff_exists.1 (isSome_get?_iff.2 hm)

namespace Retains

theorem refl (a : Arena) : Retains a a := ⟨le_rfl, fun _ k hk => ⟨k.parent, hk⟩⟩

theorem trans (h : Retains a b) (h' : Retains b b') : Retains a b' := by
  refine ⟨h.size.trans h'.size, fun q k hk => ?_⟩
  obtain ⟨owner, hb⟩ := h.get? q k hk
  obtain ⟨owner', hb'⟩ := h'.get? q _ hb
  exact ⟨owner', hb'⟩

variable (h : Retains a b) (hm : m.index < a.size)

include h hm

theorem look : ∃ k owner, a.get? m = some k ∧ b.get? m = some (k.withOwner owner) := by
  obtain ⟨k, hk⟩ := exists_get? hm
  obtain ⟨owner, hb⟩ := h.get? m k hk
  exact ⟨k, owner, hk, hb⟩

theorem type? : b.type? (some m) = a.type? (some m) := by
  obtain ⟨k, owner, hk, hb⟩ := h.look hm
  simp [Arena.type?, hk, hb, Node.withOwner]

theorem is (ty : NodeType) : b.is (some m) ty = a.is (some m) ty := by
  unfold Arena.is
  rw [h.type? hm]

theorem items (key : String) : b.items (some m) key = a.items (some m) key := by
  obtain ⟨k, owner, hk, hb⟩ := h.look hm
  simp only [Arena.items, look_some, hk, hb]
  rfl

theorem child? (key : String) : b.child? (some m) key = a.child? (some m) key := by
  obtain ⟨k, owner, hk, hb⟩ := h.look hm
  simp only [Arena.child?, look_some, hk, hb]
  rfl

theorem name? : b.name? (some m) = a.name? (some m) := by
  obtain ⟨k, owner, hk, hb⟩ := h.look hm
  simp only [Arena.name?, look_some, hk, hb]
  rfl

theorem children : b.children (some m) = a.children (some m) := by
  obtain ⟨k, owner, hk, hb⟩ := h.look hm
  rw [children_some, children_some, hk, hb]
  rfl

theorem under_iff (ha : a.Owned) (hb : b.Owned) :
    ReflTransGen b.OwnedBy n m ↔ ReflTransGen a.OwnedBy n m := by
  constructor
  · intro hn
    induction hn using ReflTransGen.head_induction_on with
    | refl => exact .refl
    | @head n p hown _ ih =>
      have hp : p.index < a.size := by
        rcases ReflTransGen.cases_head ih with rfl | ⟨o, ho, -⟩
        · exact hm
        · exact ho.lt
      have hchild := hb.mem_children hown
      rw [h.children hp] at hchild
      exact .head (ha.owner_of_child p n hchild) ih
  · intro hn
    induction hn using ReflTransGen.head_induction_on with
    | refl => exact .refl
    | @head n p hown hpm ih =>
      have hp : p.index < a.size := by
        rcases ReflTransGen.cases_head hpm with rfl | ⟨o, ho, -⟩
        · exact hm
        · exact ho.lt
      have hchild := ha.mem_children hown
      rw [← h.children hp] at hchild
      exact .head (hb.owner_of_child p n hchild) ih

end Retains

theorem lt_of_under (hm : m.index < a.size) (hn : ReflTransGen a.OwnedBy n m) :
    n.index < a.size := by
  rcases ReflTransGen.cases_head hn with rfl | ⟨p, hp, -⟩
  · exact hm
  · exact hp.lt

/-! ## subtrees written out -/

theorem toDatum_retained (ha : a.Owned) (h : Retains a b) (hr : r.index < a.size) :
    b.toDatum (some r) = a.toDatum (some r) := by
  have hlevels : b.datumLevels (b.size + 1) (some r) = a.datumLevels (b.size + 1) (some r) := by
    refine datumLevels_renamed (σ := id) ha fun m hm => ?_
    obtain ⟨k, owner, hk, hb⟩ := h.look (lt_of_under hr hm)
    have hid : k.values.map (Value.rename id) = k.values := by
      refine (List.map_congr_left fun v _ => ?_).trans (List.map_id k.values)
      cases v <;> simp [Value.rename]
    exact ⟨k, _, hk, hb, rfl, hid.symm, rfl⟩
  have hsize := h.size
  show b.datumLevels (b.size + 1) (some r) = a.datumLevels (a.size + 1) (some r)
  rw [hlevels, datumLevels_of_le ha hr (by omega), datumLevels_of_le ha hr (Nat.le_succ _)]

/-- A subtree written out, without what is attached to its nodes. -/
def bareDatum (a : Arena) (m : NodeId) : Datum := (final (strip (some m) a)).toDatum (some m)

theorem bareDatum_retained (ha : a.Owned) (hb : b.Owned) (h : Retains a b) (hm : m.index < a.size) :
    b.bareDatum m = a.bareDatum m := by
  have hstrip : Retains (final (strip (some m) a)) (final (strip (some m) b)) := by
    refine ⟨by rw [size_strip, size_strip]; exact h.size, fun q k hk => ?_⟩
    rw [get?_strip] at hk ⊢
    obtain ⟨k', hk', rfl⟩ := Option.map_eq_some_iff.1 hk
    obtain ⟨owner, hbk⟩ := h.get? q k' hk'
    have hmem : q ∈ b.preorder (some m) ↔ q ∈ a.preorder (some m) := by
      rw [mem_preorder hb (hm.trans_le h.size), mem_preorder ha hm, h.under_iff hm ha hb]
    refine ⟨owner, ?_⟩
    rw [hbk, Option.map_some]
    simp only [hmem]
    split <;> rfl
  exact toDatum_retained (owned_strip ha _) hstrip (by rwa [size_strip])

/-! ## kinds -/

/-- What kind a type is, where it is no union. -/
def kind (a : Arena) (m : NodeId) : Kind :=
  match a.typeClass m with
  | .base ty => .base ty
  | .generic name => .generic name
  | .other _ => .other (a.type? (some m)) (a.bareDatum m)

/-- The type is made of one of that kind. -/
def HasKind (a : Arena) (id : Option NodeId) (k : Kind) : Prop :=
  ∃ u m, id = some u ∧ a.Opens u m ∧ a.kind m = k

theorem typeClass_base_iff {ty : NodeType} :
    a.typeClass m = .base ty ↔ ty.isA .flowBase = true ∧ a.is (some m) ty = true := by
  refine ⟨fun h => ?_, fun ⟨hty, h⟩ => typeClass_base hty h⟩
  unfold typeClass at h
  unfold Arena.is
  split at h
  · cases h
  · next ty' _ hm =>
    split at h
    · next hbase =>
      obtain rfl := TypeClass.base.inj h
      exact ⟨hbase, by rw [hm]; exact beq_self_eq_true _⟩
    · cases h
  · cases h

theorem kind_base_iff {ty : NodeType} :
    a.kind m = .base ty ↔ ty.isA .flowBase = true ∧ a.is (some m) ty = true := by
  rw [← typeClass_base_iff]
  unfold kind
  cases a.typeClass m <;> simp

theorem typeClass_other (h : a.typeClass m = .other n) : m = n := by
  unfold typeClass at h
  split at h
  · cases h
  · split at h
    · cases h
    · exact TypeClass.other.inj h
  · exact TypeClass.other.inj h

theorem kind_eq_of_typeClass (h : a.typeClass m = a.typeClass n) : a.kind m = a.kind n := by
  unfold kind
  rw [← h]
  cases hm : a.typeClass m with
  | other c => rw [typeClass_other hm, typeClass_other (h.symm.trans hm)]
  | _ => rfl

theorem Retains.typeClass (h : Retains a b) (ha : a.Owned) (hm : m.index < a.size) :
    b.typeClass m = a.typeClass m := by
  have hname : b.name? (b.child? (some m) "id") = a.name? (a.child? (some m) "id") := by
    rw [h.child? hm]
    cases hc : a.child? (some m) "id" with
    | none => rfl
    | some c => exact h.name? (ha.owner_of_child m c (Tree.mem_children_of_child? hc)).lt
  unfold Arena.typeClass
  rw [h.type? hm, hname]

theorem kind_retained (ha : a.Owned) (hb : b.Owned) (h : Retains a b) (hm : m.index < a.size) :
    b.kind m = a.kind m := by
  unfold kind
  rw [h.typeClass ha hm, h.type? hm, bareDatum_retained ha hb h hm]

theorem opens_retained (ha : a.Owned) (h : Retains a b) (hu : u.index < a.size) :
    b.Opens u m ↔ a.Opens u m := by
  constructor
  · intro hm
    induction hm with
    | self _ hnot => exact .self hu (by rwa [← h.is hu])
    | @entry u c m hunion hc _ ih =>
      rw [h.is hu] at hunion
      rw [h.items hu] at hc
      exact .entry hunion hc (ih (ha.owner_of_child u c (mem_children_of_items hc)).lt)
  · intro hm
    induction hm with
    | self _ hnot => exact .self (hu.trans_le h.size) (by rwa [h.is hu])
    | @entry u c m hunion hc _ ih =>
      refine .entry (by rwa [h.is hu]) (by rwa [h.items hu]) (ih ?_)
      exact (ha.owner_of_child u c (mem_children_of_items hc)).lt

theorem hasKind_retained (ha : a.Owned) (hb : b.Owned) (h : Retains a b) {id : Option NodeId}
    (hid : ∀ u, id = some u → u.index < a.size) {k : Kind} : b.HasKind id k ↔ a.HasKind id k := by
  constructor
  · rintro ⟨u, m, rfl, hm, hk⟩
    have hm := (opens_retained ha h (hid u rfl)).1 hm
    exact ⟨u, m, rfl, hm, (kind_retained ha hb h hm.lt).symm.trans hk⟩
  · rintro ⟨u, m, rfl, hm, hk⟩
    exact ⟨u, m, rfl, (opens_retained ha h (hid u rfl)).2 hm,
      (kind_retained ha hb h hm.lt).trans hk⟩

/-! ## copies -/

theorem value?_copied {k : Node} {metadata : Bool} {owner : Option NodeId} (key : String) :
    (k.copied metadata σ owner).value? key = (k.value? key).map (Value.rename σ) := by
  unfold Node.value?
  rw [Node.type_copied, Node.values_copied]
  cases k.type.fieldPosition? key with
  | none => rfl
  | some i =>
    rw [Option.bind_some, Option.bind_some]
    exact List.getElem?_map

theorem child?_copied {k : Node} {metadata : Bool} {owner : Option NodeId} (key : String) :
    (k.copied metadata σ owner).child? key = (k.child? key).map σ := by
  unfold Node.child?
  rw [value?_copied]
  cases k.value? key with
  | none => rfl
  | some v => cases v <;> rfl

theorem name?_copied {k : Node} {metadata : Bool} {owner : Option NodeId} :
    (k.copied metadata σ owner).name? = k.name? := by
  have htext : (k.copied metadata σ owner).text? "name" = k.text? "name" := by
    unfold Node.text?
    rw [value?_copied]
    cases k.value? "name" with
    | none => rfl
    | some v => cases v <;> rfl
  unfold Node.name?
  rw [Node.type_copied, htext]

theorem bareDatum_eq_toDatum (ha : a.Owned) (hm : m.index < a.size)
    (hbare : ∀ q k, ReflTransGen a.OwnedBy q m → a.get? q = some k → k.extra = []) :
    a.bareDatum m = a.toDatum (some m) := by
  have hlevels : (final (strip (some m) a)).datumLevels (a.size + 1) (some m)
      = a.datumLevels (a.size + 1) (some m) := by
    refine datumLevels_renamed (σ := id) ha fun q hq => ?_
    obtain ⟨k, hk⟩ := exists_get? (lt_of_under hm hq)
    have hid : k.values.map (Value.rename id) = k.values := by
      refine (List.map_congr_left fun v _ => ?_).trans (List.map_id k.values)
      cases v <;> simp [Value.rename]
    refine ⟨k, k.bare, hk, ?_, rfl, hid.symm, (hbare q k hq hk).symm⟩
    rw [id_eq, get?_strip, hk, Option.map_some, if_pos ((mem_preorder ha hm).2 hq)]
  unfold bareDatum toDatum
  rw [size_strip]
  exact hlevels

/-- A copy is of the kind of the original. -/
theorem CopyOf.kind_eq (ha : a.WellOwned) (hb : b.Owned) (hr : r.index < a.size)
    (h : CopyOf a b false r c σ) :
    b.kind c = a.kind r := by
  obtain ⟨k, hk⟩ := exists_get? hr
  have hc := h.get? r k .refl hk
  rw [h.root, if_pos rfl] at hc
  have htype : b.type? (some c) = a.type? (some r) := by simp [Arena.type?, hc, hk]
  have hname : b.name? (b.child? (some c) "id") = a.name? (a.child? (some r) "id") := by
    have hchild : b.child? (some c) "id" = (a.child? (some r) "id").map σ := by
      simp only [Arena.child?, look_some, hc, hk, Option.bind_some, child?_copied]
    rw [hchild]
    cases hid : a.child? (some r) "id" with
    | none => rfl
    | some d =>
      have hown : a.OwnedBy d r := ha.owned.owner_of_child r d (Tree.mem_children_of_child? hid)
      obtain ⟨k', hk'⟩ := exists_get? hown.lt
      have hd := h.get? d k' (.single hown) hk'
      simp only [Arena.name?, Option.map_some, look_some, hd, hk', Option.bind_some, name?_copied]
  have hdatum : b.bareDatum c = a.bareDatum r := by
    refine (bareDatum_eq_toDatum hb (get?_eq_some_lt hc) fun q k hq hk => ?_).trans h.datum
    obtain ⟨n, hn, rfl⟩ := (h.under q).1 hq
    obtain ⟨k', hk'⟩ := exists_get? (lt_of_under hr hn)
    rw [h.get? n k' hn hk'] at hk
    rw [← Option.some.inj hk]
    rfl
  unfold kind typeClass
  rw [htype, hname, hdatum]
  cases a.type? (some r) with
  | none => rfl
  | some ty =>
    by_cases hbase : ty.isA .flowBase = true
    · cases ty <;> simp [hbase]
    · cases ty <;> simp [hbase]

end Arena

end ScopedTree
