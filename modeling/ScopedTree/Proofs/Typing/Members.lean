import ScopedTree.Proofs.Arena.Copy
import ScopedTree.Proofs.Scope.Declares
import ScopedTree.Typing.Union

/-!
# The types that a union is made of

Unions inside a union are opened, to any depth, and of the types that are found one of each class
stays. A class is a base type, or a generic type as its name is read, and any other type is a class
of its own.

* `Arena.Opens`, `Arena.Member`        the types that a type, or a list of types, is made of;
* `Arena.mem_unionMembers`             these are what is found, with levels enough;
* `Arena.Named`, `Arena.SameType`      the name of a generic type, and when two types are the same;
* `Arena.OneOfEach`                    one of each of them, and nothing else;
* `Arena.oneOfEach_distinctMembers`    one of each class is kept;
* `Arena.oneOfEach_sameType_iff`       **one of each type is kept if and only if classes tell them
  apart**.
-/

namespace ScopedTree.Arena

variable {a : Arena} {m m' n u c : NodeId} {types : List (Option NodeId)} {fuel : Nat}

/-! ## opening unions -/

/-- The type `u` is `m` and no union, or a union with an entry that is made of `m`. -/
inductive Opens (a : Arena) : NodeId → NodeId → Prop
  | self {m : NodeId} (hm : m.index < a.size)
    (hnot : a.is (some m) .unionType = false) : Opens a m m
  | entry {u c m : NodeId} (hu : a.is (some u) .unionType = true)
    (hc : some c ∈ a.items (some u) "types")
      (hm : Opens a c m) : Opens a u m

/-- The types that a list of types is made of. -/
def Member (a : Arena) (types : List (Option NodeId)) (m : NodeId) : Prop :=
  ∃ u, some u ∈ types ∧ a.Opens u m

/-- So many levels are enough for all types of a list that are there. -/
def SufficesAll (a : Arena) (fuel : Nat) (types : List (Option NodeId)) : Prop :=
  ∀ u, some u ∈ types → u.index < a.size → a.Suffices fuel u

theorem Opens.lt (h : a.Opens u m) : m.index < a.size := by
  induction h with
  | self hm => exact hm
  | entry _ _ _ ih => exact ih

theorem Opens.not_union (h : a.Opens u m) : a.is (some m) .unionType = false := by
  induction h with
  | self _ hnot => exact hnot
  | entry _ _ _ ih => exact ih

theorem Opens.start_lt (h : a.Opens u m) : u.index < a.size := by
  cases h with
  | self hm => exact hm
  | entry hu =>
    obtain ⟨k, hk, -⟩ := is_some.1 hu
    exact get?_eq_some_lt hk

/-- The entries of the unions in a list. -/
def opened (a : Arena) (types : List (Option NodeId)) : List (Option NodeId) :=
  (types.filter (a.is · .unionType)).flatMap (a.items · "types")

theorem mem_opened : some c ∈ a.opened types ↔
    ∃ u, some u ∈ types ∧ a.is (some u) .unionType = true ∧ some c ∈ a.items (some u) "types" := by
  rw [opened, List.mem_flatMap]
  constructor
  · rintro ⟨x, hx, hc⟩
    obtain ⟨hx, hu⟩ := List.mem_filter.1 hx
    cases x with
    | none => cases hu
    | some u => exact ⟨u, hx, hu, hc⟩
  · rintro ⟨u, hx, hu, hc⟩
    exact ⟨some u, List.mem_filter.2 ⟨hx, hu⟩, hc⟩

theorem member_iff : a.Member types m ↔
    some m ∈ types ∧ m.index < a.size ∧ a.is (some m) .unionType = false
    ∨ a.Member (a.opened types) m := by
  constructor
  · rintro ⟨u, hu, h⟩
    cases h with
    | self hm hnot => exact .inl ⟨hu, hm, hnot⟩
    | entry hunion hc hm => exact .inr ⟨_, mem_opened.2 ⟨u, hu, hunion, hc⟩, hm⟩
  · rintro (⟨hu, hm, hnot⟩ | ⟨c, hc, hm⟩)
    · exact ⟨m, hu, .self hm hnot⟩
    · obtain ⟨u, hu, hunion, hc⟩ := mem_opened.1 hc
      exact ⟨u, hu, .entry hunion hc hm⟩

theorem unionMembers_succ (a : Arena) (fuel : Nat) (types : List (Option NodeId)) :
    a.unionMembers (fuel + 1) types
      = if types.isEmpty then []
        else (types.filter fun x => !a.is x .unionType).filterMap
          (fun x => x.filter fun n => (a.get? n).isSome)
          ++ a.unionMembers fuel (a.opened types) := by
  rw [unionMembers]
  simp only [List.partition_eq_filter_filter, opened]
  rfl

theorem SufficesAll.opened (ha : a.Owned) (h : a.SufficesAll (fuel + 1) types) :
    a.SufficesAll fuel (a.opened types) := fun c hc _ => by
  obtain ⟨u, hu, hunion, hc⟩ := mem_opened.1 hc
  obtain ⟨k, hk, -⟩ := is_some.1 hunion
  exact (h u hu (get?_eq_some_lt hk)).child ha (mem_children_of_items hc)

theorem mem_unionMembers (ha : a.Owned) : ∀ {fuel : Nat} {types : List (Option NodeId)},
    a.SufficesAll fuel types → (m ∈ a.unionMembers fuel types ↔ a.Member types m)
  | 0, types, h => by
    refine ⟨fun hm => absurd hm List.not_mem_nil, fun ⟨u, hu, hm⟩ => ?_⟩
    exact absurd rfl ((h u hu hm.start_lt).pos ha)
  | fuel + 1, types, h => by
    have hself : m ∈ (types.filter fun x => !a.is x .unionType).filterMap
          (fun x => x.filter fun n => (a.get? n).isSome)
        ↔ some m ∈ types ∧ m.index < a.size ∧ a.is (some m) .unionType = false := by
      simp only [List.mem_filterMap, List.mem_filter, Option.filter_eq_some_iff, isSome_get?_iff]
      constructor
      · rintro ⟨_, ⟨hx, hnot⟩, rfl, hm⟩
        exact ⟨hx, hm, by simpa using hnot⟩
      · rintro ⟨hx, hm, hnot⟩
        exact ⟨some m, ⟨hx, by simp [hnot]⟩, rfl, hm⟩
    rw [unionMembers_succ, member_iff]
    split
    · next hnil =>
      obtain rfl := List.isEmpty_iff.1 hnil
      refine ⟨fun hm => absurd hm List.not_mem_nil, ?_⟩
      rintro (⟨hm, -⟩ | ⟨c, hc, -⟩)
      · exact absurd hm List.not_mem_nil
      · exact absurd hc List.not_mem_nil
    · rw [List.mem_append, hself, mem_unionMembers ha (h.opened ha)]

theorem unionMembers_enough (ha : a.Owned) : ∀ {fuel : Nat} {types : List (Option NodeId)},
    a.SufficesAll fuel types → a.unionMembers (fuel + 1) types = a.unionMembers fuel types
  | 0, types, h => by
    refine List.eq_nil_iff_forall_not_mem.2 fun m hm => ?_
    have hall : a.SufficesAll 1 types := fun u hu hlt => absurd rfl ((h u hu hlt).pos ha)
    obtain ⟨u, hu, hm⟩ := (mem_unionMembers ha hall).1 hm
    exact absurd rfl ((h u hu hm.start_lt).pos ha)
  | fuel + 1, types, h => by
    rw [unionMembers_succ, unionMembers_enough ha (h.opened ha), ← unionMembers_succ]

theorem sufficesAll_of_le (h : a.size ≤ fuel) (types : List (Option NodeId)) :
    a.SufficesAll fuel types :=
  fun _ _ hlt => suffices_of_le hlt h

theorem unionMembers_of_le (ha : a.Owned) (types : List (Option NodeId)) (h : a.size ≤ fuel) :
    a.unionMembers fuel types = a.unionMembers a.size types := by
  induction fuel, h using Nat.le_induction with
  | base => rfl
  | succ fuel h ih => exact (unionMembers_enough ha (sufficesAll_of_le h types)).trans ih

/-! ## types that are the same -/

/-- The name of a generic type, part by part: a plain name, or one that is qualified by another. -/
inductive Named (a : Arena) : Option NodeId → List String → Prop
  | plain {id : Option NodeId} {name : String} (h : a.name? id = some name) : Named a id [name]
  | qualified {id : Option NodeId} {first last : List String}
    (hid : a.is id .qualifiedTypeIdentifier = true)
      (hfirst : Named a (a.child? id "qualification") first)
      (hlast : Named a (a.child? id "id") last) :
      Named a id (first ++ last)

/-- The two are one node, of one base type, or generic types of one name. -/
inductive SameType (a : Arena) (m : NodeId) : NodeId → Prop
  | refl : SameType a m m
  | base {m' : NodeId} {ty : NodeType} (hty : ty.isA .flowBase = true)
    (hm : a.is (some m) ty = true)
      (hm' : a.is (some m') ty = true) : SameType a m m'
  | generic {m' : NodeId} {name : List String} (hm : a.is (some m) .genericType = true)
      (hm' : a.is (some m') .genericType = true) (hname : a.Named (a.child? (some m) "id") name)
      (hname' : a.Named (a.child? (some m') "id") name) : SameType a m m'

theorem name?_of_qualified {id : Option NodeId} (h : a.is id .qualifiedTypeIdentifier = true) :
    a.name? id = none := by
  unfold Arena.is type? at h
  unfold name?
  cases hn : a.look id with
  | none => rfl
  | some k =>
    have hty : k.type = .qualifiedTypeIdentifier := by simpa [hn] using h
    show k.name? = none
    unfold Node.name?
    rw [hty]

theorem Named.unique {id : Option NodeId} {name name' : List String} (h : a.Named id name)
    (h' : a.Named id name') :
    name = name' := by
  induction h generalizing name' with
  | plain h =>
    cases h' with
    | plain h' => rw [Option.some.inj (h.symm.trans h')]
    | qualified hid => cases h.symm.trans (name?_of_qualified hid)
  | qualified hid _ _ ih₁ ih₂ =>
    cases h' with
    | plain h' => cases h'.symm.trans (name?_of_qualified hid)
    | qualified _ h₁ h₂ => rw [ih₁ h₁, ih₂ h₂]

theorem Named.ne_nil {id : Option NodeId} {name : List String}
    (h : a.Named id name) : name ≠ [] := by
  induction h with
  | plain h => exact List.cons_ne_nil _ _
  | qualified _ _ _ ih => exact List.append_ne_nil_of_left_ne_nil ih _

theorem Named.length_ne_one {id id' : Option NodeId} {first last : List String}
    (h : a.Named id first) (h' : a.Named id' last) : (first ++ last).length ≠ 1 := by
  have := List.length_pos_iff.2 h.ne_nil
  have := List.length_pos_iff.2 h'.ne_nil
  rw [List.length_append]
  omega

theorem Named.name?_eq {id id' : Option NodeId} {name : List String} (h : a.Named id name)
    (h' : a.Named id' name) :
    a.name? id = a.name? id' := by
  have hlong {id : Option NodeId} {name : List String} (h : a.Named id name)
      (hlength : name.length ≠ 1) :
      a.name? id = none := by
    cases h with
    | plain => exact absurd rfl hlength
    | qualified hid => exact name?_of_qualified hid
  have hplain {id : Option NodeId} {name : List String} (h : a.Named id name) {s : String}
      (hs : name = [s]) :
      a.name? id = some s := by
    cases h with
    | plain h => rw [h, List.singleton_inj.1 hs]
    | qualified _ h₁ h₂ => exact absurd (congrArg List.length hs) (h₁.length_ne_one h₂)
  cases h with
  | plain h => rw [h, hplain h' rfl]
  | qualified hid h₁ h₂ => rw [name?_of_qualified hid, hlong h' (h₁.length_ne_one h₂)]

/-- The name that a generic type is told by: the plain one, or none. -/
def readName (a : Arena) (m : NodeId) : String := (a.name? (a.child? (some m) "id")).getD ""

theorem typeClass_generic (h : a.is (some m) .genericType = true) :
    a.typeClass m = .generic (a.readName m) := by
  unfold typeClass
  rw [beq_iff_eq.1 h]
  rfl

theorem typeClass_base {ty : NodeType} (hty : ty.isA .flowBase = true)
    (h : a.is (some m) ty = true) :
    a.typeClass m = .base ty := by
  unfold typeClass
  rw [beq_iff_eq.1 h]
  cases ty with
  | genericType => cases hty
  | _ => exact if_pos hty

theorem SameType.typeClass_eq (h : a.SameType m m') : a.typeClass m = a.typeClass m' := by
  cases h with
  | refl => rfl
  | base hty hm hm' => rw [typeClass_base hty hm, typeClass_base hty hm']
  | generic hm hm' hname hname' => rw [typeClass_generic hm, typeClass_generic hm', readName,
    readName, hname.name?_eq hname']

theorem SameType.symm (h : a.SameType m m') : a.SameType m' m := by
  cases h with
  | refl => exact .refl
  | base hty hm hm' => exact .base hty hm' hm
  | generic hm hm' hname hname' => exact .generic hm' hm hname' hname

theorem is_unique {ty ty' : NodeType} (h : a.is (some m) ty = true)
    (h' : a.is (some m) ty' = true) : ty = ty' :=
  Option.some.inj ((beq_iff_eq.1 h).symm.trans (beq_iff_eq.1 h'))

theorem SameType.trans (h : a.SameType m m') (h' : a.SameType m' n) : a.SameType m n := by
  cases h with
  | refl => exact h'
  | base hty hm hm' =>
    cases h' with
    | refl => exact .base hty hm hm'
    | base _ hm₁ hn => exact .base hty hm (is_unique hm' hm₁ ▸ hn)
    | generic hm₁ => exact absurd (is_unique hm' hm₁ ▸ hty) (by decide)
  | generic hm hm' hname hname' =>
    cases h' with
    | refl => exact .generic hm hm' hname hname'
    | base hty hm₁ => exact absurd (is_unique hm₁ hm' ▸ hty) (by decide)
    | generic _ hn hname₁ hnamen => exact .generic hm hn hname (hname'.unique hname₁ ▸ hnamen)

/-- Types of one class are the same, unless they are generic types whose names are read alike. -/
theorem sameType_of_typeClass (h : a.typeClass m = a.typeClass m')
    (hgeneric : a.is (some m) .genericType = true → a.is (some m') .genericType = true →
      a.SameType m m') :
    a.SameType m m' := by
  have hcases (n : NodeId) : (∃ ty, ty.isA .flowBase = true ∧ a.is (some n) ty = true)
      ∨ a.is (some n) .genericType = true ∨ a.typeClass n = .other n := by
    unfold typeClass
    cases hty : a.type? (some n) with
    | none => exact .inr (.inr rfl)
    | some ty =>
      by_cases hbase : ty.isA .flowBase = true
      · exact .inl ⟨ty, hbase, by simp [Arena.is, hty]⟩
      · cases ty with
        | genericType => exact .inr (.inl (by simp [Arena.is, hty]))
        | _ => exact .inr (.inr (if_neg hbase))
  rcases hcases m with ⟨ty, hty, hm⟩ | hm | hm <;> rcases hcases m' with ⟨ty', hty',
    hm'⟩ | hm' | hm'
  · rw [typeClass_base hty hm, typeClass_base hty' hm'] at h
    exact .base hty hm (TypeClass.base.inj h ▸ hm')
  · rw [typeClass_base hty hm, typeClass_generic hm'] at h
    cases h
  · rw [typeClass_base hty hm, hm'] at h
    cases h
  · rw [typeClass_generic hm, typeClass_base hty' hm'] at h
    cases h
  · exact hgeneric hm hm'
  · rw [typeClass_generic hm, hm'] at h
    cases h
  · rw [hm, typeClass_base hty' hm'] at h
    cases h
  · rw [hm, typeClass_generic hm'] at h
    cases h
  · rw [hm, hm'] at h
    obtain rfl := TypeClass.other.inj h
    exact .refl

/-! ## one of each -/

/-- Of the types in `M` the list has one of each kind, where `same` says which are of one kind. -/
structure OneOfEach (same : NodeId → NodeId → Prop) (M : NodeId → Prop)
    (chosen : List NodeId) : Prop where
  made : ∀ c ∈ chosen, M c
  all : ∀ m, M m → ∃ c ∈ chosen, same m c
  distinct : chosen.Pairwise fun c c' => ¬ same c c'

/-- The types of `ids` were sifted: of each class one stays. -/
structure Sifted (a : Arena) (ids : List NodeId) (kept : List (TypeClass × NodeId)) : Prop where
  made : ∀ x ∈ kept, x.1 = a.typeClass x.2 ∧ x.2 ∈ ids
  all : ∀ id ∈ ids, a.typeClass id ∈ kept.map (·.1)
  distinct : (kept.map (·.1)).Nodup

variable {ids : List NodeId} {kept : List (TypeClass × NodeId)}

theorem map_fst_addMember (a : Arena) (kept : List (TypeClass × NodeId)) (id : NodeId) :
    (a.addMember kept id).map (·.1)
      = if a.typeClass id ∈ kept.map (·.1) then kept.map (·.1)
      else kept.map (·.1) ++ [a.typeClass id] := by
  have hany : kept.any (·.1 == a.typeClass id) = true ↔ a.typeClass id ∈ kept.map (·.1) := by
    simp [List.any_eq_true, List.mem_map]
  unfold addMember
  dsimp only
  by_cases hmem : a.typeClass id ∈ kept.map (·.1)
  · rw [if_pos hmem, hany.2 hmem]
    cases hc : a.typeClass id with
    | base ty =>
      show (kept.map _).map _ = _
      rw [List.map_map]
      refine List.map_congr_left fun x _ => ?_
      by_cases hx : x.1 = .base ty <;> simp [hx]
    | _ => rfl
  · rw [if_neg hmem, Bool.eq_false_iff.2 (mt hany.1 hmem)]
    exact List.map_append

theorem mem_addMember {x : TypeClass × NodeId} (h : x ∈ a.addMember kept n) :
    x ∈ kept ∨ x = (a.typeClass n, n) := by
  unfold addMember at h
  dsimp only at h
  split at h
  · rcases List.mem_append.1 h with h | h
    · exact .inl h
    · exact .inr (List.mem_singleton.1 h)
  · split at h
    · obtain ⟨y, hy, rfl⟩ := List.mem_map.1 h
      split
      · exact .inr rfl
      · exact .inl hy
    · exact .inl h

theorem Sifted.addMember (h : a.Sifted ids kept) (id : NodeId) :
    a.Sifted (ids ++ [id]) (a.addMember kept id) where
  made x hx := by
    rcases mem_addMember hx with hx | rfl
    · exact ⟨(h.made x hx).1, List.mem_append_left _ (h.made x hx).2⟩
    · exact ⟨rfl, List.mem_append_right _ (List.mem_singleton_self id)⟩
  all n hn := by
    have hkept : a.typeClass n ∈ kept.map (·.1) ∨ n = id := by
      rcases List.mem_append.1 hn with hn | hn
      · exact .inl (h.all n hn)
      · exact .inr (List.mem_singleton.1 hn)
    rw [map_fst_addMember]
    split
    · next hmem => exact hkept.elim (fun h => h) fun he => he ▸ hmem
    · exact List.mem_append.2 (hkept.imp_right fun he => List.mem_singleton.2 (congrArg _ he))
  distinct := by
    rw [map_fst_addMember]
    split
    · exact h.distinct
    · next hmem => exact List.nodup_append.2 ⟨h.distinct, List.nodup_singleton _, by
        rintro c hc _ hid rfl
        exact hmem (List.mem_singleton.1 hid ▸ hc)⟩

theorem Sifted.foldl (h : a.Sifted ids kept) (more : List NodeId) :
    a.Sifted (ids ++ more) (more.foldl a.addMember kept) := by
  induction more generalizing ids kept with
  | nil => rwa [List.append_nil]
  | cons id more ih =>
    rw [List.append_cons]
    exact ih (h.addMember id)

theorem sifted_foldl (a : Arena) (ids : List NodeId) : a.Sifted ids (ids.foldl a.addMember []) := by
  have h : a.Sifted [] [] := ⟨by simp, by simp, List.nodup_nil⟩
  exact h.foldl ids

/-- Of three tests exactly one applies to each entry: to sort by them only changes the order. -/
theorem perm_filter₃ {α : Type} {p q r : α → Bool} (hp : ∀ x, p x = !(q x || r x))
    (hr : ∀ x, r x = true → q x = false) (l : List α) :
    (l.filter p ++ l.filter q ++ l.filter r).Perm l := by
  have hsplit := List.filter_append_perm (fun x => q x || r x) l
  have hrest : (l.filter q ++ l.filter r).Perm (l.filter fun x => q x || r x) := by
    have h := List.filter_append_perm q (l.filter fun x => q x || r x)
    rw [List.filter_filter, List.filter_filter] at h
    have hq : (fun x => q x && (q x || r x)) = q := funext fun x => by cases q x <;> simp
    have hr' : (fun x => (!q x) && (q x || r x)) = r := funext fun x => by
      cases hx : r x
      · cases q x <;> rfl
      · simp [hr x hx]
    rwa [hq, hr'] at h
  have hp' : l.filter p = l.filter fun x => !(q x || r x) := congrArg (List.filter · l) (funext hp)
  rw [List.append_assoc, hp']
  exact ((hrest.append_left _).trans List.perm_append_comm).trans hsplit

theorem perm_distinctMembers (a : Arena) (ids : List NodeId) :
    (a.distinctMembers ids).Perm ((ids.foldl a.addMember []).map (·.2)) := by
  unfold distinctMembers
  dsimp only
  rw [← List.map_append, ← List.map_append]
  refine (perm_filter₃ ?_ ?_ _).map _
  · rintro ⟨c, n⟩
    cases c <;> rfl
  · rintro ⟨c, n⟩ h
    cases c <;> first | rfl | cases h

theorem mem_distinctMembers :
    m ∈ a.distinctMembers ids ↔ ∃ c, (c, m) ∈ ids.foldl a.addMember [] := by
  rw [(perm_distinctMembers a ids).mem_iff]
  simp [List.mem_map]

/-- **One of each class is kept.** -/
theorem oneOfEach_distinctMembers (a : Arena) (ids : List NodeId) :
    OneOfEach (fun m c => a.typeClass m = a.typeClass c) (· ∈ ids) (a.distinctMembers ids) := by
  have h := sifted_foldl a ids
  refine ⟨fun c hc => ?_, fun m hm => ?_, ?_⟩
  · obtain ⟨k, hk⟩ := mem_distinctMembers.1 hc
    exact (h.made _ hk).2
  · obtain ⟨⟨c, n⟩, hx, hc⟩ := List.mem_map.1 (h.all m hm)
    exact ⟨n, mem_distinctMembers.2 ⟨c, hx⟩, hc.symm.trans (h.made _ hx).1⟩
  · have hmap : ((ids.foldl a.addMember []).map (·.2)).map a.typeClass
        = (ids.foldl a.addMember []).map (·.1) := by
      rw [List.map_map]
      exact List.map_congr_left fun x hx => (h.made x hx).1.symm
    have hnodup : ((a.distinctMembers ids).map a.typeClass).Nodup := by
      rw [((perm_distinctMembers a ids).map _).nodup_iff, hmap]
      exact h.distinct
    exact List.pairwise_map.1 hnodup

/-- **One of each type is kept if and only if classes tell different types apart.** -/
theorem oneOfEach_sameType_iff {M : NodeId → Prop} {chosen : List NodeId}
    (h : OneOfEach (fun m c => a.typeClass m = a.typeClass c) M chosen) :
    OneOfEach a.SameType M chosen
      ↔ ∀ m m', M m → M m' → a.typeClass m = a.typeClass m' → a.SameType m m' := by
  constructor
  · intro hone m m' hm hm' hclass
    obtain ⟨c, hc, hmc⟩ := hone.all m hm
    obtain ⟨c', hc', hmc'⟩ := hone.all m' hm'
    have hcc : a.typeClass c = a.typeClass c' :=
      (hmc.typeClass_eq.symm.trans hclass).trans hmc'.typeClass_eq
    obtain rfl : c = c' := List.inj_on_of_nodup_map (List.pairwise_map.2 h.distinct) hc hc' hcc
    exact hmc.trans hmc'.symm
  · intro htold
    refine ⟨h.made, fun m hm => ?_, h.distinct.imp fun hne hsame => hne hsame.typeClass_eq⟩
    obtain ⟨c, hc, hmc⟩ := h.all m hm
    exact ⟨c, hc, htold m c hm (h.made c hc) hmc⟩

end ScopedTree.Arena
