import ScopedTree.Proofs.Arena.Relist
import ScopedTree.Proofs.Scope.Unread

/-!
# What patterns bind

The search for the identifiers that a node binds keeps a queue. It comes to its end, and it finds
what is found level by level. Since no node stands in two places, it finds no identifier twice, and
what it finds in a pattern are the identifiers in the places where patterns bind, and nothing that
stands elsewhere.

* `Arena.Searches`              the search with its queue, up to its end;
* `Arena.searches`              it ends, and finds what is found level by level;
* `Arena.bindingLevels_flatMap`, `Arena.nodup_bindingLevels`   what is found from several nodes, and
  from one;
* `Arena.PartOf`, `Arena.Pattern`, `Arena.BoundBy`   patterns, and what they bind;
* `Arena.Omits`                 what stands in patterns and is not bound;
* `Arena.bindingIds_exact`      **what a pattern binds is found, once, and nothing else**.
-/

namespace ScopedTree

theorem NodeType.nodup_bindingKeys (ty : NodeType) : ty.bindingKeys.Nodup := by cases ty <;> decide

theorem NodeType.not_mem_bindingKeys (ty : NodeType) : "type_annotation" ∉ "declaration"
    :: ty.bindingKeys := by
  cases ty <;> decide

namespace Arena

open Relation

variable {a : Arena} {outer : Bool} {d f i m n p q v : NodeId} {o : Node} {name : String}
  {ty : NodeType} {level queue : List NodeId} {found found' : List (String × NodeId)}

/-! ## the search -/

def ownName? (a : Arena) (n : NodeId) : Option (String × NodeId) :=
  (a.get? n).bind fun o => if o.type == .identifier then o.name?.map (·, n) else none

/-- Where the search goes on from a node. -/
def nextOf (a : Arena) (outer : Bool) (n : NodeId) : List NodeId :=
  (a.get? n).elim [] fun o => (a.bindingTargets outer o).reduceOption

/-- The search with its queue. The first node is taken out and looked at, and where to go on from it
comes to the end of the queue, until the queue is empty. -/
inductive Searches (a : Arena) (outer : Bool) : List NodeId → List (String × NodeId) → Prop
  | done : Searches a outer [] []
  | look {n : NodeId} {queue : List NodeId} {found : List (String × NodeId)}
      (h : Searches a outer (queue ++ a.nextOf outer n) found) :
      Searches a outer (n :: queue) ((a.ownName? n).toList ++ found)

theorem Searches.unique (h : a.Searches outer queue found) (h' : a.Searches outer queue found') :
    found = found' := by
  induction h generalizing found' with
  | done =>
    cases h'
    rfl
  | look _ ih =>
    cases h' with
    | look h' => rw [ih h']

theorem searches_cons : a.Searches outer (n :: queue) found
    ↔ ∃ rest, found = (a.ownName? n).toList ++ rest
    ∧ a.Searches outer (queue ++ a.nextOf outer n) rest := by
  constructor
  · intro h
    cases h with
    | look h => exact ⟨_, rfl, h⟩
  · rintro ⟨rest, rfl, h⟩
    exact .look h

theorem Searches.ofLevel : ∀ {level queue : List NodeId},
    a.Searches outer (queue ++ level.flatMap (a.nextOf outer)) found →
    a.Searches outer (level ++ queue) (level.filterMap a.ownName? ++ found)
  | [], queue, h => by simpa using h
  | n :: level, queue, h => by
    have hrest : a.Searches outer (level ++ (queue ++ a.nextOf outer n))
        (level.filterMap a.ownName? ++ found) := by
      apply Searches.ofLevel
      rwa [List.append_assoc, ← List.flatMap_cons]
    have hlook := Searches.look ((List.append_assoc ..).symm ▸ hrest)
    rw [← List.append_assoc] at hlook
    rw [List.filterMap_cons]
    cases hown : a.ownName? n <;> simpa [hown] using hlook

theorem bindingLevels_nil (fuel : Nat) : a.bindingLevels outer fuel [] = [] := by cases fuel <;> rfl

theorem bindingLevels_succ (fuel : Nat) (level : List NodeId) :
    a.bindingLevels outer (fuel + 1) level
    = level.filterMap a.ownName? ++ a.bindingLevels outer fuel
    (level.flatMap (a.nextOf outer)) := by
  cases level with
  | nil => exact (bindingLevels_nil fuel).symm
  | cons n level =>
    rw [bindingLevels.eq_3 _ _ _ _ (List.cons_ne_nil _ _)]
    rfl

theorem mem_nextOf :
    m ∈ a.nextOf outer n ↔ ∃ o, a.get? n = some o ∧ some m ∈ a.bindingTargets outer o := by
  unfold nextOf
  cases a.get? n with
  | none => simp
  | some o => simp [List.reduceOption_mem_iff]

theorem ownedBy_of_mem_nextOf (ha : a.Owned) (h : m ∈ a.nextOf outer n) : a.OwnedBy m n := by
  obtain ⟨o, ho, hm⟩ := mem_nextOf.1 h
  apply ha.owner_of_child
  rw [children_some, ho]
  exact mem_children_of_bindingTargets hm

theorem searches_levels (ha : a.Owned) : ∀ (fuel : Nat) (level : List NodeId),
    (∀ n ∈ level, a.size < fuel + (a.above n).card) →
    a.Searches outer level (a.bindingLevels outer fuel level)
  | 0, level, hfuel => by
    have hlevel : level = [] := List.eq_nil_iff_forall_not_mem.2 fun n hn => by
      have := hfuel n hn
      have := a.card_above_le n
      omega
    rw [hlevel]
    exact .done
  | fuel + 1, level, hfuel => by
    have hnext := searches_levels ha fuel (level.flatMap (a.nextOf outer)) fun m hm => by
      obtain ⟨n, hn, hm⟩ := List.mem_flatMap.1 hm
      have := hfuel n hn
      have := card_above_lt ha (ownedBy_of_mem_nextOf ha hm)
      omega
    rw [← List.nil_append (level.flatMap _)] at hnext
    have hlevel := hnext.ofLevel
    rwa [List.append_nil, List.nil_append, ← bindingLevels_succ] at hlevel

/-- **The search ends.** -/
theorem searches (ha : a.Owned) (outer : Bool) (level : List NodeId) :
    a.Searches outer level (a.bindingLevels outer (a.size + 1) level) :=
  searches_levels ha _ level fun _ _ => by omega

theorem bindingIds_eq_of_searches (ha : a.Owned) {target : Option NodeId}
    (h : a.Searches outer target.toList found) : a.bindingIds target outer = groupByName found :=
  congrArg groupByName ((searches ha outer _).unique h)

theorem bindingIds_eq_of_nextOf (ha : a.Owned) {target : Option NodeId} (hown : a.ownName? n = none)
    (hnext : a.nextOf outer n = target.toList) :
    a.bindingIds (some n) outer = a.bindingIds target outer := by
  apply bindingIds_eq_of_searches ha
  refine searches_cons.2 ⟨_, ?_, searches ha outer _⟩
  rw [hown, hnext]
  rfl

/-! ## no node twice -/

theorem bindingLevels_append (fuel : Nat) (l₁ l₂ : List NodeId) :
    (a.bindingLevels outer fuel (l₁ ++ l₂)).Perm
    (a.bindingLevels outer fuel l₁ ++ a.bindingLevels outer fuel l₂) := by
  induction fuel generalizing l₁ l₂ with
  | zero => exact .refl _
  | succ fuel ih =>
    simp only [bindingLevels_succ, List.filterMap_append, List.flatMap_append, List.append_assoc]
    refine List.Perm.append_left _ ?_
    exact ((ih _ _).append_left _).trans (List.perm_append_comm_assoc ..)

/-- What is found from several nodes is found from the single ones. -/
theorem bindingLevels_flatMap (fuel : Nat) (level : List NodeId) :
    (a.bindingLevels outer fuel level).Perm (level.flatMap fun n =>
      a.bindingLevels outer fuel [n]) := by
  induction level with
  | nil => rw [bindingLevels_nil, List.flatMap_nil]
  | cons n level ih => exact (bindingLevels_append fuel [n] level).trans (ih.append_left _)

theorem Binds.within (ha : a.Owned) (h : a.Binds outer n name i) : ReflTransGen a.OwnedBy i n := by
  induction h with
  | here => exact .refl
  | inside hn hm _ ih => exact ih.tail (ownedBy_of_mem_nextOf ha (mem_nextOf.2 ⟨_, hn, hm⟩))

theorem below_of_mem_bindingLevels (ha : a.Owned) {fuel : Nat}
    (h : i ∈ (a.bindingLevels outer fuel [n]).map (·.2)) : ReflTransGen a.OwnedBy i n := by
  obtain ⟨⟨name, _⟩, hmem, rfl⟩ := List.mem_map.1 h
  obtain ⟨n', hn', hb⟩ := binds_of_mem_levels _ _ _ _ hmem
  rw [← List.mem_singleton.1 hn']
  exact hb.within ha

theorem nodup_flatMap_below (ha : a.Owned) {l : List NodeId} {g : NodeId → List NodeId}
    (hl : l.Nodup) (hown : ∀ m ∈ l, a.OwnedBy m n) (hg : ∀ m, (g m).Nodup)
    (hbelow : ∀ m, ∀ i ∈ g m, ReflTransGen a.OwnedBy i m) : (l.flatMap g).Nodup := by
  refine List.nodup_flatMap.2 ⟨fun m _ => hg m, hl.pairwise_of_forall_ne ?_⟩
  intro m hm m' hm' hne i hi hi'
  exact ha.not_above_sibling (hown m hm) (hown m' hm') hne.symm (hbelow m i hi) (hbelow m' i hi')

theorem holds_of_mem_handles {key : String} (h : some m ∈ (o.value? key).elim [] (·.handles)) :
    o.holds key (some m) = true := by
  cases hv : o.value? key with
  | none => simp [hv] at h
  | some v => exact holds_iff.2 ⟨v, hv, by simpa [hv] using h⟩

theorem nodup_nextOf (ha : a.Owned) (outer : Bool) (n : NodeId) : (a.nextOf outer n).Nodup := by
  unfold nextOf
  cases ho : a.get? n with
  | none => exact List.nodup_nil
  | some o =>
    have hone : ∀ c : Option NodeId, [c].reduceOption.Nodup :=
      fun c => by cases c <;> simp [List.reduceOption]
    rw [Option.elim_some]
    unfold bindingTargets
    dsimp only
    split
    · exact List.nodup_nil
    split
    · split
      · exact hone _
      · exact List.nodup_nil
    split
    · exact hone _
    split
    · exact List.nodup_nil
    rw [List.reduceOption, List.filterMap_flatMap, List.nodup_flatMap]
    refine ⟨fun key _ => ?_, (NodeType.nodup_bindingKeys _).pairwise_of_forall_ne ?_⟩
    · cases hv : o.value? key with
      | none => exact List.nodup_nil
      | some v => exact List.nodup_iff_count_le_one.2 (ha.count_field_le_one ho hv)
    · intro key _ key' _ hne m hm hm'
      have hkey := holds_of_mem_handles (List.reduceOption_mem_iff.1 hm)
      exact hne (ha.key_unique ho hkey (holds_of_mem_handles (List.reduceOption_mem_iff.1 hm')))

theorem ownName?_eq_some : a.ownName? n = some (name, i)
    ↔ i = n ∧ a.is (some n) .identifier ∧ a.name? (some n) = some name := by
  unfold ownName?
  rw [is_some]
  cases ho : a.get? n with
  | none => simp
  | some o =>
    have hnode : a.name? (some n) = o.name? := by simp [Arena.name?, ho]
    rw [Option.bind_some, hnode]
    by_cases hty : o.type = .identifier
    · rw [if_pos (beq_iff_eq.2 hty), Option.map_eq_some_iff]
      constructor
      · rintro ⟨_, hname, heq⟩
        obtain ⟨rfl, rfl⟩ := Prod.mk.inj heq
        exact ⟨rfl, ⟨o, rfl, hty⟩, hname⟩
      · rintro ⟨rfl, _, hname⟩
        exact ⟨name, hname, rfl⟩
    · simp [hty]

theorem nextOf_identifier (hn : a.is (some n) .identifier) : a.nextOf outer n = [] := by
  obtain ⟨o, ho, hty⟩ := is_some.1 hn
  simp [nextOf, ho, bindingTargets, hty]

theorem nodup_bindingLevels (ha : a.Owned) : ∀ (fuel : Nat) (n : NodeId),
    ((a.bindingLevels outer fuel [n]).map (·.2)).Nodup
  | 0, _ => List.nodup_nil
  | fuel + 1, n => by
    rw [bindingLevels_succ, List.flatMap_singleton]
    cases hown : a.ownName? n with
    | some e =>
      obtain ⟨-, hid, -⟩ := ownName?_eq_some.1 hown
      rw [nextOf_identifier hid, bindingLevels_nil]
      simp [hown]
    | none =>
      have hperm : (a.bindingLevels outer fuel (a.nextOf outer n)).Perm _ :=
        bindingLevels_flatMap ..
      have hnil : [n].filterMap a.ownName? = [] := by simp [hown]
      rw [hnil, List.nil_append, (hperm.map _).nodup_iff, List.map_flatMap]
      refine nodup_flatMap_below ha (nodup_nextOf ha outer n)
        (fun m => ownedBy_of_mem_nextOf ha) ?_ ?_
      · exact nodup_bindingLevels ha fuel
      · exact fun m i => below_of_mem_bindingLevels ha

/-! ## patterns -/

/-- `m` stands in `p` where patterns bind: what `m` binds, `p` binds. -/
inductive PartOf (a : Arena) (p m : NodeId) : Prop
  | property (hp : a.is (some p) .objectPattern) (hm : some m ∈ a.items (some p) "properties")
  | value (hp : a.is (some p) .objectProperty ∨ a.is (some p) .assignmentProperty)
      (hm : a.child? (some p) "value" = some m)
  | element (hp : a.is (some p) .arrayPattern) (hm : some m ∈ a.items (some p) "elements")
  | target (hp : a.is (some p) .assignmentPattern) (hm : a.child? (some p) "left" = some m)
  | rest (hp : a.is (some p) .restElement ∨ a.is (some p) .restProperty)
      (hm : a.child? (some p) "argument" = some m)

/-- Patterns, which are made of patterns in the places where they bind. Lists may have holes. -/
inductive Pattern (a : Arena) : NodeId → Prop
  | identifier {p : NodeId} (hp : a.is (some p) .identifier) : Pattern a p
  | member {p : NodeId} (hp : a.is (some p) .memberExpression) : Pattern a p
  | compound {p : NodeId} {ty : NodeType} (hp : a.is (some p) ty)
      (hty : ty ∈ [.objectPattern, .objectProperty, .assignmentProperty, .restProperty,
        .arrayPattern, .assignmentPattern, .restElement])
      (h : ∀ m, a.PartOf p m → Pattern a m) : Pattern a p

/-- The pattern `p` binds the identifier `i`. -/
def BoundBy (a : Arena) (p i : NodeId) : Prop :=
  ReflTransGen a.PartOf p i ∧ a.is (some i) .identifier

/-- `m` stands in `q` where no pattern binds: it is a key, computed or not, a default value, a type
annotation or a part of a member expression. -/
inductive Omits (a : Arena) (q m : NodeId) : Prop
  | key (hq : a.is (some q) .objectProperty ∨ a.is (some q) .assignmentProperty)
      (hm : a.child? (some q) "key" = some m)
  | default (hq : a.is (some q) .assignmentPattern) (hm : a.child? (some q) "right" = some m)
  | annotation (hm : a.child? (some q) "type_annotation" = some m)
  | operand (hq : a.is (some q) .memberExpression)
      (hm : a.child? (some q) "object" = some m ∨ a.child? (some q) "property" = some m)

/-! ## what patterns bind -/

theorem nextOf_of_slot {key : String} (ha : a.Shaped) (hn : a.is (some n) ty) (h : ty.BindsSlot key)
    (hkeys : ty.bindingKeys = [key]) : a.nextOf outer n = (a.child? (some n) key).toList := by
  obtain ⟨o, ho, rfl⟩ := is_some.1 hn
  obtain ⟨hplain, _, f, hf, hname, hk⟩ := h
  have hchild : a.child? (some n) key = o.child? key := by simp [child?, ho]
  rw [nextOf, ho, Option.elim_some, bindingTargets_of_bindsPlainly hplain, hkeys,
    List.flatMap_singleton,
    handles_of_slot (ha n o ho) hf hname hk, List.reduceOption_singleton, hchild]

theorem nextOf_of_list {key : String} (ha : a.Shaped) (hn : a.is (some n) ty)
    (h : ty.BindsList key) :
    a.nextOf outer n = (a.items (some n) key).reduceOption := by
  obtain ⟨o, ho, rfl⟩ := is_some.1 hn
  have hitems : a.items (some n) key = o.items key := by simp [Arena.items, ho]
  rw [nextOf, ho, Option.elim_some, bindingTargets_of_list (ha n o ho) h, hitems]

theorem nextOf_memberExpression (hn : a.is (some n) .memberExpression) : a.nextOf outer n = [] := by
  obtain ⟨o, ho, hty⟩ := is_some.1 hn
  have hplain : o.type.bindsPlainly := by rw [hty]; decide
  rw [nextOf, ho, Option.elim_some, bindingTargets_of_bindsPlainly hplain, hty]
  rfl

theorem mem_nextOf_of_slot {key : String} (ha : a.Shaped) (hn : a.is (some n) ty)
    (h : ty.BindsSlot key) (hkeys : ty.bindingKeys = [key]) :
    m ∈ a.nextOf outer n ↔ a.child? (some n) key = some m := by
  rw [nextOf_of_slot ha hn h hkeys, Option.mem_toList]

theorem mem_nextOf_of_list {key : String} (ha : a.Shaped) (hn : a.is (some n) ty)
    (h : ty.BindsList key) :
    m ∈ a.nextOf outer n ↔ some m ∈ a.items (some n) key := by
  rw [nextOf_of_list ha hn h, List.reduceOption_mem_iff]

theorem PartOf.mem_nextOf (ha : a.Shaped) (h : a.PartOf p m) : m ∈ a.nextOf outer p := by
  cases h with
  | property hp hm => exact (mem_nextOf_of_list ha hp (by decide)).2 hm
  | value hp hm => rcases hp with hp | hp <;> exact (mem_nextOf_of_slot ha hp (by decide) rfl).2 hm
  | element hp hm => exact (mem_nextOf_of_list ha hp (by decide)).2 hm
  | target hp hm => exact (mem_nextOf_of_slot ha hp (by decide) rfl).2 hm
  | rest hp hm => rcases hp with hp | hp <;> exact (mem_nextOf_of_slot ha hp (by decide) rfl).2 hm

theorem Pattern.partOf (ha : a.Shaped) (hp : a.Pattern p) (hm : m ∈ a.nextOf outer p) :
    a.PartOf p m ∧ a.Pattern m := by
  cases hp with
  | identifier hp =>
    rw [nextOf_identifier hp] at hm
    cases hm
  | member hp =>
    rw [nextOf_memberExpression hp] at hm
    cases hm
  | compound hp hty h =>
    suffices hpart : a.PartOf p m from ⟨hpart, h m hpart⟩
    simp only [List.mem_cons, List.not_mem_nil, or_false] at hty
    rcases hty with rfl | rfl | rfl | rfl | rfl | rfl | rfl
    · exact .property hp ((mem_nextOf_of_list ha hp (by decide)).1 hm)
    · exact .value (.inl hp) ((mem_nextOf_of_slot ha hp (by decide) rfl).1 hm)
    · exact .value (.inr hp) ((mem_nextOf_of_slot ha hp (by decide) rfl).1 hm)
    · exact .rest (.inr hp) ((mem_nextOf_of_slot ha hp (by decide) rfl).1 hm)
    · exact .element hp ((mem_nextOf_of_list ha hp (by decide)).1 hm)
    · exact .target hp ((mem_nextOf_of_slot ha hp (by decide) rfl).1 hm)
    · exact .rest (.inl hp) ((mem_nextOf_of_slot ha hp (by decide) rfl).1 hm)

theorem Binds.boundBy (ha : a.Shaped) (h : a.Binds outer p name i)
    (hp : a.Pattern p) : a.BoundBy p i := by
  induction h with
  | here ho hty _ => exact ⟨.refl, is_some.2 ⟨_, ho, hty⟩⟩
  | inside ho hm _ ih =>
    obtain ⟨hpart, hm⟩ := hp.partOf ha (mem_nextOf.2 ⟨_, ho, hm⟩)
    obtain ⟨hpath, hid⟩ := ih hm
    exact ⟨.head hpart hpath, hid⟩

theorem BoundBy.binds (ha : a.Shaped) (h : a.BoundBy p i) (hname : a.name? (some i) = some name) :
    a.Binds outer p name i := by
  obtain ⟨hpath, hid⟩ := h
  induction hpath using ReflTransGen.head_induction_on with
  | refl => exact binds_identifier hid hname
  | head hpart _ ih =>
    obtain ⟨o, ho, hm⟩ := mem_nextOf.1 (hpart.mem_nextOf ha)
    exact .inside ho hm ih

theorem exists_name? (ha : a.Shaped) (hi : a.is (some i) .identifier) :
    ∃ name, a.name? (some i) = some name := by
  obtain ⟨o, ho, hty⟩ := is_some.1 hi
  have hf : (⟨"name", .str⟩ : Field) ∈ o.type.fields := by
    rw [hty]
    exact List.mem_cons_self ..
  obtain ⟨v, hv, hfit⟩ := (ha i o ho).value?_of_mem hf
  cases v with
  | str s => exact ⟨s, by simp [Arena.name?, ho, Node.name?, hty, Node.text?, hv]⟩
  | _ => cases hfit

theorem mem_bindingLevels_iff (ha : a.Owned) :
    (name, i) ∈ a.bindingLevels outer (a.size + 1) [n] ↔ a.Binds outer n name i := by
  constructor
  · intro h
    obtain ⟨n', hn', hb⟩ := binds_of_mem_levels _ _ _ _ h
    rwa [← List.mem_singleton.1 hn']
  · intro hb
    exact mem_bindingLevels ha hb _ _ (List.mem_singleton_self n) (by omega)

theorem mem_flatMap_bindingIds (ha : a.Owned) :
    i ∈ (a.bindingIds (some n) outer).flatMap (·.2) ↔ ∃ name, a.Binds outer n name i := by
  rw [bindingIds, (flatMap_groupByName _).mem_iff, List.mem_map]
  constructor
  · rintro ⟨⟨name, i⟩, hmem, rfl⟩
    exact ⟨name, (mem_bindingLevels_iff ha).1 hmem⟩
  · rintro ⟨name, hb⟩
    exact ⟨(name, i), (mem_bindingLevels_iff ha).2 hb, rfl⟩

/-! ## what patterns leave out -/

theorem Binds.path (h : a.Binds outer n name i) :
    ReflTransGen (fun n m => m ∈ a.nextOf outer n) n i := by
  induction h with
  | here => exact .refl
  | inside hn hm _ ih => exact .head (mem_nextOf.2 ⟨_, hn, hm⟩) ih

theorem mem_nextOf_of_path (ha : a.Owned)
    (hpath : ReflTransGen (fun n m => m ∈ a.nextOf outer n) p i) (hq : ReflTransGen a.OwnedBy q p)
    (hm : a.OwnedBy m q) (hi : ReflTransGen a.OwnedBy i m) :
    m ∈ a.nextOf outer q := by
  induction hpath with
  | refl => exact absurd (TransGen.head' hm (hq.trans hi)) (ha.acyclic m)
  | @tail k i _ hki ih =>
    have hown := ownedBy_of_mem_nextOf ha hki
    rcases ReflTransGen.cases_head hi with rfl | ⟨k', hk', hkm⟩
    · obtain rfl := hown.unique hm
      exact hki
    · obtain rfl := hown.unique hk'
      exact ih hkm

theorem holds_of_mem_nextOf (h : m ∈ a.nextOf outer n) : ∃ o key,
    a.get? n = some o ∧ key ∈ "declaration" :: o.type.bindingKeys
    ∧ o.holds key (some m) = true := by
  obtain ⟨o, ho, hm⟩ := mem_nextOf.1 h
  have hchild : ∀ {key : String}, some m ∈ [o.child? key] → o.holds key (some m) = true :=
    fun hm => holds_of_child? (List.mem_singleton.1 hm).symm
  unfold bindingTargets at hm
  dsimp only at hm
  split at hm
  · cases hm
  split at hm
  · split at hm
    · exact ⟨o, "declaration", ho, List.mem_cons_self .., hchild hm⟩
    · cases hm
  split at hm
  · next hty =>
    have hty : o.type = .functionDeclaration := by simpa using (Bool.and_eq_true_iff.1 hty).2
    exact ⟨o, "id", ho, by rw [hty]; decide, hchild hm⟩
  split at hm
  · cases hm
  obtain ⟨key, hkey, hm⟩ := List.mem_flatMap.1 hm
  exact ⟨o, key, ho, List.mem_cons_of_mem _ hkey, holds_of_mem_handles hm⟩

theorem Omits.holds (h : a.Omits q m) : ∃ o key,
    a.get? q = some o ∧ key ∉ "declaration" :: o.type.bindingKeys
    ∧ o.holds key (some m) = true := by
  have hchild : ∀ {ty : NodeType} {key : String}, a.is (some q) ty →
      key ∉ "declaration" :: ty.bindingKeys → a.child? (some q) key = some m → ∃ o key,
      a.get? q = some o ∧ key ∉ "declaration" :: o.type.bindingKeys
      ∧ o.holds key (some m) = true := by
    intro ty key hq hkey hm
    obtain ⟨o, ho, rfl⟩ := is_some.1 hq
    exact ⟨o, key, ho, hkey, holds_of_child? (by simpa [child?, ho] using hm)⟩
  cases h with
  | key hq hm => exact hq.elim (hchild · (by decide) hm) (hchild · (by decide) hm)
  | default hq hm => exact hchild hq (by decide) hm
  | operand hq hm => exact hm.elim (hchild hq (by decide)) (hchild hq (by decide))
  | annotation hm =>
    obtain ⟨o, ho, hm'⟩ := Option.bind_eq_some_iff.1 hm
    exact hchild (is_some.2 ⟨o, ho, rfl⟩) (NodeType.not_mem_bindingKeys _) hm

theorem Omits.not_binds (ha : a.Owned) (h : a.Omits q m) (hq : ReflTransGen a.OwnedBy q p)
    (hi : ReflTransGen a.OwnedBy i m) : ¬ a.Binds outer p name i := by
  intro hb
  obtain ⟨o, key, ho, hkey, hholds⟩ := h.holds
  obtain ⟨v, hv, hmem⟩ := holds_iff.1 hholds
  have hm : a.OwnedBy m q := ha.owner_of_field ho hv (List.reduceOption_mem_iff.2 hmem)
  obtain ⟨o', key', ho', hkey', hholds'⟩ :=
    holds_of_mem_nextOf (mem_nextOf_of_path ha hb.path hq hm hi)
  obtain rfl := Option.some.inj (ho.symm.trans ho')
  exact hkey (ha.key_unique ho hholds hholds' ▸ hkey')

/-! ## exactness -/

/-- The groups are those of the identifiers that the pattern binds: each is there once, under its
name, and nothing else is. -/
structure ListsBound (a : Arena) (p : NodeId) (found : Table (List NodeId)) : Prop where
  nodup_names : found.names.Nodup
  mem_names_iff : ∀ name, name ∈ found.names ↔ ∃ i, a.BoundBy p i ∧ a.name? (some i) = some name
  /-- no identifier is there twice -/
  nodup_ids : (found.flatMap (·.2)).Nodup
  mem_ids_iff : ∀ i, i ∈ found.flatMap (·.2) ↔ a.BoundBy p i
  /-- each is listed under its own name -/
  name?_eq : ∀ name ids i, (name, ids) ∈ found → i ∈ ids → a.name? (some i) = some name
  /-- keys, default values, type annotations, parts of member expressions and what lies below them
  are not -/
  omits : ∀ q m i, ReflTransGen a.OwnedBy q p → a.Omits q m → ReflTransGen a.OwnedBy i m →
    i ∉ found.flatMap (·.2)

theorem Pattern.listsBound (ha : a.WellOwned) (hp : a.Pattern p) (outer : Bool) :
    a.ListsBound p (a.bindingIds (some p) outer) where
  nodup_names := nodup_names_groupByName _
  mem_names_iff name := by
    rw [bindingIds, mem_names_groupByName]
    constructor
    · rintro ⟨i, hi⟩
      have hb := (mem_bindingLevels_iff ha.owned).1 hi
      exact ⟨i, hb.boundBy ha.shaped hp, hb.name?⟩
    · rintro ⟨i, hi, hname⟩
      exact ⟨i, (mem_bindingLevels_iff ha.owned).2 (hi.binds ha.shaped hname)⟩
  nodup_ids := (flatMap_groupByName _).nodup_iff.2 (nodup_bindingLevels ha.owned _ p)
  mem_ids_iff i := by
    rw [mem_flatMap_bindingIds ha.owned]
    constructor
    · rintro ⟨name, hb⟩
      exact hb.boundBy ha.shaped hp
    · intro hi
      obtain ⟨name, hname⟩ := exists_name? ha.shaped hi.2
      exact ⟨name, hi.binds ha.shaped hname⟩
  name?_eq name ids i hmem hi := by
    obtain ⟨n, _, hb⟩ := mem_bindingIds hmem hi
    exact hb.name?
  omits q m i hq hm hi hmem := by
    obtain ⟨name, hb⟩ := (mem_flatMap_bindingIds ha.owned).1 hmem
    exact hm.not_binds ha.owned hq hi hb

/-! ## declarations -/

theorem ownName?_eq_none (hn : a.is (some n) ty) (hty : ty ≠ .identifier) :
    a.ownName? n = none := by
  obtain ⟨o, ho, rfl⟩ := is_some.1 hn
  simp [ownName?, ho, hty]

/-- The groups `found` are those of all the nodes together. -/
structure Unites (a : Arena) (outer : Bool) (nodes : List NodeId)
    (found : Table (List NodeId)) : Prop where
  nodup_names : found.names.Nodup
  mem_names_iff : ∀ name, name ∈ found.names ↔ ∃ n ∈ nodes,
    name ∈ (a.bindingIds (some n) outer).names
  perm : ∀ name, ((found.get? name).getD []).Perm
    (nodes.flatMap fun n => ((a.bindingIds (some n) outer).get? name).getD [])

theorem unites_nextOf (ha : a.Owned) (hown : a.ownName? n = none) (outer : Bool) :
    a.Unites outer (a.nextOf outer n) (a.bindingIds (some n) outer) := by
  have hsearch : a.Searches outer (some n).toList
      (a.bindingLevels outer (a.size + 1) (a.nextOf outer n)) := by
    refine searches_cons.2 ⟨_, ?_, searches ha outer _⟩
    rw [hown]
    rfl
  have hperm : (a.bindingLevels outer (a.size + 1) (a.nextOf outer n)).Perm _ :=
    bindingLevels_flatMap ..
  rw [bindingIds_eq_of_searches ha hsearch]
  refine ⟨nodup_names_groupByName _, fun name => ?_, fun name => ?_⟩
  · simp only [bindingIds, mem_names_groupByName, hperm.mem_iff, List.mem_flatMap,
      Option.toList_some]
    constructor
    · rintro ⟨i, m, hm, hi⟩
      exact ⟨m, hm, i, hi⟩
    · rintro ⟨m, hm, i, hi⟩
      exact ⟨i, m, hm, hi⟩
  · have hname := (hperm.filter (·.1 == name)).map (·.2)
    rw [List.filter_flatMap, List.map_flatMap] at hname
    simpa only [bindingIds, get?_groupByName, Option.toList_some] using hname

theorem nextOf_functionDeclaration (hf : a.is (some f) .functionDeclaration) :
    a.nextOf true f = (a.child? (some f) "id").toList := by
  obtain ⟨o, ho, hty⟩ := is_some.1 hf
  have htargets : a.bindingTargets true o = [o.child? "id"] := by
    unfold bindingTargets
    rw [hty]
    rfl
  have hchild : a.child? (some f) "id" = o.child? "id" := by simp [child?, ho]
  rw [nextOf, ho, Option.elim_some, htargets, List.reduceOption_singleton, hchild]

theorem nextOf_functionExpression (hf : a.is (some f) .functionExpression) :
    a.nextOf true f = [] := by
  obtain ⟨o, ho, hty⟩ := is_some.1 hf
  have htargets : a.bindingTargets true o = [] := by
    unfold bindingTargets
    rw [hty]
    rfl
  rw [nextOf, ho, Option.elim_some, htargets]
  rfl

theorem searches_cons_of_ownName? (hown : a.ownName? n = none) :
    a.Searches outer (n :: queue) found ↔ a.Searches outer (queue ++ a.nextOf outer n) found := by
  simp [searches_cons, hown]

theorem bindingIds_identifier (ha : a.Owned) (hi : a.is (some i) .identifier)
    (hname : a.name? (some i) = some name) : a.bindingIds (some i) outer = [(name, [i])] := by
  have hsearch : a.Searches outer (some i).toList [(name, i)] := by
    refine searches_cons.2 ⟨[], ?_, ?_⟩
    · rw [ownName?_eq_some.2 ⟨rfl, hi, hname⟩]
      rfl
    · rw [nextOf_identifier hi]
      exact .done
  rw [bindingIds_eq_of_searches ha hsearch]
  rfl

/-- **What nodes bind.** The search ends. In a pattern it finds the identifiers that the pattern
binds, each once and under its own name, and nothing else. What a declaration of variables binds is
what its declarators bind, which is what stands in their patterns. Of functions only the names of
declarations count, if no more is asked for. -/
theorem bindingIds_exact (ha : a.WellOwned) :
    (∀ target outer, ∃ found, a.Searches outer target.toList found
      ∧ a.bindingIds target outer = groupByName found)
    ∧ (∀ p outer, a.Pattern p → a.ListsBound p (a.bindingIds (some p) outer))
    ∧ (∀ d outer, a.is (some d) .variableDeclaration →
      a.Unites outer (a.items (some d) "declarations").reduceOption (a.bindingIds (some d) outer))
    ∧ (∀ v outer, a.is (some v) .variableDeclarator →
      a.bindingIds (some v) outer = a.bindingIds (a.child? (some v) "id") outer)
    ∧ (∀ f, a.is (some f) .functionDeclaration →
      (∀ queue found, a.Searches true (f :: queue) found
        ↔ a.Searches true (queue ++ (a.child? (some f) "id").toList) found)
      ∧ a.bindingIds (some f) true = a.bindingIds (a.child? (some f) "id") true
      ∧ ∀ i name, a.child? (some f) "id" = some i → a.is (some i) .identifier →
        a.name? (some i) = some name → a.bindingIds (some f) true = [(name, [i])])
    ∧ ∀ f, a.is (some f) .functionExpression →
      (∀ queue found, a.Searches true (f :: queue) found ↔ a.Searches true queue found)
      ∧ a.bindingIds (some f) true = [] := by
  refine ⟨fun target outer => ⟨_, searches ha.owned outer _, rfl⟩,
    fun p outer hp => hp.listsBound ha outer, ?_, ?_, ?_, ?_⟩
  · intro d outer hd
    have hnext : a.nextOf outer d = (a.items (some d) "declarations").reduceOption :=
      nextOf_of_list ha.shaped hd (by decide)
    rw [← hnext]
    exact unites_nextOf ha.owned (ownName?_eq_none hd (by decide)) outer
  · intro v outer hv
    apply bindingIds_eq_of_nextOf ha.owned (ownName?_eq_none hv (by decide))
    exact nextOf_of_slot ha.shaped hv (by decide) rfl
  · intro f hf
    have hown : a.ownName? f = none := ownName?_eq_none hf (by decide)
    have hids := bindingIds_eq_of_nextOf ha.owned hown (nextOf_functionDeclaration hf)
    refine ⟨fun queue found => ?_, hids, fun i name hi hid hname => ?_⟩
    · rw [searches_cons_of_ownName? hown, nextOf_functionDeclaration hf]
    · rw [hids, hi, bindingIds_identifier ha.owned hid hname]
  · intro f hf
    have hown : a.ownName? f = none := ownName?_eq_none hf (by decide)
    have hids : a.bindingIds (some f) true = a.bindingIds none true :=
      bindingIds_eq_of_nextOf ha.owned hown (nextOf_functionExpression hf)
    refine ⟨fun queue found => ?_, hids⟩
    rw [searches_cons_of_ownName? hown, nextOf_functionExpression hf, List.append_nil]

/-- The declaration `let { k: x = y } = …;`, whose pattern has a key and a default value. -/
def letDefault : Arena := Arena.runAll [
  .alloc .identifier [.str "k", .node none],
  .alloc .identifier [.str "x", .node none],
  .alloc .identifier [.str "y", .node none],
  .alloc .assignmentPattern [.node (some ⟨1⟩), .node (some ⟨2⟩)],
  .alloc .objectProperty [.node (some ⟨0⟩), .node (some ⟨3⟩), .list [], .bool false, .bool false],
  .alloc .objectPattern [.list [some ⟨4⟩], .node none],
  .alloc .variableDeclarator [.node (some ⟨5⟩), .node none],
  .alloc .variableDeclaration [.str "let", .list [some ⟨6⟩]]]

theorem letDefault_pattern : letDefault.Pattern ⟨5⟩ := by
  have hshaped : letDefault.Shaped := (wellOwned_runAll _).shaped
  have honly : ∀ {p c : NodeId}, letDefault.nextOf true p = [c] → letDefault.Pattern c →
      ∀ m, letDefault.PartOf p m → letDefault.Pattern m := by
    intro p c hnext hc m hm
    have hmem : m ∈ letDefault.nextOf true p := hm.mem_nextOf hshaped
    rw [hnext, List.mem_singleton] at hmem
    exact hmem ▸ hc
  have hname : letDefault.Pattern ⟨1⟩ := .identifier (by decide +kernel)
  have hdefault : letDefault.Pattern ⟨3⟩ := by
    apply Pattern.compound (show letDefault.is (some ⟨3⟩) .assignmentPattern by
      decide +kernel) (by decide)
    exact honly (by decide +kernel) hname
  have hproperty : letDefault.Pattern ⟨4⟩ := by
    apply Pattern.compound (show letDefault.is (some ⟨4⟩) .objectProperty by
      decide +kernel) (by decide)
    exact honly (by decide +kernel) hdefault
  apply Pattern.compound (show letDefault.is (some ⟨5⟩) .objectPattern by
    decide +kernel) (by decide)
  exact honly (by decide +kernel) hproperty

/-- Neither the key nor the default value is bound. -/
theorem bindingIds_letDefault : letDefault.WellOwned
    ∧ letDefault.ListsBound ⟨5⟩ (letDefault.bindingIds (some ⟨5⟩) false)
    ∧ letDefault.Unites false [⟨6⟩] (letDefault.bindingIds (some ⟨7⟩) false)
    ∧ letDefault.bindingIds (some ⟨7⟩) false = [("x", [⟨1⟩])] := by
  have ha : letDefault.WellOwned := wellOwned_runAll _
  obtain ⟨_, hpattern, hdeclaration, _⟩ := bindingIds_exact ha
  exact ⟨ha, hpattern _ _ letDefault_pattern,
    hdeclaration ⟨7⟩ _ (by decide +kernel), by decide +kernel⟩

end Arena

end ScopedTree
