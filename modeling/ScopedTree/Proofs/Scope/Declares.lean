import Mathlib.Data.List.Induction
import Mathlib.Data.List.Nodup
import Mathlib.Data.List.ReduceOption
import ScopedTree.Arena.Binding
import ScopedTree.Proofs.Arena.Shape
import ScopedTree.Proofs.Scope.Lines

/-!
# Declarations of a tree

What a tree declares where, read off its nodes alone.

* `Arena.get?_groupByName`   the groups that values make under their names;
* `Arena.Binds`        the identifiers a node binds, as a relation; `Arena.mem_bindingIds`;
* `Arena.Introduces`   what a declaration introduces;
* `Arena.Declaring`    what a node declares in the scope of which block;
* `Arena.Patterns`     those it binds through patterns;
* `Arena.Declares`     the declarations that a block receives;
* `Arena.Exposes`      an export of something that is no declaration;
* `Arena.Enters`       what may come into the scope of a block, `Arena.Strays` what should not;
* `Conflict`           two declarations of a name that no scope can have both.
-/

namespace ScopedTree

/-- Nodes of the type bind what is in their binding fields, all of them. -/
def NodeType.bindsPlainly (ty : NodeType) : Bool :=
  !(ty == .identifier || ty.isA .exportDeclaration || ty == .functionDeclaration
    || ty == .functionExpression)

def NodeType.BindsSlot (ty : NodeType) (key : String) : Prop :=
  ty.bindsPlainly ∧ (ty.bindingKeys = [] ∨ ty.bindingKeys = [key])
    ∧ ∃ f ∈ ty.fields, f.name = key ∧ (f.kind = .node ∨ f.kind = .optNode)

instance (ty : NodeType) (key : String) : Decidable (ty.BindsSlot key) :=
  inferInstanceAs (Decidable (_ ∧ _))

def NodeType.BindsList (ty : NodeType) (key : String) : Prop :=
  ty.bindsPlainly ∧ ty.bindingKeys = [key] ∧ ∃ f ∈ ty.fields, f.name = key ∧ f.kind = .list

instance (ty : NodeType) (key : String) : Decidable (ty.BindsList key) :=
  inferInstanceAs (Decidable (_ ∧ _))

def NodeType.isBinder : NodeType → Bool
  | .variableDeclarator | .importSpecifier | .importNamespaceSpecifier | .importDefaultSpecifier
  | .assignmentPattern | .restElement | .restProperty | .arrayPattern | .objectPattern
  | .objectProperty | .assignmentProperty => true
  | _ => false

theorem NodeType.bindsSlot_id : ∀ ty : NodeType,
    ty.isA .flowDeclaration ∨ ty = .classDeclaration → ty.BindsSlot "id" := by
  intro ty
  cases ty <;> decide

theorem NodeType.declaration_cases : ∀ ty : NodeType, ty.isA .declaration →
    ty = .functionDeclaration ∨ ty = .variableDeclaration ∨ ty = .classDeclaration
      ∨ ty = .importDeclaration ∨ ty.isA .exportDeclaration ∨ ty.isA .flowDeclaration := by
  intro ty
  cases ty <;> decide

theorem Table.nodup_names_put {α : Type} {t : Table α} (h : t.names.Nodup) (name : String) (x : α) :
    (t.put name x).names.Nodup := by
  rw [Table.names_put]
  split
  · exact h
  · next hname =>
    rw [← List.concat_eq_append]
    exact h.concat hname

namespace Arena

/-! ## groups -/

section Groups

variable {α : Type} {name : String} {x : α} {pairs : List (String × α)} {xs : List α}

theorem mem_of_mem_put {t : Table α} {x y : α} {key : String} (h : (name, x) ∈ t.put key y) :
    (name, x) ∈ t ∨ name = key ∧ x = y := by
  induction t with
  | nil => simpa [Table.put] using h
  | cons entry t ih =>
    obtain ⟨key', old⟩ := entry
    rw [Table.put] at h
    split at h
    · rcases List.mem_cons.1 h with h | h
      · exact .inr (Prod.mk.inj h)
      · exact .inl (List.mem_cons_of_mem _ h)
    · rcases List.mem_cons.1 h with h | h
      · exact .inl (h ▸ List.mem_cons_self ..)
      · exact (ih h).imp_left (List.mem_cons_of_mem _)

theorem mem_of_get? {t : Table α} (h : t.get? name = some x) : (name, x) ∈ t := by
  induction t with
  | nil => simp at h
  | cons entry t ih =>
    obtain ⟨key, old⟩ := entry
    rw [Table.get?_cons] at h
    split at h
    · next hk =>
      obtain rfl := Option.some.inj h
      rw [hk]
      exact List.mem_cons_self ..
    · exact List.mem_cons_of_mem _ (ih h)

theorem groupByName_concat (pairs : List (String × α)) (name : String) (x : α) :
    groupByName (pairs ++ [(name, x)])
      = (groupByName pairs).put name (((groupByName pairs).get? name).getD [] ++ [x]) := by
  rw [groupByName, List.foldl_append]
  rfl

theorem nodup_names_groupByName (pairs : List (String × α)) : (groupByName pairs).names.Nodup := by
  induction pairs using List.reverseRecOn with
  | nil => exact List.nodup_nil
  | append_singleton pairs e ih =>
    rw [groupByName_concat]
    exact Table.nodup_names_put ih ..

/-- The group of a name, in order. -/
theorem get?_groupByName (pairs : List (String × α)) (name : String) :
    ((groupByName pairs).get? name).getD [] = (pairs.filter (·.1 == name)).map (·.2) := by
  induction pairs using List.reverseRecOn with
  | nil => rfl
  | append_singleton pairs e ih =>
    rw [groupByName_concat, Table.get?_put, List.filter_append, List.map_append, ← ih]
    by_cases hname : name = e.1
    · rw [if_pos hname, ← hname]
      simp [hname]
    · rw [if_neg hname]
      simp [Ne.symm hname]

theorem mem_of_mem_groupByName (h : (name, xs) ∈ groupByName pairs)
    (hx : x ∈ xs) : (name, x) ∈ pairs := by
  induction pairs using List.reverseRecOn generalizing xs with
  | nil => cases h
  | append_singleton pairs e ih =>
    rw [groupByName_concat] at h
    rcases mem_of_mem_put h with h | ⟨rfl, rfl⟩
    · exact List.mem_append_left _ (ih h hx)
    · rcases List.mem_append.1 hx with hx | hx
      · cases hg : (groupByName pairs).get? e.1 with
        | none => simp [hg] at hx
        | some ys =>
          rw [hg] at hx
          exact List.mem_append_left _ (ih (mem_of_get? hg) hx)
      · rw [List.mem_singleton.1 hx]
        exact List.mem_append_right _ (List.mem_singleton_self e)

theorem exists_mem_groupByName (h : (name, x) ∈ pairs) :
    ∃ xs, (name, xs) ∈ groupByName pairs ∧ x ∈ xs := by
  have hx : x ∈ ((groupByName pairs).get? name).getD [] := by
    rw [get?_groupByName]
    exact List.mem_map.2 ⟨(name, x), List.mem_filter.2 ⟨h, beq_self_eq_true name⟩, rfl⟩
  cases hg : (groupByName pairs).get? name with
  | none => simp [hg] at hx
  | some xs =>
    rw [hg] at hx
    exact ⟨xs, mem_of_get? hg, hx⟩

theorem mem_names_groupByName :
    name ∈ (groupByName pairs).names ↔ ∃ x, (name, x) ∈ pairs := by
  induction pairs using List.reverseRecOn with
  | nil => simp [groupByName, Table.names]
  | append_singleton pairs e ih =>
    rw [groupByName_concat, Table.names_put]
    split
    · next hmem =>
      rw [ih]
      constructor
      · rintro ⟨x, hx⟩
        exact ⟨x, List.mem_append_left _ hx⟩
      · rintro ⟨x, hx⟩
        rcases List.mem_append.1 hx with hx | hx
        · exact ⟨x, hx⟩
        · obtain rfl : name = e.1 := congrArg (·.1) (List.mem_singleton.1 hx)
          exact ih.1 hmem
    · rw [List.mem_append, ih, List.mem_singleton]
      constructor
      · rintro (⟨x, hx⟩ | rfl)
        · exact ⟨x, List.mem_append_left _ hx⟩
        · exact ⟨e.2, List.mem_append_right _ (List.mem_singleton_self e)⟩
      · rintro ⟨x, hx⟩
        refine (List.mem_append.1 hx).imp (⟨x, ·⟩) fun hx => ?_
        exact congrArg (·.1) (List.mem_singleton.1 hx)

theorem flatMap_put (t : Table (List α)) (name : String) (x : α) :
    ((t.put name ((t.get? name).getD [] ++ [x])).flatMap (·.2)).Perm (t.flatMap (·.2) ++ [x]) := by
  induction t with
  | nil => exact .refl _
  | cons entry t ih =>
    obtain ⟨key, old⟩ := entry
    rw [Table.put, Table.get?_cons]
    by_cases hkey : key = name
    · rw [if_pos hkey, if_pos hkey.symm, List.flatMap_cons, List.flatMap_cons, Option.getD_some,
        List.append_assoc, List.append_assoc]
      exact List.perm_append_comm.append_left old
    · rw [if_neg hkey, if_neg (Ne.symm hkey), List.flatMap_cons, List.flatMap_cons,
        List.append_assoc]
      exact ih.append_left old

theorem flatMap_groupByName (pairs : List (String × α)) :
    ((groupByName pairs).flatMap (·.2)).Perm (pairs.map (·.2)) := by
  induction pairs using List.reverseRecOn with
  | nil => exact .refl _
  | append_singleton pairs e ih =>
    rw [groupByName_concat, List.map_append]
    exact (flatMap_put _ _ _).trans (ih.append_right _)

end Groups

/-! ## bound identifiers -/

/-- `id` is an identifier `name` that `n` binds. -/
inductive Binds (a : Arena) (outer : Bool) : NodeId → String → NodeId → Prop
  | here {n : NodeId} {o : Node} {name : String} (hn : a.get? n = some o)
      (hty : o.type = .identifier) (hname : o.name? = some name) : Binds a outer n name n
  | inside {n m id : NodeId} {o : Node} {name : String} (hn : a.get? n = some o)
      (hm : some m ∈ a.bindingTargets outer o) (h : Binds a outer m name id) :
      Binds a outer n name id

variable {a : Arena} {outer : Bool} {r n m h id : NodeId} {o : Node} {name : String}
  {above line : List NodeId} {kind : BindingKind}

theorem binds_of_mem_levels : ∀ (fuel : Nat) (level : List NodeId) (name : String) (id : NodeId),
    (name, id) ∈ a.bindingLevels outer fuel level → ∃ n ∈ level, a.Binds outer n name id
  | 0, _, _, _, h => by simp [bindingLevels] at h
  | _ + 1, [], _, _, h => by simp [bindingLevels] at h
  | fuel + 1, c :: cs, name, id, h => by
    rw [bindingLevels.eq_3 _ _ _ _ (by simp)] at h
    rcases List.mem_append.1 h with h | h
    · obtain ⟨n, hn, hfound⟩ := List.mem_filterMap.1 h
      obtain ⟨o, ho, hcond⟩ := Option.bind_eq_some_iff.1 hfound
      split at hcond
      · next hty =>
        obtain ⟨name', hname, heq⟩ := Option.map_eq_some_iff.1 hcond
        obtain ⟨rfl, rfl⟩ := Prod.mk.inj heq
        exact ⟨n, hn, .here ho (by simpa using hty) hname⟩
      · cases hcond
    · obtain ⟨m, hm, hb⟩ := binds_of_mem_levels fuel _ name id h
      obtain ⟨n, hn, hmn⟩ := List.mem_flatMap.1 hm
      cases ho : a.get? n with
      | none => simp [ho] at hmn
      | some o =>
        rw [ho] at hmn
        exact ⟨n, hn, .inside ho (List.reduceOption_mem_iff.1 hmn) hb⟩

/-- What is found by the search is bound. -/
theorem mem_bindingIds {target : Option NodeId} {ids : List NodeId}
    (h : (name, ids) ∈ a.bindingIds target outer) (hid : id ∈ ids) :
    ∃ n, target = some n ∧ a.Binds outer n name id := by
  obtain ⟨n, hn, hb⟩ := binds_of_mem_levels _ _ name id (mem_of_mem_groupByName h hid)
  exact ⟨n, by simpa using hn, hb⟩

theorem mem_children_of_items {key : String} (h : some m ∈ a.items (some n) key) :
    m ∈ a.children (some n) := by
  obtain ⟨i, hi⟩ := List.getElem?_of_mem h
  have hread : (Tree.ofArena a none).readSlot (some n) (.entry key i) = some m := by
    show (a.items (some n) key)[i]?.join = some m
    rw [hi]
    rfl
  exact Tree.mem_children_of_readSlot (t := Tree.ofArena a none) (by simp) hread

theorem mem_children_of_handles {key : String}
    (h : some m ∈ (o.value? key).elim [] (·.handles)) : m ∈ o.children := by
  cases hv : o.value? key with
  | none =>
    rw [hv] at h
    cases h
  | some v =>
    rw [hv] at h
    refine Tree.mem_children_of_value? hv ?_
    simpa [Value.children] using h

theorem mem_children_of_bindingTargets (h : some m ∈ a.bindingTargets outer o) :
    m ∈ o.children := by
  have hchild : ∀ key, some m = o.child? key → m ∈ o.children := by
    intro key hm
    unfold Node.child? at hm
    cases hv : o.value? key with
    | none => simp [hv] at hm
    | some v =>
      cases v with
      | node c =>
        obtain rfl : c = some m := by simpa [hv] using hm.symm
        exact Tree.mem_children_of_value? hv (by simp [Value.children, Value.handles])
      | _ => simp [hv] at hm
  unfold bindingTargets at h
  dsimp only at h
  split at h
  · cases h
  · split at h
    · split at h
      · exact hchild _ (List.mem_singleton.1 h)
      · cases h
    · split at h
      · exact hchild _ (List.mem_singleton.1 h)
      · split at h
        · cases h
        · obtain ⟨key, _, hm⟩ := List.mem_flatMap.1 h
          exact mem_children_of_handles hm

theorem mem_bindingLevels (ha : a.Owned) (hb : a.Binds outer n name id) (fuel : Nat)
    (level : List NodeId) (hn : n ∈ level) (hfuel : a.size < fuel + (a.above n).card) :
    (name, id) ∈ a.bindingLevels outer fuel level := by
  induction hb generalizing fuel level with
  | @here n o name ho hty hname =>
    cases fuel with
    | zero => exact absurd (a.card_above_le n) (by omega)
    | succ fuel =>
      rw [bindingLevels.eq_3 _ _ _ _ (List.ne_nil_of_mem hn)]
      refine List.mem_append_left _ (List.mem_filterMap.2 ⟨n, hn, ?_⟩)
      simp [ho, hty, hname]
  | @inside n m id o name ho hm _ ih =>
    have howned := ha.owner_of_child n m (by
      rw [children_some, ho]
      exact mem_children_of_bindingTargets hm)
    have hlt := card_above_lt ha howned
    have hle := a.card_above_le m
    cases fuel with
    | zero => omega
    | succ fuel =>
      rw [bindingLevels.eq_3 _ _ _ _ (List.ne_nil_of_mem hn)]
      refine List.mem_append_right _ (ih fuel _ (List.mem_flatMap.2 ⟨n, hn, ?_⟩) (by omega))
      rw [ho]
      exact List.reduceOption_mem_iff.2 hm

/-- Whatever a node binds is among its bound identifiers. -/
theorem Binds.mem_bindingIds (ha : a.Owned) (hb : a.Binds outer n name id) :
    ∃ ids, (name, ids) ∈ a.bindingIds (some n) outer ∧ id ∈ ids := by
  have hlevels := mem_bindingLevels ha hb (a.size + 1) [n] (List.mem_singleton_self n) (by omega)
  exact exists_mem_groupByName hlevels

theorem Binds.name? (hb : a.Binds outer n name id) : a.name? (some id) = some name := by
  induction hb with
  | here hn _ hname => simpa [Arena.name?, hn] using hname
  | inside _ _ _ ih => exact ih

theorem Binds.child (hb : a.Binds outer n name id) (key : String) (ho : a.get? n = some o)
    (hty : o.type ≠ .identifier) (htargets : a.bindingTargets outer o ⊆ [o.child? key]) :
    ∃ m, a.child? (some n) key = some m ∧ a.Binds outer m name id := by
  cases hb with
  | here hn hid =>
    obtain rfl := Option.some.inj (ho.symm.trans hn)
    exact absurd hid hty
  | inside hn hm h =>
    obtain rfl := Option.some.inj (ho.symm.trans hn)
    refine ⟨_, ?_, h⟩
    have hchild : a.child? (some n) key = o.child? key := by simp [child?, ho]
    rw [hchild]
    exact (List.mem_singleton.1 (htargets hm)).symm

theorem handles_of_slot {key : String} (ho : o.Shaped) {f : Field} (hf : f ∈ o.type.fields)
    (hname : f.name = key) (hk : f.kind = .node ∨ f.kind = .optNode) :
    (o.value? key).elim [] (·.handles) = [o.child? key] := by
  obtain ⟨v, hv, hfit⟩ := ho.value?_of_mem hf
  rw [hname] at hv
  unfold Node.child?
  rw [hv]
  rcases hk with hk | hk <;> rw [hk] at hfit <;> cases v <;> simp_all [Value.fits, Value.handles]

theorem handles_of_list {key : String} (ho : o.Shaped) {f : Field} (hf : f ∈ o.type.fields)
    (hname : f.name = key) (hk : f.kind = .list) :
    (o.value? key).elim [] (·.handles) = o.items key := by
  obtain ⟨v, hv, hfit⟩ := ho.value?_of_mem hf
  rw [hname] at hv
  unfold Node.items
  rw [hv]
  rw [hk] at hfit
  cases v <;> simp_all [Value.fits, Value.handles]

theorem bindingTargets_of_bindsPlainly (h : o.type.bindsPlainly) : a.bindingTargets outer o
    = o.type.bindingKeys.flatMap fun field => (o.value? field).elim [] (·.handles) := by
  unfold NodeType.bindsPlainly at h
  unfold bindingTargets
  cases outer <;> simp_all

theorem bindingTargets_of_slot {key : String} (ho : o.Shaped) (h : o.type.BindsSlot key) :
    a.bindingTargets outer o ⊆ [o.child? key] := by
  obtain ⟨hplain, hkeys, f, hf, hname, hk⟩ := h
  rw [bindingTargets_of_bindsPlainly hplain]
  rcases hkeys with hkeys | hkeys
  · simp [hkeys]
  · rw [hkeys, List.flatMap_singleton, handles_of_slot ho hf hname hk]
    exact List.Subset.refl _

theorem Binds.of_child {key : String} (ho : a.get? n = some o) (hshaped : o.Shaped)
    (h : o.type.BindsSlot key) (hkeys : o.type.bindingKeys = [key])
    (hm : a.child? (some n) key = some m) (hb : a.Binds outer m name id) :
    a.Binds outer n name id := by
  obtain ⟨hplain, _, f, hf, hname, hk⟩ := h
  refine .inside ho ?_ hb
  rw [bindingTargets_of_bindsPlainly hplain, hkeys, List.flatMap_singleton,
    handles_of_slot hshaped hf hname hk, List.mem_singleton, ← hm]
  simp [child?, ho]

theorem is_some {ty : NodeType} :
    a.is (some n) ty = true ↔ ∃ o, a.get? n = some o ∧ o.type = ty := by
  unfold Arena.is type?
  cases ho : a.get? n <;> simp [ho]

theorem isA_some {group : Alias} :
    a.isA (some n) group = true ↔ ∃ o, a.get? n = some o ∧ o.type.isA group = true := by
  unfold isA type?
  cases ho : a.get? n <;> simp [ho]

theorem binds_identifier (hid : a.is (some id) .identifier)
    (hname : a.name? (some id) = some name) :
    a.Binds outer id name id := by
  obtain ⟨o, ho, hty⟩ := is_some.1 hid
  exact .here ho hty (by simpa [Arena.name?, ho] using hname)

theorem bindingTargets_of_list {key : String} (ho : o.Shaped) (h : o.type.BindsList key) :
    a.bindingTargets outer o = o.items key := by
  obtain ⟨hplain, hkeys, f, hf, hname, hk⟩ := h
  rw [bindingTargets_of_bindsPlainly hplain, hkeys, List.flatMap_singleton,
    handles_of_list ho hf hname hk]

theorem binds_of_list {ty : NodeType} {key : String} (ha : a.Shaped) (hn : a.is (some n) ty)
    (h : ty.BindsList key) :
    a.Binds outer n name id ↔ ∃ m, some m ∈ a.items (some n) key ∧ a.Binds outer m name id := by
  obtain ⟨o, ho, rfl⟩ := is_some.1 hn
  have hitems : a.items (some n) key = a.bindingTargets outer o := by
    rw [bindingTargets_of_list (ha n o ho) h]
    simp [Arena.items, ho]
  rw [hitems]
  constructor
  · intro hb
    cases hb with
    | here hn hid =>
      obtain rfl := Option.some.inj (ho.symm.trans hn)
      have hplain := h.1
      rw [hid] at hplain
      cases hplain
    | inside hn hm h =>
      obtain rfl := Option.some.inj (ho.symm.trans hn)
      exact ⟨_, hm, h⟩
  · rintro ⟨m, hm, h⟩
    exact .inside ho hm h

theorem binds_variableDeclaration (ha : a.Shaped) (hn : a.is (some n) .variableDeclaration) :
    a.Binds outer n name id
      ↔ ∃ m, some m ∈ a.items (some n) "declarations" ∧ a.Binds outer m name id :=
  binds_of_list ha hn (by decide)

theorem binds_importDeclaration (ha : a.Shaped) (hn : a.is (some n) .importDeclaration) :
    a.Binds outer n name id
      ↔ ∃ m, some m ∈ a.items (some n) "specifiers" ∧ a.Binds outer m name id :=
  binds_of_list ha hn (by decide)

/-! ## declarations -/

/-- What a declaration introduces: the identifiers that `m` binds, as names of a kind. -/
inductive Introduces (a : Arena) (n : NodeId) : BindingKind → NodeId → Prop
  | function {m : NodeId} (hn : a.is (some n) .functionDeclaration)
      (hm : a.child? (some n) "id" = some m) : Introduces a n .hoisted m
  | declarator {m : NodeId} (hn : a.is (some n) .variableDeclaration)
      (hm : some m ∈ a.items (some n) "declarations") :
      Introduces a n (.ofKeyword ((a.text? (some n) "kind").getD "")) m
  | className {m : NodeId} (hn : a.is (some n) .classDeclaration)
      (hm : a.child? (some n) "id" = some m) : Introduces a n .letName m
  | specifier {m : NodeId} (hn : a.is (some n) .importDeclaration)
      (hm : some m ∈ a.items (some n) "specifiers") : Introduces a n .imported m
  | flow {m : NodeId} (hn : a.isA (some n) .flowDeclaration)
      (hm : a.child? (some n) "id" = some m) : Introduces a n .unknown m

/-- What `n`, below the nodes `above`, declares in the scope of the block `h`: the identifiers that
`m` binds, as names of a kind. -/
inductive Declaring (a : Arena) (n : NodeId) (above : List NodeId) :
    NodeId → BindingKind → NodeId → Prop
  /-- functions, `var`s, imports and the declarations of Flow -/
  | hoisted {h m : NodeId} {kind : BindingKind} (hk : a.Introduces n kind m)
      (hn : ¬ a.is (some n) .classDeclaration ∧ ¬ a.isLet (some n))
      (hh : a.functionHome above = some h) : Declaring a n above h kind m
  /-- classes and `let`s -/
  | lexical {h m : NodeId} {kind : BindingKind} (hk : a.Introduces n kind m)
      (hn : a.is (some n) .classDeclaration ∨ a.isLet (some n))
      (hh : a.blockHome above = some h) : Declaring a n above h kind m
  /-- a `var` in the head of a loop -/
  | loopVar {h m l : NodeId} {rest : List NodeId} (hl : above = l :: rest)
      (hloop : a.isA (some l) .forLoop) (hn : a.isVar (some n))
      (hm : some m ∈ a.items (some n) "declarations") (hh : a.functionHome above = some h) :
      Declaring a n above h .loopVar m
  /-- a `let` in the head of a loop, which belongs to the loop -/
  | loopHead {m l : NodeId} {rest : List NodeId} (hl : above = l :: rest)
      (hloop : a.isA (some l) .loop)
      (hhead : a.child? (some l) "init" = some n ∨ a.child? (some l) "left" = some n)
      (hn : a.isLet (some n)) (hm : some m ∈ a.items (some n) "declarations") :
      Declaring a n above l (.ofLoopKeyword ((a.text? (some n) "kind").getD "")) m
  /-- the own name of a function or class expression -/
  | selfName {m : NodeId} (hn : a.is (some n) .functionExpression ∨ a.is (some n) .classExpression)
      (hm : a.child? (some n) "id" = some m) : Declaring a n above n .selfName m
  | param {m : NodeId} (hn : a.isA (some n) .function) (hm : some m ∈ a.items (some n) "params") :
      Declaring a n above n .param m
  | catchParam {m : NodeId} (hn : a.is (some n) .catchClause)
      (hm : a.child? (some n) "param" = some m) : Declaring a n above n .catchParam m

/-- The names that the declaration `n`, below the nodes `above`, binds belong to the scope of the
block `h`. -/
inductive Homes (a : Arena) (n : NodeId) (above : List NodeId) (h : NodeId) : Prop
  | hoisted (hn : a.isA (some n) .declaration ∧ ¬ a.isA (some n) .exportDeclaration)
      (hplain : ¬ a.is (some n) .classDeclaration ∧ ¬ a.isLet (some n))
      (hh : a.functionHome above = some h) : Homes a n above h
  | lexical (hn : a.is (some n) .classDeclaration ∨ a.isLet (some n))
      (hh : a.blockHome above = some h) : Homes a n above h

/-- The node that `n` declares in a scope of its own: what `m` binds. -/
inductive Heads (a : Arena) (n : NodeId) : NodeId → Prop
  /-- a `let` in the head of a loop -/
  | loopHead {d m : NodeId} (hn : a.isA (some n) .loop)
      (hd : a.child? (some n) "init" = some d ∨ a.child? (some n) "left" = some d)
      (hlet : a.isLet (some d)) (hm : some m ∈ a.items (some d) "declarations") : Heads a n m
  | selfName {m : NodeId} (hn : a.is (some n) .functionExpression ∨ a.is (some n) .classExpression)
      (hm : a.child? (some n) "id" = some m) : Heads a n m
  | param {m : NodeId} (hn : a.isA (some n) .function) (hm : some m ∈ a.items (some n) "params") :
      Heads a n m
  | catchParam {m : NodeId} (hn : a.is (some n) .catchClause)
      (hm : a.child? (some n) "param" = some m) : Heads a n m

/-- `id` is an identifier `name` that `m`, a pattern, declarator or specifier, declares. Operands of
expressions are left out. -/
inductive Patterns (a : Arena) : NodeId → String → NodeId → Prop
  | here {m : NodeId} {o : Node} {name : String} (hm : a.get? m = some o)
      (hty : o.type = .identifier) (hname : o.name? = some name) : Patterns a m name m
  | inside {m m' id : NodeId} {o : Node} {name : String} (hm : a.get? m = some o)
      (hty : o.type.isBinder) (hm' : some m' ∈ a.bindingTargets true o)
      (h : Patterns a m' name id) : Patterns a m name id

/-- Somewhere under the root the identifier `id` is declared in the scope of the block `h`. -/
def Declares (a : Arena) (r h : NodeId) (kind : BindingKind) (name : String) (id : NodeId) : Prop :=
  ∃ n above m, a.Under r n above ∧ a.Declaring n above h kind m ∧ a.Patterns m name id

/-- An export of `m`, which is no declaration. -/
def Exposes (a : Arena) (n m : NodeId) : Prop :=
  a.isA (some n) .exportDeclaration ∧ a.child? (some n) "declaration" = some m
    ∧ ¬ a.isA (some m) .declaration

/-- Somewhere under the root an export that is not of a declaration binds `id`. -/
def ExposesName (a : Arena) (r h : NodeId) (kind : BindingKind) (name : String) (id : NodeId) :
    Prop :=
  kind = .unknown ∧ ∃ n above m, a.Under r n above ∧ a.functionHome above = some h
    ∧ a.Exposes n m ∧ a.Binds true m name id

/-- What may come into the scope of the block `h`. -/
def Enters (a : Arena) (r h : NodeId) (kind : BindingKind) (name : String) (id : NodeId) : Prop :=
  (∃ n above m, a.Under r n above ∧ a.Declaring n above h kind m ∧ a.Binds true m name id)
    ∨ a.ExposesName r h kind name id

/-- `name` stands where it counts as declared and is not: in an export of something that is no
declaration, or in an expression that a declaration has in place of a pattern. -/
def Strays (a : Arena) (r : NodeId) (name : String) : Prop :=
  ∃ n above m id, a.Under r n above ∧ a.Binds true m name id
    ∧ (a.Exposes n m ∨ ¬ a.Patterns m name id ∧ ∃ h kind, a.Declaring n above h kind m)

theorem Enters.declares (he : a.Enters r h kind name id) (hname : ¬ a.Strays r name) :
    a.Declares r h kind name id := by
  rcases he with ⟨n, above, m, hu, hd, hb⟩ | ⟨_, n, above, m, hu, _, hx, hb⟩
  · by_cases hp : a.Patterns m name id
    · exact ⟨n, above, m, hu, hd, hp⟩
    · exact absurd ⟨n, above, m, id, hu, hb, .inr ⟨hp, h, kind, hd⟩⟩ hname
  · exact absurd ⟨n, above, m, id, hu, hb, .inl hx⟩ hname

end Arena

/-- Two declarations of a name in one scope, one of which is exclusive. -/
def Conflict (D : NodeId → BindingKind → String → NodeId → Prop) (name : String) : Prop :=
  ∃ h kind id kind' id', D h kind name id ∧ D h kind' name id' ∧ id ≠ id'
    ∧ (kind.isExclusive ∨ kind'.isExclusive)

theorem Conflict.mono {D D' : NodeId → BindingKind → String → NodeId → Prop} {name : String}
    (hc : Conflict D name) (h : ∀ b kind id, D b kind name id → D' b kind name id) :
    Conflict D' name := by
  obtain ⟨b, kind, id, kind', id', hd, hd', hne, hex⟩ := hc
  exact ⟨b, kind, id, kind', id', h _ _ _ hd, h _ _ _ hd', hne, hex⟩

end ScopedTree
