import ScopedTree.Proofs.Arena.Copy
import ScopedTree.Proofs.Scope.Declaration

/-!
# What evaluating a pure node runs

A node that is judged pure is judged by what runs when it is evaluated: by all of it, except for
what the judgement passes over. Those are the slots for names, types and texts, and decorators.

* `NodeType.deferred`            the fields of a function that do not run when it is made;
* `Arena.Runs`                   what runs when a node is evaluated;
* `Node.asides`, `Arena.Aside`   what of it the judgement passes over;
* `Tree.Harmless`                no effect, and no read of what may be written;
* `Tree.harmless_or_aside`       what runs is harmless, or passed over;
* `Tree.isPure_sound`            **purity is sound if and only if nothing harmful is passed over**.
-/

namespace ScopedTree

open Arena ScopedTree.Tree

/-- The fields of a function or method that do not run when it is made. -/
def NodeType.deferred (ty : NodeType) : List String :=
  if ty.isA .function then ["params", "body"] else []

def NodeType.effects : List NodeType :=
  [.callExpression, .newExpression, .assignmentExpression, .updateExpression,
    .taggedTemplateExpression, .yieldExpression, .awaitExpression]

def NodeType.innocent (ty : NodeType) : Bool :=
  [.identifier, .classBody, .arrayExpression, .objectExpression, .classMethod, .classProperty,
    .objectProperty, .unaryExpression, .templateLiteral].contains ty
    || ty.isA .classNode || ty.isA .binary || ty.isA .pureish

theorem NodeType.not_mem_effects_of_innocent : ∀ ty : NodeType, ty.innocent →
    ty ∉ NodeType.effects := by
  intro ty
  cases ty <;> decide

namespace Node

/-- The fields that purity is not judged by: decorators, names, types, the texts of a template, and
a key that is not computed. -/
def asides (n : Node) : List String :=
  (if n.isSet "computed" then [] else ["key"])
    ++ ["decorators", "id", "mixins", "implements", "quasis", "type_annotation", "type_parameters",
      "super_type_parameters", "return_type"]

/-- The fields that the purity of a node is judged by. -/
def weighed (n : Node) : List String :=
  match n.type with
  | .classBody => ["body"]
  | .arrayExpression => ["elements"]
  | .objectExpression => ["properties"]
  | .classMethod => if n.isSet "computed" then ["key"] else []
  | .classProperty | .objectProperty => if n.isSet "computed" then ["key", "value"] else ["value"]
  | .unaryExpression => ["argument"]
  | .templateLiteral => ["expressions"]
  | .classDeclaration | .classExpression => ["super_class", "body"]
  | .binaryExpression | .logicalExpression => ["left", "right"]
  | _ => []

variable {n : Node} {c : NodeId} {field : String}

theorem field_cases (h : n.type.innocent) (hf : field ∈ n.type.childFields.map (·.name)) :
    field ∈ n.type.deferred ∨ field ∈ n.asides ∨ field ∈ n.weighed := by
  unfold asides weighed
  revert hf field
  cases n.isSet "computed" <;> revert h <;> cases n.type <;> decide

theorem Shaped.child?_eq_some (hn : n.Shaped) {f : Field} (hf : f ∈ n.type.fields)
    (hkind : f.kind ≠ .list) (hc : c ∈ n.fieldChildren f.name) : n.child? f.name = some c := by
  obtain ⟨v, hv, hfit⟩ := hn.value?_of_mem hf
  rw [fieldChildren, hv, Option.elim_some] at hc
  rw [child?, hv]
  cases v with
  | node child => exact mem_children_node.1 hc
  | list items => exact absurd (by cases hk : f.kind <;> simp_all [Value.fits]) hkind
  | _ => cases hc

end Node

namespace Arena

/-- What runs when the node `r` is evaluated: the node, and of a node that runs all children but the
parameters and bodies of functions and methods. -/
inductive Runs (a : Arena) (r : NodeId) : NodeId → Prop
  | start : Runs a r r
  | child {m c : NodeId} {k : Node} {f : Field} (hm : Runs a r m) (hk : a.get? m = some k)
      (hf : f ∈ k.type.childFields) (hnow : f.name ∉ k.type.deferred)
      (hc : c ∈ k.fieldChildren f.name) : Runs a r c

/-- What runs when the node `r` is evaluated and stands at or below a field that purity is not
judged by. -/
inductive Aside (a : Arena) (r : NodeId) : NodeId → Prop
  | enter {m c : NodeId} {k : Node} {f : Field} (hm : Runs a r m) (hk : a.get? m = some k)
      (hf : f ∈ k.type.childFields) (hnow : f.name ∉ k.type.deferred) (haside : f.name ∈ k.asides)
      (hc : c ∈ k.fieldChildren f.name) : Aside a r c
  | child {m c : NodeId} {k : Node} {f : Field} (hm : Aside a r m) (hk : a.get? m = some k)
      (hf : f ∈ k.type.childFields) (hnow : f.name ∉ k.type.deferred)
      (hc : c ∈ k.fieldChildren f.name) : Aside a r c

/-- Whether a node is an identifier that is read where it stands. -/
def isReadInPlace (a : Arena) (m : NodeId) : Bool :=
  a.is (some m) .identifier
    && a.isReferenced (some m) (a.parentOf (some m)) (a.parentOf (a.parentOf (some m)))

theorem Aside.runs {a : Arena} {r m : NodeId} (h : a.Aside r m) : a.Runs r m := by
  induction h with
  | enter hm hk hf hnow _ hc => exact hm.child hk hf hnow hc
  | child _ hk hf hnow hc ih => exact ih.child hk hf hnow hc

theorem Aside.exists_field {a : Arena} {r m : NodeId} (h : a.Aside r m) :
    ∃ k field c, k ∈ a.nodes ∧ field ∈ k.asides ∧ c ∈ k.fieldChildren field := by
  induction h with
  | enter _ hk _ _ haside hc => exact ⟨_, _, _, Array.mem_of_getElem? hk, haside, hc⟩
  | child _ _ _ _ _ ih => exact ih

end Arena

namespace Tree

/-- No effect starts at the node, and if it is an identifier that is read then its name is bound,
and never written where that is asked for. -/
structure Harmless (t : Tree) (s : ScopeId) (constantsOnly : Bool) (m : NodeId) : Prop where
  calm : ∀ ty ∈ NodeType.effects, t.arena.is (some m) ty = false
  bound : t.arena.isReadInPlace m → ∃ name b, t.arena.name? (some m) = some name
    ∧ t.bindingOf? s name = some b ∧ (constantsOnly → b.constant)

variable {t : Tree} {s : ScopeId} {constantsOnly : Bool} {fuel : Nat} {n m c : NodeId} {k : Node}

theorem innocent_of_isPureLevels (hk : t.arena.get? m = some k)
    (h : t.isPureLevels s constantsOnly (fuel + 1) (some m) = true) : k.type.innocent := by
  rw [isPureLevels, look_some, hk] at h
  dsimp only at h
  unfold NodeType.innocent
  split at h <;> rename_i hty
  case h_10 =>
    split at h
    · next hclass => simp [hclass]
    · split at h
      · next hbinary => simp [hbinary]
      · simp [h]
  all_goals
    rw [hty]
    rfl

theorem bound_of_isPureLevels (hk : t.arena.get? m = some k) (hty : k.type = .identifier)
    (h : t.isPureLevels s constantsOnly (fuel + 1) (some m) = true) :
    ∃ name b, k.name? = some name ∧ t.bindingOf? s name = some b
      ∧ (constantsOnly → b.constant) := by
  rw [isPureLevels, look_some, hk] at h
  simp only [hty] at h
  split at h
  · next b hb =>
    obtain ⟨name, hname, hb⟩ := Option.bind_eq_some_iff.1 hb
    exact ⟨name, b, hname, hb, fun hc => by simpa [hc] using h⟩
  · cases h

theorem pure_of_mem_list {pure : Option NodeId → Bool} {field : String}
    (h : (match k.value? field with
      | some (.list items) => items.all pure
      | _ => false) = true) (hc : c ∈ k.fieldChildren field) : pure (some c) = true := by
  unfold Node.fieldChildren at hc
  split at h
  · next items hv =>
    rw [hv, Option.elim_some, mem_children_list] at hc
    exact List.all_eq_true.1 h _ hc
  · cases h

theorem weighed_of_isPureLevels (hs : k.Shaped) (hk : t.arena.get? m = some k)
    (h : t.isPureLevels s constantsOnly (fuel + 1) (some m) = true) {field : String}
    (hfield : field ∈ k.weighed) (hc : c ∈ k.fieldChildren field) :
    t.isPureLevels s constantsOnly fuel (some c) = true := by
  rw [isPureLevels, look_some, hk] at h
  dsimp only at h
  generalize t.isPureLevels s constantsOnly fuel = pure at h ⊢
  have hslot (hf : ∃ f ∈ k.type.fields, f.kind ≠ .list ∧ f.name = field)
      (h : pure (k.child? field) = true) :
      pure (some c) = true := by
    obtain ⟨f, hf, hkind, rfl⟩ := hf
    rwa [hs.child?_eq_some hf hkind hc] at h
  unfold Node.weighed at hfield
  split at h <;> rename_i hty
  case h_2 | h_3 | h_4 | h_9 =>
    -- lists
    simp only [hty, List.mem_singleton] at hfield
    subst hfield
    exact pure_of_mem_list h hc
  case h_1 => simp [hty] at hfield
  case h_5 =>
    -- a method: its key if that is computed
    simp only [Bool.and_eq_true, Bool.or_eq_true, Bool.not_eq_true'] at h
    cases hset : k.isSet "computed" <;> simp [hty, hset] at hfield h
    subst hfield
    exact hslot (by rw [hty]; decide) h.1.1
  case h_6 | h_7 =>
    -- a property: its value, and its key if that is computed
    simp only [Bool.and_eq_true, Bool.or_eq_true, Bool.not_eq_true'] at h
    cases hset : k.isSet "computed" <;> simp [hty, hset] at hfield h
    · subst hfield
      exact hslot (by rw [hty]; decide) h
    · rcases hfield with rfl | rfl
      · exact hslot (by rw [hty]; decide) h.1
      · exact hslot (by rw [hty]; decide) h.2
  case h_8 =>
    simp only [hty, List.mem_singleton] at hfield
    subst hfield
    exact hslot (by rw [hty]; decide) h
  case h_10 =>
    split at hfield <;> rename_i hty'
    case h_9 | h_10 =>
      -- a class: its superclass, if there is one, and its body
      rw [if_pos (by rw [hty']; rfl), Bool.and_eq_true, Bool.or_eq_true] at h
      simp only [List.mem_cons, List.not_mem_nil, or_false] at hfield
      rcases hfield with rfl | rfl
      · refine hslot (by rw [hty']; decide) (h.1.resolve_left fun hnone => ?_)
        have hsome := hs.child?_eq_some (f := ⟨"super_class", .optNode⟩)
          (by rw [hty']; decide) (by decide) hc
        simp [hsome] at hnone
      · exact hslot (by rw [hty']; decide) h.2
    case h_11 | h_12 =>
      rw [if_neg (by rw [hty']; decide), if_pos (by rw [hty']; rfl), Bool.and_eq_true] at h
      simp only [List.mem_cons, List.not_mem_nil, or_false] at hfield
      rcases hfield with rfl | rfl
      · exact hslot (by rw [hty']; decide) h.1
      · exact hslot (by rw [hty']; decide) h.2
    case h_13 => cases hfield
    all_goals simp_all

theorem judged_or_aside (ha : t.arena.WellOwned) (hn : n.index < t.arena.size)
    (h : t.isPure s (some n) constantsOnly = true) (hm : t.arena.Runs n m) :
    t.arena.Aside n m ∨ ∃ fuel, t.arena.Suffices fuel m
      ∧ t.isPureLevels s constantsOnly fuel (some m) = true := by
  induction hm with
  | start => exact .inr ⟨_, suffices_of_le hn (Nat.le_succ _), h⟩
  | @child m c k f hm hk hf hnow hc ih =>
    rcases ih with ih | ⟨fuel, hfuel, hpure⟩
    · exact .inl (ih.child hk hf hnow hc)
    · obtain ⟨fuel, rfl⟩ := Nat.exists_eq_succ_of_ne_zero (hfuel.pos ha.owned)
      rcases Node.field_cases (innocent_of_isPureLevels hk hpure)
        (List.mem_map_of_mem hf) with hlater | haside | hweighed
      · exact absurd hlater hnow
      · exact .inl (.enter hm hk hf hnow haside hc)
      · have hchild : c ∈ t.arena.children (some m) := by
          rw [children_some, hk]
          exact (k.fieldChildren_sublist f.name).subset hc
        exact .inr ⟨fuel, hfuel.child ha.owned hchild,
          weighed_of_isPureLevels (ha.shaped m k hk) hk hpure hweighed hc⟩

/-- What runs when a node that is judged pure is evaluated is harmless, or passed over. -/
theorem harmless_or_aside (ha : t.arena.WellOwned) (hn : n.index < t.arena.size)
    (h : t.isPure s (some n) constantsOnly = true) (hm : t.arena.Runs n m) :
    t.arena.Aside n m ∨ t.Harmless s constantsOnly m := by
  refine (judged_or_aside ha hn h hm).imp_right fun ⟨fuel, hfuel, hpure⟩ => ?_
  obtain ⟨fuel, rfl⟩ := Nat.exists_eq_succ_of_ne_zero (hfuel.pos ha.owned)
  obtain ⟨k, hk⟩ := Option.isSome_iff_exists.1 (isSome_get?_iff.2 hfuel.1)
  refine ⟨fun ty hty => ?_, fun hread => ?_⟩
  · rw [is_of_get hk, beq_eq_false_iff_ne]
    rintro rfl
    exact k.type.not_mem_effects_of_innocent (innocent_of_isPureLevels hk hpure) hty
  · obtain ⟨hid, -⟩ := Bool.and_eq_true_iff.1 hread
    rw [is_of_get hk, beq_iff_eq] at hid
    obtain ⟨name, b, hname, hb⟩ := bound_of_isPureLevels hk hid hpure
    exact ⟨name, b, by rw [Arena.name?, look_some, hk]; exact hname, hb⟩

/-- **Purity is sound if and only if nothing harmful is passed over.** If a node is judged pure,
then what runs when it is evaluated has no effect, and the names that are read there are bound, and
never written where that is asked for, exactly if this holds at and below decorators, and in the
slots for names, types and texts. -/
theorem isPure_sound (ha : t.arena.WellOwned) (hn : n.index < t.arena.size)
    (h : t.isPure s (some n) constantsOnly = true) :
    (∀ m, t.arena.Runs n m → t.Harmless s constantsOnly m)
      ↔ ∀ m, t.arena.Aside n m → t.Harmless s constantsOnly m :=
  ⟨fun hall m hm => hall m hm.runs, fun hall m hm => (harmless_or_aside ha hn h hm).elim
    (hall m) id⟩

/-- An array literal with a function that makes a call: `[() => f()]`. -/
def callLater : Arena := Arena.runAll [
  .alloc .identifier [.str "f", .node none],
  .alloc .callExpression [.node (some ⟨0⟩), .list []],
  .alloc .arrowFunctionExpression
    [.list [], .node (some ⟨1⟩), .node none, .node none, .bool false, .bool true],
  .alloc .arrayExpression [.list [some ⟨2⟩]]]

/-- The call does not run when the array is made, and nothing is passed over. -/
theorem isPure_callLater : (ofArena callLater (some ⟨3⟩)).isPure ⟨0⟩ (some ⟨3⟩) true = true
    ∧ ∀ m, callLater.Runs ⟨3⟩ m → (ofArena callLater (some ⟨3⟩)).Harmless ⟨0⟩ true m := by
  have hpure : (ofArena callLater (some ⟨3⟩)).isPure ⟨0⟩ (some ⟨3⟩) true = true := by decide +kernel
  refine ⟨hpure, (isPure_sound (Arena.wellOwned_runAll _) (by decide) hpure).2 fun m hm => ?_⟩
  have hnone : callLater.nodes.all fun k => k.asides.all fun field =>
      (k.fieldChildren field).isEmpty := by
    decide +kernel
  obtain ⟨k, field, c, hk, haside, hc⟩ := hm.exists_field
  have hempty := List.all_eq_true.1 (Array.all_eq_true_iff_forall_mem.1 hnone k hk) field haside
  rw [List.isEmpty_iff.1 hempty] at hc
  cases hc

/-- A class with a method that is decorated with a call: `(class { @f() m() {} })`. -/
def decorated : Arena := Arena.runAll [
  .alloc .identifier [.str "f", .node none],
  .alloc .callExpression [.node (some ⟨0⟩), .list []],
  .alloc .decorator [.node (some ⟨1⟩)],
  .alloc .identifier [.str "m", .node none],
  .alloc .blockStatement [.list [], .list []],
  .alloc .classMethod [.str "method", .node (some ⟨3⟩), .list [], .node (some ⟨4⟩),
    .list [some ⟨2⟩], .node none, .node none, .bool false, .bool false, .bool false, .bool false],
  .alloc .classBody [.list [some ⟨5⟩]],
  .alloc .classExpression [.node none, .node (some ⟨6⟩), .node none, .list [], .node none,
    .node none, .list [], .list []]]

/-- The class is judged pure, and the call of its decorator runs. -/
theorem isPure_decorated : decorated.WellOwned
    ∧ (∀ only, (ofArena decorated (some ⟨7⟩)).isPure ⟨0⟩ (some ⟨7⟩) only = true)
    ∧ decorated.Runs ⟨7⟩ ⟨1⟩ ∧ decorated.is (some ⟨1⟩) .callExpression = true := by
  refine ⟨Arena.wellOwned_runAll _, by decide +kernel, ?_, by decide +kernel⟩
  have hstep {m c : NodeId} (hm : decorated.Runs ⟨7⟩ m) (h : ∃ k, decorated.get? m = some k
      ∧ ∃ f ∈ k.type.childFields, f.name ∉ k.type.deferred ∧ c ∈ k.fieldChildren f.name) :
      decorated.Runs ⟨7⟩ c := by
    obtain ⟨k, hk, f, hf, hnow, hc⟩ := h
    exact hm.child hk hf hnow hc
  have hbody : decorated.Runs ⟨7⟩ ⟨6⟩ := hstep .start ⟨_, rfl, by decide +kernel⟩
  have hmethod : decorated.Runs ⟨7⟩ ⟨5⟩ := hstep hbody ⟨_, rfl, by decide +kernel⟩
  have hdecorator : decorated.Runs ⟨7⟩ ⟨2⟩ := hstep hmethod ⟨_, rfl, by decide +kernel⟩
  exact hstep hdecorator ⟨_, rfl, by decide +kernel⟩

end Tree

end ScopedTree
