import ScopedTree.Proofs.Arena.Term
import ScopedTree.Proofs.Constant.Evaluate
import ScopedTree.Proofs.Edit.Consistent

/-!
# Declaring positions are not read

An identifier that a declarator, a parameter or a catch clause binds through patterns stands where
no name is read, unless it is what a rest property takes. So no binding counts it, and a name that
is declared and not used is not referenced.

* `Arena.HasPattern`          where patterns stand that declare;
* `Arena.Declared`            the identifiers that they bind;
* `Arena.StandsIn`            where an identifier stands when a pattern binds it;
* `Arena.Declared.unread`     **what a pattern binds is not read there**;
* `Tree.unread_scopeOfRoot`   so no binding counts it after the first crawl.
-/

namespace ScopedTree

open Arena ScopedTree.Tree

/-- What a pattern binds stands in such a field of a node of the type. -/
def NodeType.DeclaresIn (ty : NodeType) (key : String) : Prop :=
  ty.isBinder ∧ key ∈ ty.bindingKeys ∨ ty.isA .function ∧ key = "params"
    ∨ ty = .catchClause ∧ key = "param"

theorem NodeType.binder_cases : ∀ ty : NodeType, ty.isBinder → ty.bindsPlainly ∧
    (ty = .variableDeclarator ∧ ty.bindingKeys = ["id"]
      ∨ (ty = .importSpecifier ∨ ty = .importNamespaceSpecifier ∨ ty = .importDefaultSpecifier)
        ∧ ty.bindingKeys = ["local"]
      ∨ ty = .assignmentPattern ∧ ty.bindingKeys = ["left"]
      ∨ (ty = .restElement ∨ ty = .restProperty) ∧ ty.bindingKeys = ["argument"]
      ∨ ty = .arrayPattern ∧ ty.bindingKeys = ["elements"]
      ∨ ty = .objectPattern ∧ ty.bindingKeys = ["properties"]
      ∨ (ty = .objectProperty ∨ ty = .assignmentProperty) ∧ ty.bindingKeys = ["value"]) := by
  intro ty
  cases ty <;> decide

theorem NodeType.function_cases : ∀ ty : NodeType, ty.isA .function →
    (ty = .arrowFunctionExpression ∨ ty = .functionDeclaration ∨ ty = .functionExpression)
      ∨ ty = .classMethod ∨ ty = .objectMethod := by
  intro ty
  cases ty <;> decide

namespace Arena

variable {a : Arena} {r n m k id : NodeId} {o : Node} {above : List NodeId} {key key' name : String}
  {grand : Option NodeId}

/-! ## fields -/

theorem holds_iff {c : Option NodeId} :
    o.holds key c = true ↔ ∃ v, o.value? key = some v ∧ c ∈ v.handles := by
  unfold Node.holds
  cases hv : o.value? key with
  | none => simp
  | some v =>
    cases v with
    | node child => simpa [Value.handles] using eq_comm
    | _ => simp [Value.handles]

theorem holds_of_child? (h : o.child? key = some m) : o.holds key (some m) = true := by
  unfold Node.child? at h
  unfold Node.holds
  cases hv : o.value? key with
  | none => simp [hv] at h
  | some v => cases v <;> simp_all

theorem holds_of_mem_items (h : some m ∈ o.items key) : o.holds key (some m) = true := by
  unfold Node.items at h
  unfold Node.holds
  cases hv : o.value? key with
  | none => simp [hv] at h
  | some v => cases v <;> simp_all

theorem Owned.key_unique (ha : a.Owned) (ho : a.get? k = some o) (h : o.holds key (some m) = true)
    (h' : o.holds key' (some m) = true) : key = key' := by
  obtain ⟨v, hv, hm⟩ := holds_iff.1 h
  obtain ⟨v', hv', hm'⟩ := holds_iff.1 h'
  obtain ⟨i, hi, hv⟩ := Option.bind_eq_some_iff.1 hv
  obtain ⟨j, hj, hv'⟩ := Option.bind_eq_some_iff.1 hv'
  obtain rfl := ha.value_unique ho hv hv' (List.reduceOption_mem_iff.2 hm)
    (List.reduceOption_mem_iff.2 hm')
  exact Node.fieldPosition?_inj hi hj

/-! ## patterns -/

/-- The pattern `m` stands where `n` declares what it binds: as the target of a declarator, as a
parameter of a function or in a catch clause. -/
inductive HasPattern (a : Arena) (n : NodeId) : NodeId → Prop
  | declarator {m : NodeId} (hn : a.is (some n) .variableDeclarator)
    (hm : a.child? (some n) "id" = some m) :
      HasPattern a n m
  | param {m : NodeId} (hn : a.isA (some n) .function) (hm : some m ∈ a.items (some n) "params") :
      HasPattern a n m
  | catchParam {m : NodeId} (hn : a.is (some n) .catchClause)
    (hm : a.child? (some n) "param" = some m) :
      HasPattern a n m

/-- The identifier is bound by a pattern that declares. -/
def Declared (a : Arena) (id : NodeId) : Prop := ∃ n m name, a.HasPattern n m ∧ a.Patterns m name id

def InRestProperty (a : Arena) (id : NodeId) : Prop := a.is (a.parentOf (some id)) .restProperty

/-- What stands in a property, stands in one of an object pattern. -/
def InObjectPattern (a : Arena) (id : NodeId) : Prop :=
  a.is (a.parentOf (some id)) .objectProperty ∨ a.is (a.parentOf (some id)) .assignmentProperty →
    a.is (a.parentOf (a.parentOf (some id))) .objectPattern

/-- The identifier stands in a field of its owner where patterns bind. -/
def StandsIn (a : Arena) (id k : NodeId) : Prop :=
  ∃ o key, a.get? k = some o ∧ o.type.DeclaresIn key ∧ o.holds key (some id) = true

theorem Patterns.identifier (h : a.Patterns m name id) : a.is (some id) .identifier = true := by
  induction h with
  | here hm hty _ => exact is_some.2 ⟨_, hm, hty⟩
  | inside _ _ _ _ ih => exact ih

theorem Patterns.standsIn (h : a.Patterns m name id) : id = m ∨ ∃ k, a.StandsIn id k := by
  induction h with
  | here => exact .inl rfl
  | @inside m m' id o name hm hty hm' _ ih =>
    refine .inr ?_
    rcases ih with rfl | ih
    · rw [bindingTargets_of_bindsPlainly (o.type.binder_cases hty).1] at hm'
      obtain ⟨key, hkey, hc⟩ := List.mem_flatMap.1 hm'
      refine ⟨m, o, key, hm, .inl ⟨hty, hkey⟩, holds_iff.2 ?_⟩
      cases hv : o.value? key with
      | none => simp [hv] at hc
      | some v => exact ⟨v, rfl, by simpa [hv] using hc⟩
    · exact ih

theorem HasPattern.standsIn (h : a.HasPattern n m) : a.StandsIn m n := by
  have hchild : ∀ {key o}, a.get? n = some o → a.child? (some n) key = some m →
      o.child? key = some m := by
    intro key o ho hm
    obtain ⟨o', ho', hm⟩ := Option.bind_eq_some_iff.1 hm
    rwa [Option.some.inj (ho.symm.trans ho')]
  cases h with
  | declarator hn hm =>
    obtain ⟨o, ho, hty⟩ := is_some.1 hn
    refine ⟨o, _, ho, .inl ?_, holds_of_child? (hchild ho hm)⟩
    rw [hty]
    decide
  | param hn hm =>
    obtain ⟨o, ho, hty⟩ := isA_some.1 hn
    have hmem : some m ∈ o.items "params" := by simpa [Arena.items, ho] using hm
    exact ⟨o, _, ho, .inr (.inl ⟨hty, rfl⟩), holds_of_mem_items hmem⟩
  | catchParam hn hm =>
    obtain ⟨o, ho, hty⟩ := is_some.1 hn
    exact ⟨o, _, ho, .inr (.inr ⟨hty, rfl⟩), holds_of_child? (hchild ho hm)⟩

theorem Declared.standsIn (h : a.Declared id) : ∃ k, a.StandsIn id k := by
  obtain ⟨n, m, name, hn, hm⟩ := h
  rcases hm.standsIn with rfl | h
  · exact ⟨n, hn.standsIn⟩
  · exact h

/-- Where patterns bind, nothing is read: the two tables agree but for rest properties. -/
theorem StandsIn.not_isReferenced (ha : a.Owned) (h : a.StandsIn id k)
    (hrest : a.is (some k) .restProperty = false) (hprop : a.is (some k) .objectProperty
      ∨ a.is (some k) .assignmentProperty → a.is grand .objectPattern) :
    a.isReferenced (some id) (some k) grand = false := by
  obtain ⟨o, key, ho, hkey, hid⟩ := h
  -- it stands in no other field of its owner
  have hother : ∀ key', key' ≠ key → o.holds key' (some id) = false := by
    intro key' hne
    by_contra hheld
    exact hne (ha.key_unique ho (by simpa using hheld) hid)
  have hlook : a.look (some k) = some o := ho
  rw [is_of_get ho] at hrest
  rw [is_of_get ho, is_of_get ho] at hprop
  unfold isReferenced
  rw [hlook]
  dsimp only
  rcases hkey with ⟨hbinder, hmem⟩ | ⟨hfun, rfl⟩ | ⟨hcatch, rfl⟩
  · obtain ⟨_, h⟩ := o.type.binder_cases hbinder
    rcases h with ⟨hty, hkeys⟩ | ⟨hty | hty | hty, hkeys⟩ | ⟨hty, hkeys⟩ | ⟨hty | hty,
      hkeys⟩ | ⟨hty, hkeys⟩
      | ⟨hty, hkeys⟩ | ⟨hty | hty, hkeys⟩ <;> rw [hkeys, List.mem_singleton] at hmem <;> subst hmem
      <;> simp_all
  · rcases o.type.function_cases hfun with (hty | hty | hty) | hty | hty <;> simp_all
  · simp_all

theorem StandsIn.owner (ha : a.Owned) (h : a.StandsIn id k) : a.parentOf (some id) = some k := by
  obtain ⟨o, key, ho, -, hid⟩ := h
  obtain ⟨v, hv, hmem⟩ := holds_iff.1 hid
  refine ha.owner_of_child _ _ ?_
  rw [children_some, ho]
  exact mem_children_of_value? hv (List.reduceOption_mem_iff.2 hmem)

/-- **What a pattern binds is not read there**, unless a rest property takes it. -/
theorem Declared.unread (ha : a.Owned) (hr : a.is (some r) .program) (hu : a.Under r id above)
    (h : a.Declared id) (hrest : ¬ a.InRestProperty id) (hprop : a.InObjectPattern id) :
    ¬ a.isRead id above := by
  have hroot : ∀ {ty : NodeType}, a.is (some r) ty → ty = .program := by
    intro ty hty
    obtain ⟨o, ho, hprogram⟩ := is_some.1 hr
    rw [is_of_get ho, hprogram, beq_iff_eq] at hty
    exact hty.symm
  obtain ⟨k, hk⟩ := h.standsIn
  have howner := hk.owner ha
  unfold InRestProperty at hrest
  unfold InObjectPattern at hprop
  rw [howner] at hrest hprop
  cases above with
  | nil =>
    obtain ⟨_, _, _, _, hm⟩ := h
    obtain rfl := under_nil.1 hu
    cases hroot hm.identifier
  | cons k' rest =>
    obtain ⟨hk', hc⟩ := under_cons.1 hu
    obtain rfl := Option.some.inj (howner.symm.trans (ha.owner_of_child _ _ hc))
    have hread : a.isReferenced (some id) (some k) rest.head? = false := by
      refine hk.not_isReferenced ha (by simpa using hrest) fun hty => ?_
      cases rest with
      | nil =>
        obtain rfl := under_nil.1 hk'
        rcases hty with hty | hty <;> cases hroot hty
      | cons g rest =>
        rw [List.head?_cons, ← ha.owner_of_child _ _ (under_cons.1 hk').2]
        exact hprop hty
    unfold isRead VirtualType.admits
    simp [hread]

end Arena

namespace Tree

variable {a : Arena} {t : Tree} {r : NodeId} {s₀ : ScopeId}

/-- No identifier that a pattern binds counts as a use, and a name that is not used apart from that
is not referenced. Identifiers that a rest property takes are left out. -/
structure Unread (a : Arena) (r : NodeId) (t : Tree) : Prop where
  uncounted : ∀ p id, t.node p = some id → a.Declared id → ¬ a.InRestProperty id →
    a.InObjectPattern id → t.Uncounted p
  /-- all reads of the name are positions that declare, and no export is of it -/
  unused : ∀ b record, t.binding? b = some record →
    (∀ n above, a.Under r n above → a.isRead n above → a.name? (some n) = some record.name →
      a.Declared n ∧ ¬ a.InRestProperty n ∧ a.InObjectPattern n) →
    (∀ p h, ¬ t.Exports r p record.name h) →
    record.references = 0 ∧ record.referenced = false ∧ record.referencePaths = []

theorem CountsExport.exports {p : PathId} {k : Nat} {b : BindingId} {record : Binding}
    {D : NodeId → BindingKind → String → NodeId → Prop} (ht : t.Scoped r) (hbound : t.Bound D)
    (hb : t.binding? b = some record) (he : t.CountsExport r p k record.name b) :
    t.Exports r p record.name (t.scope record.scope).block := by
  obtain ⟨s, n, m, above, he⟩ := he
  obtain ⟨c, hc, hown⟩ := List.exists_of_findSome?_eq_some he.nearest
  have hget := (Option.filter_eq_some_iff.1 hown).1
  rw [hbound.ownBinding?] at hget
  obtain ⟨record', hb', rfl, -⟩ := hbound.listed c record.name b hget
  obtain rfl := Option.some.inj (hb'.symm.trans hb)
  refine ⟨n, above, he.place, he.exports, he.declaration ▸ he.names, ?_⟩
  rw [← ht.map_block_scopeChain he.place.under he.holds]
  exact List.mem_map_of_mem hc

theorem Crawled.unread (hc : Crawled a r t) (hr : a.is (some r) .program)
    (hconsistent : ∀ b record, t.binding? b = some record → record.Consistent) : Unread a r t := by
  obtain ⟨_, hl, _⟩ := hc.linked
  have ht := hl.inScope
  have howned : a.Owned := hl.arena ▸ ht.coherent.arena.owned
  refine ⟨fun p id hid hdeclared hrest hprop b record hb hp => ?_,
    fun b record hb hreads hexports => ?_⟩
  · rcases (hl.linked b record hb).2 p hp with ⟨_, _, _, _, _, hpl, hn⟩ | ⟨n, above, _,
      hpl, hread, _⟩
    · -- an identifier is no export
      obtain ⟨_, _, _, _, hm⟩ := hdeclared
      obtain rfl := Option.some.inj (hpl.node.symm.trans hid)
      obtain ⟨o, ho, hty⟩ := is_some.1 hm.identifier
      obtain ⟨o', ho', hexport⟩ := isA_some.1 hn
      rw [hl.arena, ho] at ho'
      rw [← Option.some.inj ho', hty] at hexport
      cases hexport
    · obtain rfl := Option.some.inj (hpl.node.symm.trans hid)
      have hu := hpl.under
      rw [hl.arena] at hu hread
      exact hdeclared.unread howned hr hu hrest hprop hread
  · have hnone : record.referencePaths = [] := by
      refine List.eq_nil_iff_forall_not_mem.2 fun p hp => ?_
      rcases (hl.linked b record hb).2 p hp with ⟨_, hexp⟩ | ⟨n, above, _, hpl, hread, hname, _⟩
      · exact hexports p _ (hexp.exports ht hl.bound hb)
      · have hu := hpl.under
        rw [hl.arena] at hu hread hname
        obtain ⟨hdeclared, hrest, hprop⟩ := hreads n above hu hread hname
        exact hdeclared.unread howned hr hu hrest hprop hread
    have hrecord := hconsistent b record hb
    refine ⟨by rw [hrecord.references, hnone]; rfl, ?_, hnone⟩
    rw [← Bool.not_eq_true, hrecord.referenced, hnone]
    simp

/-- **Declaring positions are not read.** If the first crawl of a program ends well, no binding
counts an identifier that a declarator, a parameter or a catch clause binds through patterns, and a
name whose only uses are such positions has no references. -/
theorem unread_scopeOfRoot (ha : a.WellOwned) (hr : a.is (some r) .program) {options : Options}
    (h : scopeOfRoot (ofArena a (some r) options) = .ok (some s₀) t) : Unread a r t := by
  have hkeeps := Consistent.crawls.paths.root.bind fun p => Consistent.crawls.scopeOf p
  have hstart : (ofArena a (some r) options).Consistent := fun b record hb => by
    simp [binding?, ofArena] at hb
  have hfinal := hkeeps _ hstart
  change Tree.Consistent (final (scopeOfRoot (ofArena a (some r) options))) at hfinal
  rw [h] at hfinal
  exact (crawled_scopeOfRoot ha hr h).1.unread hr hfinal

def nestedTarget : Arena := runAll [
  .alloc .identifier [.str "x", .node none],
  .alloc .identifier [.str "y", .node none],
  .alloc .assignmentPattern [.node (some ⟨0⟩), .node (some ⟨1⟩)],
  .alloc .arrayPattern [.list [some ⟨2⟩], .node none],
  .alloc .identifier [.str "k", .node none],
  .alloc .objectProperty [.node (some ⟨4⟩), .node (some ⟨3⟩), .list [], .bool false, .bool false],
  .alloc .objectPattern [.list [some ⟨5⟩], .node none],
  .alloc .identifier [.str "y", .node none],
  .alloc .variableDeclarator [.node (some ⟨6⟩), .node (some ⟨7⟩)],
  .alloc .variableDeclaration [.str "var", .list [some ⟨8⟩]],
  .alloc .program [.str "module", .list [], .list [some ⟨9⟩]]]

theorem declared_nestedTarget : nestedTarget.Declared ⟨0⟩ := by
  have hobject : nestedTarget.get? ⟨6⟩ = some
      { type := .objectPattern, values := [.list [some ⟨5⟩], .node none], parent := some ⟨8⟩ } :=
      rfl
  have hproperty : nestedTarget.get? ⟨5⟩ = some
      { type := .objectProperty, parent := some ⟨6⟩,
        values := [.node (some ⟨4⟩), .node (some ⟨3⟩), .list [],
          .bool false, .bool false] } := rfl
  have harray : nestedTarget.get? ⟨3⟩ = some
      { type := .arrayPattern, values := [.list [some ⟨2⟩], .node none], parent := some ⟨5⟩ } := rfl
  have hdefault : nestedTarget.get? ⟨2⟩ = some
      { type := .assignmentPattern, values := [.node (some ⟨0⟩), .node (some ⟨1⟩)],
        parent := some ⟨3⟩ } := rfl
  have hid : nestedTarget.get? ⟨0⟩ = some
      { type := .identifier, values := [.str "x", .node none], parent := some ⟨2⟩ } := rfl
  refine ⟨⟨8⟩, ⟨6⟩, "x", .declarator (by decide) (by decide), ?_⟩
  exact .inside hobject rfl
    (by decide) (.inside hproperty rfl (by decide) (.inside harray rfl (by decide)
    (.inside hdefault rfl (by decide) (.here hid rfl rfl))))

/-- In `var {k: [x = y]} = y` the name `x` is declared and not used: it has no references. -/
theorem unread_nestedTarget : ∃ s t b record,
    scopeOfRoot (ofArena nestedTarget (some ⟨10⟩) {}) = .ok (some s) t
      ∧ t.getBinding? s "x" = some b ∧ t.binding? b = some record ∧ record.references = 0
      ∧ ∃ p, t.node p = some ⟨0⟩ ∧ t.Uncounted p := by
  have hok : passes (scopeOfRoot (ofArena nestedTarget (some ⟨10⟩) {})) (fun o t => o.any fun s =>
      (t.getBinding? s "x").any fun b => (t.binding? b).any fun record =>
        record.name == "x" && (List.range t.paths.size).any (fun p => t.node ⟨p⟩ == some ⟨0⟩)
          && (List.range t.arena.size).all fun i => !t.arena.isA (some ⟨i⟩) .exportDeclaration)
          = true := by
    decide +kernel
  obtain ⟨o, t, hrun, hok⟩ := ok_of_passes hok
  obtain ⟨s, rfl, hscope⟩ := (Option.any_eq_true _ _).1 hok
  obtain ⟨b, hb, hbound⟩ := (Option.any_eq_true _ _).1 hscope
  obtain ⟨record, hrecord, hfound⟩ := (Option.any_eq_true _ _).1 hbound
  obtain ⟨hfound, hexports⟩ := Bool.and_eq_true_iff.1 hfound
  obtain ⟨hname, hpath⟩ := Bool.and_eq_true_iff.1 hfound
  obtain ⟨p, _, hp⟩ := List.any_eq_true.1 hpath
  have hname : record.name = "x" := by simpa using hname
  have hp : t.node ⟨p⟩ = some ⟨0⟩ := by simpa using hp
  have hunread := unread_scopeOfRoot (wellOwned_runAll _) (by decide) hrun
  have hrest : ¬ nestedTarget.InRestProperty ⟨0⟩ := by unfold InRestProperty; decide
  have hprop : nestedTarget.InObjectPattern ⟨0⟩ := by unfold InObjectPattern; decide
  refine ⟨s, t, b, record, hrun, hb, hrecord, (hunread.unused b record hrecord ?_ ?_).1, ⟨p⟩, hp,
    hunread.uncounted _ _ hp declared_nestedTarget hrest hprop⟩
  · rintro ⟨i⟩ _ _ _ hx
    have hnodes : ∀ i < nestedTarget.size, nestedTarget.name? (some ⟨i⟩) = some "x" → i = 0 := by
      decide +kernel
    rw [hname] at hx
    obtain ⟨o, ho, _⟩ := Option.bind_eq_some_iff.1 hx
    obtain rfl := hnodes i (get?_eq_some_lt ho) hx
    exact ⟨declared_nestedTarget, hrest, hprop⟩
  · rintro q h ⟨⟨i⟩, _, _, hn, _⟩
    obtain ⟨o, ho, _⟩ := isA_some.1 hn
    have hnone := List.all_eq_true.1 hexports i (List.mem_range.2 (get?_eq_some_lt ho))
    rw [hn] at hnone
    cases hnone

def restTarget : Arena := runAll [
  .alloc .identifier [.str "x", .node none],
  .alloc .restProperty [.node (some ⟨0⟩)],
  .alloc .objectPattern [.list [some ⟨1⟩], .node none],
  .alloc .identifier [.str "y", .node none],
  .alloc .variableDeclarator [.node (some ⟨2⟩), .node (some ⟨3⟩)],
  .alloc .variableDeclaration [.str "var", .list [some ⟨4⟩]],
  .alloc .program [.str "module", .list [], .list [some ⟨5⟩]]]

/-- What a rest property takes counts as a use of itself: `x` in `var {...x} = y` is referenced. -/
theorem references_restTarget : restTarget.Declared ⟨0⟩ ∧ ∃ s t b record p,
    scopeOfRoot (ofArena restTarget (some ⟨6⟩) {}) = .ok (some s) t
      ∧ t.getBinding? s "x" = some b ∧ t.binding? b = some record ∧ t.node p = some ⟨0⟩
      ∧ record.referencePaths = [p] ∧ record.references = 1 ∧ record.referenced = true := by
  have hobject : restTarget.get? ⟨2⟩ = some
      { type := .objectPattern, values := [.list [some ⟨1⟩], .node none], parent := some ⟨4⟩ } :=
      rfl
  have hrest : restTarget.get? ⟨1⟩ = some
      { type := .restProperty, values := [.node (some ⟨0⟩)], parent := some ⟨2⟩ } := rfl
  have hid : restTarget.get? ⟨0⟩ = some
      { type := .identifier, values := [.str "x", .node none], parent := some ⟨1⟩ } := rfl
  have hdeclared : restTarget.Declared ⟨0⟩ := by
    refine ⟨⟨4⟩, ⟨2⟩, "x", .declarator (by decide) (by decide), ?_⟩
    exact .inside hobject rfl (by decide) (.inside hrest rfl (by decide) (.here hid rfl rfl))
  have hok : passes (scopeOfRoot (ofArena restTarget (some ⟨6⟩) {})) (fun o t => o.any fun s =>
      (t.getBinding? s "x").any fun b => (t.binding? b).any fun record =>
        (record.references == 1 && record.referenced) && record.referencePaths.head?.any fun p =>
          t.node p == some ⟨0⟩ && record.referencePaths == [p]) = true := by decide +kernel
  obtain ⟨o, t, hrun, hok⟩ := ok_of_passes hok
  obtain ⟨s, rfl, hscope⟩ := (Option.any_eq_true _ _).1 hok
  obtain ⟨b, hb, hbound⟩ := (Option.any_eq_true _ _).1 hscope
  obtain ⟨record, hrecord, hfound⟩ := (Option.any_eq_true _ _).1 hbound
  obtain ⟨hcount, hpath⟩ := Bool.and_eq_true_iff.1 hfound
  obtain ⟨p, _, hp⟩ := (Option.any_eq_true _ _).1 hpath
  obtain ⟨hone, hreferenced⟩ := Bool.and_eq_true_iff.1 hcount
  obtain ⟨hnode, hpaths⟩ := Bool.and_eq_true_iff.1 hp
  exact ⟨hdeclared, s, t, b, record, p, hrun, hb,
    hrecord, by simpa using hnode, by simpa using hpaths, by simpa using hone, hreferenced⟩

end Tree

end ScopedTree
