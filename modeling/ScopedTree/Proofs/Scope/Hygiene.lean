import ScopedTree.Proofs.Scope.Crawl
import ScopedTree.Proofs.Scope.Uids

/-!
# Generated names are new

After the first crawl every name that the program reads, assigns to or declares, and every label, is
known to occur. A name that occurs is taken, and generated names are not.

* `Arena.Mentions`                the names that a program mentions;
* `Tree.Crawled.occurs`           they occur once it was crawled;
* `Tree.Hygienic`                 every name that a program mentions occurs;
* `Tree.generateUid_not_mentions`   names that are generated after the first crawl are not
  mentioned.
-/

namespace ScopedTree

open ScopedTree.Tree Arena

namespace Arena

/-- A name that is mentioned below the root: it is read, written or declared, or a label. In the
head of a loop over entries or keys and in an update only a plain identifier counts as written. -/
inductive Mentions (a : Arena) (r : NodeId) (name : String) : Prop
  | read {n : NodeId} {above : List NodeId} (hu : a.Under r n above) (hn : a.isRead n above)
      (hname : a.name? (some n) = some name)
  /-- a target of an assignment, or part of its pattern -/
  | assigned {n id : NodeId} {above : List NodeId} (hu : a.Under r n above)
      (hn : a.is (some n) .assignmentExpression) (hb : a.Binds false n name id)
  | updated {n m : NodeId} {above : List NodeId} (hu : a.Under r n above)
      (hn : a.is (some n) .updateExpression) (hm : a.child? (some n) "argument" = some m)
      (hid : a.is (some m) .identifier) (hname : a.name? (some m) = some name)
  | looped {n m : NodeId} {above : List NodeId} (hu : a.Under r n above)
      (hn : a.isA (some n) .forXStatement) (hm : a.child? (some n) "left" = some m)
      (hid : a.is (some m) .identifier) (hname : a.name? (some m) = some name)
  /-- what a declaration binds -/
  | declared {n id : NodeId} {above : List NodeId} (hu : a.Under r n above)
      (hn : a.isA (some n) .declaration) (hexport : ¬ a.isA (some n) .exportDeclaration)
      (hb : a.Binds true n name id)
  /-- the name of a declaration of Flow -/
  | typed {n m : NodeId} {above : List NodeId} (hu : a.Under r n above)
      (hn : a.isA (some n) .flowDeclaration) (hm : a.child? (some n) "id" = some m)
      (hid : a.is (some m) .identifier) (hname : a.name? (some m) = some name)
  /-- what a node declares in a scope of its own -/
  | headed {n m id : NodeId} {above : List NodeId} (hu : a.Under r n above) (hm : a.Heads n m)
      (hb : a.Binds true m name id)
  | label {n : NodeId} {above : List NodeId} (hu : a.Under r n above)
      (hn : a.is (some n) .labeledStatement)
      (hname : a.name? (a.child? (some n) "label") = some name)

variable {a : Arena} {r n m h : NodeId} {name : String} {above : List NodeId} {key : String}

theorem isRead_child {o : Node} (hm : a.is (some m) .identifier) (hn : a.get? n = some o)
    (hty : o.type ∈ [.updateExpression, .forInStatement, .forOfStatement, .declareInterface,
      .declareTypeAlias]) : a.isRead m (n :: above) := by
  obtain ⟨om, hom, htm⟩ := is_some.1 hm
  have hhost : a.is (some m) .jsxIdentifier = false := by simp [is_of_get hom, htm]
  have hread : a.isReferenced (some m) (some n) above.head? := by
    unfold isReferenced
    simp only [List.mem_cons, List.not_mem_nil, or_false] at hty
    rcases hty with hty | hty | hty | hty | hty <;> simp [hn, hty]
  unfold Arena.isRead VirtualType.admits
  simp [type?, hom, htm, VirtualType.mayCover, hhost, hread]

theorem flow_cases (ha : a.Shaped) (hn : a.isA (some n) .flowDeclaration)
    (hm : a.child? (some n) "id" = some m) (hid : a.is (some m) .identifier)
    (hname : a.name? (some m) = some name) :
    a.isA (some n) .declaration ∧ ¬ a.isA (some n) .exportDeclaration ∧ a.Binds true n name m
      ∨ a.isRead m (n :: above) := by
  obtain ⟨o, ho, hty⟩ := isA_some.1 hn
  obtain ⟨om, hom, htm⟩ := is_some.1 hid
  have hflow : ∀ ty : NodeType, ty.isA .flowDeclaration → (ty.isA .declaration
      ∧ ¬ ty.isA .exportDeclaration) ∧ (ty.bindingKeys = ["id"]
        ∨ ty ∈ [.updateExpression, .forInStatement, .forOfStatement, .declareInterface,
          .declareTypeAlias]) := by
    intro ty
    cases ty <;> decide
  obtain ⟨⟨hdecl, hexport⟩, hkeys | htypes⟩ := hflow _ hty
  · have hbinds : a.Binds true m name m := .here hom htm (by simpa [Arena.name?, hom] using hname)
    refine .inl ⟨isA_some.2 ⟨o, ho, hdecl⟩, fun h => hexport ?_, ?_⟩
    · obtain ⟨o', ho', h⟩ := isA_some.1 h
      rwa [Option.some.inj (ho.symm.trans ho')]
    · exact .of_child ho (ha n o ho) (o.type.bindsSlot_id (.inl hty)) hkeys hm hbinds
  · exact .inr (isRead_child hid ho htypes)

theorem Heads.isScope (h : a.Heads n m) (owner : Option NodeId) : a.isScope (some n) owner := by
  have hloop : ∀ ty : NodeType, ty.isA .loop → ty.isA .scopable ∧ ty ≠ .blockStatement := by
    intro ty
    cases ty <;> decide
  have hfun : ∀ ty : NodeType, ty.isA .function → ty.isA .scopable ∧ ty ≠ .blockStatement := by
    intro ty
    cases ty <;> decide
  obtain ⟨o, ho, hs, hb⟩ : ∃ o, a.get? n = some o ∧ o.type.isA .scopable
      ∧ o.type ≠ .blockStatement := by
    cases h with
    | loopHead hn _ _ _ =>
      obtain ⟨o, ho, hty⟩ := isA_some.1 hn
      exact ⟨o, ho, hloop _ hty⟩
    | selfName hn _ =>
      rcases hn with hn | hn
      · obtain ⟨o, ho, hty⟩ := is_some.1 hn
        exact ⟨o, ho, by rw [hty]; decide⟩
      · obtain ⟨o, ho, hty⟩ := is_some.1 hn
        exact ⟨o, ho, by rw [hty]; decide⟩
    | param hn _ =>
      obtain ⟨o, ho, hty⟩ := isA_some.1 hn
      exact ⟨o, ho, hfun _ hty⟩
    | catchParam hn _ =>
      obtain ⟨o, ho, hty⟩ := is_some.1 hn
      exact ⟨o, ho, by rw [hty]; decide⟩
  simp [Arena.isScope, is_of_get ho, hb, isA, type?, ho, hs]

theorem exists_homes (hr : a.isScope (some r) none) (hu : a.Under r n (m :: above))
    (hn : a.isA (some n) .declaration) (hexport : ¬ a.isA (some n) .exportDeclaration) :
    ∃ h, a.Homes n (m :: above) h := by
  have hlast := getLast_blocks (under_cons.1 hu).1 hr
  have hhome : ∀ test, ∃ h, a.home test (m :: above) = some h := by
    intro test
    unfold home
    rw [hlast]
    cases (a.blocks (m :: above)).find? fun b => (a.type? (some b)).any test with
    | none => exact ⟨r, rfl⟩
    | some h => exact ⟨h, rfl⟩
  by_cases hlex : a.is (some n) .classDeclaration ∨ a.isLet (some n)
  · obtain ⟨h, hh⟩ := hhome _
    exact ⟨h, .lexical hlex hh⟩
  · obtain ⟨h, hh⟩ := hhome _
    exact ⟨h, .hoisted ⟨hn, hexport⟩ (not_or.1 hlex) hh⟩

end Arena

namespace Tree

variable {a : Arena} {t t' : Tree} {r n m : NodeId} {s s₀ : ScopeId} {base name uid : String}
  {above : List NodeId}

/-! ## names that occur -/

theorem shaped_of_linked {done : List PathId} (ht : Linked a r done t) : a.Shaped := by
  rw [← ht.arena]
  exact ht.inScope.coherent.arena.shaped

theorem Linked.occurs_of_listsAll {done : List PathId} {id : NodeId} (ht : Linked a r done t)
    (hl : t.ListsAll s m) (hb : a.Binds true m name id) : t.Occurs name := by
  rw [← ht.arena] at hb
  exact ht.noted s name (hl name id hb).1

theorem shouldVisit_of_covers {ty : NodeType} (hn : a.type? (some n) = some ty)
    (hty : collectorDispatch.handles ty) : collectorDispatch.shouldVisit a n = true := by
  cases ho : a.get? n with
  | none => simp [type?, ho] at hn
  | some o =>
    obtain rfl : o.type = ty := by simpa [type?, ho] using hn
    simp [Dispatch.shouldVisit, ho, hty]

theorem Crawled.exists_scope (hc : Crawled a r t) (ht : t.Scoped r) (hu : a.Under r n above)
    (hn : a.isScope (some n) above.head?) (hchild : a.children (some n) ≠ []) :
    ∃ s, s.index < t.scopes.size ∧ (t.scope s).block = n := by
  cases hs : t.scopeOfNode.get? n.index with
  | none => exact absurd (hc.settled n above hu hn hs) hchild
  | some s =>
    obtain ⟨hlt, hb⟩ := ht.listed _ s hs
    exact ⟨s, hlt, by cases hblock : (t.scope s).block; cases n; simp_all⟩

/-- **After the first crawl of a program every name that it mentions occurs.** -/
theorem Crawled.occurs (hc : Crawled a r t) (hr : a.is (some r) .program) (hm : a.Mentions r name) :
    t.Occurs name := by
  obtain ⟨reads, hl, hall⟩ := hc.linked
  obtain ⟨o, ho, hty⟩ := is_some.1 hr
  have hne : ∀ {n above ty}, a.Under r n above → a.is (some n) ty → ty ≠ .program → n ≠ r := by
    rintro n above ty _ hn hty' rfl
    rw [is_of_get ho, hty, beq_iff_eq] at hn
    exact hty' hn.symm
  have hread : ∀ {n above}, a.Under r n above → a.isRead n above →
      a.name? (some n) = some name → t.Occurs name := by
    intro n above hu hn hname
    obtain ⟨p, hp, hpl⟩ := hall n above hu hn
    obtain ⟨name', _, ⟨m, up, _, hpl', _, hname', _⟩, _, hoccurs⟩ := hl.counted p hp
    obtain rfl := Option.some.inj (hpl.node.symm.trans hpl'.node)
    rw [hl.arena, hname] at hname'
    rwa [Option.some.inj hname']
  have hdeclared : ∀ {n id above}, a.Under r n above → a.isA (some n) .declaration →
      ¬ a.isA (some n) .exportDeclaration → a.Binds true n name id → t.Occurs name := by
    intro n id above hu hn hexport hb
    obtain ⟨od, hod, htd⟩ := isA_some.1 hn
    have hdecl : ∀ ty : NodeType, ty.isA .declaration →
        collectorDispatch.handles ty ∧ ty ≠ .program := by
      intro ty
      cases ty <;> decide
    obtain ⟨hhandles, hprog⟩ := hdecl _ htd
    have hnr : n ≠ r := hne hu (is_some.2 ⟨od, hod, rfl⟩) hprog
    have hvisit := shouldVisit_of_covers (a := a) (n := n) (by simp [type?, hod]) hhandles
    cases above with
    | nil => exact absurd (under_nil.1 hu) hnr
    | cons m above =>
      obtain ⟨h, hh⟩ := exists_homes hl.root hu hn hexport
      obtain ⟨s, _, _, hlists⟩ := (hc.announced n _ hu hnr hvisit).names h hh
      exact hl.occurs_of_listsAll hlists hb
  cases hm with
  | read hu hn hname => exact hread hu hn hname
  | assigned hu hn hb => exact hc.assigned _ _ hu (hne hu hn (by decide)) hn _ _ hb
  | updated hu hn hm hid hname =>
    obtain ⟨ou, hou, htu⟩ := is_some.1 hn
    exact hread (hu.child (mem_children_of_child? hm)) (isRead_child hid hou (by simp [htu])) hname
  | looped hu hn hm hid hname =>
    obtain ⟨ol, hol, htl⟩ := isA_some.1 hn
    have hforX : ∀ ty : NodeType, ty.isA .forXStatement →
        ty ∈ [.updateExpression, .forInStatement, .forOfStatement, .declareInterface,
          .declareTypeAlias] := by
      intro ty
      cases ty <;> decide
    exact hread (hu.child (mem_children_of_child? hm)) (isRead_child hid hol (hforX _ htl)) hname
  | declared hu hn hexport hb => exact hdeclared hu hn hexport hb
  | typed hu hn hm hid hname =>
    rcases flow_cases (shaped_of_linked hl) hn hm hid hname with ⟨hdecl, hexport, hb⟩ | hr
    · exact hdeclared hu hdecl hexport hb
    · exact hread (hu.child (mem_children_of_child? hm)) hr hname
  | headed hu hm hb =>
    obtain ⟨s, hs, rfl⟩ := hc.exists_scope hl.inScope hu (hm.isScope _) (exists_child_of_heads hm)
    exact hl.occurs_of_listsAll (hc.heads s hs _ hm) hb
  | @label n above hu hn hname =>
    obtain ⟨ol, hol, htl⟩ := is_some.1 hn
    have hvisit := shouldVisit_of_covers (a := a) (n := n) (by simp [type?, hol, htl])
      (show collectorDispatch.handles .labeledStatement by decide)
    exact (hc.announced n above hu (hne hu hn (by decide)) hvisit).label hn _ hname

/-! ## generated names -/

/-- Every name that the program mentions is known to occur, and all scopes are those of the program.
-/
structure Hygienic (a : Arena) (r : NodeId) (t : Tree) : Prop where
  program : ∀ s, s.index < t.scopes.size → t.programScope s = ⟨0⟩
  occurs : ∀ name, a.Mentions r name → t.Occurs name

theorem Crawled.hygienic (hc : Crawled a r t) (hr : a.is (some r) .program) : Hygienic a r t where
  program s hs := by
    obtain ⟨_, hl, _⟩ := hc.linked
    exact hl.inScope.programScope_eq_zero (hl.arena ▸ hl.root) hs
  occurs _ hm := hc.occurs hr hm

theorem isTaken_of_occurs (hs : t.programScope s = ⟨0⟩) (h : t.Occurs name) :
    t.isTaken s name = true := by
  have hmem : t.programScope s ∈ t.scopeChain s := by
    unfold Tree.programScope
    rw [List.getLast?_eq_some_getLast (t.scopeChain_ne_nil s)]
    exact List.getLast_mem _
  have href : t.hasReference s name = true := by
    refine List.any_eq_true.2 ⟨_, hmem, ?_⟩
    rw [hs]
    exact List.contains_iff_mem.2 h
  simp [isTaken, href]

theorem Hygienic.not_mentions (ht : Hygienic a r t) (hs : s.index < t.scopes.size)
    (hrun : generateUid s base t = .ok uid t') : ¬ a.Mentions r uid := by
  intro hm
  have htaken := isTaken_of_occurs (ht.program s hs) (ht.occurs uid hm)
  rw [(uidSearch_generateUid s base t).not_isTaken hrun] at htaken
  cases htaken

/-- **Generated names are hygienic.** After a successful first crawl of a program, what is generated
for any of its scopes and any base is no name that the program mentions. -/
theorem generateUid_not_mentions (ha : a.WellOwned) (hr : a.is (some r) .program)
    {options : Options} (hcrawl : scopeOfRoot (ofArena a (some r) options) = .ok (some s₀) t)
    (hs : s.index < t.scopes.size) (hrun : Tree.generateUid s base t = .ok uid t') :
    ¬ a.Mentions r uid := by
  have hroot := isScope_of_program hr
  cases hon : options.noScope with
  | true =>
    have hoff := (ends_scopeOfRoot_off ha (isSome_of_isScope hroot) hon).of_ok hcrawl
    cases hoff.1
  | false =>
    have hc := ((ends_scopeOfRoot ha hroot hon).of_ok hcrawl).1
    exact (hc.hygienic hr).not_mentions hs hrun

/-- In `let x; x; y` the name `x` is taken: `_x` is generated. -/
theorem generateUid_letAndReads : ∃ s t t',
    scopeOfRoot (ofArena letAndReads (some ⟨7⟩) {}) = .ok (some s) t ∧ s.index < t.scopes.size
      ∧ Tree.generateUid s "x" t = .ok "_x" t' ∧ ¬ letAndReads.Mentions ⟨7⟩ "_x" := by
  have hok : passes (scopeOfRoot (ofArena letAndReads (some ⟨7⟩) {})) (fun o t => o.any fun s =>
      decide (s.index < t.scopes.size) && passes (Tree.generateUid s "x" t)
        fun uid _ => uid == "_x")
      = true := by decide +kernel
  obtain ⟨o, t, hrun, hok⟩ := ok_of_passes hok
  obtain ⟨s, rfl, hok⟩ := (Option.any_eq_true _ _).1 hok
  obtain ⟨hs, hok⟩ := Bool.and_eq_true_iff.1 hok
  obtain ⟨uid, t', hgen, huid⟩ := ok_of_passes hok
  obtain rfl : uid = "_x" := by simpa using huid
  have hs : s.index < t.scopes.size := by simpa using hs
  exact ⟨s, t, t', hrun, hs, hgen,
    generateUid_not_mentions (wellOwned_runAll _) (by decide) hrun hs hgen⟩

def patternInHead : Arena := runAll [
  .alloc .identifier [.str "x", .node none],
  .alloc .arrayPattern [.list [some ⟨0⟩], .node none],
  .alloc .arrayExpression [.list []],
  .alloc .emptyStatement [],
  .alloc .forOfStatement [.node (some ⟨1⟩), .node (some ⟨2⟩), .node (some ⟨3⟩)],
  .alloc .program [.str "module", .list [], .list [some ⟨4⟩]]]

/-- What a pattern in the head of a loop writes is not taken, when nothing binds it: the loop over
`[x]` is given `x`. -/
theorem generateUid_patternInHead : ∃ s t t',
    scopeOfRoot (ofArena patternInHead (some ⟨5⟩) {}) = .ok (some s) t
      ∧ Tree.generateUid s "x" t = .ok "x" t' ∧ patternInHead.Under ⟨5⟩ ⟨4⟩ [⟨5⟩]
      ∧ patternInHead.isA (some ⟨4⟩) .forXStatement
      ∧ patternInHead.child? (some ⟨4⟩) "left" = some ⟨1⟩
      ∧ patternInHead.Binds false ⟨1⟩ "x" ⟨0⟩ := by
  have hok : passes (scopeOfRoot (ofArena patternInHead (some ⟨5⟩) {})) (fun o t => o.any fun s =>
      passes (Tree.generateUid s "x" t) fun uid _ => uid == "x") = true := by decide +kernel
  obtain ⟨o, t, hrun, hok⟩ := ok_of_passes hok
  obtain ⟨s, rfl, hok⟩ := (Option.any_eq_true _ _).1 hok
  obtain ⟨uid, t', hgen, huid⟩ := ok_of_passes hok
  obtain rfl : uid = "x" := by simpa using huid
  refine ⟨s, t, t', hrun, hgen, .child .root (by decide), by decide, by decide, ?_⟩
  have hpattern : patternInHead.get? ⟨1⟩ = some
      { type := .arrayPattern, values := [.list [some ⟨0⟩], .node none], parent := some ⟨4⟩ } := rfl
  have hid : patternInHead.get? ⟨0⟩ = some
      { type := .identifier, values := [.str "x", .node none], parent := some ⟨1⟩ } := rfl
  exact .inside hpattern (by decide) (.here hid rfl rfl)

end Tree

end ScopedTree
