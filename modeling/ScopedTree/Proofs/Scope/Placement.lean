import ScopedTree.Proofs.Scope.Hygiene

/-!
# Where declarations land

Hoisting decides in whose scope a declared name ends up: that of the nearest function or program,
that of the nearest block, or that of the declaring node itself. After the first crawl the names are
bound there.

* `Arena.nearest`            the nearest node of a line that owns a scope and is of some kind;
* `Arena.Lands`              the node in whose scope a declaration puts a name;
* `Tree.Binds`               the scope of a node has a binding of its own for a name;
* `Tree.binds_of_lands`      what is declared is bound where it lands;
* `Tree.not_binds_importInFunction`   an import in a function does not land in the program.
-/

namespace ScopedTree

open ScopedTree.Tree Arena

namespace Arena

/-- The nearest node of a line that owns a scope and passes a test. -/
def nearest (a : Arena) (test : NodeType → Bool) (line : List NodeId) : Option NodeId :=
  (a.blocks line).find? fun b => (a.type? (some b)).any test

/-- The nearest node of a line that is a function or a program. -/
def hoistTarget (a : Arena) (line : List NodeId) : Option NodeId :=
  a.nearest (fun ty => ty.isA .function || ty == .program) line

/-- The nearest node of a line that is the parent of a block or catches errors. -/
def blockTarget (a : Arena) (line : List NodeId) : Option NodeId :=
  a.nearest (fun ty => ty.isA .blockParent || ty == .catchClause) line

/-- Where hoisting puts `name`, which `n` declares below the nodes `above`: into the scope of the
given node. -/
inductive Lands (a : Arena) (n : NodeId) (above : List NodeId) : Option NodeId → String → Prop
  /-- a `var`, also in the head of a loop -/
  | hoisted {name : String} {id : NodeId} (hn : a.isVar (some n)) (hb : a.Binds true n name id) :
      Lands a n above (a.hoistTarget above) name
  | functionName {m id : NodeId} {name : String} (hn : a.is (some n) .functionDeclaration)
      (hm : a.child? (some n) "id" = some m) (hb : a.Binds true m name id) :
      Lands a n above (a.hoistTarget above) name
  | imported {m l id : NodeId} {name : String} (hn : a.is (some n) .importDeclaration)
      (hm : some m ∈ a.items (some n) "specifiers")
      (hty : a.is (some m) .importSpecifier ∨ a.is (some m) .importDefaultSpecifier
        ∨ a.is (some m) .importNamespaceSpecifier)
      (hl : a.child? (some m) "local" = some l) (hb : a.Binds true l name id) :
      Lands a n above (a.hoistTarget above) name
  /-- a `let` or `const` -/
  | lexical {name : String} {id : NodeId} (hn : a.isLet (some n)) (hb : a.Binds true n name id) :
      Lands a n above (a.blockTarget above) name
  | className {m id : NodeId} {name : String} (hn : a.is (some n) .classDeclaration)
      (hm : a.child? (some n) "id" = some m) (hb : a.Binds true m name id) :
      Lands a n above (a.blockTarget above) name
  | param {m id : NodeId} {name : String} (hn : a.isA (some n) .function)
      (hm : some m ∈ a.items (some n) "params") (hb : a.Binds true m name id) :
      Lands a n above (some n) name
  | catchParam {m id : NodeId} {name : String} (hn : a.is (some n) .catchClause)
      (hm : a.child? (some n) "param" = some m) (hb : a.Binds true m name id) :
      Lands a n above (some n) name
  | selfName {m id : NodeId} {name : String}
      (hn : a.is (some n) .functionExpression ∨ a.is (some n) .classExpression)
      (hm : a.child? (some n) "id" = some m) (hb : a.Binds true m name id) :
      Lands a n above (some n) name

variable {a : Arena} {r n m id : NodeId} {h : Option NodeId} {name : String}
  {above line : List NodeId}

/-- A program is at the end of every line, so the search never has to fall back on the outermost
block. -/
theorem home_eq_nearest (test : NodeType → Bool) (hu : a.Under r n above)
    (hr : a.is (some r) .program) (htest : test .program) :
    a.home test (n :: above) = a.nearest test (n :: above)
      ∧ (a.nearest test (n :: above)).isSome := by
  have hlast := List.mem_of_getLast? (getLast_blocks hu (isScope_of_program hr))
  have hfound : (a.nearest test (n :: above)).isSome := by
    refine List.find?_isSome.2 ⟨r, hlast, ?_⟩
    obtain ⟨o, ho, hty⟩ := is_some.1 hr
    simpa [type?, ho, hty] using htest
  refine ⟨?_, hfound⟩
  obtain ⟨b, hb⟩ := Option.isSome_iff_exists.1 hfound
  rw [hb]
  unfold home
  rw [show ((a.blocks (n :: above)).find? fun b => (a.type? (some b)).any test) = some b from hb]
  rfl

theorem hoistTarget_eq (line : List NodeId) :
    a.hoistTarget line = a.nearest (·.isA .functionParent) line := by
  have hsame : ∀ ty : NodeType, (ty.isA .function || ty == .program) = ty.isA .functionParent := by
    intro ty
    cases ty <;> decide
  exact congrArg (a.nearest · line) (funext hsame)

theorem Binds.of_id (ha : a.Shaped) (hn : a.is (some n) .functionDeclaration
    ∨ a.is (some n) .classDeclaration)
    (hm : a.child? (some n) "id" = some m) (hb : a.Binds true m name id) :
    a.Binds true n name id := by
  rcases hn with hn | hn
  · obtain ⟨o, ho, hty⟩ := is_some.1 hn
    refine .inside ho ?_ hb
    have hplain : NodeType.functionDeclaration.isA .exportDeclaration = false := by decide
    have htargets : a.bindingTargets true o = [o.child? "id"] := by
      simp [bindingTargets, hty, hplain]
    rw [htargets, List.mem_singleton, ← hm]
    simp [child?, ho]
  · obtain ⟨o, ho, hty⟩ := is_some.1 hn
    exact .of_child ho (ha n o ho) (o.type.bindsSlot_id (.inr hty)) (by rw [hty]; decide) hm hb

theorem Binds.of_local {l : NodeId} (ha : a.Shaped) (hn : a.is (some n) .importDeclaration)
    (hm : some m ∈ a.items (some n) "specifiers")
    (hty : a.is (some m) .importSpecifier ∨ a.is (some m) .importDefaultSpecifier
      ∨ a.is (some m) .importNamespaceSpecifier)
    (hl : a.child? (some m) "local" = some l) (hb : a.Binds true l name id) :
    a.Binds true n name id := by
  refine (binds_importDeclaration ha hn).2 ⟨m, hm, ?_⟩
  rcases hty with hty | hty | hty <;>
  · obtain ⟨o, ho, hty⟩ := is_some.1 hty
    exact .of_child ho (ha m o ho) (by rw [hty]; decide) (by rw [hty]; decide) hl hb

/-- What is declared in an enclosing scope has a home in the sense of the crawl, and the rest are
heads of the scope of the declaring node. -/
theorem Lands.cases (hl : a.Lands n above h name) (hu : a.Under r n above) (ha : a.Shaped)
    (hr : a.is (some r) .program) :
    (∃ b id, h = some b ∧ (n ≠ r ∧ a.isA (some n) .declaration ∧ a.Homes n above b)
        ∧ a.Binds true n name id)
      ∨ ∃ m id, h = some n ∧ a.Heads n m ∧ a.Binds true m name id := by
  obtain ⟨p, hp, htp⟩ := is_some.1 hr
  have hroot {ty : NodeType} (hn : a.is (some n) ty) (hty : ty ≠ .program) : n ≠ r := by
    rintro rfl
    rw [is_of_get hp, htp, beq_iff_eq] at hn
    exact hty hn.symm
  have hdecl {ty : NodeType} (hn : a.is (some n) ty) (hty : ty.isA .declaration) :
      a.isA (some n) .declaration := by
    obtain ⟨o, ho, rfl⟩ := is_some.1 hn
    exact isA_some.2 ⟨o, ho, hty⟩
  have hnot {ty ty' : NodeType} (hn : a.is (some n) ty) (hty : ty ≠ ty') : ¬ a.is (some n) ty' := by
    obtain ⟨o, ho, rfl⟩ := is_some.1 hn
    simpa [is_of_get ho] using hty
  have hlet {ty : NodeType} (hn : a.is (some n) ty) (hty : ty ≠ .variableDeclaration) :
      ¬ a.isLet (some n) :=
    fun hl => hnot hn hty (isLet_variableDeclaration hl)
  -- the two homes of a declaration below the root
  have hhoisted {ty : NodeType} (hn : a.is (some n) ty) (hty : ty ≠ .program ∧ ty.isA .declaration
      ∧ ¬ ty.isA .exportDeclaration ∧ ty ≠ .classDeclaration) (hplain : ¬ a.isLet (some n)) :
      ∃ b, a.hoistTarget above = some b ∧ n ≠ r ∧ a.isA (some n) .declaration
        ∧ a.Homes n above b := by
    have hne := hroot hn hty.1
    cases above with
    | nil => exact absurd (under_nil.1 hu) hne
    | cons m above =>
      obtain ⟨heq, hsome⟩ := home_eq_nearest (·.isA .functionParent) (under_cons.1 hu).1 hr
        (by decide)
      obtain ⟨b, hb⟩ := Option.isSome_iff_exists.1 hsome
      refine ⟨b, (hoistTarget_eq _).trans hb, hne, hdecl hn hty.2.1, .hoisted ⟨hdecl hn hty.2.1, ?_⟩
        ⟨hnot hn hty.2.2.2, hplain⟩ (heq.trans hb)⟩
      obtain ⟨o, ho, rfl⟩ := is_some.1 hn
      intro hexport
      obtain ⟨o', ho', hexport⟩ := isA_some.1 hexport
      exact hty.2.2.1 (Option.some.inj (ho.symm.trans ho') ▸ hexport)
  have hlexical {ty : NodeType} (hn : a.is (some n) ty) (hty : ty ≠ .program ∧ ty.isA .declaration)
      (hlex : a.is (some n) .classDeclaration ∨ a.isLet (some n)) :
      ∃ b, a.blockTarget above = some b ∧ n ≠ r ∧ a.isA (some n) .declaration
        ∧ a.Homes n above b := by
    have hne := hroot hn hty.1
    cases above with
    | nil => exact absurd (under_nil.1 hu) hne
    | cons m above =>
      obtain ⟨heq, hsome⟩ := home_eq_nearest (fun ty => ty.isA .blockParent || ty == .catchClause)
        (under_cons.1 hu).1 hr (by decide)
      obtain ⟨b, hb⟩ := Option.isSome_iff_exists.1 hsome
      exact ⟨b, hb, hne, hdecl hn hty.2, .lexical hlex (heq.trans hb)⟩
  cases hl with
  | hoisted hn hb =>
    obtain ⟨hty, hkind⟩ := Bool.and_eq_true_iff.1 hn
    obtain ⟨b, hb', hhome⟩ := hhoisted hty (by decide) (fun hl => by
      obtain ⟨_, hother⟩ := Bool.and_eq_true_iff.1 hl
      rw [beq_iff_eq.1 hkind] at hother
      simp at hother)
    exact .inl ⟨b, _, hb', hhome, hb⟩
  | functionName hn hm hb =>
    obtain ⟨b, hb', hhome⟩ := hhoisted hn (by decide) (hlet hn (by decide))
    exact .inl ⟨b, _, hb', hhome, hb.of_id ha (.inl hn) hm⟩
  | imported hn hm hty hl hb =>
    obtain ⟨b, hb', hhome⟩ := hhoisted hn (by decide) (hlet hn (by decide))
    exact .inl ⟨b, _, hb', hhome, hb.of_local ha hn hm hty hl⟩
  | lexical hn hb =>
    obtain ⟨b, hb', hhome⟩ := hlexical (isLet_variableDeclaration hn) (by decide) (.inr hn)
    exact .inl ⟨b, _, hb', hhome, hb⟩
  | className hn hm hb =>
    obtain ⟨b, hb', hhome⟩ := hlexical hn (by decide) (.inl hn)
    exact .inl ⟨b, _, hb', hhome, hb.of_id ha (.inr hn) hm⟩
  | param hn hm hb => exact .inr ⟨_, _, rfl, .param hn hm, hb⟩
  | catchParam hn hm hb => exact .inr ⟨_, _, rfl, .catchParam hn hm, hb⟩
  | selfName hn hm hb => exact .inr ⟨_, _, rfl, .selfName hn hm, hb⟩

end Arena

namespace Tree

variable {a : Arena} {t : Tree} {r n b : NodeId} {s : ScopeId} {h : Option NodeId} {name : String}
  {above : List NodeId}

/-- The scope of the node has a binding of its own for the name. -/
def Binds (t : Tree) (b : NodeId) (name : String) : Prop :=
  ∃ s c record, t.scopeOfNode.get? b.index = some s ∧ (t.scope s).block = b
    ∧ t.ownBinding? s name = some c ∧ t.binding? c = some record ∧ record.scope = s
    ∧ record.name = name

theorem Linked.binds {done : List PathId} (ht : Linked a r done t) (hs : s.index < t.scopes.size)
    (hl : t.Lists s name) : t.Binds (t.scope s).block name := by
  obtain ⟨c, hc⟩ := Option.isSome_iff_exists.1 hl
  obtain ⟨record, hrec, hscope, hname⟩ := ht.bound.listed s name c hc
  exact ⟨s, c, record, ht.inScope.found s hs, rfl, (ht.bound.ownBinding? s name).trans hc,
    hrec, hscope, hname⟩

theorem Crawled.lands (hc : Crawled a r t) (hr : a.is (some r) .program)
    (hu : a.Under r n above) (hl : a.Lands n above h name) : ∃ b, h = some b ∧ t.Binds b name := by
  obtain ⟨_, hlinked, _⟩ := hc.linked
  have hlists {s : ScopeId} {m id : NodeId} (hall : t.ListsAll s m) (hb : a.Binds true m name id) :
      t.Lists s name := by
    rw [← hlinked.arena] at hb
    exact (hall name id hb).1
  rcases hl.cases hu (shaped_of_linked hlinked) hr with ⟨b, id, rfl, ⟨hne, hdecl, hhome⟩, hb⟩ | ⟨m,
    id, rfl, hm, hb⟩
  · have hhandles : ∀ ty : NodeType, ty.isA .declaration → collectorDispatch.handles ty := by
      intro ty
      cases ty <;> decide
    obtain ⟨o, ho, hty⟩ := isA_some.1 hdecl
    have hvisit := shouldVisit_of_covers (a := a) (n := n) (by simp [type?, ho]) (hhandles _ hty)
    obtain ⟨s, hs, rfl, hall⟩ := (hc.announced n above hu hne hvisit).names b hhome
    exact ⟨_, rfl, hlinked.binds hs (hlists hall hb)⟩
  · obtain ⟨s, hs, rfl⟩ :=
      hc.exists_scope hlinked.inScope hu (hm.isScope _) (exists_child_of_heads hm)
    exact ⟨_, rfl, hlinked.binds hs (hlists (hc.heads s hs m hm) hb)⟩

/-- **What a program declares is bound where hoisting puts it**, at any depth. Imports are hoisted
like `var`s: inside a function they stay there. -/
theorem binds_of_lands (ha : a.WellOwned) (hr : a.is (some r) .program) {options : Options}
    (hrun : scopeOfRoot (ofArena a (some r) options) = .ok (some s) t) (hu : a.Under r n above)
    (hl : a.Lands n above h name) : ∃ b, h = some b ∧ t.Binds b name := by
  have hscope := isScope_of_program hr
  cases hoff : options.noScope with
  | true => cases ((ends_scopeOfRoot_off ha (isSome_of_isScope hscope) hoff).of_ok hrun).1
  | false => exact ((ends_scopeOfRoot ha hscope hoff).of_ok hrun).1.lands hr hu hl

def importInFunction : Arena := runAll [
  .alloc .identifier [.str "i", .node none],
  .alloc .importDefaultSpecifier [.node (some ⟨0⟩)],
  .alloc .stringLiteral [.str "a"],
  .alloc .importDeclaration [.list [some ⟨1⟩], .node (some ⟨2⟩), .null],
  .alloc .blockStatement [.list [], .list [some ⟨3⟩]],
  .alloc .identifier [.str "f", .node none],
  .alloc .identifier [.str "p", .node none],
  .alloc .functionDeclaration [.node (some ⟨5⟩), .list [some ⟨6⟩], .node (some ⟨4⟩), .node none,
    .node none, .bool false, .bool false],
  .alloc .program [.str "module", .list [], .list [some ⟨7⟩]]]

theorem under_importInFunction :
    importInFunction.Under ⟨8⟩ ⟨7⟩ [⟨8⟩] ∧ importInFunction.Under ⟨8⟩ ⟨3⟩ [⟨4⟩, ⟨7⟩, ⟨8⟩] := by
  have hf : importInFunction.Under ⟨8⟩ ⟨7⟩ [⟨8⟩] := .child .root (by decide)
  have hbody : importInFunction.Under ⟨8⟩ ⟨4⟩ [⟨7⟩, ⟨8⟩] := .child hf (by decide)
  exact ⟨hf, .child hbody (by decide)⟩

/-- The function is bound in the program, its parameter and the import inside it in the function. -/
theorem binds_importInFunction : ∃ s t,
    scopeOfRoot (ofArena importInFunction (some ⟨8⟩) {}) = .ok (some s) t
      ∧ t.Binds ⟨8⟩ "f" ∧ t.Binds ⟨7⟩ "p" ∧ t.Binds ⟨7⟩ "i" := by
  have hpasses : passes (scopeOfRoot (ofArena importInFunction (some ⟨8⟩) {}))
      (fun o _ => o.isSome) = true := by decide +kernel
  obtain ⟨o, t, hrun, hsome⟩ := ok_of_passes hpasses
  obtain ⟨s, rfl⟩ := Option.isSome_iff_exists.1 hsome
  obtain ⟨hf, himport⟩ := under_importInFunction
  have hlands {n : NodeId} {above : List NodeId} {b : NodeId} {name : String}
      (hu : importInFunction.Under ⟨8⟩ n above)
      (hl : importInFunction.Lands n above (some b) name) : t.Binds b name := by
    obtain ⟨_, heq, hb⟩ := binds_of_lands (wellOwned_runAll _) (by decide) hrun hu hl
    rwa [Option.some.inj heq]
  refine ⟨s, t, hrun, hlands hf ?_, hlands hf ?_, hlands himport ?_⟩
  · exact .functionName (m := ⟨5⟩)
      (by decide) (by decide) (binds_identifier (by decide) (by decide))
  · exact .param (m := ⟨6⟩) (by decide) (by decide) (binds_identifier (by decide) (by decide))
  · exact .imported (m := ⟨1⟩) (l := ⟨0⟩)
      (by decide) (by decide) (.inr (.inl (by decide))) (by decide)
      (binds_identifier (by decide) (by decide))

/-- An import inside a function is not bound in the program. -/
theorem not_binds_importInFunction : ∃ s t,
    scopeOfRoot (ofArena importInFunction (some ⟨8⟩) {}) = .ok (some s) t
      ∧ importInFunction.Under ⟨8⟩ ⟨3⟩ [⟨4⟩, ⟨7⟩, ⟨8⟩]
      ∧ importInFunction.is (some ⟨3⟩) .importDeclaration
      ∧ importInFunction.Binds true ⟨3⟩ "i" ⟨0⟩ ∧ ¬ t.Binds ⟨8⟩ "i" := by
  have hpasses : passes (scopeOfRoot (ofArena importInFunction (some ⟨8⟩) {})) (fun o t => o.isSome
      && (t.scopeOfNode.get? 8).all fun s => (t.ownBinding? s "i").isNone)
      = true := by decide +kernel
  obtain ⟨o, t, hrun, htest⟩ := ok_of_passes hpasses
  obtain ⟨hsome, hnone⟩ := Bool.and_eq_true_iff.1 htest
  obtain ⟨s, rfl⟩ := Option.isSome_iff_exists.1 hsome
  have hlocal : importInFunction.Binds true ⟨0⟩ "i" ⟨0⟩ := binds_identifier (by decide) (by decide)
  refine ⟨s, t, hrun, under_importInFunction.2, by decide, ?_, ?_⟩
  · exact hlocal.of_local (m := ⟨1⟩) (wellOwned_runAll _).shaped (by decide) (by decide)
      (.inr (.inl (by decide))) (by decide)
  · rintro ⟨s', c, _, hs, _, hc, _⟩
    dsimp only at hs
    rw [hs, Option.all_some, hc] at hnone
    cases hnone

end Tree

end ScopedTree
