import ScopedTree.Proofs.Scope.Link

/-!
# The first crawl

When the scope of the root is asked for, the whole tree is crawled.

* `Tree.scopeOfRoot`        the first request for a scope;
* `Tree.Crawled`            the state of a tree that was crawled;
* `Tree.ends_collectRoot`   the pass of the first crawl;
* `Tree.ends_scopeOfRoot`   the first crawl ends well, or with a clash of declarations or without
                            names to blame;
* `Tree.scopeOfRoot_justified`   what it binds was declared, and what it refuses clashes.
-/

namespace ScopedTree.Tree

open Arena

variable {a : Arena} {t t' : Tree} {r n m : NodeId} {p : PathId} {s : ScopeId} {above : List NodeId}

/-- The first request for a scope, that of the root. -/
def scopeOfRoot : TreeM (Option ScopeId) := do scopeOf (← getRootPath)

/-- A tree that was crawled from its root on: nodes worth a visit have a path with a scope, uses are
resolved, all reads among them, and every node with children that owns a scope has one. -/
structure Crawled (a : Arena) (r : NodeId) (t : Tree) : Prop where
  steady : t.Steady (.coherent r)
  depth : t.depth = 0
  entered : ∀ n above, a.Under r n above → n ≠ r → collectorDispatch.shouldVisit a n = true →
    ∃ p s, t.Place r p n above ∧ (t.path p).scope = some s
  linked : ∃ reads, Linked a r reads t
    ∧ ∀ n above, a.Under r n above → a.isRead n above → ∃ p ∈ reads, t.Place r p n above
  announced : ∀ n above, a.Under r n above → n ≠ r → collectorDispatch.shouldVisit a n = true →
    Announced a n above t
  heads : ∀ s, s.index < t.scopes.size → ∀ m, a.Heads (t.scope s).block m → t.ListsAll s m
  assigned : ∀ n above, a.Under r n above → n ≠ r → a.is (some n) .assignmentExpression →
    ∀ name id, a.Binds false n name id → t.Occurs name
  settled : ∀ n above, a.Under r n above → a.isScope (some n) above.head? →
    t.scopeOfNode.get? n.index = none → a.children (some n) = []
  shallow : ∀ n above, a.Under r n above → above.length ≤ Limits.traversal

/-! ## collecting -/

theorem not_isRead_of_isScope {owner : Option NodeId} (h : a.isScope (some n) owner) :
    ¬ a.isRead n above := by
  have hty : ∀ ty : NodeType, VirtualType.referencedIdentifier.mayCover ty = true →
      ty.isA .scopable = false := by
    intro ty
    cases ty <;> decide
  intro hread
  have hscopable : a.isA (some n) .scopable = true := by
    unfold isScope at h
    split at h
    · cases h
    · exact h
  obtain ⟨o, ho, hs⟩ := isA_some.1 hscopable
  have hcover : VirtualType.referencedIdentifier.mayCover o.type = true := by
    simpa [type?, ho] using (Bool.and_eq_true_iff.1 hread).1
  rw [hty o.type hcover] at hs
  cases hs

theorem shouldVisit_of_isRead (h : a.isRead n above) :
    collectorDispatch.shouldVisit a n = true := by
  unfold Arena.isRead at h
  cases ho : a.get? n with
  | none => simp [type?, ho] at h
  | some o =>
    have hcover : VirtualType.referencedIdentifier.mayCover o.type = true := by
      simpa [type?, ho] using (Bool.and_eq_true_iff.1 h).1
    have hhandles : collectorDispatch.handles o.type = true :=
      List.any_eq_true.2 ⟨_, .tail _ (.tail _ (.tail _ (.head _))), hcover⟩
    simp [Dispatch.shouldVisit, ho, hhandles]

theorem shouldVisit_of_assignment (hn : a.is (some n) .assignmentExpression) :
    collectorDispatch.shouldVisit a n = true := by
  obtain ⟨o, ho, hty⟩ := is_some.1 hn
  have hhandles : collectorDispatch.handles o.type = true := by
    rw [hty]
    decide
  simp [Dispatch.shouldVisit, ho, hhandles]

/-- **The pass of the first crawl enters all and collects all reads.** -/
theorem ends_collectRoot (ht : Registered a r .none t) (hs : t.Steady (.coherent r))
    (hdepth : t.depth = 0) (hp : t.Place r p r []) (hscope : (t.path p).scope = some s)
    (hkeys : (t.path p).skipKeys = []) :
    Ends (collect (fun engine => engine.traversePath t.passSteps p) t)
      (fun c t' => Registered a r .none t' ∧ t'.Steady (.coherent r) ∧ t'.depth = 0 ∧ t.Adds t'
        ∧ (∃ x, Gathered a r x t' c ∧ ∀ n above, a.Under r n above → n ≠ r →
          collectorDispatch.shouldVisit a n = true → (n :: above) ∈ x)
        ∧ ∀ n above, a.Under r n above → above.length ≤ Limits.traversal)
      fun e _ => a.Warrants r e := by
  obtain ⟨o, ho, _⟩ := ht.get? hp
  have hB := collector_sound a r .none t
  have hwell : a.WellOwned := ht.arena ▸ ht.inScope.coherent.arena
  refine ends_collect.2 ?_
  rw [traversePath_eq (G := .coherent r) ht.inScope.coherent hp hscope
    (ht.inScope.settled s ((ht.inScope.path p _ s hp.onLine hscope).2 s rfl)).2]
  have hat : (collectorBridge a r .none t).At (.coherent r) Limits.traversal p r [] [] ⟨t, {}⟩ :=
    ⟨hs, ⟨ht, gathered_nil a r t, .refl t⟩, hp, ⟨hdepth.le, Nat.zero_le _⟩,
      (congrArg (· + _) hdepth).trans (Nat.zero_add _)⟩
  have hnode := hB.visitNode (fun l _ => hB.paths l) ho t.passSteps (.inr ?_) hat
    (fun k => congrArg (·.contains k) hkeys)
  · refine ends_bind.2 (hnode.imp ?_ ?_)
    · rintro _ s' ⟨b, x, hx, hdone⟩
      obtain ⟨ht', hg, hadds⟩ := hdone.inv
      have hall := (collectorWalk_entersAll hwell ho Limits.traversal []).of_ok hx
      exact ⟨ht', hdone.steady, hdone.moves.depth.trans hdepth, hadds, ⟨x, hg, hall.2.1⟩, hall.2.2⟩
    · rintro e s' (⟨x, hx, _⟩ | he | he)
      · have hlimit := (collectorWalk_entersAll hwell ho Limits.traversal []).of_error hx
        rw [hlimit]
        exact fun _ _ h => nomatch h
      · exact he
      · exact he.elim
  · show a.need Limits.traversal - 1 ≤ t.passSteps
    unfold Arena.need passSteps
    rw [ht.arena]
    have hmul : (Limits.traversal + 1) * (a.childCount + 14)
        ≤ (Limits.traversal + 1) * (a.childCount + 16) := Nat.mul_le_mul_left _ (by omega)
    omega

/-- After a pass that entered all, only nodes without children can lack a scope. -/
theorem Gathered.settled {γ : Gaps} (ht : Registered a r γ t) {x : List (List NodeId)}
    {c : Collected} (hg : Gathered a r x t c) (hall : ∀ n above, a.Under r n above → n ≠ r →
      collectorDispatch.shouldVisit a n = true → (n :: above) ∈ x)
    (hr : (t.scopeOfNode.get? r.index).isSome) (hu : a.Under r n above)
    (hscope : a.isScope (some n) above.head?) (hnone : t.scopeOfNode.get? n.index = none) :
    a.children (some n) = [] := by
  have hc := ht.inScope.coherent
  refine List.eq_nil_iff_forall_not_mem.2 fun m hm => ?_
  by_cases hnr : n = r
  · rw [hnr] at hnone
    rw [hnone] at hr
    cases hr
  · have hin := hall n above hu hnr (shouldVisit_of_child hm)
    obtain ⟨q, n', above', heq, hq, _⟩ := hg.entered _ hin
    obtain ⟨rfl, rfl⟩ := List.cons.inj heq
    obtain ⟨s, hs⟩ := hg.exists_scope ht.root hc ht.arena hin hq
    have hh := ht.inScope.path q _ s hq.onLine hs
    have hb : (t.scope s).block = n := by
      have h := hh.1
      rw [ht.arena, blocks_cons_of_scope hscope] at h
      exact Option.some.inj h
    have hf := ht.inScope.found s (hh.2 s rfl)
    rw [hb, hnone] at hf
    cases hf

theorem exists_child_of_heads (h : a.Heads n m) : a.children (some n) ≠ [] := by
  cases h with
  | loopHead _ hd _ _ =>
    exact List.ne_nil_of_mem (hd.elim mem_children_of_child? mem_children_of_child?)
  | selfName _ hm => exact List.ne_nil_of_mem (mem_children_of_child? hm)
  | param _ hm => exact List.ne_nil_of_mem (mem_children_of_items hm)
  | catchParam _ hm => exact List.ne_nil_of_mem (mem_children_of_child? hm)

theorem heads_advances (ht : t.Scoped r) (harena : t.arena = a) (ht' : t'.Scoped r)
    (ha : t.Advances t') (hheads : ∀ s, s.index < t.scopes.size → ∀ m, a.Heads (t.scope s).block m →
      t.ListsAll s m)
    (hnew : ∀ n above, a.Under r n above → a.isScope (some n) above.head? →
      t.scopeOfNode.get? n.index = none → a.children (some n) = [])
    (hs : s.index < t'.scopes.size) (hm : a.Heads (t'.scope s).block m) : t'.ListsAll s m := by
  by_cases hlt : s.index < t.scopes.size
  · rw [ha.block hlt] at hm
    exact (hheads s hlt m hm).adds ha.toAdds
  · obtain ⟨above, hp, hscope, _⟩ := ht'.stands s hs
    have hu := hp.under
    rw [ha.grows.arena, harena] at hu hscope
    refine absurd (hnew _ above hu hscope ?_) (exists_child_of_heads hm)
    cases hc : t.scopeOfNode.get? (t'.scope s).block.index with
    | none => rfl
    | some c =>
      have hf := ht'.found s hs
      rw [ha.scopeOfNode _ c hc] at hf
      obtain rfl := Option.some.inj hf
      exact absurd (ht.listed _ c hc).1 hlt

/-! ## crawling -/

/-- **The crawl of the root's new scope.** -/
theorem ends_crawlRoot (ht : Registered a r (.except .none s) t) (hst : t.Steady (.coherent r))
    (hdepth : t.depth = 0) (hp : t.Place r p r []) (hs : s.index + 1 = t.scopes.size)
    (hd : t.scope s = { block := r, path := p, parent := none, crawled := true })
    (hscope : (t.path p).scope = some s) (hkeys : (t.path p).skipKeys = []) (fuel : Nat) :
    Ends (crawlLevels (fuel + 1) s t) (fun _ t' => Crawled a r t' ∧ t.Adds t')
      fun e _ => a.Warrants r e := by
  have hlt : s.index < t.scopes.size := by omega
  have hsome : t.scopeOfNode.get? r.index = some s := by
    have hf := ht.inScope.found s hlt
    rwa [hd] at hf
  have hrestart := ht.restartScope hs (by rw [hd]; rfl) (by rw [hd])
  unfold crawlLevels
  refine ends_bind.2 (Ends.mono hrestart ?_)
  rintro _ t₁ ⟨ht₁, ha₁, _⟩
  rw [run_get_bind]
  have hpath : (t₁.scope s).path = p :=
    (congrArg (·.2.1) (ha₁.static s hlt)).trans (by rw [hd]; rfl)
  have hflags := ha₁.control.flags p
  have hcollect := ends_collectRoot ht₁ (ha₁.control.steady hst ht₁.inScope.coherent)
    (ha₁.control.depth.trans hdepth) (hp.grows ha₁.grows) (ha₁.scope p s hscope)
    ((PathData.skipKeys_of_flags hflags).trans hkeys)
  rw [hpath]
  refine ends_bind.2 (hcollect.mono ?_)
  rintro c t₂ ⟨ht₂, hst₂, hdepth₂, hadds₂, ⟨x, hg, hall⟩, hshallow⟩
  have hadds := ha₁.toAdds.trans hadds₂
  have hr₂ : (t₂.scopeOfNode.get? r.index).isSome := by
    rw [hadds.scopeOfNode _ s hsome]
    rfl
  have hsettled : ∀ n above, a.Under r n above → a.isScope (some n) above.head? →
      t₂.scopeOfNode.get? n.index = none → a.children (some n) = [] :=
    fun n above hu hn hnone => hg.settled ht₂ hall hr₂ hu hn hnone
  refine (ht₂.link hg hsettled fuel).mono ?_
  rintro _ t₃ ⟨ht₃, ha₃, hassigned⟩
  refine ⟨⟨ha₃.control.steady hst₂ ht₃.inScope.coherent, ha₃.control.depth.trans hdepth₂,
    fun n above hu hne hn => ?_, ⟨c.references, ht₃, fun n above hu hread => ?_⟩,
    fun n above hu hne hn => (hg.announced n above (hall n above hu hne hn)).adds ha₃.toAdds,
    fun s' hs' m hm => heads_advances ht₂.inScope ht₂.arena ht₃.inScope ha₃
      (fun c hc => ht₂.heads c hc not_false) hsettled hs' hm,
    fun n above hu hne hn => hassigned n above
      (hall n above hu hne (shouldVisit_of_assignment hn)) hn,
    fun n above hu hn hnone => ?_, hshallow⟩, hadds.trans ha₃.toAdds⟩
  · have hin := hall n above hu hne hn
    obtain ⟨q, m, up, heq, hq, _⟩ := hg.entered _ hin
    obtain ⟨rfl, rfl⟩ := List.cons.inj heq
    obtain ⟨s', hs'⟩ := hg.exists_scope ht₂.root ht₂.inScope.coherent ht₂.arena hin hq
    exact ⟨q, s', hq.grows ha₃.grows, ha₃.scope q s' hs'⟩
  · have hne : n ≠ r := by
      rintro rfl
      exact not_isRead_of_isScope ht₂.root hread
    obtain ⟨q, hq, hpl⟩ :=
      hg.noted n above (hall n above hu hne (shouldVisit_of_isRead hread)) hread
    exact ⟨q, hq, hpl.grows ha₃.grows⟩
  · refine hsettled n above hu hn ?_
    cases hs₂ : t₂.scopeOfNode.get? n.index with
    | none => rfl
    | some c =>
      rw [ha₃.scopeOfNode _ c hs₂] at hnone
      cases hnone

/-! ## the first request -/

theorem isSome_of_isScope {owner : Option NodeId} (h : a.isScope (some r) owner) :
    (a.get? r).isSome := by
  cases ho : a.get? r with
  | some o => rfl
  | none => simp [isScope, Arena.is, isA, type?, ho] at h

theorem registered_ofArena (ha : a.WellOwned) (hr : a.isScope (some r) none) {options : Options}
    (hon : options.noScope = false) : Registered a r .none (ofArena a (some r) options) where
  arena := rfl
  inScope := by
    refine ⟨coherent_ofArena ha (isSome_of_isScope hr) options, hon, fun i s hs => ?_,
      fun _ hs => ?_, fun _ hs => ?_,
      fun _ _ hs => ?_, fun _ hs => ?_, fun p line s hp => ?_⟩
    · simp [ofArena] at hs
    all_goals first | exact absurd hs (Nat.not_lt_zero _) | exact absurd hp.lt (Nat.not_lt_zero _)
  bound := ⟨fun s name b hs => by simp [Tree.scope, ofArena] at hs,
    fun b record hr => by simp [binding?, ofArena] at hr,
    fun b record hr => by simp [binding?, ofArena] at hr⟩
  exports _ b record hr := by simp [binding?, ofArena] at hr
  globals _ s := by simp [Tree.scope, ofArena]
  heads s hs := absurd hs (Nat.not_lt_zero _)
  root := hr
  noted s name hl := by simp [Lists, Tree.scope, ofArena] at hl

theorem ends_assignUpTo_new (ht : t.Scoped r) (hp : t.Place r p r [])
    (hroot : t.arena.isScope (some r) none) (hnew : t.scopeOfNode.get? r.index = none)
    {crawl : ScopeId → TreeM Unit} {Q : Unit → Tree → Prop} {E : TreeError → Tree → Prop}
    (h : Ends (crawl ⟨t.scopes.size⟩ (t.withScope p r none)) Q E) (fuel : Nat) :
    Ends (assignUpTo crawl (fuel + 1) p t) Q E := by
  have hnode : (t.path p).node = some r := hp.node
  have hparent : (t.path p).parent = none := ht.coherent.parentNode hp
  unfold assignUpTo scopeFor
  simp only [ends_bind, ends_get, ht.on, Bool.false_eq_true, if_false, (ht.coherent.top hp).1,
    ends_pure, hnode, hparent, hroot, Bool.not_true, hnew, ends_modify]
  rw [if_pos (by simp [Tree.scope, updatePath])]
  simp only [ends_bind, ends_modify]
  rw [withScope_eq]
  exact h

theorem Extends.scope_ofArena {options : Options} (hext : (ofArena a (some r) options).Extends t r)
    (p : PathId) : (t.path p).scope = none :=
  (hext.names.scope p).trans (by simp [path, ofArena])

/-- **The path of the root is assigned its scope by the first crawl.** That ends with all in order,
unless declarations clash or it gets too deep. -/
theorem Extends.assignUpTo_root (ha : a.WellOwned) (hr : a.isScope (some r) none)
    {options : Options} (hon : options.noScope = false)
    (hext : (ofArena a (some r) options).Extends t r) (hp : t.Place r p r []) (fuel : Nat) :
    Ends (assignUpTo Tree.crawl (fuel + 1) p t)
      (fun _ t' => Crawled a r t' ∧ t.Adds t' ∧ ∃ s, (t'.path p).scope = some s)
      fun e _ => a.Warrants r e := by
  have ht := (registered_ofArena ha hr hon).extends hext
  have hst := hext.step.steady (steady_ofArena
    (coherent_ofArena ha (isSome_of_isScope hr) options))
  have hkeys : (t.path p).skipKeys = [] :=
    (PathData.skipKeys_of_flags (hext.control.flags p)).trans (by simp [path, ofArena])
  have hnew : t.scopeOfNode.get? r.index = none := by
    rw [hext.names.scopeOfNode]
    simp [ofArena]
  have hroot : t.arena.isScope (some r) none := by
    rw [ht.arena]
    exact hr
  have hadv : t.Advances (t.withScope p r none) := advances_withScope ht.inScope hp hroot hnew
  have hout : t.Holds [] none := ⟨rfl, by simp⟩
  have hs := ht.inScope.withScope hp hroot (Nat.zero_le _) hnew hout
  have ht' := ht.withScope hp hroot hnew hs
  have hpath : ((t.withScope p r none).path p).scope = some ⟨t.scopes.size⟩ := by
    rw [path_withScope, path_updatePath_self _ _ hp.lt]
  refine ends_assignUpTo_new ht.inScope hp hroot hnew ?_ fuel
  have hcrawl := ends_crawlRoot ht' (hadv.control.steady hst hs.coherent)
    (hadv.control.depth.trans hext.control.depth) (hp.grows hadv.grows)
    size_withScope.symm scope_withScope_new hpath
    ((PathData.skipKeys_of_flags (hadv.control.flags p)).trans hkeys)
    (t.withScope p r none).arena.size
  unfold crawl
  rw [run_get_bind]
  refine hcrawl.mono ?_
  rintro _ t' ⟨hcrawled, hadds⟩
  exact ⟨hcrawled, hadv.toAdds.trans hadds, ⟨t.scopes.size⟩, hadds.scope p _ hpath⟩

/-- **The first crawl of a tree ends with all in order, unless declarations clash or it gets too
deep.** -/
theorem ends_scopeOfRoot (ha : a.WellOwned) (hr : a.isScope (some r) none) {options : Options}
    (hon : options.noScope = false) :
    Ends (scopeOfRoot (ofArena a (some r) options))
      (fun o t => Crawled a r t ∧ ∃ s p, o = some s ∧ t.Place r p r [] ∧ (t.path p).scope = some s)
      fun e _ => a.Warrants r e := by
  unfold scopeOfRoot
  refine ends_bind.2 ((ends_getRootPath (coherent_ofArena ha (isSome_of_isScope hr) options)).imp ?_
    fun _ _ h => h.elim)
  rintro p t ⟨hext, hp⟩
  have ht := (registered_ofArena ha hr hon).extends hext
  unfold scopeOf scopeOfWith
  rw [run_get_bind, ht.inScope.liveScope? hp.onLine, hext.scope_ofArena p]
  refine ends_bind.2 ((hext.assignUpTo_root ha hr hon hp t.paths.size).mono ?_)
  rintro _ t' ⟨hcrawled, hadds, s, hs⟩
  exact ⟨hcrawled, s, p, hs, hp.grows hadds.grows, hs⟩

theorem ends_scopeOfRoot_off (ha : a.WellOwned) (hr : (a.get? r).isSome) {options : Options}
    (hoff : options.noScope = true) :
    Ends (scopeOfRoot (ofArena a (some r) options))
      (fun o t => o = none ∧ t.Coherent r ∧ (ofArena a (some r) options).Extends t r)
      fun _ _ => False := by
  unfold scopeOfRoot
  refine ends_bind.2 ((ends_getRootPath (coherent_ofArena ha hr options)).imp ?_
    fun _ _ h => h.elim)
  rintro p t ⟨hext, hp⟩
  have hscope := hext.scope_ofArena p
  have hlive : t.liveScope? p = none := by
    unfold liveScope?
    rw [hscope]
    rfl
  have hopt : t.options.noScope = true := by
    rw [hext.grows.options]
    exact hoff
  unfold scopeOf scopeOfWith assignWith assignUpTo
  simp only [ends_bind, ends_get, hlive, hopt, if_true, ends_pure, hscope]
  exact ⟨trivial, hext.coherent, hext⟩

/-! ## what is bound -/

theorem isScope_of_program (hr : a.is (some r) .program) : a.isScope (some r) none := by
  obtain ⟨o, ho, hty⟩ := is_some.1 hr
  simp [isScope, Arena.is, isA, type?, ho, hty]
  decide

/-- **A crawl binds only what is declared and refuses only real conflicts.** What is bound, and what
clashes, entered the scope of its block: it is declared there, unless its name strays. -/
theorem scopeOfRoot_justified (ha : a.WellOwned) (hr : a.is (some r) .program) (options : Options) :
    (∀ o t, scopeOfRoot (ofArena a (some r) options) = .ok o t →
      ∀ s name b, t.ownBinding? s name = some b → ∃ record, t.binding? b = some record
        ∧ record.scope = s ∧ record.name = name
        ∧ Justified (a.Enters r) (t.scope s).block record
        ∧ (¬ a.Strays r name → Justified (a.Declares r) (t.scope s).block record))
      ∧ ∀ name location t,
        scopeOfRoot (ofArena a (some r) options) = .error (.duplicateDeclaration name location) t →
          Conflict (a.Enters r) name ∧ (¬ a.Strays r name → Conflict (a.Declares r) name) := by
  have hscope := isScope_of_program hr
  cases hoff : options.noScope with
  | true =>
    have hends := ends_scopeOfRoot_off ha (isSome_of_isScope hscope) hoff
    refine ⟨fun o t hrun s name b hb => ?_, fun name location t hrun => (hends.of_error hrun).elim⟩
    obtain ⟨_, _, hext⟩ := hends.of_ok hrun
    have hscopes : t.scopes = #[] := hext.names.scopes
    simp [ownBinding?, Tree.scope, hscopes] at hb
  | false =>
    have hends := ends_scopeOfRoot ha hscope hoff
    refine ⟨fun o t hrun s name b hb => ?_, fun name location t hrun => ?_⟩
    · obtain ⟨hc, _⟩ := hends.of_ok hrun
      obtain ⟨_, hl, _⟩ := hc.linked
      rw [hl.bound.ownBinding?] at hb
      obtain ⟨record, hrec, rfl, rfl⟩ := hl.bound.listed s name b hb
      obtain ⟨_, _, hj⟩ := hl.bound.found b record hrec
      exact ⟨record, hrec, rfl, rfl, hj, fun hname => hj.mono fun _ _ he => he.declares hname⟩
    · have hconf := hends.of_error hrun name location rfl
      exact ⟨hconf, fun hname => hconf.mono fun _ _ _ he => he.declares hname⟩

def letAndReads : Arena := runAll [
  .alloc .identifier [.str "x", .node none],
  .alloc .variableDeclarator [.node (some ⟨0⟩), .node none],
  .alloc .variableDeclaration [.str "let", .list [some ⟨1⟩]],
  .alloc .identifier [.str "x", .node none],
  .alloc .expressionStatement [.node (some ⟨3⟩)],
  .alloc .identifier [.str "y", .node none],
  .alloc .expressionStatement [.node (some ⟨5⟩)],
  .alloc .program [.str "module", .list [], .list [some ⟨2⟩, some ⟨4⟩, some ⟨6⟩]]]

def letAndExport : Arena := runAll [
  .alloc .identifier [.str "x", .node none],
  .alloc .variableDeclarator [.node (some ⟨0⟩), .node none],
  .alloc .variableDeclaration [.str "let", .list [some ⟨1⟩]],
  .alloc .identifier [.str "x", .node none],
  .alloc .exportDefaultDeclaration [.node (some ⟨3⟩)],
  .alloc .program [.str "module", .list [], .list [some ⟨2⟩, some ⟨4⟩]]]

/-- The first program binds what it declares; in the second the name strays, and it is refused. -/
theorem justified_letAndReads :
    (∃ o t, scopeOfRoot (ofArena letAndReads (some ⟨7⟩) {}) = .ok o t
      ∧ ∃ s b record, t.ownBinding? s "x" = some b ∧ t.binding? b = some record
        ∧ Justified (letAndReads.Enters ⟨7⟩) (t.scope s).block record)
      ∧ ∃ location t,
        scopeOfRoot (ofArena letAndExport (some ⟨5⟩) {})
        = .error (.duplicateDeclaration "x" location) t
          ∧ Conflict (letAndExport.Enters ⟨5⟩) "x" := by
  constructor
  · have hok : (match scopeOfRoot (ofArena letAndReads (some ⟨7⟩) {}) with
        | .ok _ t => (t.ownBinding? ⟨0⟩ "x").isSome
        | .error _ _ => false) = true := by decide +kernel
    cases hrun : scopeOfRoot (ofArena letAndReads (some ⟨7⟩) {}) with
    | error e t =>
      rw [hrun] at hok
      cases hok
    | ok o t =>
      rw [hrun] at hok
      obtain ⟨b, hb⟩ := Option.isSome_iff_exists.1 hok
      obtain ⟨record, hrec, _, _, hj, _⟩ :=
        (scopeOfRoot_justified (wellOwned_runAll _) (by decide) {}).1 o t hrun ⟨0⟩ "x" b hb
      exact ⟨o, t, rfl, ⟨0⟩, b, record, hb, hrec, hj⟩
  · have hbad : (match scopeOfRoot (ofArena letAndExport (some ⟨5⟩) {}) with
        | .error (.duplicateDeclaration name _) _ => name == "x"
        | _ => false) = true := by decide +kernel
    cases hrun : scopeOfRoot (ofArena letAndExport (some ⟨5⟩) {}) with
    | ok o t =>
      rw [hrun] at hbad
      cases hbad
    | error e t =>
      rw [hrun] at hbad
      cases e with
      | duplicateDeclaration name location =>
        obtain rfl : name = "x" := by simpa using hbad
        exact ⟨location, t, rfl,
          ((scopeOfRoot_justified (wellOwned_runAll _) (by decide) {}).2 _ location t hrun).1⟩
      | _ => cases hbad

def exportedRead : Arena := runAll [
  .alloc .identifier [.str "x", .node none],
  .alloc .exportDefaultDeclaration [.node (some ⟨0⟩)],
  .alloc .program [.str "module", .list [], .list [some ⟨1⟩]]]

/-- The identifier of an export strays: though it is only read, it is bound. -/
theorem ownBinding?_exportedRead : ∃ o t b record,
    scopeOfRoot (ofArena exportedRead (some ⟨2⟩) {}) = .ok o t
      ∧ t.ownBinding? ⟨0⟩ "x" = some b ∧ t.binding? b = some record
      ∧ exportedRead.isRead record.identifier [⟨1⟩, ⟨2⟩] := by
  have hok : (match scopeOfRoot (ofArena exportedRead (some ⟨2⟩) {}) with
      | .ok _ t => ((t.ownBinding? ⟨0⟩ "x").bind t.binding?).any fun record =>
        exportedRead.isRead record.identifier [⟨1⟩, ⟨2⟩]
      | .error _ _ => false) = true := by decide +kernel
  cases hrun : scopeOfRoot (ofArena exportedRead (some ⟨2⟩) {}) with
  | error e t =>
    rw [hrun] at hok
    cases hok
  | ok o t =>
    rw [hrun] at hok
    obtain ⟨record, hrec, hread⟩ := (Option.any_eq_true _ _).1 hok
    obtain ⟨b, hb, hrec⟩ := Option.bind_eq_some_iff.1 hrec
    exact ⟨o, t, b, record, rfl, hb, hrec, hread⟩

end ScopedTree.Tree
