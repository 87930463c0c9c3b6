import ScopedTree.Proofs.Scope.Crawl

/-!
# Every read is linked

After the first crawl every read is counted once, by the binding that its name resolves to, or its
name is a global; and nothing else is counted.

* `Tree.IsRead`, `Tree.IsTarget`   paths that read a name, or assign to it;
* `Tree.Resolves`                  the binding of a name seen from a path;
* `Tree.CountedOnce`               the path is in the references of one binding, once;
* `Tree.ResolvesExport`            the binding that an export counts for;
* `Tree.ReadsLinked`               reads, references and globals agree;
* `Tree.readsLinked_scopeOfRoot`   they do after the first crawl.
-/

namespace ScopedTree.Tree

open Arena

variable {a : Arena} {t : Tree} {r n : NodeId} {p q : PathId} {s s₀ : ScopeId} {name : String}
  {above : List NodeId} {o : Option BindingId}

/-- The path `p` is an identifier `name` that is read where it stands. -/
def IsRead (t : Tree) (p : PathId) (name : String) : Prop :=
  (t.nodeType? p).any VirtualType.referencedIdentifier.mayCover = true
    ∧ VirtualType.referencedIdentifier.matches t p = true ∧ t.arena.name? (t.node p) = some name

/-- The path `p` is an assignment to `name`, among others. -/
def IsTarget (t : Tree) (p : PathId) (name : String) : Prop :=
  ∃ n id, t.node p = some n ∧ t.arena.is (some n) .assignmentExpression
    ∧ t.arena.Binds false n name id

/-- The name, seen from the scope of the path `p`, resolves to `o`. -/
def Resolves (t : Tree) (p : PathId) (name : String) (o : Option BindingId) : Prop :=
  ∃ s, scopeOf p t = .ok (some s) t ∧ t.getBinding? s name = o

/-- The path `p` is an export that counts for `b`. When a pass left it there were `k` bindings, and
`b` was the nearest one of the name; all that the declaration binds had been bound in the scope that
it belongs to. -/
def ResolvesExport (t : Tree) (r : NodeId) (p : PathId) (name : String) (b : BindingId) : Prop :=
  ∃ s k n m above, scopeOf p t = .ok (some s) t ∧ t.ExportsTo r p s k name b n m above

/-- No binding counts the path as a reference. -/
def Uncounted (t : Tree) (p : PathId) : Prop :=
  ∀ b record, t.binding? b = some record → p ∉ record.referencePaths

/-- The binding `b` counts the path as a reference, once, and no other binding does. -/
def CountedOnce (t : Tree) (p : PathId) (b : BindingId) : Prop :=
  (∃ record, t.binding? b = some record ∧ record.referencePaths.count p = 1)
    ∧ ∀ c record, t.binding? c = some record → c ≠ b → p ∉ record.referencePaths

/-- Reads, references and globals agree, in a tree over the nodes of `a` below `r` whose program has
the scope `s₀`. -/
structure ReadsLinked (a : Arena) (r : NodeId) (s₀ : ScopeId) (t : Tree) : Prop where
  /-- every identifier that is read has a path -/
  known : ∀ n above, a.Under r n above → a.isRead n above →
    ∃ p name, t.Place r p n above ∧ t.IsRead p name
  /-- a read is counted by what it resolves to, or a global -/
  linked : ∀ p name, t.IsRead p name → ∃ o, t.Resolves p name o ∧
    match o with
    | some b => t.CountedOnce p b
    | none => t.Uncounted p ∧ name ∈ t.globals s₀
  /-- what is counted is such a read, or an export of a declaration of the name -/
  counted : ∀ b record, t.binding? b = some record → ∀ p ∈ record.referencePaths,
    t.IsRead p record.name ∧ t.Resolves p record.name (some b) ∨ t.ResolvesExport r p record.name b
  /-- a global is read, or assigned to, where nothing binds it -/
  unbound : ∀ s name, name ∈ t.globals s →
    ∃ p, (t.IsRead p name ∨ t.IsTarget p name) ∧ t.Resolves p name none

/-! ## reads by place -/

theorem isRead_iff (ht : t.Coherent r) (hp : t.Place r p n above) :
    t.IsRead p name ↔ t.arena.isRead n above ∧ t.arena.name? (some n) = some name := by
  have htype : t.nodeType? p = t.arena.type? (some n) := congrArg t.arena.type? hp.node
  unfold IsRead Arena.isRead
  rw [htype, VirtualType.matches_eq ht hp, hp.node, Bool.and_eq_true, and_assoc]

theorem IsRead.not_countsExport (hr : t.IsRead p name) {k : Nat} {name' : String} {b : BindingId} :
    ¬ t.CountsExport r p k name' b := by
  rintro ⟨s, n, m, above, he⟩
  have hty : ∀ ty : NodeType, VirtualType.referencedIdentifier.mayCover ty = true →
      ty.isA .exportDeclaration = false := by
    intro ty
    cases ty <;> decide
  obtain ⟨o, ho, hexport⟩ := isA_some.1 he.exports
  have htype : t.nodeType? p = some o.type := by
    show t.arena.type? (t.node p) = _
    rw [he.place.node]
    simp [type?, ho]
  have hcover := hr.1
  rw [htype] at hcover
  rw [hty o.type hcover] at hexport
  cases hexport

/-! ## a crawled tree -/

theorem Crawled.scopeOf (hc : Crawled a r t) (ht : t.Scoped r) (harena : t.arena = a)
    (hp : t.Place r p n above) (hne : n ≠ r) (hn : collectorDispatch.shouldVisit a n = true) :
    ∃ s, Tree.scopeOf p t = .ok (some s) t ∧ t.Holds (n :: above) (some s) := by
  have hu := hp.under
  rw [harena] at hu
  obtain ⟨q, s, hq, hs⟩ := hc.entered n above hu hne hn
  obtain rfl := ht.coherent.unique _ _ _ hq.node hp.node
  exact ⟨s, ht.scopeOfWith_eq hp.onLine hs crawl, ht.path q _ s hp.onLine hs⟩

theorem Crawled.resolves (hc : Crawled a r t) (ht : t.Scoped r) (harena : t.arena = a)
    (hp : t.Place r p n above) (hne : n ≠ r) (hn : collectorDispatch.shouldVisit a n = true)
    (hs : t.Holds (n :: above) (some s)) : t.Resolves p name (t.getBinding? s name) := by
  obtain ⟨s', hs', hh⟩ := hc.scopeOf ht harena hp hne hn
  obtain rfl := Option.some.inj (ht.holds_unique hh hs)
  exact ⟨s', hs', rfl⟩

theorem Crawled.resolves_of_reads (hc : Crawled a r t) (hroot : a.isScope (some r) none)
    (ht : t.Scoped r) (harena : t.arena = a) (hr : t.Reads r p name o) :
    t.IsRead p name ∧ t.Resolves p name o := by
  obtain ⟨n, above, s, hp, hread, hname, hs, rfl⟩ := hr
  refine ⟨(isRead_iff ht.coherent hp).2 ⟨hread, hname⟩, ?_⟩
  rw [harena] at hread
  refine hc.resolves ht harena hp ?_ (shouldVisit_of_isRead hread) hs
  rintro rfl
  exact not_isRead_of_isScope hroot hread

theorem shouldVisit_of_export (hn : a.isA (some n) .exportDeclaration) :
    collectorDispatch.shouldVisit a n = true := by
  obtain ⟨o, ho, hty⟩ := isA_some.1 hn
  have hhandles : collectorDispatch.handles o.type = true :=
    List.any_eq_true.2 ⟨_, .tail _ (.tail _ (.tail _ (.tail _ (.tail _ (.head _))))), hty⟩
  simp [Dispatch.shouldVisit, ho, hhandles]

theorem Crawled.resolvesExport (hc : Crawled a r t) (hroot : a.is (some r) .program)
    (ht : t.Scoped r) (harena : t.arena = a) {k : Nat} {b : BindingId}
    (he : t.CountsExport r p k name b) :
    t.ResolvesExport r p name b := by
  obtain ⟨s, n, m, above, he⟩ := he
  have hexport := he.exports
  rw [harena] at hexport
  have hne : n ≠ r := by
    rintro rfl
    obtain ⟨o, ho, hty⟩ := isA_some.1 hexport
    obtain ⟨o', ho', hty'⟩ := is_some.1 hroot
    rw [← Option.some.inj (ho'.symm.trans ho), hty'] at hty
    cases hty
  obtain ⟨s', hs', hh⟩ := hc.scopeOf ht harena he.place hne (shouldVisit_of_export hexport)
  obtain rfl := Option.some.inj (ht.holds_unique hh he.holds)
  exact ⟨s', k, n, m, above, hs', he⟩

theorem Crawled.resolves_of_targets (hc : Crawled a r t) (hroot : a.is (some r) .program)
    (ht : t.Scoped r) (harena : t.arena = a) (hr : t.Targets r p name o) :
    t.IsTarget p name ∧ t.Resolves p name o := by
  obtain ⟨n, above, s, id, hp, hn, hb, hs, rfl⟩ := hr
  refine ⟨⟨n, id, hp.node, hn, hb⟩, ?_⟩
  rw [harena] at hn
  refine hc.resolves ht harena hp ?_ (shouldVisit_of_assignment hn) hs
  rintro rfl
  obtain ⟨o, ho, hty⟩ := is_some.1 hn
  obtain ⟨o', ho', hty'⟩ := is_some.1 hroot
  rw [Option.some.inj (ho.symm.trans ho'), hty'] at hty
  cases hty

/-- **In a crawled tree every read is counted once, and nothing else is.** -/
theorem Crawled.readsLinked (hc : Crawled a r t) (hr : a.is (some r) .program)
    (hs₀ : s₀.index < t.scopes.size) : ReadsLinked a r s₀ t := by
  have hroot := isScope_of_program hr
  obtain ⟨reads, hl, hall⟩ := hc.linked
  have ht := hl.inScope
  have hwell : a.WellOwned := hl.arena ▸ ht.coherent.arena
  refine ⟨fun n above hu hread => ?_, fun p name hread => ?_, fun b record hrec p hp => ?_,
    fun s name hname => ?_⟩
  · obtain ⟨p, _, hp⟩ := hall n above hu hread
    obtain ⟨name, hname⟩ := isRead_name hwell.shaped hread
    exact ⟨p, name, hp, (isRead_iff ht.coherent hp).2 (by rw [hl.arena]; exact ⟨hread, hname⟩)⟩
  · obtain ⟨n, hn⟩ : ∃ n, t.node p = some n := by
      cases hn : t.node p with
      | some n => exact ⟨n, rfl⟩
      | none =>
        have hname := hread.2.2
        rw [hn] at hname
        cases hname
    obtain ⟨above, hp⟩ := ht.coherent.exists_place hn
    obtain ⟨hisRead, hname⟩ := (isRead_iff ht.coherent hp).1 hread
    have hu := hp.under
    rw [hl.arena] at hisRead hu
    -- the path that was counted is this one
    obtain ⟨q, hq, hqp⟩ := hall n above hu hisRead
    obtain rfl := ht.coherent.unique _ _ _ hqp.node hp.node
    obtain ⟨name', o, hreads, hcounts, _⟩ := hl.counted q hq
    obtain ⟨hread', hres⟩ := hc.resolves_of_reads hroot ht hl.arena hreads
    obtain rfl := Option.some.inj (hread.2.2.symm.trans hread'.2.2)
    have hother : ∀ c record, t.binding? c = some record → q ∈ record.referencePaths →
        o = some c := by
      intro c record hrec hmem
      rcases (hl.linked c record hrec).2 q hmem with ⟨_, hexp⟩ | hreads'
      · exact absurd hexp hread.not_countsExport
      · exact (hreads.unique ht hreads').2
    refine ⟨o, hres, ?_⟩
    cases o with
    | some b =>
      obtain ⟨record, hrec, hmem⟩ := hcounts
      refine ⟨⟨record, hrec, ?_⟩, fun c record' hrec' hne hmem' => ?_⟩
      · exact List.count_eq_one_of_mem (hl.linked b record hrec).1 hmem
      · exact hne (Option.some.inj (hother c record' hrec' hmem')).symm
    | none =>
      refine ⟨fun c record hrec hmem => ?_, ?_⟩
      · cases hother c record hrec hmem
      · obtain ⟨s, hs, hglobal⟩ := hcounts
        unfold Tree.globals at hglobal ⊢
        rwa [ht.programScope_eq (by rw [hl.arena]; exact hroot) hs₀ hs]
  · exact ((hl.linked b record hrec).2 p hp).symm.imp (fun hreads =>
      hc.resolves_of_reads hroot ht hl.arena hreads)
      fun ⟨_, he⟩ => hc.resolvesExport hr ht hl.arena he
  · obtain ⟨p, hreads | htargets⟩ := hl.globals _ name hname
    · obtain ⟨hread, hres⟩ := hc.resolves_of_reads hroot ht hl.arena hreads
      exact ⟨p, .inl hread, hres⟩
    · obtain ⟨htarget, hres⟩ := hc.resolves_of_targets hr ht hl.arena htargets
      exact ⟨p, .inr htarget, hres⟩

/-! ## the first crawl -/

/-- **Every read is linked exactly once.** If the first crawl of a program ends well, every read is
counted once by the binding it resolves to, or its name is a global; all that is counted is such a
read or an export of a declaration of the name, and every global is used where nothing binds it. -/
theorem readsLinked_scopeOfRoot (ha : a.WellOwned) (hr : a.is (some r) .program) {options : Options}
    (h : scopeOfRoot (ofArena a (some r) options) = .ok (some s₀) t) : ReadsLinked a r s₀ t := by
  have hroot := isScope_of_program hr
  obtain ⟨o, ho, _⟩ := is_some.1 hr
  cases hon : options.noScope with
  | true =>
    have hoff := (ends_scopeOfRoot_off ha (by rw [ho]; rfl) hon).of_ok h
    cases hoff.1
  | false =>
    obtain ⟨hc, s, p, heq, hp, hs⟩ := (ends_scopeOfRoot ha hroot hon).of_ok h
    obtain rfl := Option.some.inj heq
    obtain ⟨_, hl, _⟩ := hc.linked
    exact hc.readsLinked hr ((hl.inScope.path p _ s₀ hp.onLine hs).2 s₀ rfl)

theorem readsLinked_letAndReads : ∃ s t,
    scopeOfRoot (ofArena letAndReads (some ⟨7⟩) {}) = .ok (some s) t
      ∧ ReadsLinked letAndReads ⟨7⟩ s t := by
  have hok : (match scopeOfRoot (ofArena letAndReads (some ⟨7⟩) {}) with
      | .ok o _ => o.isSome
      | .error _ _ => false) = true := by decide +kernel
  cases hrun : scopeOfRoot (ofArena letAndReads (some ⟨7⟩) {}) with
  | error e t =>
    rw [hrun] at hok
    cases hok
  | ok o t =>
    rw [hrun] at hok
    obtain ⟨s, rfl⟩ := Option.isSome_iff_exists.1 hok
    exact ⟨s, t, rfl, readsLinked_scopeOfRoot (wellOwned_runAll _) (by decide) hrun⟩

/-- The path `p` is an export whose declaration binds the identifier `id`. -/
def ExportsIdentifier (t : Tree) (p : PathId) (id : NodeId) : Prop :=
  t.arena.isA (t.node p) .exportDeclaration ∧ ∃ name ids,
    (name, ids) ∈ t.arena.bindingIds (t.arena.child? (t.node p) "declaration") false ∧ id ∈ ids

def exportInBlock : Arena := runAll [
  .alloc .identifier [.str "x", .node none],
  .alloc .variableDeclarator [.node (some ⟨0⟩), .node none],
  .alloc .variableDeclaration [.str "let", .list [some ⟨1⟩]],
  .alloc .identifier [.str "x", .node none],
  .alloc .variableDeclarator [.node (some ⟨3⟩), .node none],
  .alloc .variableDeclaration [.str "var", .list [some ⟨4⟩]],
  .alloc .exportNamedDeclaration [.node (some ⟨5⟩), .list [], .node none],
  .alloc .identifier [.str "x", .node none],
  .alloc .variableDeclarator [.node (some ⟨7⟩), .node none],
  .alloc .variableDeclaration [.str "let", .list [some ⟨8⟩]],
  .alloc .blockStatement [.list [], .list [some ⟨6⟩, some ⟨9⟩]],
  .alloc .blockStatement [.list [], .list [some ⟨2⟩, some ⟨10⟩]],
  .alloc .program [.str "module", .list [], .list [some ⟨11⟩]]]

/-- An export counts for the nearest binding of its name at the time. That is neither the one that
it declares nor, in the end, the one that its name resolves to: the `let` of the outer block counts
the export of the `var`, for the pass comes to the `let` of the inner block only after it. -/
theorem counted_exportInBlock : ∃ s t,
    scopeOfRoot (ofArena exportInBlock (some ⟨12⟩) {}) = .ok (some s) t
      ∧ ¬ ∀ b record, t.binding? b = some record → ∀ p ∈ record.referencePaths,
        t.Resolves p record.name (some b) ∨ t.ExportsIdentifier p record.identifier := by
  have hok : passes (scopeOfRoot (ofArena exportInBlock (some ⟨12⟩) {})) (fun o t =>
      o.isSome && (t.binding? ⟨0⟩).any fun record => record.referencePaths.any fun p =>
        passes (scopeOf p t) (fun o _ => o.all fun s => t.getBinding? s record.name != some ⟨0⟩)
          && (t.arena.bindingIds (t.arena.child? (t.node p) "declaration") false).all
            fun entry => !entry.2.contains record.identifier) = true := by decide +kernel
  obtain ⟨o, t, hrun, hok⟩ := ok_of_passes hok
  obtain ⟨hsome, hok⟩ := Bool.and_eq_true_iff.1 hok
  obtain ⟨s, rfl⟩ := Option.isSome_iff_exists.1 hsome
  obtain ⟨record, hrec, hok⟩ := (Option.any_eq_true _ _).1 hok
  obtain ⟨p, hp, hok⟩ := List.any_eq_true.1 hok
  obtain ⟨hscope, hids⟩ := Bool.and_eq_true_iff.1 hok
  obtain ⟨o', t', hscopeOf, hother⟩ := ok_of_passes hscope
  refine ⟨s, t, hrun, fun hall => ?_⟩
  rcases hall _ _ hrec p hp with ⟨s', hs', hb⟩ | ⟨_, name, ids, hmem, hid⟩
  · rw [hs'] at hscopeOf
    cases hscopeOf
    simp [hb] at hother
  · simpa [hid] using List.all_eq_true.1 hids _ hmem

end ScopedTree.Tree
