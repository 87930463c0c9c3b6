import ScopedTree.Proofs.Pass.Quiet
import ScopedTree.Proofs.Scope.Placement
import ScopedTree.Proofs.Scope.Reads

/-!
# Requests for scopes

The first request for a scope crawls the tree, whatever path it is about: the scopes around the path
come first, and that of the root is the outermost. If this goes well, no later request fails, and
all that is handed out is complete.

* `Tree.Asked`                     the states that lookups and answered requests lead to;
* `Tree.Complete`                  what is declared is bound, and what is read is counted;
* `Tree.Crawled.ends_scopeOf`      in a crawled tree each request is answered;
* `Tree.Extends.ends_scopeOf`      the first request crawls the tree;
* `Tree.Asked.answered_complete`  as long as none failed, requests are answered with complete
  scopes.
-/

namespace ScopedTree.Tree

open Arena

variable {α : Type} {a : Arena} {t t' t₁ : Tree} {r n m : NodeId} {p q : PathId} {s : ScopeId}
  {above line : List NodeId} {options : Options}

/-- The states that are reached by looking for paths, with or without success, and by requests for
scopes that were answered. -/
inductive Asked (t : Tree) : Tree → Prop
  | start : Asked t t
  | root {t' : Tree} : Asked t t' → Asked t (final (getRootPath t'))
  | find {t' : Tree} (p : PathId) (key : String) : Asked t t' → Asked t (final (follow p key t'))
  | scope {t' t'' : Tree} {p : PathId} {o : Option ScopeId} :
    Asked t t' → scopeOf p t' = .ok o t'' → Asked t t''

/-- Of the nodes of `a` below `r`, all that is declared is bound where it lands, and reads,
references and globals agree. -/
structure Complete (a : Arena) (r : NodeId) (t : Tree) : Prop where
  declared : ∀ n above h name, a.Under r n above → a.Lands n above h name →
    ∃ b, h = some b ∧ t.Binds b name
  linked : ∃ s₀, t.scopeOfNode.get? r.index = some s₀ ∧ ReadsLinked a r s₀ t

/-! ## crawled trees stay crawled -/

/-- New paths and scopes leave a crawled tree crawled, as long as uses stay resolved. -/
theorem Crawled.advances (hc : Crawled a r t) {reads : List PathId} (hl : Linked a r reads t)
    (hall : ∀ n above, a.Under r n above → a.isRead n above → ∃ p ∈ reads, t.Place r p n above)
    (ha : t.Advances t') (hl' : Linked a r reads t') : Crawled a r t' where
  steady := ha.control.steady hc.steady hl'.inScope.coherent
  depth := ha.control.depth.trans hc.depth
  entered n above hu hne hn := by
    obtain ⟨p, s, hp, hs⟩ := hc.entered n above hu hne hn
    exact ⟨p, s, hp.grows ha.grows, ha.scope p s hs⟩
  linked := by
    refine ⟨reads, hl', fun n above hu hread => ?_⟩
    obtain ⟨p, hp, hpl⟩ := hall n above hu hread
    exact ⟨p, hp, hpl.grows ha.grows⟩
  announced n above hu hne hn := (hc.announced n above hu hne hn).adds ha.toAdds
  heads s hs m hm := heads_advances hl.inScope hl.arena hl'.inScope ha hc.heads hc.settled hs hm
  assigned n above hu hne hn name id hb := ha.occurs name (hc.assigned n above hu hne hn name id hb)
  settled n above hu hn hnone := by
    refine hc.settled n above hu hn ?_
    cases hs : t.scopeOfNode.get? n.index with
    | none => rfl
    | some s =>
      rw [ha.scopeOfNode _ s hs] at hnone
      cases hnone
  shallow := hc.shallow

/-- A program that assigns scopes while uses are resolved leaves a crawled tree crawled, and does
not fail: no pass is under way that could be too deep. -/
theorem Crawled.goes {x : TreeM α} {Q : α → Tree → Prop} (hc : Crawled a r t)
    (hx : ∀ reads, Linked a r reads t → Goes (fun t => Linked a r reads t ∧ t.depth = 0)
      (fun _ => Limits.traversal ≤ 0) x t Q) : Goes (Crawled a r) (fun _ => False) x t Q := by
  obtain ⟨reads, hl, hall⟩ := hc.linked
  refine Ends.imp (hx reads hl) ?_ fun _ _ (hdeep : Limits.traversal ≤ 0) =>
    absurd hdeep (by decide)
  rintro y t' ⟨⟨hl', _⟩, ha, hy⟩
  exact ⟨hc.advances hl hall ha hl', ha, hy⟩

theorem Crawled.inScope (hc : Crawled a r t) : t.Scoped r := by
  obtain ⟨_, hl, _⟩ := hc.linked
  exact hl.inScope

theorem Crawled.extends (hc : Crawled a r t) (hext : t.Extends t' r) : Crawled a r t' := by
  obtain ⟨reads, hl, hall⟩ := hc.linked
  have hs := hl.inScope.keeps hext.sameScopes.toKeepsScopes hext.coherent
  exact hc.advances hl hall hext.sameScopes.advances (hl.keepsNames hext.keepsNames hs)

theorem Crawled.length_le (hc : Crawled a r t) (hp : t.OnLine r p line) :
    line.length ≤ Limits.traversal + 1 := by
  obtain ⟨reads, hl, _⟩ := hc.linked
  obtain ⟨n, above, rfl, hu⟩ := hp.under
  rw [hl.arena] at hu
  exact Nat.succ_le_succ (hc.shallow n above hu)

theorem Crawled.exists_of_holds (hc : Crawled a r t) (hp : t.OnLine r p line) {o : Option ScopeId}
    (ho : t.Holds line o) : ∃ s, o = some s ∧ s.index < t.scopes.size := by
  obtain ⟨reads, hl, _⟩ := hc.linked
  obtain ⟨n, above, rfl, hu⟩ := hp.under
  cases o with
  | some s => exact ⟨s, rfl, ho.2 s rfl⟩
  | none =>
    have hlast := getLast_blocks hu (hl.arena ▸ hl.root)
    have hnil : t.arena.blocks (n :: above) = [] := List.head?_eq_none_iff.1 ho.1.symm
    rw [hnil] at hlast
    cases hlast

/-- **In a crawled tree every request for a scope is answered.** -/
theorem Crawled.ends_scopeOf (hc : Crawled a r t) (hp : p.index < t.paths.size) :
    Ends (Tree.scopeOf p t)
      (fun o t' => Crawled a r t' ∧ t.Adds t' ∧ ∃ s, o = some s ∧ s.index < t'.scopes.size)
      fun _ _ => False := by
  obtain ⟨line, hline⟩ := hc.inScope.coherent.exists_line hp
  have hlen := hc.length_le hline
  have hgoes := hc.goes fun reads hl => (Linked.assignsQuietly a r reads 0).scopeOf ⟨hl, hc.depth⟩
    hline (hlen.trans (by omega)) (hl.covered hline hc.settled)
  refine Ends.mono hgoes ?_
  rintro o t' ⟨hc', ha, hholds, -⟩
  exact ⟨hc', ha.toAdds, hc'.exists_of_holds (hline.grows ha.grows) hholds⟩

/-! ## the first request -/

/-- **The first path that is assigned a scope has the tree crawled.** The paths above it come first.
-/
theorem Extends.assignUpTo (ha : a.WellOwned) (hr : a.isScope (some r) none)
    (hon : options.noScope = false) (hext : (ofArena a (some r) options).Extends t r) :
    ∀ (fuel : Nat) (p : PathId) (line : List NodeId), t.OnLine r p line → p.index < fuel →
      Ends (Tree.assignUpTo Tree.crawl fuel p t)
        (fun _ t' => Crawled a r t' ∧ t.Grows t' ∧ t'.Holds line (t'.path p).scope)
        fun e _ => a.Warrants r e
  | 0, _, _, _, hfuel => absurd hfuel (Nat.not_lt_zero _)
  | fuel + 1, p, line, hp, hfuel => by
    have ht := ((registered_ofArena ha hr hon).extends hext).inScope
    have hlive {q : PathId} {line : List NodeId} (hq : t.OnLine r q line) : t.liveScope? q = none :=
      (ht.liveScope? hq).trans (hext.scope_ofArena q)
    rcases hp with ⟨n, above, hp, rfl⟩ | ⟨hnode, q, n, above, hq, hlt, hqp, rfl⟩
    · cases above with
      | nil =>
        obtain rfl : n = r := by
          cases hp.under
          rfl
        refine (hext.assignUpTo_root ha hr hon hp fuel).mono ?_
        rintro _ t' ⟨hc, hadds, s, hs⟩
        refine ⟨hc, hadds.grows, ?_⟩
        rw [hs]
        exact hc.inScope.path p _ s (hp.grows hadds.grows).onLine hs
      | cons m above =>
        obtain ⟨q, hq, hlt, _, hqp⟩ := ht.coherent.parent hp
        have ih := Extends.assignUpTo ha hr hon hext fuel q _ hqp.onLine (by omega)
        unfold Tree.assignUpTo
        rw [run_get_bind]
        simp only [ht.on, Bool.false_eq_true, if_false, hq, hlive hqp.onLine]
        refine ends_bind.2 (ih.mono ?_)
        rintro _ t' ⟨hc, hg, hholds⟩
        have hp' := hp.grows hg
        have hlen := hc.length_le hp'.onLine
        simp only [List.length_cons] at hlen
        refine (hc.goes fun reads hl => (Linked.assignsQuietly a r reads 0).place ⟨hl, hc.depth⟩ hp'
          hholds (by simp only [List.length_cons]; omega) (hl.covered hp'.onLine hc.settled)).imp ?_
          fun _ _ h => h.elim
        rintro _ t'' ⟨hc', ha', h⟩
        exact ⟨hc', hg.trans ha'.grows, h⟩
    · have hpq : q.index < p.index := (ht.coherent.parent_of_parentPath hlt hq).1
      have ih := Extends.assignUpTo ha hr hon hext fuel q _ hqp.onLine (by omega)
      unfold Tree.assignUpTo
      rw [run_get_bind]
      simp only [ht.on, Bool.false_eq_true, if_false, hq, hlive hqp.onLine]
      refine ends_bind.2 (ih.mono ?_)
      rintro _ t' ⟨hc, hg, hholds⟩
      have hp' : t'.OnLine r p (n :: above) :=
        OnLine.grows (.inr ⟨hnode, q, n, above, hq, hlt, hqp, rfl⟩) hg
      have hnode' : (t'.path p).node = none := (hg.node p hlt).trans hnode
      unfold scopeFor
      rw [run_get_bind, pure_bind, bind_assoc, run_get_bind]
      simp only [hnode', pure_bind]
      refine (hc.goes fun reads hl => (Linked.assignsQuietly a r reads 0).finish ⟨hl, hc.depth⟩ hp'
        hholds).imp ?_ fun _ _ h => h.elim
      rintro _ t'' ⟨hc', ha', h⟩
      exact ⟨hc', hg.trans ha'.grows, h⟩

/-- **The first request for a scope crawls the tree**, whatever path it is about. -/
theorem Extends.ends_scopeOf (ha : a.WellOwned) (hr : a.isScope (some r) none)
    (hon : options.noScope = false) (hext : (ofArena a (some r) options).Extends t r)
    (hp : p.index < t.paths.size) :
    Ends (Tree.scopeOf p t)
      (fun o t' => Crawled a r t' ∧ ∃ s, o = some s ∧ s.index < t'.scopes.size)
      fun e _ => a.Warrants r e := by
  have ht := ((registered_ofArena ha hr hon).extends hext).inScope
  obtain ⟨line, hline⟩ := hext.coherent.exists_line hp
  unfold Tree.scopeOf scopeOfWith assignWith
  rw [run_get_bind, ht.liveScope? hline, hext.scope_ofArena p]
  refine ends_bind.2 ((hext.assignUpTo ha hr hon _ p line hline (Nat.lt_succ_of_lt hp)).mono ?_)
  rintro _ t' ⟨hc, hg, hholds⟩
  exact ⟨hc, hc.exists_of_holds (hline.grows hg) hholds⟩

theorem scopeOf_eq_none (hp : t.paths.size ≤ p.index
    ∨ t.options.noScope = true ∧ (t.path p).scope = none) : Tree.scopeOf p t = .ok none t := by
  have hscope : (t.path p).scope = none := by
    rcases hp with hp | ⟨_, hp⟩
    · rw [path_of_size_le hp]
    · exact hp
  have hassign : assignWith Tree.crawl p t = .ok ⟨⟩ t := by
    unfold assignWith assignUpTo
    rw [run_get_bind, run_get_bind]
    cases hoff : t.options.noScope with
    | true => rfl
    | false =>
      have hpath : t.path p = {} := path_of_size_le (hp.resolve_right (by simp [hoff]))
      have hparent : t.parentPath p = none := congrArg PathData.parentPath hpath
      have hupdate : t.updatePath p ({ · with scope := none }) = t :=
        updatePath_eq_self _ _ (by rw [hpath])
      simp only [hparent, Bool.false_eq_true, if_false]
      unfold scopeFor
      rw [pure_bind, bind_assoc, run_get_bind]
      simp only [hpath, pure_bind]
      rw [run_modify_bind, hupdate]
      rfl
  have hlive : t.liveScope? p = none := by simp [liveScope?, hscope]
  unfold Tree.scopeOf scopeOfWith
  rw [run_get_bind, hlive]
  dsimp only
  rw [run_bind_of_ok hassign, run_get_bind, hscope]
  rfl

/-! ## any requests -/

/-- **No request makes a crawled tree less than that.** -/
theorem Crawled.asked (hc : Crawled a r t) (h : Asked t t') : Crawled a r t' ∧ t.Adds t' := by
  have hlookup {t₁ t₂ : Tree} (hc : Crawled a r t₁) (hext : t₁.Extends t₂ r) :
      Crawled a r t₂ ∧ t₁.Adds t₂ := ⟨hc.extends hext, hext.sameScopes.toKeepsScopes.adds⟩
  induction h with
  | start => exact ⟨hc, .refl t⟩
  | root _ ih =>
    have hstep := hlookup ih.1 (extends_getRootPath ih.1.inScope.coherent)
    exact ⟨hstep.1, ih.2.trans hstep.2⟩
  | find p key _ ih =>
    have hstep := hlookup ih.1 (extends_follow ih.1.inScope.coherent p key)
    exact ⟨hstep.1, ih.2.trans hstep.2⟩
  | @scope t' t'' p o _ hrun ih =>
    by_cases hp : p.index < t'.paths.size
    · obtain ⟨hc', hadds, _⟩ := (ih.1.ends_scopeOf hp).of_ok hrun
      exact ⟨hc', ih.2.trans hadds⟩
    · rw [scopeOf_eq_none (.inl (Nat.le_of_not_lt hp))] at hrun
      cases hrun
      exact ih

theorem Crawled.complete (hc : Crawled a r t) (hr : a.is (some r) .program)
    (hs : s.index < t.scopes.size) : Complete a r t where
  declared _ _ _ _ hu hl := hc.lands hr hu hl
  linked := by
    obtain ⟨_, hl, _⟩ := hc.linked
    obtain ⟨hblock, hlt⟩ := hl.inScope.programScope (hl.arena ▸ hl.root) hs
    have hfound := hl.inScope.found _ hlt
    rw [hblock] at hfound
    exact ⟨_, hfound, hc.readsLinked hr hlt⟩

/-- **As long as no request failed, scopes are made all at once.** Before the first request there is
none, and after it nothing is missing. -/
theorem Asked.extends_or_crawled (ha : a.WellOwned) (hr : a.isScope (some r) none)
    (h : Asked (ofArena a (some r) options) t) : (ofArena a (some r) options).Extends t r
      ∨ options.noScope = false ∧ Crawled a r t := by
  have hnew := coherent_ofArena ha (isSome_of_isScope hr) options
  induction h with
  | start => exact .inl (.refl hnew)
  | root _ ih =>
    exact ih.imp (fun hext => hext.trans (extends_getRootPath hext.coherent))
      fun ⟨hon, hc⟩ => ⟨hon, (hc.asked (.root .start)).1⟩
  | find p key _ ih =>
    exact ih.imp (fun hext => hext.trans (extends_follow hext.coherent p key))
      fun ⟨hon, hc⟩ => ⟨hon, (hc.asked (.find p key .start)).1⟩
  | @scope t' t'' p o _ hrun ih =>
    rcases ih with hext | ⟨hon, hc⟩
    · by_cases hp : t'.paths.size ≤ p.index ∨ options.noScope = true
      · rw [scopeOf_eq_none (hp.imp_right fun hoff => ⟨hext.grows.options ▸ hoff,
          hext.scope_ofArena p⟩)] at hrun
        cases hrun
        exact .inl hext
      · obtain ⟨hlt, hon⟩ := not_or.1 hp
        have hon : options.noScope = false := by simpa using hon
        exact .inr ⟨hon, ((hext.ends_scopeOf ha hr hon (Nat.lt_of_not_le hlt)).of_ok hrun).1⟩
    · exact .inr ⟨hon, (hc.asked (.scope .start hrun)).1⟩

/-- **Scopes are handed out complete, as long as no request failed.** If all requests so far were
answered and one more is answered with a scope, then, whatever else is asked, nothing is missing in
any scope, and every request for the scope of a path is answered with one. -/
theorem Asked.answered_complete (ha : a.WellOwned) (hr : a.is (some r) .program)
    (h : Asked (ofArena a (some r) options) t) (hrun : scopeOf p t = .ok (some s) t')
    (hlater : Asked t' t₁) : Complete a r t₁
      ∧ ∀ q, q.index < t₁.paths.size → ∃ s' t₂, scopeOf q t₁ = .ok (some s') t₂ := by
  have hroot := isScope_of_program hr
  have hcrawled : Crawled a r t' ∧ s.index < t'.scopes.size := by
    by_cases hp : p.index < t.paths.size
    · rcases h.extends_or_crawled ha hroot with hext | ⟨_, hc⟩
      · cases hoff : options.noScope with
        | true =>
          rw [scopeOf_eq_none (.inr ⟨hext.grows.options ▸ hoff, hext.scope_ofArena p⟩)] at hrun
          cases hrun
        | false =>
          obtain ⟨hc, s', heq, hlt⟩ := (hext.ends_scopeOf ha hroot hoff hp).of_ok hrun
          exact ⟨hc, Option.some.inj heq ▸ hlt⟩
      · obtain ⟨hc', _, s', heq, hlt⟩ := (hc.ends_scopeOf hp).of_ok hrun
        exact ⟨hc', Option.some.inj heq ▸ hlt⟩
    · rw [scopeOf_eq_none (.inl (Nat.le_of_not_lt hp))] at hrun
      cases hrun
  obtain ⟨hc, hadds⟩ := hcrawled.1.asked hlater
  refine ⟨hc.complete hr (hcrawled.2.trans_le hadds.size), fun q hq => ?_⟩
  obtain ⟨o, t₂, hanswer, _, _, s', rfl, _⟩ := (hc.ends_scopeOf hq).exists_ok
  exact ⟨s', t₂, hanswer⟩

/-- The first request may be about a path far inside: here that of the `x` that is read, and then
that of the whole program. -/
theorem answers_letAndReads : ∃ s t t' t₁,
    Asked (ofArena letAndReads (some ⟨7⟩) {}) t ∧ t.node ⟨2⟩ = some ⟨3⟩
      ∧ scopeOf ⟨2⟩ t = .ok (some s) t' ∧ Asked t' t₁ ∧ Complete letAndReads ⟨7⟩ t₁
      ∧ ∀ q, q.index < t₁.paths.size → ∃ s' t₂, scopeOf q t₁ = .ok (some s') t₂ := by
  let t := final (follow ⟨0⟩ "body.1.expression"
    (final (getRootPath (ofArena letAndReads (some ⟨7⟩) {}))))
  have hasked : Asked (ofArena letAndReads (some ⟨7⟩) {}) t := .find _ _ (.root .start)
  have hpasses : passes (scopeOf ⟨2⟩ t) (fun o t' => o.isSome
      && passes (scopeOf ⟨0⟩ t') fun o' _ => o'.isSome) = true := by decide +kernel
  obtain ⟨o, t', hrun, htest⟩ := ok_of_passes hpasses
  obtain ⟨hsome, htest⟩ := Bool.and_eq_true_iff.1 htest
  obtain ⟨s, rfl⟩ := Option.isSome_iff_exists.1 hsome
  obtain ⟨o', t₁, hroot, _⟩ := ok_of_passes htest
  have hlater : Asked t' t₁ := .scope .start hroot
  have hanswers := hasked.answered_complete (wellOwned_runAll _) (by decide) hrun hlater
  exact ⟨s, t, t', t₁, hasked, by decide +kernel, hrun, hlater, hanswers⟩

def letTwice : Arena := runAll [
  .alloc .identifier [.str "x", .node none],
  .alloc .variableDeclarator [.node (some ⟨0⟩), .node none],
  .alloc .variableDeclaration [.str "let", .list [some ⟨1⟩]],
  .alloc .identifier [.str "x", .node none],
  .alloc .variableDeclarator [.node (some ⟨3⟩), .node none],
  .alloc .variableDeclaration [.str "let", .list [some ⟨4⟩]],
  .alloc .program [.str "module", .list [], .list [some ⟨2⟩, some ⟨5⟩]]]

/-- A request that failed is forgotten: the crawl gives up at the second `let`, and the next request
hands out the scope as it was left then. -/
theorem scopeOfRoot_letTwice : ∃ location t s t',
    scopeOfRoot (ofArena letTwice (some ⟨6⟩) {}) = .error (.duplicateDeclaration "x" location) t
      ∧ scopeOfRoot t = .ok (some s) t' := by
  have hfails : (match scopeOfRoot (ofArena letTwice (some ⟨6⟩) {}) with
      | .error (.duplicateDeclaration name _) t =>
        name == "x" && passes (scopeOfRoot t) fun o _ => o.isSome
      | _ => false) = true := by decide +kernel
  cases hrun : scopeOfRoot (ofArena letTwice (some ⟨6⟩) {}) with
  | ok o t =>
    rw [hrun] at hfails
    cases hfails
  | error e t =>
    rw [hrun] at hfails
    cases e with
    | duplicateDeclaration name location =>
      obtain ⟨hname, hagain⟩ := Bool.and_eq_true_iff.1 hfails
      obtain rfl : name = "x" := by simpa using hname
      obtain ⟨o, t', hagain, hsome⟩ := ok_of_passes hagain
      obtain ⟨s, rfl⟩ := Option.isSome_iff_exists.1 hsome
      exact ⟨location, t, s, t', rfl, hagain⟩
    | _ => cases hfails

end ScopedTree.Tree
