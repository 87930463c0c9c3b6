import ScopedTree.Proofs.Scope.Declaration

/-!
# What a crawl does at a node

Each handler of a crawl keeps the tree in order: what it registers was declared for the scope it
comes into.

* `Tree.Registered.declaringScope`      the scope that a declaration at a path belongs to;
* `Tree.Registered.collectDeclaration`, `collectBlockScoped`, `collectLoopVar`, `collectExport`,
  `collectLabel`                        the handlers one by one.
-/

namespace ScopedTree.Tree

open Arena

variable {a : Arena} {t t' : Tree} {r n m id : NodeId} {p q : PathId} {s c : ScopeId}
  {name : String} {kind : BindingKind} {above line : List NodeId} {o : Option ScopeId} {γ : Gaps}

theorem Holds.skip (h : t.Holds (n :: above) o) (hn : ¬ t.arena.isScope (some n) above.head?) :
    t.Holds above o := by
  unfold Holds at h ⊢
  rwa [blocks_cons_of_not_scope hn] at h

theorem Scoped.holds_above (ht : t.Scoped r) (hu : t.arena.Under r n above)
    (h : t.Holds (n :: above) (some s)) :
    t.Holds above (if (t.scope s).block = n then (t.scope s).parent else some s) := by
  split
  · next hb =>
    obtain ⟨above', hu', _, hpar, _⟩ := ht.stands_of_holds hu h
    rw [hb] at hu'
    rwa [hu'.unique ht.coherent.arena.owned hu] at hpar
  · next hb =>
    refine h.skip fun hscope => hb ?_
    have h1 := h.1
    rw [blocks_cons_of_scope hscope] at h1
    exact Option.some.inj h1

theorem Holds.ne_nil (h : t.Holds line (some s)) : line ≠ [] := by
  rintro rfl
  have h1 := h.1
  cases h1

/-- The scope that a declaration at a path belongs to is that of the line above. -/
theorem Registered.declaringScope (ht : Registered a r γ t) (hp : t.Place r p n above)
    (hlen : above.length ≤ Limits.traversal + 1) :
    Goes (Registered a r γ) (a.Warrants r) (declaringScope p) t fun o t' => t'.Holds above o := by
  unfold Tree.declaringScope
  refine (ht.quietScopeOf hp.onLine (by simp; omega)).bind fun o t' ht' ha ho => ?_
  have hp' := hp.grows ha.grows
  cases o with
  | none =>
    refine goes_pure ht' ⟨?_, fun _ h => nomatch h⟩
    have hnil := ho.eq_none
    rw [blocks] at hnil
    split at hnil
    · cases hnil
    · rw [hnil]
      rfl
  | some s =>
    have habove := ht'.inScope.holds_above hp'.under ho
    refine goes_get ?_
    rw [hp'.node]
    by_cases hb : (t'.scope s).block = n
    · rw [if_pos hb] at habove
      rw [if_pos (by simp [hb])]
      exact goes_pure ht' habove
    · rw [if_neg hb] at habove
      rw [if_neg (by simp [hb])]
      exact goes_pure ht' habove

theorem Registered.registerWith (ht : Registered a r γ t) (hp : t.Place r p n above)
    (hlen : above.length ≤ Limits.traversal + 1) {target : Tree → ScopeId → ScopeId}
    (home : List NodeId → Option NodeId) (hnil : ∀ line, a.blocks line = [] → home line = none)
    (htarget : ∀ t s m above, Registered a r γ t → t.arena.Under r m above →
      t.Holds (m :: above) (some s) →
      home (m :: above) = some (t.scope (target t s)).block ∧ (target t s).index < t.scopes.size)
    {S : ScopeId → Tree → Prop}
    (hD : ∀ t' s, Registered a r γ t' → t.Advances t' → s.index < t'.scopes.size →
      home above = some (t'.scope s).block →
      Goes (Registered a r γ) (a.Warrants r) (registerDeclaration s p) t' fun _ t'' => S s t'') :
    Goes (Registered a r γ) (a.Warrants r) (registerWith target p) t fun _ t' =>
      ∀ h, home above = some h → ∃ s, s.index < t'.scopes.size ∧ (t'.scope s).block = h
        ∧ S s t' := by
  unfold Tree.registerWith
  refine (ht.declaringScope hp hlen).bind fun o t' ht' ha ho => ?_
  cases o with
  | none =>
    refine goes_pure ht' fun h hh => ?_
    have hempty := ho.eq_none
    rw [ht'.arena] at hempty
    rw [hnil above hempty] at hh
    cases hh
  | some s =>
    refine goes_get ?_
    have hu := (hp.grows ha.grows).under
    cases above with
    | nil => exact absurd rfl ho.ne_nil
    | cons m above =>
      obtain ⟨hm, _⟩ := under_cons.1 hu
      obtain ⟨hhome, hlt⟩ := htarget t' s m above ht' hm ho
      refine (hD t' _ ht' ha hlt hhome).mono fun _ t'' _ ha' hS h hh => ?_
      refine ⟨target t' s, hlt.trans_le ha'.size, ?_, hS⟩
      rw [ha'.block hlt]
      exact Option.some.inj (hhome.symm.trans hh)

theorem home_of_blocks_nil {test : NodeType → Bool} (h : a.blocks line = []) :
    a.home test line = none := by
  unfold home
  rw [h]
  rfl

theorem Registered.get? (ht : Registered a r γ t) (hp : t.Place r p n above) :
    ∃ o, a.get? n = some o ∧ a.Under r n above := by
  obtain ⟨o, ho⟩ := hp.under.get? ht.inScope.coherent.arena.owned ht.inScope.coherent.present
  have hu := hp.under
  rw [ht.arena] at ho hu
  exact ⟨o, ho, hu⟩

/-- Functions, `var`s, imports, declarations of Flow and exports of what is no declaration. -/
theorem Registered.collectDeclaration (ht : Registered a r γ t) (hp : t.Place r p n above)
    (hlen : above.length ≤ Limits.traversal + 1) (hn : a.isA (some n) .declaration) :
    Goes (Registered a r γ) (a.Warrants r) (collectDeclaration p) t fun _ t' =>
      ¬ a.isA (some n) .exportDeclaration → ¬ a.is (some n) .classDeclaration →
      ¬ a.isLet (some n) → ∀ h, a.functionHome above = some h → t'.OwnsAll h n := by
  obtain ⟨o, ho, hu⟩ := ht.get? hp
  unfold Tree.collectDeclaration
  refine goes_get ?_
  dsimp only
  rw [hp.node, ht.arena]
  split
  · next hcond =>
    simp only [Bool.and_eq_true, Bool.not_eq_true', Bool.and_eq_false_iff] at hcond
    obtain ⟨⟨_, hblock⟩, hexp⟩ := hcond
    have hplain : ¬ a.is (some n) .classDeclaration ∧ ¬ a.isLet (some n) := by
      rcases hblock with hblock | hfun
      · unfold isBlockScoped at hblock
        simp only [Bool.or_eq_false_iff] at hblock
        simp [hblock.1.2, hblock.2]
      · have hty : o.type = .functionDeclaration := by
          rw [is_of_get ho] at hfun
          simpa using hfun
        simp [isLet, is_of_get ho, hty]
    refine (ht.registerWith hp hlen a.functionHome (fun _ => home_of_blocks_nil)
      (fun t s m above ht' hm hs => ?_)
      (S := fun s t' => ¬ a.isA (some n) .exportDeclaration → t'.ListsAll s n)
      fun t' s ht' ha hs hhome => ?_).mono fun _ t' _ _ hall hexport _ _ h hh => ?_
    · rw [← ht'.arena]
      exact ht'.inScope.functionScope hm hs
    · have hn' := (hp.grows ha.grows).node
      unfold registerDeclaration
      refine goes_get ?_
      by_cases hexport : a.isA (some n) .exportDeclaration
      · refine (ht'.registerExport hs hn' hexport (fun m hm => ?_) _).mono
          fun _ _ _ _ _ h => absurd hexport h
        have hdecl : ¬ a.isA (some m) .declaration := by
          rcases hexp with hexp | hexp
          · rw [hexport] at hexp
            cases hexp
          · rw [hm] at hexp
            simp [hexp]
        exact ⟨hdecl, fun name id hb =>
          .inr ⟨rfl, n, above, m, hu, hhome, ⟨hexport, hm, hdecl⟩, hb⟩⟩
      · refine (ht'.registerDeclarationLevels hs hn' hexport
          (fun kind m name id hk hb => .inl ⟨n, above, m, hu, .hoisted hk hplain hhome, hb⟩)
          (fun h => absurd hn h) _).mono fun _ _ _ _ hlists _ => hlists ?_
        exact not_labeledStatement hn
    · obtain ⟨s, hs, hb, hlists⟩ := hall h hh
      exact ⟨s, hs, hb, hlists hexport⟩
  · next hcond =>
    refine goes_pure ht fun hexport hclass hlet => absurd ?_ hcond
    simp [type?, ho, isBlockScoped, hexport, hclass, hlet]

/-- Classes and `let`s. -/
theorem Registered.collectBlockScoped (ht : Registered a r γ t) (hp : t.Place r p n above)
    (hlen : above.length ≤ Limits.traversal + 1) (hn : a.isBlockScoped (some n)) :
    Goes (Registered a r γ) (a.Warrants r) (collectBlockScoped p) t fun _ t' =>
      a.is (some n) .classDeclaration ∨ a.isLet (some n) →
      ∀ h, a.blockHome above = some h → t'.OwnsAll h n := by
  obtain ⟨o, ho, hu⟩ := ht.get? hp
  have hkinds : a.is (some n) .classDeclaration ∨ a.isLet (some n) →
      o.type = .classDeclaration ∨ o.type = .variableDeclaration := fun hlex => hlex.imp
    (fun h => by simpa [is_of_get ho] using h)
    fun h => by simpa [is_of_get ho] using isLet_variableDeclaration h
  unfold Tree.collectBlockScoped
  refine goes_get ?_
  rw [nodeIs_eq, hp.node, ht.arena]
  split
  · next hfun =>
    have hlex : a.is (some n) .classDeclaration ∨ a.isLet (some n) := by
      unfold isBlockScoped at hn
      simp only [Bool.or_eq_true] at hn
      rcases hn with (h | h) | h
      · simp [h] at hfun
      · exact .inl h
      · exact .inr h
    have hdecl : a.isA (some n) .declaration ∧ ¬ a.isA (some n) .exportDeclaration := by
      simp only [isA, type?, look_some, ho, Option.map_some, Option.any_some]
      rcases hkinds hlex with h | h <;> rw [h] <;> decide
    refine (ht.registerWith hp hlen a.blockHome (fun _ => home_of_blocks_nil)
      (fun t s m above ht' hm hs => ?_) (S := fun s t' => t'.ListsAll s n)
      fun t' s ht' ha hs hhome => ?_).mono fun _ _ _ _ hall _ => hall
    · rw [← ht'.arena]
      exact ht'.inScope.blockScope hm hs
    · unfold registerDeclaration
      refine goes_get ((ht'.registerDeclarationLevels hs (hp.grows ha.grows).node hdecl.2
        (fun kind m name id hk hb => .inl ⟨n, above, m, hu, .lexical hk hlex hhome, hb⟩)
        (fun h => absurd hdecl.1 h) _).mono fun _ _ _ _ hlists => hlists ?_)
      exact not_labeledStatement hdecl.1
  · next hfun =>
    refine goes_pure ht fun hlex => absurd ?_ hfun
    rw [is_of_get ho]
    rcases hkinds hlex with h | h <;> rw [h] <;> decide

theorem not_isScope_of_variableDeclaration {owner : Option NodeId}
    (hn : a.is (some n) .variableDeclaration) : ¬ a.isScope (some n) owner := by
  obtain ⟨o, ho, hty⟩ := is_some.1 hn
  have hscope : NodeType.isA .variableDeclaration .scopable = false := rfl
  simp [isScope, is_of_get ho, isA, type?, ho, hty, hscope]

theorem home_of_not_scope {test : NodeType → Bool} (h : ¬ a.isScope (some n) above.head?) :
    a.home test (n :: above) = a.home test above := by
  unfold home
  rw [blocks_cons_of_not_scope h]

theorem Below.place (hp : t.Place r p n above) (hq : t.Below p q (some m))
    (hm : m ∈ t.arena.children (some n)) : t.Place r q m (n :: above) :=
  ⟨hq.node, .child hp.under hm⟩

theorem Registered.follow (ht : Registered a r γ t) (hp : t.Place r p n above) {key : String}
    (hkey : '.' ∉ key.toList) :
    Goes (Registered a r γ) (a.Warrants r) (follow p key) t
      fun q t' => t'.Below p q (a.child? (some n) key) := by
  obtain ⟨o, ho⟩ := hp.under.get? ht.inScope.coherent.arena.owned ht.inScope.coherent.present
  have h := ends_follow ht.inScope.coherent ho hp.node hkey
  rw [ht.arena] at h
  exact ht.goes h

/-- A `var` in the head of a loop. -/
theorem Registered.collectLoopVar (ht : Registered a r γ t) (hp : t.Place r p n above)
    (hlen : above.length ≤ Limits.traversal + 1) (hn : a.isA (some n) .forLoop) {key : String}
    (hkey : '.' ∉ key.toList) :
    Goes (Registered a r γ) (a.Warrants r) (collectLoopVar p key) t fun _ _ => True := by
  unfold Tree.collectLoopVar
  refine goes_get ?_
  rw [hp.node, ht.arena]
  split
  · next hvar =>
    refine (ht.follow hp hkey).bind fun q t₁ ht₁ ha₁ hq => ?_
    cases hc : a.child? (some n) key with
    | none =>
      rw [hc] at hvar
      cases hvar
    | some m =>
      rw [hc] at hvar hq
      have hm : m ∈ t₁.arena.children (some n) := by
        rw [ht₁.arena]
        exact mem_children_of_child? hc
      have hqp := Below.place (hp.grows ha₁.grows) hq hm
      have hvd : a.is (some m) .variableDeclaration := by
        unfold isVar at hvar
        exact (Bool.and_eq_true_iff.1 hvar).1
      refine (ht₁.quietScopeOf hqp.onLine (by simp; omega)).bind fun o t₂ ht₂ ha₂ ho => ?_
      cases o with
      | none => exact goes_pure ht₂ trivial
      | some s =>
        refine goes_get ?_
        have hqp₂ := hqp.grows ha₂.grows
        obtain ⟨hhome, hlt⟩ := ht₂.inScope.functionScope hqp₂.under ho
        refine (ht₂.registerBinding hlt fun m' name id hm' hb => ?_).mono fun _ _ _ _ _ => trivial
        obtain rfl := Option.some.inj (hqp₂.node.symm.trans hm')
        obtain ⟨d, hd, hbd⟩ := (binds_variableDeclaration (shaped_of_registered ht₂) hvd).1 hb
        have hu := hqp₂.under
        rw [ht₂.arena] at hu hhome
        refine .inl ⟨m, n :: above, d, hu, .loopVar rfl hn hvar hd ?_, hbd⟩
        rwa [functionHome, home_of_not_scope (not_isScope_of_variableDeclaration hvd)] at hhome
  · exact goes_pure ht trivial

theorem Registered.getBinding? (ht : Registered a r γ t) {b : BindingId}
    (hb : t.getBinding? s name = some b) :
    ∃ record, t.binding? b = some record ∧ record.name = name := by
  obtain ⟨c, -, hcb⟩ := List.exists_of_findSome?_eq_some hb
  rw [ht.bound.ownBinding?] at hcb
  obtain ⟨record, hr, rfl, hname⟩ := ht.bound.listed c name b hcb
  exact ⟨record, hr, hname⟩

theorem earlyBinding?_size (t : Tree) (s : ScopeId) (name : String) :
    t.earlyBinding? t.bindings.size s name = t.getBinding? s name := by
  refine findSome?_congr fun c _ => ?_
  cases hb : t.ownBinding? c name with
  | none => rfl
  | some b =>
    obtain ⟨record, hr⟩ := Option.isSome_iff_exists.1 (Option.filter_eq_some_iff.1 hb).2
    exact Option.filter_some_pos (by simpa using lt_of_binding? hr)

/-- What a declaration binds, when it was registered, is bound in a scope around it. -/
theorem Registered.declared (ht : Registered a r γ t) (hu : t.arena.Under r n above)
    (hs : t.Holds (n :: above) (some s)) {h : NodeId} (hh : a.Homes m (n :: above) h)
    (ho : t.OwnsAll h m) (hb : t.arena.Binds true m name id) : ∃ c ∈ t.scopeChain s,
    (t.scope c).block = h
      ∧ ∃ d, t.ownBinding? c name = some d ∧ d.index < t.bindings.size := by
  obtain ⟨test, htest⟩ : ∃ test, t.arena.home test (n :: above) = some h := by
    rw [ht.arena]
    cases hh with
    | hoisted _ _ hh => exact ⟨_, hh⟩
    | lexical _ hh => exact ⟨_, hh⟩
  obtain ⟨hhome, hc⟩ := ht.inScope.chain_home hu hs test
  have hblock := Option.some.inj (hhome.symm.trans htest)
  obtain ⟨c', hlt, hblock', hlists⟩ := ho
  -- the scope of a block is unique
  have hfound := ht.inScope.found _ (ht.inScope.lt_of_mem_chain hu hs hc)
  rw [hblock, ← hblock', ht.inScope.found c' hlt] at hfound
  obtain rfl := Option.some.inj hfound
  obtain ⟨d, hd⟩ := Option.isSome_iff_exists.1 (hlists name id hb).1
  obtain ⟨record, hr, -⟩ := ht.bound.listed _ name d hd
  exact ⟨_, hc, hblock', d, (ht.bound.ownBinding? _ name).trans hd, lt_of_binding? hr⟩

theorem Registered.reference (ht : Registered a r γ t) {b : BindingId} {k : Nat}
    (hb : ∃ record, t.binding? b = some record ∧ record.name = name) (hk : k ≤ t.bindings.size)
    (he : t.CountsExport r p k name b) : Registered a r γ (t.updateBinding b (·.reference p)) := by
  obtain ⟨record, hr, hrn⟩ := hb
  refine ht.updateBinding _ fun record' hr' => ?_
  obtain rfl := Option.some.inj (hr.symm.trans hr')
  obtain ⟨_, _, hj⟩ := ht.bound.found b record hr
  refine ⟨record.precedes_reference p, ?_⟩
  unfold Binding.reference
  split
  · exact ⟨hj, ht.bound.sited b record hr, fun hγ => ht.exports hγ b record hr⟩
  · next hc =>
    refine ⟨⟨hj.declared, hj.redeclared⟩, ht.bound.sited b record hr, fun hγ => ?_⟩
    obtain ⟨hnd, hrefs⟩ := ht.exports hγ b record hr
    refine ⟨?_, fun q hq => ?_⟩
    · exact List.nodup_append.2 ⟨hnd, List.nodup_singleton _, fun x hx y hy h => hc (by
        obtain rfl := List.mem_singleton.1 hy
        simpa [h] using hx)⟩
    · rcases List.mem_append.1 hq with hq | hq
      · exact hrefs q hq
      · obtain rfl := List.mem_singleton.1 hq
        exact ⟨k, hk, hrn ▸ he⟩

theorem Registered.countExports (names : List String) (hp : t'.Place r p n above)
    (hn : a.isA (some n) .exportDeclaration) (hm : a.child? (some n) "declaration" = some m)
    (hdeclared : ∀ h, a.Homes m (n :: above) h → t'.OwnsAll h m)
    (ho : t'.Holds (n :: above) (some s)) (hnames : ∀ name ∈ names,
      name ∈ t'.exportedNames (some m)) (ht : Registered a r γ t) (h : t'.SameScopes t) :
    let t'' := names.foldl (fun t name => match t.getBinding? s name with
      | some b => t.updateBinding b (·.reference p)
      | none => t) t
    Registered a r γ t'' ∧ t'.SameScopes t'' := by
  induction names generalizing t with
  | nil => exact ⟨ht, h⟩
  | cons name names ih =>
    rw [List.foldl_cons]
    have hrest : ∀ x ∈ names, x ∈ t'.exportedNames (some m) :=
      fun x hx => hnames x (List.mem_cons_of_mem _ hx)
    cases hb : t.getBinding? s name with
    | none => exact ih hrest ht h
    | some b =>
      have hpt := hp.grows h.grows
      have hs := ho.advances h.advances
      refine ih hrest (ht.reference (ht.getBinding? hb) (Nat.le_refl _)
        ⟨s, n, m, above, hpt, ?_, ?_, ?_, hs, ?_, ?_⟩)
        (h.trans (t.sameScopes_updateBinding b _ fun record _ => record.precedes_reference p))
      · rwa [ht.arena]
      · rwa [ht.arena]
      · rw [exportedNames_congr h.grows.arena]
        exact hnames name (List.mem_cons_self ..)
      · rw [earlyBinding?_size, hb]
      · intro id home hbinds hhome
        rw [ht.arena] at hhome
        exact ht.declared hpt.under hs hhome ((hdeclared home hhome).adds h.adds) hbinds

/-- An export counts as a read of what its declaration declares, when that was registered. -/
theorem Registered.collectExport (ht : Registered a r γ t) (hp : t.Place r p n above)
    (hlen : above.length ≤ Limits.traversal + 1) (hn : a.isA (some n) .exportDeclaration)
    (hdeclared : ∀ m, a.child? (some n) "declaration" = some m → ∀ h, a.Homes m (n :: above) h →
      t.OwnsAll h m) :
    Goes (Registered a r γ) (a.Warrants r) (collectExport p) t fun _ _ => True := by
  unfold Tree.collectExport
  refine goes_get ?_
  split
  · exact goes_pure ht trivial
  · refine (ht.quietScopeOf hp.onLine (by simp; omega)).bind fun o t' ht' ha ho => ?_
    cases o with
    | none => exact goes_pure ht' trivial
    | some s =>
      have hp' := hp.grows ha.grows
      unfold Goes
      rw [ends_modify, hp'.node, ht'.arena]
      cases hm : a.child? (some n) "declaration" with
      | none => exact ⟨ht', .refl t', trivial⟩
      | some m =>
        have hdone := ht'.countExports _ hp' hn hm (fun h hh =>
          (hdeclared m hm h hh).adds ha.toAdds) ho (fun _ h => h) (.refl t')
        exact ⟨hdone.1, hdone.2.advances, trivial⟩

theorem Registered.holds_some (ht : Registered a r γ t) (hp : t.Place r p n above)
    (ho : t.Holds (n :: above) o) : ∃ s, o = some s := by
  cases o with
  | some s => exact ⟨s, rfl⟩
  | none =>
    have hlast := getLast_blocks hp.under (ht.arena ▸ ht.root)
    rw [ho.eq_none] at hlast
    cases hlast

/-- A label, which is no binding. -/
theorem Registered.collectLabel (ht : Registered a r γ t) (hp : t.Place r p n above)
    (hlen : above.length ≤ Limits.traversal + 1) (hn : a.is (some n) .labeledStatement) :
    Goes (Registered a r γ) (a.Warrants r) (collectLabel p) t
      fun _ t' => ∀ l, a.name? (a.child? (some n) "label") = some l → t'.Occurs l := by
  obtain ⟨o, ho, hty⟩ := is_some.1 hn
  have hdecl : ¬ a.isA (some n) .declaration := by
    simp only [isA, type?, look_some, ho, Option.map_some, Option.any_some, hty]
    decide
  unfold Tree.collectLabel
  refine (ht.quietScopeOf hp.onLine (by simp; omega)).bind fun o t' ht' ha ho => ?_
  have hp' := hp.grows ha.grows
  obtain ⟨s, rfl⟩ := ht'.holds_some hp' ho
  refine goes_get ?_
  have hlabel : ∀ t'', Registered a r γ t'' → t'.Advances t'' →
      Goes (Registered a r γ) (a.Warrants r)
      (do registerDeclaration ((← get).blockScope s) p) t'' fun _ _ => True := by
    intro t'' ht'' ha'
    refine goes_get (goes_get ?_)
    have hp'' := hp'.grows ha'.grows
    obtain ⟨_, hlt⟩ := ht''.inScope.blockScope hp''.under (ho.advances ha')
    exact (ht''.registerDeclarationLevels hlt hp''.node (not_exportDeclaration hdecl)
      (fun _ _ _ _ h => absurd h (not_introduces hdecl)) (fun _ h => absurd hn h) _).mono
      fun _ _ _ _ _ => trivial
  have hname : t'.fieldName? (t'.node p) "label" = a.name? (a.child? (some n) "label") := by
    unfold fieldName?
    rw [hp'.node, ht'.arena]
  rw [hname]
  cases hl : a.name? (a.child? (some n) "label") with
  | some l =>
    refine ((ht'.naming l).noteReference (ho.2 s rfl)).bind fun _ t'' ht'' ha' hoccurs => ?_
    refine (hlabel t'' ht'' ha').mono fun _ t''' _ ha'' _ l' hl' => ?_
    obtain rfl := Option.some.inj hl'
    exact ha''.occurs l hoccurs
  | none =>
    refine (hlabel t' ht' (.refl t')).mono fun _ _ _ _ _ l hl => ?_
    cases hl

end ScopedTree.Tree
