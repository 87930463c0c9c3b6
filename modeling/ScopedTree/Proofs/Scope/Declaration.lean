import ScopedTree.Proofs.Scope.Register

/-!
# Declarations are registered

* `Tree.Registered.registerDeclarationLevels`   a declaration, or the operand of an export;
* `Tree.Registered.registerExport`              an export that is not of a declaration;
* `Tree.Registered.registerHeads`               what the node of a scope itself declares;
* `Tree.Registered.assigns`                     paths are assigned scopes while a crawl collects.
-/

namespace ScopedTree.Tree

open Arena

variable {a : Arena} {t t' : Tree} {r n m id : NodeId} {p q : PathId} {s c : ScopeId}
  {name : String} {kind : BindingKind} {above line : List NodeId} {o : Node} {γ : Gaps}

/-! ## declarations -/

theorem ends_keyword (t : Tree) (id : Option NodeId) :
    Ends (keyword id t) (fun k t' => t' = t ∧ k = (t.arena.text? id "kind").getD "")
      fun e _ => ∃ err, e = .shape err := by
  unfold keyword
  rw [ends_bind, ends_get]
  cases hn : t.arena.look id with
  | none =>
    have hnode : t.arena.node id = .error (.invalidNode id) := by
      unfold Arena.node
      rw [hn]
    rw [hnode]
    exact ⟨_, rfl⟩
  | some o =>
    have hnode : t.arena.node id = .ok o := by
      unfold Arena.node
      rw [hn]
    have htext : t.arena.text? id "kind" = o.text? "kind" := by simp [Arena.text?, hn]
    rw [hnode, htext]
    simp only [bind, Except.bind, Node.text, Node.field, Node.text?]
    cases o.value? "kind" with
    | none => exact ⟨_, rfl⟩
    | some v =>
      cases v with
      | str k => exact ⟨rfl, rfl⟩
      | null => exact ⟨rfl, rfl⟩
      | _ => exact ⟨_, rfl⟩

theorem Registered.keyword (ht : Registered a r γ t) (id : Option NodeId) :
    Goes (Registered a r γ) (a.Warrants r) (keyword id) t
      fun k _ => k = (a.text? id "kind").getD "" := by
  refine (ends_keyword t id).imp ?_ ?_
  · rintro k t' ⟨rfl, hk⟩
    rw [ht.arena] at hk
    exact ⟨ht, .refl _, hk⟩
  · rintro e _ ⟨err, rfl⟩
    exact a.warrants_shape r err

theorem Registered.registerLabel (ht : Registered a r γ t) (s : ScopeId) (p : PathId) :
    Goes (Registered a r γ) (a.Warrants r) (registerLabel s p) t fun _ _ => True := by
  unfold Tree.registerLabel
  cases hl : t.fieldName? (t.node p) "label" with
  | none =>
    have hrun : ∀ f : Tree → Tree, f t = t → Goes (Registered a r γ) (a.Warrants r)
        (modify f : TreeM PUnit) t fun _ _ => True := by
      intro f hf
      refine goes_modify ?_ ?_ trivial <;> rw [hf]
      exact ht
    exact hrun _ (by rw [hl])
  | some l =>
    have hrun : ∀ f : Tree → Tree,
        f t = t.updateScope s (fun d => { d with labels := d.labels.put l p }) →
        Goes (Registered a r γ) (a.Warrants r) (modify f : TreeM PUnit) t fun _ _ => True := by
      intro f hf
      refine goes_modify ?_ ?_ trivial <;> rw [hf]
      · exact ht.updateScope _ _ (fun _ => rfl) (fun _ => rfl) fun _ _ h => h
      · refine (t.sameScopes_updateScope_of_bindings _ _ ?_ ?_ ?_).advances
        · exact fun _ => rfl
        · exact fun _ => rfl
        · exact fun _ _ h => h
    exact hrun _ (by rw [hl])

theorem shaped_of_registered (ht : Registered a r γ t) : a.Shaped := by
  rw [← ht.arena]
  exact ht.inScope.coherent.arena.shaped

theorem listsAll_of_items {key : String} (ht : t.arena = a)
    (hall : ∀ m, some m ∈ a.items (some n) key → t.ListsAll s m)
    (hn : ∀ name id, a.Binds true n name id →
      ∃ m, some m ∈ a.items (some n) key ∧ a.Binds true m name id) : t.ListsAll s n := by
  intro name id hb
  rw [ht] at hb
  obtain ⟨m, hm, hb⟩ := hn name id hb
  rw [← ht] at hb
  exact hall m hm name id hb

theorem Registered.registerEntries (ht : Registered a r γ t) (hs : s.index < t.scopes.size)
    (hn : t.node p = some n) {key : String} (hkey : '.' ∉ key.toList)
    (hD : ∀ m name id, some m ∈ a.items (some n) key → a.Binds true m name id →
      a.Enters r (t.scope s).block kind name id)
    (hbinds : ∀ name id, a.Binds true n name id →
      ∃ m, some m ∈ a.items (some n) key ∧ a.Binds true m name id) :
    Goes (Registered a r γ) (a.Warrants r)
      (do (← entries p key).forM (Tree.registerBinding s kind)) t fun _ t' => t'.ListsAll s n := by
  refine (ht.entries_forM (s := s) hn hkey fun q t' ht' ha hq => ?_).mono
    fun _ t' ht' _ hall => listsAll_of_items ht'.arena hall hbinds
  refine ht'.registerBinding (hs.trans_le ha.size) fun m name id hm hb => ?_
  rw [ha.block hs]
  exact hD m name id (hq m hm) hb

theorem exists_introduced_flow (hshaped : o.Shaped) (hn : a.get? n = some o)
    (hflow : o.type.isA .flowDeclaration) (hb : a.Binds true n name id) :
    ∃ m, a.Introduces n .unknown m ∧ a.Binds true m name id := by
  have hid : o.type ≠ .identifier := by
    intro h
    rw [h] at hflow
    cases hflow
  obtain ⟨m, hm, hb⟩ := hb.child "id" hn hid
    (bindingTargets_of_slot hshaped (o.type.bindsSlot_id (.inl hflow)))
  exact ⟨m, .flow (isA_some.2 ⟨o, hn, hflow⟩) hm, hb⟩

/-- Whatever is declared at a path that is no export comes into a scope it was declared for, and all
that the declaration binds is there then. -/
theorem Registered.registerDeclarationLevels (ht : Registered a r γ t)
    (hs : s.index < t.scopes.size) (hn : t.node p = some n)
    (hexport : ¬ a.isA (some n) .exportDeclaration)
    (hD : ∀ kind m name id, a.Introduces n kind m → a.Binds true m name id →
      a.Enters r (t.scope s).block kind name id)
    (hO : ¬ a.isA (some n) .declaration → ¬ a.is (some n) .labeledStatement → ∀ name id,
      a.Binds true n name id → a.Enters r (t.scope s).block .unknown name id) (fuel : Nat) :
    Goes (Registered a r γ) (a.Warrants r) (Tree.registerDeclarationLevels s (fuel + 1) p) t
      fun _ t' => ¬ a.is (some n) .labeledStatement → t'.ListsAll s n := by
  obtain ⟨above, hpl⟩ := ht.inScope.coherent.exists_place hn
  obtain ⟨o, ho⟩ := hpl.under.get? ht.inScope.coherent.arena.owned ht.inScope.coherent.present
  have hshaped : o.Shaped := ht.inScope.coherent.arena.shaped n o ho
  have hoa : a.get? n = some o := by rw [← ht.arena, ho]
  have htype : t.arena.type? (some n) = some o.type := by simp [type?, ho]
  have his : ∀ ty, o.type = ty → a.is (some n) ty := fun ty hty => is_some.2 ⟨o, hoa, hty⟩
  have hwhole : ∀ kind, (∀ name id, a.Binds true n name id →
      a.Enters r (t.scope s).block kind name id) →
      Goes (Registered a r γ) (a.Warrants r) (Tree.registerBinding s kind p) t
        fun _ t' => ¬ a.is (some n) .labeledStatement → t'.ListsAll s n := by
    intro kind hD
    refine (ht.registerBinding hs fun m name id hm hb => ?_).mono fun _ _ _ _ h _ => h n hn
    obtain rfl := Option.some.inj (hn.symm.trans hm)
    exact hD name id hb
  unfold Tree.registerDeclarationLevels
  refine goes_get ?_
  simp only [hn, htype]
  split
  · next h => cases h
  · next hty =>
    exact (ht.registerLabel s p).mono fun _ _ _ _ _ hlabel =>
      absurd (his _ (Option.some.inj hty)) hlabel
  · next hty =>
    have hty := Option.some.inj hty
    refine hwhole _ fun name id hb => ?_
    obtain ⟨m', hm', hb'⟩ := hb.child "id" hoa (by simp [hty]) (by
      simp [bindingTargets, hty, show NodeType.isA .functionDeclaration .exportDeclaration = false
        from rfl])
    exact hD _ m' name id (.function (his _ hty) hm') hb'
  · next hty =>
    have hty := Option.some.inj hty
    refine (ht.keyword (some n)).bind fun k t' ht' ha hk => ?_
    subst hk
    refine (ht'.registerEntries (hs.trans_le ha.size) ((ha.grows.node p (lt_of_node hn)).trans hn)
      (by decide) (fun m name id hm hb => ?_) fun name id hb =>
        (binds_variableDeclaration (shaped_of_registered ht) (his _ hty)).1 hb).mono
      fun _ _ _ _ hall _ => hall
    rw [ha.block hs]
    exact hD _ m name id (.declarator (his _ hty) hm) hb
  · next hty =>
    have hty := Option.some.inj hty
    refine hwhole _ fun name id hb => ?_
    obtain ⟨m', hm', hb'⟩ := hb.child "id" hoa (by simp [hty])
      (bindingTargets_of_slot hshaped (o.type.bindsSlot_id (.inr hty)))
    exact hD _ m' name id (.className (his _ hty) hm') hb'
  · next hty =>
    have hty := Option.some.inj hty
    exact (ht.registerEntries hs hn (by decide) (fun m name id hm hb =>
      hD _ m name id (.specifier (his _ hty) hm) hb) fun name id hb =>
        (binds_importDeclaration (shaped_of_registered ht) (his _ hty)).1 hb).mono
      fun _ _ _ _ hall _ => hall
  · next ty hlabel hfun hvar hclass himp hty =>
    obtain rfl := Option.some.inj hty
    have hexp : o.type.isA .exportDeclaration = false := by
      simpa [isA_some, hoa] using hexport
    rw [if_neg (by simp [hexp])]
    refine hwhole _ fun name id hb => ?_
    by_cases hdecl : o.type.isA .declaration = true
    · have hflow : o.type.isA .flowDeclaration = true := by
        rcases o.type.declaration_cases hdecl with h | h | h | h | h | h
        · exact absurd h hfun
        · exact absurd h hvar
        · exact absurd h hclass
        · exact absurd h himp
        · rw [hexp] at h
          cases h
        · exact h
      obtain ⟨m', hm', hb'⟩ := exists_introduced_flow hshaped hoa hflow hb
      exact hD _ m' name id hm' hb'
    · refine hO (fun h => hdecl ?_) (fun h => hlabel ?_) name id hb
      · obtain ⟨o', ho', h⟩ := isA_some.1 h
        rwa [Option.some.inj (hoa.symm.trans ho')]
      · obtain ⟨o', ho', h⟩ := is_some.1 h
        rwa [Option.some.inj (hoa.symm.trans ho')]

theorem not_introduces {m : NodeId} (hn : ¬ a.isA (some n) .declaration) :
    ¬ a.Introduces n kind m := by
  have hdecl : ∀ {ty : NodeType}, a.is (some n) ty → ty.isA .declaration = true → False := by
    intro ty h hty
    obtain ⟨o, ho, rfl⟩ := is_some.1 h
    exact hn (isA_some.2 ⟨o, ho, hty⟩)
  have hflow : ∀ ty : NodeType, ty.isA .flowDeclaration = true → ty.isA .declaration = true := by
    intro ty
    cases ty <;> decide
  intro h
  cases h with
  | function h => exact hdecl h rfl
  | declarator h => exact hdecl h rfl
  | className h => exact hdecl h rfl
  | specifier h => exact hdecl h rfl
  | flow h =>
    obtain ⟨o, ho, hty⟩ := isA_some.1 h
    exact hn (isA_some.2 ⟨o, ho, hflow _ hty⟩)

theorem not_exportDeclaration {id : Option NodeId} (hn : ¬ a.isA id .declaration) :
    ¬ a.isA id .exportDeclaration := by
  have hexp : ∀ ty : NodeType, ty.isA .exportDeclaration = true → ty.isA .declaration = true := by
    intro ty
    cases ty <;> decide
  intro h
  unfold isA at hn h
  cases hty : a.type? id with
  | none => simp [hty] at h
  | some ty =>
    rw [hty] at hn h
    exact hn (hexp ty h)

theorem not_labeledStatement (hn : a.isA (some n) .declaration) :
    ¬ a.is (some n) .labeledStatement := by
  obtain ⟨o, ho, hdecl⟩ := isA_some.1 hn
  intro h
  obtain ⟨o', ho', hty⟩ := is_some.1 h
  obtain rfl := Option.some.inj (ho.symm.trans ho')
  rw [hty] at hdecl
  cases hdecl

/-- An export that is not of a declaration registers whatever its operand binds. -/
theorem Registered.registerExport (ht : Registered a r γ t) (hs : s.index < t.scopes.size)
    (hn : t.node p = some n) (hexport : a.isA (some n) .exportDeclaration)
    (hX : ∀ m, a.child? (some n) "declaration" = some m → ¬ a.isA (some m) .declaration
      ∧ ∀ name id, a.Binds true m name id → a.Enters r (t.scope s).block .unknown name id)
    (fuel : Nat) :
    Goes (Registered a r γ) (a.Warrants r) (Tree.registerDeclarationLevels s (fuel + 1) p) t
      fun _ _ => True := by
  obtain ⟨above, hpl⟩ := ht.inScope.coherent.exists_place hn
  obtain ⟨o, ho⟩ := hpl.under.get? ht.inScope.coherent.arena.owned ht.inScope.coherent.present
  have hoa : a.get? n = some o := by rw [← ht.arena, ho]
  have hexp : o.type.isA .exportDeclaration = true := by
    obtain ⟨o', ho', h⟩ := isA_some.1 hexport
    rwa [Option.some.inj (hoa.symm.trans ho')]
  have htype : t.arena.type? (some n) = some o.type := by simp [type?, ho]
  have hnot : ∀ ty : NodeType, ty.isA .exportDeclaration = false → o.type ≠ ty := by
    rintro ty hty rfl
    rw [hexp] at hty
    cases hty
  unfold Tree.registerDeclarationLevels
  refine goes_get ?_
  simp only [hn, htype]
  split
  · exact goes_pure ht trivial
  · next h => exact absurd (Option.some.inj h) (hnot _ rfl)
  · next h => exact absurd (Option.some.inj h) (hnot _ rfl)
  · next h => exact absurd (Option.some.inj h) (hnot _ rfl)
  · next h => exact absurd (Option.some.inj h) (hnot _ rfl)
  · next h => exact absurd (Option.some.inj h) (hnot _ rfl)
  · next ty _ _ _ _ _ hty =>
    obtain rfl := Option.some.inj hty
    rw [if_pos hexp]
    split
    · next hc =>
      refine (ht.goes (ends_follow ht.inScope.coherent ho hn (by decide))).bind
        fun q t' ht' ha hq => ?_
      rw [ht.arena] at hc hq
      obtain ⟨m, hm⟩ := Option.isSome_iff_exists.1 hc
      have hqm : t'.node q = some m := hq.node.trans hm
      obtain ⟨hdecl, hD⟩ := hX m hm
      cases fuel with
      | zero => exact goes_pure ht' trivial
      | succ fuel =>
        refine (ht'.registerDeclarationLevels (hs.trans_le ha.size) hqm
          (not_exportDeclaration hdecl) (fun kind m' name id h => absurd h (not_introduces hdecl))
          (fun _ _ name id hb => ?_) fuel).mono fun _ _ _ _ _ => trivial
        rw [ha.block hs]
        exact hD name id hb
    · exact goes_pure ht trivial

/-! ## heads -/

theorem Registered.stands (ht : Registered a r γ t) (hs : s.index < t.scopes.size) :
    ∃ above o, t.Place r (t.scope s).path (t.scope s).block above
      ∧ a.Under r (t.scope s).block above ∧ t.arena.get? (t.scope s).block = some o
      ∧ a.get? (t.scope s).block = some o ∧ o.Shaped := by
  obtain ⟨above, hp, _⟩ := ht.inScope.stands s hs
  obtain ⟨o, ho⟩ := hp.under.get? ht.inScope.coherent.arena.owned ht.inScope.coherent.present
  refine ⟨above, o, hp, ?_, ho, ?_, ht.inScope.coherent.arena.shaped _ o ho⟩
  · rw [← ht.arena]
    exact hp.under
  · rw [← ht.arena, ho]

theorem isLet_variableDeclaration {id : Option NodeId} (h : a.isLet id) :
    a.is id .variableDeclaration := by
  unfold isLet at h
  exact (Bool.and_eq_true_iff.1 h).1

theorem mem_children_of_child? {key : String} (h : a.child? (some n) key = some m) :
    m ∈ a.children (some n) := by
  have hread : (ofArena a none).readSlot (some n) (.field key) = some m := h
  exact mem_children_of_readSlot (t := ofArena a none) (by simp) hread

theorem is_of_get {ty : NodeType} {o : Node} (ho : a.get? n = some o) :
    a.is (some n) ty = (o.type == ty) := by
  simp [Arena.is, type?, ho]

theorem Registered.registerLoopHead (ht : Registered a r γ t) (hs : s.index < t.scopes.size)
    (hloop : a.isA (some (t.scope s).block) .loop) {key : String}
    (hkey : key = "init" ∨ key = "left") :
    Goes (Registered a r γ) (a.Warrants r) (registerLoopHead s key) t fun _ t' =>
      ∀ d, a.child? (some (t.scope s).block) key = some d → a.isLet (some d) → t'.ListsAll s d := by
  unfold Tree.registerLoopHead
  refine goes_get ?_
  dsimp only
  rw [ht.arena]
  split
  · next hlet =>
    obtain ⟨above, o, hp, hu, ho, hoa, _⟩ := ht.stands hs
    obtain ⟨head, hhead⟩ : ∃ head, a.child? (some (t.scope s).block) key = some head := by
      cases hc : a.child? (some (t.scope s).block) key with
      | some head => exact ⟨head, rfl⟩
      | none =>
        rw [hc] at hlet
        cases isLet_variableDeclaration hlet
    rw [hhead] at hlet ⊢
    refine (ht.keyword (some head)).bind fun k t₁ ht₁ ha₁ hk => ?_
    subst hk
    have hnode₁ := (hp.grows ha₁.grows).node
    have ho₁ : t₁.arena.get? (t.scope s).block = some o := by rw [ha₁.grows.arena, ho]
    refine (ht₁.goes (ends_follow ht₁.inScope.coherent ho₁ hnode₁ (by
      rcases hkey with rfl | rfl <;> decide))).bind fun q t₂ ht₂ ha₂ hq => ?_
    have hadv := ha₁.trans ha₂
    have hqnode : t₂.node q = some head := by
      rw [hq.node, ht₁.arena, hhead]
    refine (ht₂.registerBinding (hs.trans_le hadv.size) fun m name id hm hb => ?_).mono ?_
    · obtain rfl := Option.some.inj (hqnode.symm.trans hm)
      obtain ⟨d, hd, hbd⟩ := (binds_variableDeclaration (shaped_of_registered ht)
        (isLet_variableDeclaration hlet)).1 hb
      rw [hadv.block hs]
      refine .inl ⟨head, _, d, .child hu (mem_children_of_child? hhead), ?_, hbd⟩
      refine .loopHead rfl hloop ?_ hlet hd
      rcases hkey with rfl | rfl
      · exact .inl hhead
      · exact .inr hhead
    · rintro _ t₃ _ _ hlists d hd _
      obtain rfl := Option.some.inj hd
      exact hlists head hqnode
  · next hlet =>
    refine goes_pure ht fun d hd hletd => absurd ?_ hlet
    rwa [hd]

theorem Registered.registerLoopHeads (ht : Registered a r γ t) (hs : s.index < t.scopes.size)
    (hloop : a.isA (some (t.scope s).block) .loop) :
    Goes (Registered a r γ) (a.Warrants r) (do
        Tree.registerLoopHead s "init"
        Tree.registerLoopHead s "left") t fun _ t' =>
      ∀ d, a.child? (some (t.scope s).block) "init" = some d
        ∨ a.child? (some (t.scope s).block) "left" = some d →
        a.isLet (some d) → t'.ListsAll s d := by
  refine (ht.registerLoopHead hs hloop (.inl rfl)).bind fun _ t₁ ht₁ ha₁ hinit => ?_
  have hblock := ha₁.block hs
  refine (ht₁.registerLoopHead (hs.trans_le ha₁.size) (by rwa [hblock]) (.inr rfl)).mono ?_
  rw [hblock]
  rintro _ t₂ _ ha₂ hleft d (hd | hd) hlet
  · exact (hinit d hd hlet).adds ha₂.toAdds
  · exact hleft d hd hlet

theorem Registered.registerCatchParam (ht : Registered a r γ t) (hs : s.index < t.scopes.size)
    (hcatch : a.is (some (t.scope s).block) .catchClause) :
    Goes (Registered a r γ) (a.Warrants r) (Tree.registerBinding s .catchParam (t.scope s).path) t
      fun _ t' => ∀ m, a.child? (some (t.scope s).block) "param" = some m → t'.ListsAll s m := by
  obtain ⟨above, o, hp, hu, ho, hoa, hshaped⟩ := ht.stands hs
  have hty : o.type = .catchClause := by
    obtain ⟨o', ho', h⟩ := is_some.1 hcatch
    rwa [Option.some.inj (hoa.symm.trans ho')]
  have hslot : o.type.BindsSlot "param" := by
    rw [hty]
    decide
  refine (ht.registerBinding hs fun m name id hm hb => ?_).mono fun _ t' ht' ha hlists m hm => ?_
  · obtain rfl := Option.some.inj (hp.node.symm.trans hm)
    obtain ⟨m', hm', hb'⟩ := hb.child "param" hoa (by simp [hty])
      (bindingTargets_of_slot hshaped hslot)
    exact .inl ⟨_, above, m', hu, .catchParam hcatch hm', hb'⟩
  · intro name id hb
    rw [ht'.arena] at hb
    refine hlists _ hp.node name id ?_
    rw [ht'.arena]
    exact hb.of_child hoa hshaped hslot (by simp [hty, NodeType.bindingKeys]) hm

theorem Registered.registerParams (ht : Registered a r γ t) (hs : s.index < t.scopes.size)
    (hfun : a.isA (some (t.scope s).block) .function) :
    Goes (Registered a r γ) (a.Warrants r)
      (do (← entries (t.scope s).path "params").forM (Tree.registerBinding s .param)) t
      fun _ t' => ∀ m, some m ∈ a.items (some (t.scope s).block) "params" → t'.ListsAll s m := by
  obtain ⟨above, o, hp, hu, ho, hoa, hshaped⟩ := ht.stands hs
  refine ht.entries_forM hp.node (by decide) fun q t' ht' ha hq => ?_
  refine ht'.registerBinding (hs.trans_le ha.size) fun m name id hm hb => ?_
  rw [ha.block hs]
  exact .inl ⟨_, above, m, hu, .param hfun (hq m hm), hb⟩

theorem Registered.registerSelfName (ht : Registered a r γ t) (hs : s.index < t.scopes.size)
    (hself : a.is (some (t.scope s).block) .functionExpression
      ∨ a.is (some (t.scope s).block) .classExpression) :
    Goes (Registered a r γ) (a.Warrants r) (Tree.declareNames s .selfName (t.scope s).path
      (a.child? (some (t.scope s).block) "id")) t
      fun _ t' => ∀ m, a.child? (some (t.scope s).block) "id" = some m → t'.ListsAll s m := by
  obtain ⟨above, o, hp, hu, ho, hoa, hshaped⟩ := ht.stands hs
  refine ht.declareNames hs (fun m name id hm hb => ?_) fun m _ _ hm hb =>
    ⟨_, hp.node, .inr ⟨m, hm, hb⟩⟩
  exact .inl ⟨_, above, m, hu, .selfName hself hm, hb⟩

/-- **Whatever the node of a scope declares in its own scope comes into that scope.** -/
theorem Registered.registerHeads (ht : Registered a r γ t) (hs : s.index < t.scopes.size) :
    Goes (Registered a r γ) (a.Warrants r) (registerHeads s) t
      fun _ t' => ∀ m, a.Heads (t.scope s).block m → t'.ListsAll s m := by
  obtain ⟨above, o, hp, hu, ho, hoa, hshaped⟩ := ht.stands hs
  have htype : t.arena.type? (some (t.scope s).block) = some o.type := by simp [type?, ho]
  have hisA : ∀ group, a.isA (some (t.scope s).block) group = o.type.isA group := fun group => by
    simp [isA, type?, hoa]
  have his : ∀ ty, a.is (some (t.scope s).block) ty = (o.type == ty) := fun ty => is_of_get hoa
  have hstatic : ∀ {t' : Tree}, t.Advances t' →
      (t'.scope s).block = (t.scope s).block ∧ (t'.scope s).path = (t.scope s).path := fun ha =>
    ⟨ha.block hs, congrArg (·.2.1) (ha.static s hs)⟩
  unfold Tree.registerHeads
  refine goes_get ?_
  dsimp only
  rw [htype, ht.arena]
  dsimp only
  simp only [← bind_assoc]
  refine Goes.guard (S := fun t' => ∀ d, a.child? (some (t.scope s).block) "init" = some d
    ∨ a.child? (some (t.scope s).block) "left" = some d → a.isLet (some d) → t'.ListsAll s d)
    ht (fun h => ht.registerLoopHeads hs ((hisA _).trans h)) fun t₁ ht₁ ha₁ hloop => ?_
  -- what comes after the own name
  have hlast : ∀ t₂, Registered a r γ t₂ → t₁.Advances t₂ →
      ((o.type == .functionExpression || o.type == .classExpression) = true →
        ∀ m, a.child? (some (t.scope s).block) "id" = some m → t₂.ListsAll s m) →
      Goes (Registered a r γ) (a.Warrants r)
        (if o.type.isA .function = true then
          (do (← entries (t.scope s).path "params").forM (Tree.registerBinding s .param)) >>=
            fun _ => if (o.type == .catchClause) = true then
              Tree.registerBinding s .catchParam (t.scope s).path else pure ⟨⟩
        else if (o.type == .catchClause) = true then
          Tree.registerBinding s .catchParam (t.scope s).path else pure ⟨⟩) t₂
        fun _ t' => ∀ m, a.Heads (t.scope s).block m → t'.ListsAll s m := by
    intro t₂ ht₂ ha₂ hself
    obtain ⟨hblock₂, hpath₂⟩ := hstatic (ha₁.trans ha₂)
    have hlt₂ := hs.trans_le (ha₁.trans ha₂).size
    refine Goes.guard (S := fun t' => ∀ m, some m ∈ a.items (some (t.scope s).block) "params" →
      t'.ListsAll s m) ht₂ (fun h => ?_) fun t₃ ht₃ ha₃ hparams => ?_
    · have hgoes := ht₂.registerParams hlt₂ (by rw [hblock₂, hisA, h])
      rwa [hblock₂, hpath₂] at hgoes
    · obtain ⟨hblock₃, hpath₃⟩ := hstatic ((ha₁.trans ha₂).trans ha₃)
      have hcatch : Goes (Registered a r γ) (a.Warrants r) (if (o.type == .catchClause) = true then
          Tree.registerBinding s .catchParam (t.scope s).path else pure ⟨⟩) t₃ fun _ t' =>
          (o.type == .catchClause) = true → ∀ m,
            a.child? (some (t.scope s).block) "param" = some m → t'.ListsAll s m := by
        split
        · next h =>
          have hgoes := ht₃.registerCatchParam (hlt₂.trans_le ha₃.size) (by rw [hblock₃, his, h])
          rw [hblock₃, hpath₃] at hgoes
          exact hgoes.mono fun _ _ _ _ hlists _ => hlists
        · next h => exact goes_pure ht₃ fun hc => absurd hc h
      refine hcatch.mono fun _ t₄ ht₄ ha₄ hcatch m hm => ?_
      cases hm with
      | loopHead hn hd hlet hm =>
        have hlists := hloop ((hisA _).symm.trans hn) _ hd hlet
        have h₄ := hlists.adds ((ha₂.trans ha₃).trans ha₄).toAdds
        intro name id hb
        refine h₄ name id ?_
        rw [ht₄.arena] at hb ⊢
        exact (binds_variableDeclaration (shaped_of_registered ht)
          (isLet_variableDeclaration hlet)).2 ⟨m, hm, hb⟩
      | selfName hn hm =>
        rw [his, his, ← Bool.or_eq_true_iff] at hn
        exact (hself hn m hm).adds (ha₃.trans ha₄).toAdds
      | param hn hm => exact (hparams ((hisA _).symm.trans hn) m hm).adds ha₄.toAdds
      | catchParam hn hm => exact hcatch ((his _).symm.trans hn) m hm
  split
  · next hself =>
    refine Goes.guard (S := fun t' => ∀ m, a.child? (some (t.scope s).block) "id" = some m →
      t'.ListsAll s m) ht₁ (fun _ => ?_) fun t₂ ht₂ ha₂ hname => ?_
    · obtain ⟨hblock₁, hpath₁⟩ := hstatic ha₁
      have hgoes := ht₁.registerSelfName (hs.trans_le ha₁.size) (by
        rwa [hblock₁, his, his, ← Bool.or_eq_true_iff])
      rwa [hblock₁, hpath₁] at hgoes
    · refine hlast t₂ ht₂ ha₂ fun _ m hm => hname ?_ m hm
      rw [hm]
      rfl
  · next hself => exact hlast t₁ ht₁ (.refl t₁) fun h => absurd h hself

/-! ## new scopes -/

theorem Scoped.index_le_of_mem_chain (ht : t.Scoped r) : ∀ (fuel : Nat) (s : ScopeId),
    s.index < t.scopes.size → ∀ c ∈ t.scopeChainFrom fuel s, c.index ≤ s.index
  | 0, s, _, c, hc => by
    obtain rfl : c = s := by simpa [scopeChainFrom] using hc
    exact Nat.le_refl _
  | fuel + 1, s, hs, c, hc => by
    rw [scopeChainFrom] at hc
    cases hp : (t.scope s).parent with
    | none =>
      rw [hp] at hc
      obtain rfl := List.mem_singleton.1 hc
      exact Nat.le_refl _
    | some s' =>
      rw [hp] at hc
      have hlt := ht.parent s s' hs hp
      rcases List.mem_cons.1 hc with rfl | hc
      · exact Nat.le_refl _
      · exact (ht.index_le_of_mem_chain fuel s' (hlt.trans hs) c hc).trans (Nat.le_of_lt hlt)

theorem parent_of_mem_chain : ∀ (fuel : Nat) (c : ScopeId), s ∈ t.scopeChainFrom fuel c →
    s = c ∨ ∃ d, (t.scope d).parent = some s
  | 0, _, hs => .inl (List.mem_singleton.1 hs)
  | fuel + 1, c, hs => by
    rw [scopeChainFrom] at hs
    cases hp : (t.scope c).parent with
    | none =>
      rw [hp] at hs
      exact .inl (List.mem_singleton.1 hs)
    | some c' =>
      rw [hp] at hs
      rcases List.mem_cons.1 hs with hs | hs
      · exact .inl hs
      · rcases parent_of_mem_chain fuel c' hs with rfl | h
        · exact .inr ⟨c, hp⟩
        · exact .inr h

theorem descendantScopes_eq_nil (h : ∀ c, (t.scope c).parent ≠ some s) :
    t.descendantScopes s = [] := by
  refine List.filter_eq_nil_iff.2 fun c _ hin => ?_
  simp only [Bool.and_eq_true] at hin
  cases hp : (t.scope c).parent with
  | none => simp [hp] at hin
  | some c' =>
    have hmem : s ∈ t.scopeChain c' := by simpa [hp] using hin.2
    rcases parent_of_mem_chain _ c' hmem with rfl | ⟨d, hd⟩
    · exact h c hp
    · exact h d hd

theorem Scoped.parent_ne_last (ht : t.Scoped r) (hs : s.index + 1 = t.scopes.size) (c : ScopeId) :
    (t.scope c).parent ≠ some s := by
  intro hc
  by_cases hlt : c.index < t.scopes.size
  · have hi := ht.parent c s hlt hc
    omega
  · rw [scope_of_size_le (Nat.le_of_not_lt hlt)] at hc
    cases hc

def emptied (d : ScopeData) : ScopeData :=
  let d := { d with bindings := [], labels := [], data := [] }
  if d.parent.isNone then { d with globals := [], uids := [], references := [] } else d

theorem static_emptied (d : ScopeData) : (emptied d).static = d.static := by
  unfold emptied
  dsimp only
  split <;> rfl

theorem names_emptied {d : ScopeData} (h : d.names = ([], [])) : (emptied d).names = ([], []) := by
  unfold emptied
  dsimp only
  split
  · rfl
  · exact congrArg (([] : Table BindingId), ·) (congrArg (·.2) h)

theorem resetScope_eq (h : (t.scope s).bindings = []) :
    resetScope s t = .ok ⟨⟩ (t.updateScope s emptied) := by
  show EStateM.Result.ok _ _ = _
  dsimp only
  rw [h]
  rfl

theorem Registered.resetScope (ht : Registered a r γ t) (hnames : (t.scope s).names = ([], []))
    (hrefs : (t.scope s).references = []) :
    Goes (Registered a r γ) (a.Warrants r) (resetScope s) t fun _ _ => True := by
  have hall : ∀ c, ((t.updateScope s emptied).scope c).names = (t.scope c).names := by
    intro c
    rw [scope_updateScope]
    split
    · next hc => rw [hc.1, names_emptied hnames, hnames]
    · rfl
  have hsame : t.SameScopes (t.updateScope s emptied) := by
    refine t.sameScopes_updateScope s emptied static_emptied (fun name h => ?_) ?_
    · rw [Lists, show (t.scope s).bindings = [] from congrArg (·.1) hnames] at h
      cases h
    · rw [hrefs]
      exact List.nil_subset _
  unfold Goes
  rw [resetScope_eq (congrArg (·.1) hnames)]
  exact ⟨ht.same hsame.toKeepsScopes (coherent_of_names ht.inScope.coherent _ _) hall rfl,
    hsame.advances, trivial⟩

theorem Goes.forM_singleton {α : Type} {P Q : Tree → Prop} {E : TreeError → Prop}
    {f : α → TreeM PUnit} {x : α} (h : Goes P E (f x) t fun _ => Q) :
    Goes P E ([x].forM f) t fun _ => Q :=
  h.bind fun _ _ hP _ hQ => goes_pure hP hQ

theorem Registered.restartScope (ht : Registered a r (γ.except s) t)
    (hs : s.index + 1 = t.scopes.size) (hnames : (t.scope s).names = ([], []))
    (hrefs : (t.scope s).references = []) :
    Goes (Registered a r γ) (a.Warrants r) (restartScope s) t fun _ _ => True := by
  have hlt : s.index < t.scopes.size := by omega
  have hrun : Goes (Registered a r (γ.except s)) (a.Warrants r) (Tree.restartScope s) t
      fun _ t' => ∀ m, a.Heads (t'.scope s).block m → t'.ListsAll s m := by
    unfold Tree.restartScope
    refine goes_get ?_
    rw [descendantScopes_eq_nil (ht.inScope.parent_ne_last hs)]
    refine (Goes.forM_singleton (ht.resetScope hnames hrefs)).bind fun _ t' ht' ha _ => ?_
    have hheads := Goes.forM_singleton (ht'.registerHeads (hlt.trans_le ha.size))
    refine hheads.mono fun _ t'' _ ha' hlists => ?_
    rwa [ha'.block (hlt.trans_le ha.size)]
  exact Ends.mono hrun fun _ _ h => ⟨h.1.closed h.2.2, h.2.1, trivial⟩

theorem keepsNames_withScope (ht : t.Scoped r) (hp : t.Place r p n above)
    (hscope : t.arena.isScope (some n) above.head?) (hnew : t.scopeOfNode.get? n.index = none)
    (o : Option ScopeId) : t.KeepsNames (t.withScope p n o) := by
  have ha : t.Advances (t.withScope p n o) := advances_withScope ht hp hscope hnew
  refine ⟨ha.grows, ha.size, ha.static, fun s hs => ?_, fun s hs => ?_, rfl, ha.occurs⟩
  · rw [scope_withScope_of_lt hs]
  · rw [scope_withScope]
    split
    · rfl
    · rw [scope_of_size_le hs]
      rfl

theorem Registered.withScope (ht : Registered a r γ t) (hp : t.Place r p n above)
    (hscope : t.arena.isScope (some n) above.head?) (hnew : t.scopeOfNode.get? n.index = none)
    {o : Option ScopeId} (hs : (t.withScope p n o).Scoped r) :
    Registered a r (γ.except ⟨t.scopes.size⟩) (t.withScope p n o) := by
  refine ht.keepsNames (keepsNames_withScope ht.inScope hp hscope hnew o) hs rfl rfl
    fun c hc hγ => ?_
  rw [size_withScope] at hc
  have hne : c ≠ ⟨t.scopes.size⟩ := fun heq => hγ (.inr heq)
  have hidx : c.index ≠ t.scopes.size := fun heq => hne (by cases c; simp_all)
  exact ⟨by omega, fun h => hγ (.inl h)⟩

theorem keepsNames_updatePath (t : Tree) (p : PathId) (o : Option ScopeId) :
    t.KeepsNames (t.updatePath p ({ · with scope := o })) := by
  refine ⟨(t.samePlaces_updatePath p ({ · with scope := o }) fun _ => rfl).grows, Nat.le_refl _,
    fun _ _ => rfl, fun _ _ => rfl, fun s hs => ?_, rfl, fun _ h => h⟩
  show (t.scope s).names = _
  rw [scope_of_size_le hs]
  rfl

/-- **While a crawl collects, a path is assigned the scope of its line.** -/
theorem Registered.assigns (a : Arena) (r : NodeId) :
    Assigns (Registered a r γ) (a.Warrants r) r Tree.restartScope fun _ _ => True where
  inScope _ ht := ht.inScope
  move t p o ht hs :=
    ht.keepsNames (t.keepsNames_updatePath p o) hs rfl rfl fun _ hlt hγ => ⟨hlt, hγ⟩
  crawl t p n above o ht hp hscope _ hlen hnew ho := by
    have hs := ht.inScope.withScope hp hscope hlen hnew ho
    refine (ht.withScope hp hscope hnew hs).restartScope ?_ ?_ ?_
    · rw [size_withScope]
    · rw [scope_withScope_new]
      rfl
    · rw [scope_withScope_new]

theorem covered_of_all {line : List NodeId} : t.Covered (fun _ _ => True) line :=
  fun _ _ _ _ _ _ => trivial

theorem Registered.quietScopeOf (ht : Registered a r γ t) (hp : t.OnLine r p line)
    (hlen : line.length ≤ Limits.traversal + 3) :
    Goes (Registered a r γ) (a.Warrants r) (quietScopeOf p) t fun o t' => t'.Holds line o := by
  unfold Tree.quietScopeOf
  exact ((Registered.assigns a r).scopeOf ht hp hlen covered_of_all).mono fun _ _ _ _ h => h.1

end ScopedTree.Tree
