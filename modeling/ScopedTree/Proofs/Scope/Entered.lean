import ScopedTree.Proofs.Scope.Collector

/-!
# The pass of a crawl

The pass of a crawl is the recursive walk that notes what it enters. If it ends without an error it
has entered every node worth a visit.

* `Arena.Descends`             a line that goes on below another;
* `collectorWalk_enters`       the walk from a node enters what is below;
* `collectorWalk_entersAll`    the walk from the root enters all;
* `collector_sound`            the pass does what the walk does.
-/

namespace ScopedTree

open ScopedTree.Tree Arena

namespace Arena

/-- The line goes on below `top`, from node to child. -/
inductive Descends (a : Arena) (top : List NodeId) : List NodeId → Prop
  | refl : Descends a top top
  | child {p c : NodeId} {above : List NodeId} (h : Descends a top (p :: above))
      (hc : c ∈ a.children (some p)) : Descends a top (c :: p :: above)

variable {a : Arena} {r n m c : NodeId} {above up line : List NodeId}

theorem Under.descends (h : a.Under r n above) : a.Descends [r] (n :: above) := by
  induction h with
  | root => exact .refl
  | child _ hc ih => exact ih.child hc

theorem Descends.first (h : a.Descends (n :: above) line) :
    line = n :: above ∨ ∃ c ∈ a.children (some n), a.Descends (c :: n :: above) line := by
  induction h with
  | refl => exact .inl rfl
  | @child p c up _ hc ih =>
    rcases ih with heq | ⟨c', hc', h'⟩
    · obtain ⟨rfl, rfl⟩ := List.cons.inj heq
      exact .inr ⟨c, hc, .refl⟩
    · exact .inr ⟨c', hc', h'.child hc⟩

end Arena

variable {a : Arena} {r n m c : NodeId} {above up : List NodeId}

theorem ends_each {α : Type} {visit : NodeId → EStateM TreeError (List α) Bool}
    {Φ : NodeId → List α → Prop} (hmono : ∀ c x x', x ⊆ x' → Φ c x → Φ c x') {cs : List NodeId}
    (h : ∀ c ∈ cs, ∀ x, Ends (visit c x) (fun b x' => b = false ∧ x ⊆ x' ∧ Φ c x')
      fun e _ => e = .depthLimit)
    (x : List α) : Ends (each visit cs x)
      (fun b x' => b = false ∧ x ⊆ x' ∧ ∀ c ∈ cs, Φ c x') fun e _ => e = .depthLimit := by
  induction cs generalizing x with
  | nil => exact ⟨rfl, List.Subset.refl x, fun _ h => nomatch h⟩
  | cons c cs ih =>
    refine ends_bind.2 ((h c (List.mem_cons_self ..) x).mono ?_)
    rintro _ x₁ ⟨rfl, hsub, hc⟩
    refine (ih (fun c' hc' => h c' (List.mem_cons_of_mem _ hc')) x₁).mono ?_
    rintro b x₂ ⟨rfl, hsub', hall⟩
    refine ⟨rfl, List.Subset.trans hsub hsub', fun c' hc' => ?_⟩
    rcases List.mem_cons.1 hc' with rfl | hc'
    · exact hmono _ _ _ hsub' hc
    · exact hall c' hc'

theorem Node.Shaped.keptChildren_nil {o : Node} (ho : o.Shaped) :
    o.keptChildren [] = o.children := by
  rw [ho.children_eq]
  unfold Node.keptChildren
  have hall : o.type.childFields.filter (fun f => !([] : List String).contains f.name)
      = o.type.childFields := List.filter_eq_self.2 fun _ _ => rfl
  rw [hall]

theorem shouldVisit_of_child (h : m ∈ a.children (some n)) :
    collectorDispatch.shouldVisit a n = true := by
  unfold Dispatch.shouldVisit
  rw [children_some] at h
  cases hn : a.get? n with
  | none =>
    rw [hn] at h
    cases h
  | some o =>
    rw [hn] at h
    have hne : o.children ≠ [] := List.ne_nil_of_mem h
    simp [hne]

/-- What a walk from the last node of a line is to enter; nothing below is deeper than so many
levels. -/
def Entered (a : Arena) (line : List NodeId) (levels : Nat) (x : List (List NodeId)) : Prop :=
  ∀ m up, a.Descends line (m :: up) → up.length < line.length + levels
    ∧ (collectorDispatch.shouldVisit a m = true ∨ m :: up = line → (m :: up) ∈ x)

theorem Entered.mono {line : List NodeId} {levels : Nat} {x x' : List (List NodeId)}
    (h : Entered a line levels x) (hsub : x ⊆ x') : Entered a line levels x' :=
  fun m up hd => ⟨(h m up hd).1, fun hm => hsub ((h m up hd).2 hm)⟩

theorem collectorWalk_children (ha : a.WellOwned) (above : List NodeId) {o : Node}
    (ho : a.get? n = some o) {visit : NodeId → EStateM TreeError (List (List NodeId)) Bool}
    {levels : Nat} (hvisit : ∀ c x, (∃ o, a.get? c = some o) → Ends (visit c x)
      (fun b x' => b = false ∧ x ⊆ x' ∧ Entered a (c :: n :: above) levels x')
      fun e _ => e = .depthLimit)
    (x : List (List NodeId)) :
    Ends (each visit ((o.keptChildren []).filter (collectorWalk a).takes) x)
      (fun b x' => b = false ∧ x ⊆ x' ∧ ∀ m up, a.Descends (n :: above) (m :: up) →
        m :: up ≠ n :: above → up.length < above.length + levels + 2
          ∧ (collectorDispatch.shouldVisit a m = true → (m :: up) ∈ x'))
      fun e _ => e = .depthLimit := by
  have hchildren : o.keptChildren [] = a.children (some n) := by
    rw [(ha.shaped n o ho).keptChildren_nil, children_some, ho]
    rfl
  rw [hchildren]
  refine (ends_each (Φ := fun c x' => Entered a (c :: n :: above) levels x')
    (fun _ _ _ hsub h => h.mono hsub) (fun c hc x => ?_) x).mono ?_
  · have hcn := ha.owned.owner_of_child n c (List.mem_filter.1 hc).1
    obtain ⟨o', ho', _⟩ := hcn.get?
    exact hvisit c x ⟨o', ho'⟩
  · rintro _ x' ⟨rfl, hsub, hall⟩
    refine ⟨rfl, hsub, fun m up hd hne => ?_⟩
    rcases hd.first with heq | ⟨c, hc, hd'⟩
    · exact absurd heq hne
    · cases hvisited : collectorDispatch.shouldVisit a c with
      | true =>
        obtain ⟨hlen, hin⟩ := hall c (List.mem_filter.2 ⟨hc, hvisited⟩) m up hd'
        exact ⟨by simp only [List.length_cons] at hlen ⊢; omega, fun hm => hin (.inl hm)⟩
      | false =>
        -- a child that is left out has nothing below it
        rcases hd'.first with heq | ⟨c', hc', _⟩
        · obtain ⟨rfl, rfl⟩ := List.cons.inj heq
          refine ⟨by simp only [List.length_cons]; omega, fun hm => ?_⟩
          rw [hvisited] at hm
          cases hm
        · rw [shouldVisit_of_child hc'] at hvisited
          cases hvisited

/-- **The walk from a node enters what is below, unless it gets too deep.** -/
theorem collectorWalk_enters (ha : a.WellOwned) : ∀ (levels : Nat) (above : List NodeId)
    (n : NodeId) (x : List (List NodeId)), (∃ o, a.get? n = some o) →
    Ends ((collectorWalk a).walk a levels above n x)
      (fun b x' => b = false ∧ x ⊆ x' ∧ Entered a (n :: above) levels x')
      fun e _ => e = .depthLimit := by
  have hvisit : ∀ {children : List NodeId → EStateM TreeError (List (List NodeId)) Bool}
      {levels : Nat} {above : List NodeId} {n : NodeId} {o : Node} (x : List (List NodeId)),
      a.get? n = some o →
      (∀ x, Ends (children ((o.keptChildren []).filter (collectorWalk a).takes) x)
        (fun b x' => b = false ∧ x ⊆ x' ∧ ∀ m up, a.Descends (n :: above) (m :: up) →
          m :: up ≠ n :: above → up.length < above.length + levels + 1
            ∧ (collectorDispatch.shouldVisit a m = true → (m :: up) ∈ x'))
        fun e _ => e = .depthLimit) →
      Ends ((collectorWalk a).visit a children above n x)
        (fun b x' => b = false ∧ x ⊆ x' ∧ Entered a (n :: above) levels x')
        fun e _ => e = .depthLimit := by
    intro children levels above n o x ho hchildren
    have hdenied : (collectorWalk a).denied o.type = false := rfl
    unfold Walker.visit
    simp only [ho, hdenied, Bool.false_eq_true, if_false]
    have hcall : ∀ f : Verdict → EStateM TreeError (List (List NodeId)) Bool,
        ((collectorWalk a).call .enter above n >>= f) x = f (.go []) ((n :: above) :: x) :=
      fun _ => rfl
    rw [hcall]
    refine ends_bind.2 ((hchildren _).mono ?_)
    rintro _ x' ⟨rfl, hsub, hall⟩
    refine ⟨rfl, List.Subset.trans (List.subset_cons_self ..) hsub, fun m up hd => ?_⟩
    by_cases heq : m :: up = n :: above
    · obtain ⟨rfl, rfl⟩ := List.cons.inj heq
      exact ⟨by simp; omega, fun _ => hsub (List.mem_cons_self ..)⟩
    · obtain ⟨hlen, hin⟩ := hall m up hd heq
      exact ⟨by rw [List.length_cons]; omega, fun hm => hin (hm.resolve_right heq)⟩
  intro levels
  induction levels with
  | zero =>
    rintro above n x ⟨o, ho⟩
    exact hvisit x ho fun _ => rfl
  | succ levels ih =>
    rintro above n x ⟨o, ho⟩
    exact hvisit x ho fun x => collectorWalk_children ha above ho
      (fun c x hc => ih (n :: above) c x hc) x

/-- **The walk of all that is below the root enters every node worth a visit**, and fails on a tree
that is deeper than its levels. -/
theorem collectorWalk_entersAll (ha : a.WellOwned) {o : Node} (ho : a.get? r = some o)
    (levels : Nat) (x : List (List NodeId)) :
    Ends ((collectorWalk a).below a levels [r] ((o.keptChildren []).filter (collectorWalk a).takes)
      x) (fun b x' => b = false ∧ (∀ n above, a.Under r n above → n ≠ r →
        collectorDispatch.shouldVisit a n = true → (n :: above) ∈ x')
        ∧ ∀ n above, a.Under r n above → above.length ≤ levels) fun e _ => e = .depthLimit := by
  cases levels with
  | zero => exact rfl
  | succ levels =>
    refine (collectorWalk_children ha [] ho
      (fun c x hc => collectorWalk_enters ha levels [r] c x hc) x).mono ?_
    rintro _ x' ⟨rfl, _, hall⟩
    refine ⟨rfl, fun n above hu hne hn => ?_, fun n above hu => ?_⟩
    · exact (hall n above hu.descends fun heq => hne (List.cons.inj heq).1).2 hn
    · by_cases heq : n :: above = [r]
      · simp [(List.cons.inj heq).2]
      · have hlen := (hall n above hu.descends heq).1
        simp only [List.length_nil] at hlen
        omega

theorem Walker.Leaves.enters {x : List (List NodeId)} (h : (collectorWalk a).Leaves a above n x)
    (ha : a.WellOwned) (hm : m ∈ a.children (some n))
    (hvisit : collectorDispatch.shouldVisit a m = true) : (m :: n :: above) ∈ x := by
  obtain ⟨o, levels, skipped, x₀, x₁, ho, hcall, hbelow⟩ := h
  cases hcall
  cases levels with
  | zero => cases hbelow
  | succ levels =>
    have hall := (collectorWalk_children ha above ho
      (fun c x hc => collectorWalk_enters ha levels (n :: above) c x hc) _).of_ok hbelow
    refine (hall.2.2 m (n :: above) (.child .refl hm) fun heq => ?_).2 hvisit
    exact absurd (congrArg List.length heq) (by simp)

theorem Arena.Homes.shouldVisit {h : NodeId} (hh : a.Homes n above h) :
    collectorDispatch.shouldVisit a n = true := by
  have hdecl : a.isA (some n) .declaration := by
    cases hh with
    | hoisted hn => exact hn.1
    | lexical hn =>
      obtain ⟨o, ho, hty⟩ : ∃ o, a.get? n = some o
          ∧ (o.type = .classDeclaration ∨ o.type = .variableDeclaration) := by
        rcases hn with hn | hn
        · obtain ⟨o, ho, hty⟩ := is_some.1 hn
          exact ⟨o, ho, .inl hty⟩
        · obtain ⟨o, ho, hty⟩ := is_some.1 (isLet_variableDeclaration hn)
          exact ⟨o, ho, .inr hty⟩
      rcases hty with hty | hty <;> simp [isA, type?, ho, hty] <;> decide
  obtain ⟨o, ho, hty⟩ := isA_some.1 hdecl
  have hhandles : collectorDispatch.handles o.type = true :=
    List.any_eq_true.2 ⟨_, .tail _ (.head _), hty⟩
  simp [Dispatch.shouldVisit, ho, hhandles]

/-! ## the pass -/

/-- How the walk and the pass of a crawl that began with the tree `t₀` belong together. -/
def collectorBridge (a : Arena) (r : NodeId) (γ : Gaps) (t₀ : Tree) :
    Bridge Collected (List (List NodeId)) where
  Inv x s := Registered a r γ s.tree ∧ Gathered a r x s.tree s.own ∧ t₀.Adds s.tree
  Fail _ _ := True
  Abort := a.Warrants r
  Bad _ := False
  Arrived n t := ∃ p above, t.Place r p n above ∧ t.Holds (n :: above) (t.path p).scope

section Sound

variable {a : Arena} {r n : NodeId} {γ : Gaps} {t₀ : Tree} {p : PathId} {above : List NodeId}
  {s : Pass Collected} {phase : Phase} {x : List (List NodeId)}

theorem collectorEngine_call {ty : NodeType} (hn : s.tree.node p = some n)
    (hty : s.tree.arena.type? (some n) = some ty) : collectorEngine.call p phase s
      = Engine.runHandlers p (some n) (Engine.turns p ty phase collectorDispatch.typed) s := by
  unfold Engine.call
  rw [run_ask_bind]
  simp only [id_eq, hn, hty]
  rfl

theorem collector_call {levels : Nat}
    (h : (collectorBridge a r γ t₀).At (.coherent r) levels p n above x s)
    (harr : phase = .enter → (collectorBridge a r γ t₀).Arrived n s.tree
      ∧ (s.tree.path p).skipKeys = [])
    (hleaves : phase = .exit → (collectorWalk a).Leaves a above n x)
    (hskip : (s.tree.path p).shouldSkip = false) (hstop : (s.tree.path p).shouldStop = false) :
    (collectorBridge a r γ t₀).Agrees ((collectorBridge a r γ t₀).Called (.coherent r) p
      above phase s) ((collectorWalk a).call phase above n x) (collectorEngine.call p phase s) := by
  obtain ⟨hs, ⟨ht, hg, h₀⟩, hp, hnear, hdepth⟩ := h
  have hlen : above.length ≤ Limits.traversal + 1 := hnear.2.trans (Nat.succ_le_succ (by omega))
  obtain ⟨o, ho, _⟩ := ht.get? hp
  have hty : a.type? (some n) = some o.type := by simp [type?, ho]
  rw [collectorEngine_call hp.node ((congrArg (·.type? (some n)) ht.arena).trans hty)]
  have hstart : Collecting a r γ s s.own.references s.own.assignments (fun _ => True) s :=
    ⟨ht, .refl _, rfl, rfl, hg.violations, trivial, fun _ _ _ _ => trivial⟩
  -- flags and books are those of before
  have hdone : ∀ {refs asg φ s'} (x' : List (List NodeId)), Collecting a r γ s refs asg φ s' →
      Gathered a r x' s'.tree s'.own → (phase = .enter → (s.tree.path p).skipKeys = []) →
      (collectorBridge a r γ t₀).Called (.coherent r) p above phase s (.go []) false x' s' := by
    intro refs asg φ s' x' h' hg' hkeys
    have hflags := h'.advances.control.flags p
    have hc := h'.registered.inScope.coherent
    refine ⟨(PathData.shouldStop_of_flags hflags).trans hstop, fun hph => ⟨rfl, ?_, fun k => ?_⟩,
      ⟨h'.registered, hg', h₀.trans h'.advances.toAdds⟩, h'.advances.control.steady hs hc,
      h'.advances.control.moves h'.advances.grows, h'.advances.control.frames⟩
    · exact (PathData.shouldSkip_of_flags hflags).trans hskip
    · rw [PathData.skipKeys_of_flags hflags, hkeys hph]
  cases phase with
  | enter =>
    obtain ⟨harrived, hkeys⟩ := harr rfl
    refine (hstart.enter hp hskip hstop hlen hty).imp ?_ fun _ _ he => .inr (.inl he)
    rintro _ s' ⟨rfl, h'⟩
    have hg' := hg.mono h'.advances.toAdds
    refine ⟨.go [], (n :: above) :: x, rfl, hdone _ h' ?_ fun _ => hkeys⟩
    refine hg'.enter (hp.grows h'.advances.grows) (fun hnone => ?_) h'.references h'.assignments
      h'.facts.2 h'.violations
    obtain ⟨p', above', hp', hh⟩ := harrived
    obtain rfl := ht.inScope.coherent.unique _ _ _ hp'.node hp.node
    obtain rfl := hp'.under.unique ht.inScope.coherent.arena.owned hp.under
    have hnone' : (s.tree.path p').scope = none := by
      cases hsc : (s.tree.path p').scope with
      | none => rfl
      | some c =>
        rw [h'.advances.scope _ _ hsc] at hnone
        cases hnone
    rw [hnone'] at hh
    rw [← ht.arena]
    exact hh.eq_none
  | exit =>
    have hdeclared (m : NodeId) (hm : a.child? (some n) "declaration" = some m) (h : NodeId)
        (hh : a.Homes m (n :: above) h) : s.tree.OwnsAll h m :=
      (hg.announced m (n :: above) ((hleaves rfl).enters (ht.arena ▸ ht.inScope.coherent.arena)
        (mem_children_of_child? hm) hh.shouldVisit)).names h hh
    refine (hstart.exit hp hskip hstop hlen hty hdeclared).imp ?_ fun _ _ he => .inr (.inl he)
    rintro _ s' ⟨rfl, h'⟩
    have hexit (h : Phase.exit = .enter) : (s.tree.path p).skipKeys = [] := by cases h
    refine ⟨.go [], x, rfl, hdone _ h' ?_ hexit⟩
    have hg' := hg.mono h'.advances.toAdds
    refine ⟨hg'.entered, ?_, ?_, hg'.announced, ?_, ?_, h'.violations⟩
    · rw [h'.references]
      exact hg'.reads
    · rw [h'.references]
      exact hg'.noted
    · rw [h'.assignments]
      exact hg'.assignments
    · rw [h'.assignments]
      exact hg'.assigned

/-- **The pass of a crawl is the walk that notes what it enters.** -/
theorem collector_sound (a : Arena) (r : NodeId) (γ : Gaps) (t₀ : Tree) :
    (collectorBridge a r γ t₀).Sound (.coherent r) collectorEngine (collectorWalk a) a where
  arena _ _ h := h.1.arena
  takes := rfl
  denied := rfl
  quiet x s t' h hg hn hc := by
    have hk := keepsScopes_of_sameNames hg hn
    refine ⟨h.1.same hk hc (fun c => ?_) hn.bindings, h.2.1.mono hk.adds,
      h.2.2.trans hk.adds⟩
    unfold Tree.scope
    rw [hn.scopes]
  quietArrived n t t' h hg hn := by
    obtain ⟨p, above, hp, hh⟩ := h
    refine ⟨p, above, hp.grows hg, ?_⟩
    rw [hn.scope p]
    exact hh.keeps (keepsScopes_of_sameNames hg hn)
  fail _ _ _ := trivial
  arrive_bad _ _ _ h := h
  call_bad _ _ _ _ h := h
  assign {_ p n above x s} h _ := by
    obtain ⟨hs, hx, hp, hnear, hdepth⟩ := h
    have hlen := hnear.2
    refine ((Registered.assigns a r).assignWith hx.1 hp.onLine (by simp; omega)
      covered_of_all).imp ?_ fun _ _ he => .inl he
    rintro _ t' ⟨ht', ha, hh⟩
    exact ⟨ha.control.steady hs ht'.inScope.coherent, ha.control.moves ha.grows, ha.control.frames,
      ⟨ht', hx.2.1.mono ha.toAdds, hx.2.2.trans ha.toAdds⟩, p, above, hp.grows ha.grows, hh⟩
  call _ h harr hleaves hskip hstop := collector_call h harr hleaves hskip hstop

end Sound

end ScopedTree
