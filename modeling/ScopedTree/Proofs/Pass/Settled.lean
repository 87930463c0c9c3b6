import ScopedTree.Proofs.Pass.Frames
import ScopedTree.Proofs.Scope.Link

/-!
# Scopes that a pass comes by

A pass gives paths their scopes as it comes by them. Where the scopes were found before, only empty
ones are left to be made, however the tree was edited since.

* `Tree.Surveyed`          nodes with children that own a scope have it, and all scopes are known;
* `Tree.Settled`          scopes are off, or the tree is surveyed;
* `Tree.Settled.assign`   paths get their scopes without failure.
-/

namespace ScopedTree.Tree

open Arena

variable {a : Arena} {t t' t'' : Tree} {r n : NodeId} {p q : PathId} {s c : ScopeId}
  {above : List NodeId} {o : Option ScopeId} {G : Ground r}

/-- A tree over the nodes of `a` whose scopes were all crawled and can all be read. Of the nodes
below `r`, those with children that own a scope have it. -/
structure Surveyed (a : Arena) (r : NodeId) (t : Tree) : Prop where
  arena : t.arena = a
  crawled : ∀ s, s.index < t.scopes.size → (t.scope s).crawled = true
  parent : ∀ s c, (t.scope s).parent = some c → c.index < t.scopes.size
  path : ∀ p s, (t.path p).scope = some s → s.index < t.scopes.size
  node : ∀ i s, t.scopeOfNode.get? i = some s → s.index < t.scopes.size
  owned : ∀ n above, a.Under r n above → a.isScope (some n) above.head? →
    t.scopeOfNode.get? n.index = none → a.children (some n) = []

/-- A tree over the nodes of `a` whose scopes are off, or surveyed. -/
inductive Settled (a : Arena) (r : NodeId) (t : Tree) : Prop
  | off (harena : t.arena = a) (hoff : t.options.noScope = true)
  | on (h : t.Surveyed a r)

/-- Paths got scopes. -/
structure Assigned (G : Ground r) (t t' : Tree) : Prop where
  steady : t'.Steady G
  moves : ∀ k, t.Moves G k (fun _ => True) t'
  frames : t'.frames = t.frames

theorem Settled.arena (h : t.Settled a r) : t.arena = a := by
  cases h with
  | off harena => exact harena
  | on h => exact h.arena

theorem Surveyed.keeps (h : t.Surveyed a r) (ha : t'.arena = t.arena) (hn : t.SameNames t') :
    t'.Surveyed a r := by
  have hscope (s : ScopeId) : t'.scope s = t.scope s := by
    unfold Tree.scope
    rw [hn.scopes]
  refine ⟨ha.trans h.arena, fun s hs => ?_, fun s c hc => ?_, fun p s hs => ?_,
    fun i s hs => ?_, ?_⟩
  · rw [hscope]
    exact h.crawled s (hn.scopes ▸ hs)
  · rw [hscope] at hc
    exact hn.scopes ▸ h.parent s c hc
  · exact hn.scopes ▸ h.path p s ((hn.scope p).symm.trans hs)
  · exact hn.scopes ▸ h.node i s (hn.scopeOfNode ▸ hs)
  · rw [hn.scopeOfNode]
    exact h.owned

theorem Settled.keeps (h : t.Settled a r) (ha : t'.arena = t.arena) (ho : t'.options = t.options)
    (hn : t.SameNames t') : t'.Settled a r := by
  cases h with
  | off harena hoff => exact .off (ha.trans harena) (ho ▸ hoff)
  | on h => exact .on (h.keeps ha hn)

/-- A tree whose uses are being resolved is surveyed, if nodes with children that own a scope have
it. -/
theorem Linked.surveyed {done : List PathId} (h : Linked a r done t)
    (hnew : ∀ n above, a.Under r n above → a.isScope (some n) above.head? →
      t.scopeOfNode.get? n.index = none → a.children (some n) = []) : t.Surveyed a r where
  arena := h.arena
  crawled s hs := (h.inScope.settled s hs).1
  parent s c hc := by
    by_cases hs : s.index < t.scopes.size
    · exact (h.inScope.parent s c hs hc).trans hs
    · rw [scope_of_size_le (Nat.le_of_not_lt hs)] at hc
      cases hc
  path p s hs := by
    by_cases hp : p.index < t.paths.size
    · obtain ⟨line, hline⟩ := h.inScope.coherent.exists_line hp
      exact (h.inScope.path p line s hline hs).2 s rfl
    · rw [path_of_size_le (Nat.le_of_not_lt hp)] at hs
      cases hs
  node i s hs := (h.inScope.listed i s hs).1
  owned := hnew

/-! ## assignments -/

theorem Assigned.refl (hs : t.Steady G) : t.Assigned G t := ⟨hs, fun k => .refl G k _ t, rfl⟩

theorem Assigned.trans (h : t.Assigned G t') (h' : t'.Assigned G t'') : t.Assigned G t'' :=
  ⟨h'.steady, fun k => (h.moves k).trans (h'.moves k) le_rfl fun _ h => h, h'.frames.trans h.frames⟩

theorem Assigned.of_same (hs : t.Steady G) (hp : t.SamePlaces t') (hc : t.SameControl t') :
    t.Assigned G t' :=
  ⟨hc.steady hs (G.firm_of_same hp hs.firm), fun _ => hc.moves (G.grows_of_same hp), hc.frames⟩

theorem Surveyed.updatePath (h : t.Surveyed a r) (p : PathId)
    (ho : ∀ s, o = some s → s.index < t.scopes.size) :
    (t.updatePath p ({ · with scope := o })).Surveyed a r := by
  refine ⟨h.arena, h.crawled, h.parent, fun q s hs => ?_, h.node, h.owned⟩
  rw [path_updatePath] at hs
  split at hs
  · exact ho s hs
  · exact h.path q s hs

theorem Surveyed.updateScope (h : t.Surveyed a r) (s : ScopeId) (p : PathId) :
    (t.updateScope s ({ · with path := p })).Surveyed a r := by
  have hscope (c : ScopeId) : ((t.updateScope s ({ · with path := p })).scope c).crawled
      = (t.scope c).crawled ∧ ((t.updateScope s ({ · with path := p })).scope c).parent
        = (t.scope c).parent := by
    rw [scope_updateScope]
    split
    · next hc =>
      rw [hc.1]
      exact ⟨rfl, rfl⟩
    · exact ⟨rfl, rfl⟩
  have hsize : (t.updateScope s ({ · with path := p })).scopes.size = t.scopes.size :=
    Array.size_modify
  refine ⟨h.arena, fun c hc => ?_, fun c d hd => ?_, fun q c hc => ?_, fun i c hc => ?_, h.owned⟩
  · rw [(hscope c).1]
    exact h.crawled c (hsize ▸ hc)
  · rw [(hscope c).2] at hd
    exact hsize ▸ h.parent c d hd
  · exact hsize ▸ h.path q c hc
  · exact hsize ▸ h.node i c hc

theorem Surveyed.withScope (h : t.Surveyed a r) (p : PathId) (n : NodeId)
    (ho : ∀ s, o = some s → s.index < t.scopes.size) : (t.withScope p n o).Surveyed a r := by
  refine ⟨h.arena, fun s hs => ?_, fun s c hc => ?_, fun q s hs => ?_, fun i s hs => ?_,
    fun m above hu hm hnone => h.owned m above hu hm ?_⟩
  · rw [scope_withScope]
    split
    · rfl
    · next hne =>
      refine h.crawled s ?_
      rw [size_withScope] at hs
      refine lt_of_le_of_ne (Nat.le_of_lt_succ hs) fun hi => hne ?_
      cases s
      simp_all
  · rw [size_withScope]
    rw [scope_withScope] at hc
    split at hc
    · exact Nat.lt_succ_of_lt (ho c hc)
    · exact Nat.lt_succ_of_lt (h.parent s c hc)
  · rw [size_withScope]
    rw [path_withScope, path_updatePath] at hs
    split at hs
    · obtain rfl := Option.some.inj hs
      exact Nat.lt_succ_self _
    · exact Nat.lt_succ_of_lt (h.path q s hs)
  · rw [size_withScope]
    change (t.scopeOfNode.put n.index ⟨t.scopes.size⟩).get? i = some s at hs
    rw [IndexTable.get?_put] at hs
    split at hs
    · obtain rfl := Option.some.inj hs
      exact Nat.lt_succ_self _
    · exact Nat.lt_succ_of_lt (h.node i s hs)
  · change (t.scopeOfNode.put n.index ⟨t.scopes.size⟩).get? m.index = none at hnone
    rw [IndexTable.get?_put] at hnone
    split at hnone
    · cases hnone
    · exact hnone

theorem sameControl_withScope (t : Tree) (p : PathId) (n : NodeId) (o : Option ScopeId) :
    t.SameControl (t.withScope p n o) :=
  ⟨rfl, rfl, rfl, fun q => t.path_updatePath_congr p q _ PathData.control fun _ => rfl⟩

theorem Surveyed.ends_finish (h : t.Surveyed a r) (hs : t.Steady G) (p : PathId)
    (ho : ∀ s, o = some s → s.index < t.scopes.size) {E : TreeError → Tree → Prop} :
    Ends ((do
      modify (·.updatePath p ({ · with scope := o }))
      match o with
      | none => return
      | some s =>
        if !((← get).scope s).crawled then
          modify (·.updateScope s ({ · with crawled := true }))
          crawl s : TreeM Unit) t) (fun _ t' => t'.Surveyed a r ∧ t.Assigned G t') E := by
  have hend := h.updatePath p ho
  have hsame : t.Assigned G (t.updatePath p ({ · with scope := o })) :=
    .of_same hs (t.samePlaces_updatePath p _ fun _ => rfl)
      (t.sameControl_updatePath p _ fun _ => rfl)
  rw [ends_bind, ends_modify]
  cases o with
  | none => exact ⟨hend, hsame⟩
  | some s =>
    have hcrawled := hend.crawled s (ho s rfl)
    dsimp only
    rw [ends_bind, ends_get, hcrawled]
    exact ⟨hend, hsame⟩

theorem Surveyed.ends_place (h : t.Surveyed a r) (hs : t.Steady G) (hp : G.Place t p n above)
    (ho : ∀ s, o = some s → s.index < t.scopes.size) :
    Ends ((do
      let scope ← scopeFor p o
      modify (·.updatePath p ({ · with scope }))
      match scope with
      | none => return
      | some s =>
        if !((← get).scope s).crawled then
          modify (·.updateScope s ({ · with crawled := true }))
          crawl s : TreeM Unit) t) (fun _ t' => t'.Surveyed a r ∧ t.Assigned G t')
      fun _ _ => Limits.traversal ≤ t.depth := by
  have hparent : (t.path p).parent = above.head? := G.parentNode hs.firm hp
  unfold scopeFor
  rw [bind_assoc, run_get_bind]
  simp only [show (t.path p).node = some n from G.node hp, hparent]
  cases hscope : t.arena.isScope (some n) above.head? with
  | false =>
    simp only [Bool.not_false, if_true]
    rw [pure_bind]
    exact h.ends_finish hs p ho
  | true =>
    simp only [Bool.not_true, Bool.false_eq_true, if_false]
    cases hn : t.scopeOfNode.get? n.index with
    | some s =>
      have h₁ := h.updateScope s p
      have hsame : t.Assigned G (t.updateScope s ({ · with path := p })) :=
        .of_same hs ⟨rfl, rfl, rfl, rfl, rfl, rfl, fun _ => rfl⟩ ⟨rfl, rfl, rfl, fun _ => rfl⟩
      have hfinish := h₁.ends_finish (o := some s) hsame.steady p (fun c hc => by
        obtain rfl := Option.some.inj hc
        exact h₁.node n.index s hn) (E := fun _ _ => Limits.traversal ≤ t.depth)
      exact hfinish.mono fun _ t' h' => ⟨h'.1, hsame.trans h'.2⟩
    | none =>
      have hw := h.withScope p n ho
      have hsame : t.Assigned G (t.withScope p n o) :=
        .of_same hs samePlaces_withScope (sameControl_withScope t p n o)
      have hchildless : a.children (some n) = [] := by
        have hu := G.under hp
        rw [h.arena] at hu hscope
        exact h.owned n above hu hscope hn
      have hnot (c : ScopeId) : ((t.withScope p n o).scope c).parent ≠ some ⟨t.scopes.size⟩ := by
        intro hc
        rw [scope_withScope] at hc
        split at hc
        · exact Nat.lt_irrefl _ (ho _ hc)
        · exact Nat.lt_irrefl _ (h.parent c _ hc)
      have hpath : ((t.withScope p n o).path p).scope = some ⟨t.scopes.size⟩ := by
        rw [path_withScope, path_updatePath_self _ _ (G.lt hp)]
      have hcrawl := crawlLevels_childless hsame.steady.firm (G.place (hsame.moves 0).grows hp) hnot
        scope_withScope_new hpath (by rw [hw.arena, hchildless])
      simp only [ends_bind, ends_modify, ends_pure, ends_get]
      rw [if_pos (by simp [scope, Tree.updatePath])]
      simp only [ends_bind, ends_modify]
      rw [withScope_eq]
      unfold crawl
      rw [run_get_bind]
      refine (hcrawl _).imp (fun _ t' hstep => ?_) fun _ _ he => he.2
      exact ⟨hw.keeps (G.sameArena hstep.grows) hstep.names, hsame.trans
        ⟨hstep.steady hsame.steady, fun _ => hstep.moves, hstep.control.frames⟩⟩

theorem Surveyed.ends_upTo (fuel : Nat) (t : Tree) (p : PathId) (n : NodeId) (above : List NodeId)
    (h : t.Surveyed a r) (hs : t.Steady G) (hp : G.Place t p n above) :
    Ends (assignUpTo crawl fuel p t) (fun _ t' => t'.Surveyed a r ∧ t.Assigned G t')
      fun _ _ => Limits.traversal ≤ t.depth := by
  induction fuel generalizing t p n above with
  | zero => exact ⟨h, .refl hs⟩
  | succ fuel ih =>
    unfold assignUpTo
    rw [run_get_bind]
    split
    · exact ⟨h, .refl hs⟩
    cases above with
    | nil =>
      rw [(G.top hs.firm hp).1]
      simp only [pure_bind]
      exact h.ends_place hs hp nofun
    | cons m above =>
      obtain ⟨q, hq, -, hqp⟩ := G.parent hs.firm hp
      rw [hq]
      dsimp only
      cases hlive : t.liveScope? q with
      | some s =>
        simp only [pure_bind]
        refine h.ends_place hs hp fun c hc => ?_
        obtain rfl := Option.some.inj hc
        exact h.path q _ (Option.filter_eq_some_iff.1 hlive).1
      | none =>
        simp only [pure_bind]
        refine ends_bind.2 ((ih t q m above h hs hqp).mono fun _ t₁ ⟨h₁, hsame⟩ => ?_)
        rw [run_get_bind]
        refine (h₁.ends_place hsame.steady (G.place (hsame.moves 0).grows hp) (h₁.path q)).imp
          (fun _ _ h₂ => ⟨h₂.1, hsame.trans h₂.2⟩) fun _ _ hd => ?_
        rwa [(hsame.moves 0).depth] at hd

/-- **Paths get their scopes without failure**, unless scopes are on and a pass is too deep. -/
theorem Settled.assign (h : t.Settled a r) (hs : t.Steady G) (hp : G.Place t p n above) :
    Ends (Tree.assign p t) (fun _ t' => t'.Settled a r ∧ t.Assigned G t')
      fun _ _ => t.options.noScope = false ∧ Limits.traversal ≤ t.depth := by
  cases hoff : t.options.noScope with
  | true =>
    have hrun : Tree.assign p t = .ok ⟨⟩ t := by
      unfold Tree.assign assignWith
      rw [run_get_bind]
      unfold assignUpTo
      rw [run_get_bind, hoff]
      rfl
    rw [hrun]
    exact ⟨h, .refl hs⟩
  | false =>
    cases h with
    | off _ h => cases h.symm.trans hoff
    | on h =>
      unfold Tree.assign assignWith
      rw [run_get_bind]
      exact (h.ends_upTo _ t p n above hs hp).imp (fun _ _ h => ⟨.on h.1, h.2⟩)
        fun _ _ h => ⟨rfl, h⟩

end ScopedTree.Tree
