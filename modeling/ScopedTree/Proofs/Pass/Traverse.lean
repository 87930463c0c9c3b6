import ScopedTree.Proofs.Pass.Quiet
import ScopedTree.Proofs.Path.Trail
import ScopedTree.Proofs.Scope.Crawl

/-!
# A traversal is the recursive walk

The pass of a script over a tree calls handlers exactly as the plain recursive walk does, as long as
nothing that it visits is too deep.

* `Script.walk_of_idle`          nodes without handlers and children add nothing to a walk;
* `Script.walk_eq_of_shallow`    the walk that a pass makes is the plain one;
* `Tree.Ready`                   what a pass relies on;
* `Script.Prepared`              trees with scopes off or found, that passes may have gone over;
* `Script.traverse_eq_walk`      the traversal is the walk.
-/

namespace ScopedTree

open ScopedTree.Tree Arena

variable {σ : Type} {a : Arena} {t t' : Tree} {r n c : NodeId} {p : PathId} {above : List NodeId}

namespace Script

variable {v : Script σ} {x : Walked σ}

/-! ## what a pass leaves out -/

theorem acts_of_idle (h : v.dispatch.shouldVisit a c = false) (phase : Phase)
    (above : List NodeId) :
    v.acts a phase above c = [] := by
  unfold acts type?
  rw [look_some]
  cases hc : a.get? c with
  | none => rfl
  | some o =>
    obtain ⟨⟨hgeneral, htyped⟩, _⟩ : (v.general = [] ∧ ∀ x ∈ v.typed, x.1.covers o.type = false)
        ∧ o.children = [] := by
      simpa [Dispatch.shouldVisit, hc, dispatch, Dispatch.handles] using h
    have hcues : v.cues o.type phase = [] := by
      unfold cues
      rw [hgeneral]
      simpa using fun key ph act hmem _ => htyped (key, ph, act) hmem
    show ((v.cues o.type phase).filter _).map _ = []
    rw [hcues]
    rfl

theorem keptChildren_of_idle (h : v.dispatch.shouldVisit a c = false) {o : Node}
    (ho : a.get? c = some o) (skipped : List String) : o.keptChildren skipped = [] := by
  have hchildren : o.children = [] := by
    unfold Dispatch.shouldVisit at h
    rw [ho] at h
    simpa using (Bool.or_eq_false_iff.1 h).2
  refine List.flatMap_eq_nil_iff.2 fun f _ => ?_
  have hsub := o.fieldChildren_sublist f.name
  rw [hchildren] at hsub
  exact List.sublist_nil.1 hsub

/-- The walk does nothing at a node that is not worth a visit. -/
theorem walk_of_idle (h : v.dispatch.shouldVisit a c = false) (levels : Nat) (above : List NodeId)
    (x : Walked σ) : (v.walker a).walk a (levels + 1) above c x = .ok false x := by
  rw [Walker.walk_eq, Walker.visit]
  cases hc : a.get? c with
  | none => rfl
  | some o =>
    dsimp only
    split
    · rfl
    · have hcall : ∀ phase, (v.walker a).call phase above c x = .ok (.go []) x := by
        intro phase
        show play c [] (v.acts a phase above c) x = _
        rw [acts_of_idle h]
        rfl
      have hbelow : (v.walker a).below a (levels + 1) (c :: above)
          (([] : List NodeId).filter (v.walker a).takes) x = .ok false x := rfl
      rw [run_bind_of_ok (hcall .enter)]
      dsimp only
      rw [keptChildren_of_idle h hc, run_bind_of_ok hbelow]
      simp only [Bool.false_eq_true, if_false]
      rw [run_bind_of_ok (hcall .exit)]
      rfl

/-! ## the limit on depth -/

theorem stays_deep (v : Script σ) (a : Arena) (takes : NodeId → Bool) (bound levels : Nat)
    (above : List NodeId) (n : NodeId) :
    Stays (fun x => bound ≤ x.deepest) ((v.walkerOn a takes).walk a levels above n) := by
  exact Stays.walk a (fun above n x hx => hx.trans (deepest_le_arrive)) (fun phase above n =>
    stays_play (fun _ _ h => h) n _ _) levels above n

theorem stays_deep_each (v : Script σ) (a : Arena) (takes : NodeId → Bool) (bound levels : Nat)
    (above : List NodeId) (l : List NodeId) :
    Stays (fun x => bound ≤ x.deepest) ((v.walkerOn a takes).walkAll a levels above l) := by
  exact Stays.each (fun c => (stays_modify fun x hx => hx.trans (deepest_le_arrive)).bind
    fun _ => stays_deep v a takes bound levels above c) l

/-- **The walk that a pass makes is the plain one**, as long as no node that is visited lies at the
level `bound` or below. -/
theorem walk_eq_of_shallow (v : Script σ) (a : Arena) {bound : Nat} :
    ∀ (levels levels' : Nat) (above : List NodeId) (n : NodeId) (x : Walked σ),
      above.length + levels = bound → levels < levels' → above.length < bound →
      (final ((v.walker a).walk a levels' above n x)).deepest < bound →
      (v.walkerOn a (v.dispatch.shouldVisit a)).walk a levels above n x
        = (v.walker a).walk a levels' above n x
  | 0, _, above, _, _, hbound, _, hlt, _ => absurd hbound (by omega)
  | levels + 1, 0, _, _, _, _, hlevels, _, _ => absurd hlevels (Nat.not_lt_zero _)
  | levels + 1, levels' + 1, above, n, x, hbound, hlevels, hlt, hshallow => by
    let P : Walked σ → Prop := fun x => bound ≤ x.deepest
    -- the children, of which the pass leaves some out
    have hchildren : ∀ (l : List NodeId) (x : Walked σ),
        ¬ P (final ((v.walker a).below a (levels' + 1) (n :: above) (l.filter fun _ => true) x)) →
        (v.walkerOn a (v.dispatch.shouldVisit a)).below a (levels + 1) (n :: above)
            (l.filter (v.dispatch.shouldVisit a)) x
          = (v.walker a).below a (levels' + 1) (n :: above) (l.filter fun _ => true) x := by
      intro l x hnot
      rw [List.filter_true] at hnot ⊢
      refine each_filter_eq (P := P) (stays_deep_each v a _ bound levels' (n :: above))
        ?_ ?_ l x hnot
      · intro c x hc
        rw [run_modify_bind, arrive_of_idle hc]
        obtain ⟨l, rfl⟩ : ∃ l, levels' = l + 1 := ⟨levels' - 1, by omega⟩
        exact walk_of_idle hc l (n :: above) x
      · intro c x hc hnot
        rw [run_modify_bind] at hnot ⊢
        have hlevel : (n :: above).length < bound := Nat.lt_of_not_le fun hle =>
          hnot (stays_deep v a _ bound levels' (n :: above) c _
            (hle.trans (length_le_deepest_arrive hc)))
        exact walk_eq_of_shallow v a levels levels' (n :: above) c _
          (by simp; omega) (by omega) hlevel (Nat.lt_of_not_le hnot)
    rw [Walker.walk_eq] at hshallow ⊢
    rw [Walker.walk_eq]
    exact Walker.visit_eq_of_not (P := P) rfl rfl (fun _ _ n => stays_play (fun _ _ h => h) n _ _)
      hchildren (Nat.not_le.2 hshallow)

end Script

/-! ## trees before a pass -/

namespace Tree

/-- A tree that no pass is under way on, with scopes off or found. However it was edited, the path
of its root is in use. -/
structure Ready (a : Arena) (r : NodeId) (t : Tree) : Prop where
  steady : t.Steady (.trail r)
  settled : t.Settled a r
  depth : t.depth = 0

theorem Steady.trail (h : t.Steady (.coherent r)) : t.Steady (.trail r) :=
  ⟨h.firm.walkable, h.handedOut⟩

theorem Ready.looksUp (h : t.Ready a r) (hstep : (Ground.trail r).Step t t') : t'.Ready a r where
  steady := hstep.steady h.steady
  settled := h.settled.keeps hstep.grows.arena hstep.grows.options hstep.names
  depth := hstep.control.depth.trans h.depth

theorem Ready.updatePath (h : t.Ready a r) (p : PathId) {f : PathData → PathData}
    (hpos : ∀ d, (f d).position = d.position) (hscope : ∀ d, (f d).scope = d.scope)
    (hctx : ∀ d, (f d).contexts = d.contexts) : (t.updatePath p f).Ready a r where
  steady := by
    refine ⟨h.steady.firm.same (t.samePlaces_updatePath p f hpos), fun q c hq => ?_⟩
    rw [t.path_updatePath_congr p q f PathData.contexts hctx] at hq
    exact h.steady.handedOut q c hq
  settled := h.settled.keeps rfl rfl (t.sameNames_updatePath p f hscope)
  depth := h.depth

theorem Ready.withArena (h : t.Ready a r) {a' : Arena} (ha : a'.WellOwned) (hr : (a'.get? r).isSome)
    (hscopes : t.options.noScope = true ∨ ∀ n above, a'.Under r n above →
      a'.isScope (some n) above.head? → t.scopeOfNode.get? n.index = none →
      a'.children (some n) = []) :
    Ready a' r { t with arena := a' } where
  steady := by
    have hfirm : t.Walkable r := h.steady.firm
    refine ⟨⟨ha, hfirm.root, hr, fun p hp => ?_, hfirm.listed⟩, h.steady.handedOut⟩
    cases hfirm.crown p hp with
    | root hp hpos => exact .root hp hpos
  settled := by
    rcases hscopes with hoff | howned
    · exact .off rfl hoff
    · cases h.settled with
      | off _ hoff => exact .off rfl hoff
      | on h => exact .on ⟨rfl, h.crawled, h.parent, h.path, h.node, howned⟩
  depth := h.depth

theorem ready_ofArena (ha : a.WellOwned) (hr : (a.get? r).isSome) {options : Options}
    (hoff : options.noScope = true) : Ready a r (ofArena a (some r) options) where
  steady := (steady_ofArena (G := .coherent r) (coherent_ofArena ha hr options)).trail
  settled := .off rfl hoff
  depth := rfl

theorem Crawled.ready (h : t.Crawled a r) : t.Ready a r where
  steady := h.steady.trail
  settled := by
    obtain ⟨_, hl, _⟩ := h.linked
    exact .on (hl.surveyed h.settled)
  depth := h.depth

theorem ready_scopeOfRoot (ha : a.WellOwned) (hr : a.isScope (some r) none) {options : Options}
    {o : Option ScopeId} (h : scopeOfRoot (ofArena a (some r) options) = .ok o t) :
    t.Ready a r := by
  cases hoff : options.noScope with
  | false => exact ((ends_scopeOfRoot ha hr hoff).of_ok h).1.ready
  | true =>
    have hpresent := isSome_of_isScope hr
    obtain ⟨_, hc, hext⟩ := (ends_scopeOfRoot_off ha hpresent hoff).of_ok h
    have h₀ := ready_ofArena ha hpresent hoff
    exact ⟨hext.control.steady h₀.steady hc.walkable,
      h₀.settled.keeps hext.grows.arena hext.grows.options
      hext.names, hext.control.depth.trans h₀.depth⟩

end Tree

namespace Script

/-! ## traversals -/

def walkEnd : EStateM.Result TreeError (Walked σ) Bool → Option TreeError × σ
  | .ok _ x => (none, x.own)
  | .error e x => (some e, x.own)

/-- How a pass ends for its visitor: with an error or not, and with what state. -/
def passEnd : EStateM.Result TreeError (Pass σ) Unit → Option TreeError × σ
  | .ok _ s => (none, s.own)
  | .error e s => (some e, s.own)

/-- The steps that are enough for a traversal that edits nothing. -/
def traversalSteps (a : Arena) : Nat := a.need Limits.traversal + 3

theorem agrees_traverseBy (v : Script σ) {run : Act σ → Handler σ}
    (hrun : ∀ act, Heeds (.trail r) a act (run act)) (ht : t.Ready a r) {off : Bool}
    (hoff : off = true → t.options.noScope = true) {steps : Nat} (hsteps : traversalSteps a ≤ steps)
    (own : σ) :
    (bridge σ a r off).Agrees (fun _ _ x s => s.own = x.own ∧ s.tree.Ready a r)
      ((do let _ ← (v.walkerOn a (v.dispatch.shouldVisit a)).walkAll a Limits.traversal [] [r]
        : EStateM TreeError (Walked σ) Unit) { own })
      ((v.dispatchBy run).traverse steps ⟨t, own⟩) := by
  have hB := v.sound hrun off
  unfold Dispatch.traverse Engine.traverse
  refine ends_bind.2 (ends_onTree.2 (((Ground.trail r).ends_root ht.steady.firm).imp ?_
    fun _ _ h => h.elim))
  rintro p t₁ ⟨hstep, hp⟩
  have h₁ := ht.looksUp hstep
  refine hB.onFrame (hB.paths Limits.traversal) none "" (s := ⟨t₁, own⟩) h₁.steady
    ⟨rfl, h₁.settled, fun h => hstep.grows.options ▸ hoff h⟩ ⟨h₁.depth.le, Nat.zero_le _⟩
    (by rw [h₁.depth, Nat.zero_add]) (.cons hp .nil) (List.nodup_singleton r) (fun _ _ => .inr rfl)
    (.inr (by unfold traversalSteps at hsteps; exact hsteps)) (fun _ => stays_pure _) ?_
  intro b x' s' hdone
  exact agrees_pure ⟨hdone.inv.own, hdone.steady, hdone.inv.settled,
    hdone.moves.depth.trans h₁.depth⟩

/-- **A traversal of a tree that is ready** ends as the plain walk of the tree does, provided that
no node that the walk visits lies at the level of the limit or below, and leaves the tree ready. -/
theorem ends_traverseBy (v : Script σ) {run : Act σ → Handler σ}
    (hrun : ∀ act, Heeds (.trail r) a act (run act)) (ht : t.Ready a r) {steps levels : Nat}
    (hsteps : traversalSteps a ≤ steps) (hlevels : Limits.traversal < levels) (own : σ)
    (hshallow : (final ((v.walker a).walk a levels [] r { own })).deepest < Limits.traversal) :
    Ends ((v.dispatchBy run).traverse steps ⟨t, own⟩)
      (fun _ s => (∃ b x, (v.walker a).walk a levels [] r { own } = .ok b x ∧ s.own = x.own)
        ∧ s.tree.Ready a r)
      fun e s => ∃ x, (v.walker a).walk a levels [] r { own } = .error e x ∧ s.own = x.own := by
  have hwalk : (v.walkerOn a (v.dispatch.shouldVisit a)).walkAll a Limits.traversal [] [r] { own }
      = (v.walker a).walk a levels [] r { own } := by
    have harrive : (v.walkerOn a (v.dispatch.shouldVisit a)).arrive [] r { own } = { own } := by
      show (if _ then _ else _ : Walked σ) = _
      split <;> rfl
    rw [Walker.walkAll, each_singleton, run_modify_bind, harrive]
    exact v.walk_eq_of_shallow a Limits.traversal levels [] r { own } (Nat.zero_add _) hlevels
      (by decide) hshallow
  have hagrees := v.agrees_traverseBy hrun ht (nofun : false = true → _) hsteps own
  cases hplain : (v.walker a).walk a levels [] r { own } with
  | ok b x =>
    rw [hplain] at hshallow
    rw [run_bind_of_ok (hwalk.trans hplain)] at hagrees
    refine hagrees.imp ?_ ?_
    · rintro _ s ⟨_, x', hx, hown, hready⟩
      obtain ⟨_, rfl⟩ := EStateM.Result.ok.inj hx
      exact ⟨⟨b, x, rfl, hown⟩, hready⟩
    · rintro e s (⟨x', hx, _⟩ | habort | hbad)
      · cases hx
      · exact habort.elim
      · exact absurd hshallow (Nat.not_lt.2 hbad.2)
  | error e x =>
    rw [hplain] at hshallow
    rw [run_bind_of_error (hwalk.trans hplain)] at hagrees
    refine hagrees.imp ?_ ?_
    · rintro _ s ⟨_, x', hx, _⟩
      cases hx
    · rintro e' s (⟨x', hx, hown⟩ | habort | hbad)
      · obtain ⟨rfl, rfl⟩ := EStateM.Result.error.inj hx
        exact ⟨x, rfl, hown⟩
      · exact habort.elim
      · exact absurd hshallow (Nat.not_lt.2 hbad.2)

theorem ends_traverse (v : Script σ) (ht : t.Ready a r) {steps levels : Nat}
    (hsteps : traversalSteps a ≤ steps) (hlevels : Limits.traversal < levels) (own : σ)
    (hshallow : (final ((v.walker a).walk a levels [] r { own })).deepest < Limits.traversal) :
    Ends (v.dispatch.traverse steps ⟨t, own⟩)
      (fun _ s => (∃ b x, (v.walker a).walk a levels [] r { own } = .ok b x ∧ s.own = x.own)
        ∧ s.tree.Ready a r)
      fun e s => ∃ x, (v.walker a).walk a levels [] r { own } = .error e x ∧ s.own = x.own :=
  v.ends_traverseBy (heeds_handler (.trail r) a) ht hsteps hlevels own hshallow

/-- A tree over the nodes of `a` below `r` whose scopes are off, or were found from the root on, and
that may have been traversed since. -/
inductive Prepared (a : Arena) (r : NodeId) : Tree → Prop
  | off {options : Options} (h : options.noScope = true) : Prepared a r (ofArena a (some r) options)
  | crawled {options : Options} {o : Option ScopeId} {t : Tree} (hr : a.isScope (some r) none)
      (h : scopeOfRoot (ofArena a (some r) options) = .ok o t) : Prepared a r t
  | traversed {σ : Type} {t : Tree} {own : σ} {s : Pass σ} {steps levels : Nat}
      (ht : Prepared a r t) (v : Script σ) (hsteps : traversalSteps a ≤ steps)
      (hlevels : Limits.traversal < levels)
      (hshallow : (final ((v.walker a).walk a levels [] r { own })).deepest < Limits.traversal)
      (h : v.dispatch.traverse steps ⟨t, own⟩ = .ok () s) : Prepared a r s.tree

theorem Prepared.ready (ha : a.WellOwned) (hr : (a.get? r).isSome) (ht : Prepared a r t) :
    t.Ready a r := by
  induction ht with
  | off h => exact ready_ofArena ha hr h
  | crawled hscope h => exact ready_scopeOfRoot ha hscope h
  | traversed _ v hsteps hlevels hshallow h ih =>
    exact ((v.ends_traverse ih hsteps hlevels _ hshallow).of_ok h).2

/-- A traversal of a tree that is ready ends as the walk does, whichever handlers do what the acts
do. -/
theorem passEnd_traverseBy (v : Script σ) {run : Act σ → Handler σ}
    (hrun : ∀ act, Heeds (.trail r) a act (run act)) (ht : t.Ready a r) {steps levels : Nat}
    (hsteps : traversalSteps a ≤ steps) (hlevels : Limits.traversal < levels) (own : σ)
    (hshallow : (final ((v.walker a).walk a levels [] r { own })).deepest < Limits.traversal) :
    passEnd ((v.dispatchBy run).traverse steps ⟨t, own⟩)
      = walkEnd ((v.walker a).walk a levels [] r { own }) := by
  have hends := v.ends_traverseBy hrun ht hsteps hlevels own hshallow
  cases hpass : (v.dispatchBy run).traverse steps ⟨t, own⟩ with
  | ok _ s =>
    obtain ⟨⟨b, x, hx, hown⟩, _⟩ := hends.of_ok hpass
    rw [hx]
    exact congrArg (Prod.mk none) hown
  | error e s =>
    obtain ⟨x, hx, hown⟩ := hends.of_error hpass
    rw [hx]
    exact congrArg (Prod.mk (some e)) hown

/-- **A traversal is the recursive walk.** However the tree was edited, if no pass is under way, the
path of the root is in use, and scopes are off or found, a visitor that does not edit ends a
traversal as it ends the plain walk of the tree, with the same error, if any, and the same state,
provided that no node that the walk visits lies at the level of the limit or below. -/
theorem traverse_eq_walk (v : Script σ) (ht : t.Ready a r) {steps levels : Nat}
    (hsteps : traversalSteps a ≤ steps) (hlevels : Limits.traversal < levels) (own : σ)
    (hshallow : (final ((v.walker a).walk a levels [] r { own })).deepest < Limits.traversal) :
    passEnd (v.dispatch.traverse steps ⟨t, own⟩)
      = walkEnd ((v.walker a).walk a levels [] r { own }) :=
  v.passEnd_traverseBy (heeds_handler (.trail r) a) ht hsteps hlevels own hshallow

/-- Something to do at every identifier: its name is noted, and at a second one the pass is to end.
-/
def nameNoter (a : Arena) : Script (List String) where
  typed := [(.ofType (.ofType .identifier), .enter, fun n names =>
    { own := names ++ (a.name? (some n)).toList
      requests := if names.isEmpty then [] else [.stop] })]

/-- The scopes of `let x; x; y` are found, and someone asks for the root to be skipped. A pass takes
no notice, and stops at the second identifier. -/
theorem traverse_nameNoter : ∃ o t, scopeOfRoot (ofArena letAndReads (some ⟨7⟩) {}) = .ok o t
    ∧ passEnd ((nameNoter letAndReads).dispatch.traverse (traversalSteps letAndReads)
      ⟨t.updatePath ⟨0⟩ ({ · with shouldSkip := true }), []⟩) = (none, ["x", "x"]) := by
  obtain ⟨o, t, hrun⟩ := exists_ok_of_passes (r := scopeOfRoot (ofArena letAndReads (some ⟨7⟩) {}))
    (by decide +kernel)
  have hready : t.Ready letAndReads ⟨7⟩ :=
    ready_scopeOfRoot (wellOwned_runAll _) (by decide +kernel) hrun
  refine ⟨o, t, hrun, ?_⟩
  have hasked : (t.updatePath ⟨0⟩ ({ · with shouldSkip := true })).Ready letAndReads ⟨7⟩ :=
    hready.updatePath ⟨0⟩ (fun _ => rfl) (fun _ => rfl) fun _ => rfl
  refine (traverse_eq_walk (nameNoter letAndReads) hasked (Nat.le_refl _) (Nat.lt_succ_self _) []
    (by decide +kernel)).trans ?_
  decide +kernel

def debuggerOnly : Arena := runAll [
  .alloc .debuggerStatement [],
  .alloc .program [.str "module", .list [], .list [some ⟨0⟩]]]

def debuggerAndBlock : Arena := runAll [
  .alloc .debuggerStatement [],
  .alloc .program [.str "module", .list [], .list [some ⟨0⟩]],
  .alloc .identifier [.str "x", .node none],
  .alloc .variableDeclarator [.node (some ⟨2⟩), .node none],
  .alloc .variableDeclaration [.str "let", .list [some ⟨3⟩]],
  .alloc .identifier [.str "x", .node none],
  .alloc .variableDeclarator [.node (some ⟨5⟩), .node none],
  .alloc .variableDeclaration [.str "let", .list [some ⟨6⟩]],
  .alloc .blockStatement [.list [], .list [some ⟨4⟩, some ⟨7⟩]],
  .listInsert (some ⟨1⟩) "body" 1 [some ⟨8⟩]]

def nodeNoter : Script (List NodeId) where
  general := [(.enter, fun n noted => { own := noted ++ [n] })]

/-- Scopes that were found once are not enough. The scope of `debugger` is found, and a block is
written into the program that cannot be crawled. The pass fails when it comes to the block, where
the walk goes on. -/
theorem traverse_ne_walk : debuggerAndBlock.WellOwned ∧ ∃ o t,
    scopeOfRoot (ofArena debuggerOnly (some ⟨1⟩) {}) = .ok o t
      ∧ (final ((nodeNoter.walker debuggerAndBlock).walk debuggerAndBlock 513 [] ⟨1⟩
        { own := [] })).deepest < Limits.traversal
      ∧ passEnd (nodeNoter.dispatch.traverse (traversalSteps debuggerAndBlock)
          ⟨{ t with arena := debuggerAndBlock }, []⟩)
        = (some (.duplicateDeclaration "x" "program.body[1].body[1].declarations[0]"), [⟨1⟩, ⟨0⟩])
      ∧ walkEnd ((nodeNoter.walker debuggerAndBlock).walk debuggerAndBlock 513 [] ⟨1⟩ { own := [] })
        = (none, [⟨1⟩, ⟨0⟩, ⟨8⟩, ⟨4⟩, ⟨3⟩, ⟨2⟩, ⟨7⟩, ⟨6⟩, ⟨5⟩]) := by
  have hrun : passes (scopeOfRoot (ofArena debuggerOnly (some ⟨1⟩) {})) (fun _ t =>
      passEnd (nodeNoter.dispatch.traverse (traversalSteps debuggerAndBlock)
          ⟨{ t with arena := debuggerAndBlock }, []⟩)
        = (some (.duplicateDeclaration "x" "program.body[1].body[1].declarations[0]"), [⟨1⟩, ⟨0⟩]))
        = true := by
    decide +kernel
  obtain ⟨o, t, hrun, hend⟩ := ok_of_passes hrun
  exact ⟨wellOwned_runAll _, o, t,
    hrun, by decide +kernel, of_decide_eq_true hend, by decide +kernel⟩

/-! ## scopes off -/

/-- **With scopes off a pass is the walk that goes down to the limit**, however deep the tree is. -/
theorem traverse_eq_walkOn (v : Script σ) (ht : t.Ready a r) (hoff : t.options.noScope = true)
    {steps : Nat} (hsteps : traversalSteps a ≤ steps) (own : σ) :
    passEnd (v.dispatch.traverse steps ⟨t, own⟩)
      = walkEnd ((v.walkerOn a (v.dispatch.shouldVisit a)).walk a Limits.traversal [] r
        { own }) := by
  have hagrees := v.agrees_traverseBy (heeds_handler (.trail r) a) ht
    (fun _ : true = true => hoff) hsteps own
  have harrive : (v.walkerOn a (v.dispatch.shouldVisit a)).arrive [] r { own } = { own } := by
    show (if _ then _ else _ : Walked σ) = _
    split <;> rfl
  have hwalk : (v.walkerOn a (v.dispatch.shouldVisit a)).walkAll a Limits.traversal [] [r] { own }
      = (v.walkerOn a (v.dispatch.shouldVisit a)).walk a Limits.traversal [] r { own } := by
    rw [Walker.walkAll, each_singleton, run_modify_bind, harrive]
  change (bridge σ a r true).Agrees _ _ (v.dispatch.traverse steps ⟨t, own⟩) at hagrees
  cases hplain : (v.walkerOn a (v.dispatch.shouldVisit a)).walk a Limits.traversal [] r { own } with
  | ok b x =>
    rw [run_bind_of_ok (hwalk.trans hplain)] at hagrees
    cases hpass : v.dispatch.traverse steps ⟨t, own⟩ with
    | ok _ s =>
      obtain ⟨_, x', hx, hown, -⟩ := hagrees.of_ok hpass
      obtain ⟨_, rfl⟩ := EStateM.Result.ok.inj hx
      exact congrArg (Prod.mk none) hown
    | error e s =>
      rcases hagrees.of_error hpass with ⟨x', hx, _⟩ | habort | hbad
      · cases hx
      · exact habort.elim
      · cases hbad.1
  | error e x =>
    rw [run_bind_of_error (hwalk.trans hplain)] at hagrees
    cases hpass : v.dispatch.traverse steps ⟨t, own⟩ with
    | ok _ s =>
      obtain ⟨_, x', hx, -⟩ := hagrees.of_ok hpass
      cases hx
    | error e' s =>
      rcases hagrees.of_error hpass with ⟨x', hx, hown⟩ | habort | hbad
      · obtain ⟨rfl, rfl⟩ := EStateM.Result.error.inj hx
        exact congrArg (Prod.mk (some e)) hown
      · exact habort.elim
      · cases hbad.1

end Script

end ScopedTree
