import ScopedTree.Proofs.Pass.Script
import ScopedTree.Proofs.Pass.Settled

/-!
# Passes that do not edit

The pass of a script is the walk of the script. Scopes are off, or were found before.

* `Script.Matched`        how the states of a walk and of a pass belong together;
* `Script.Heeds`          handlers that do what an act does;
* `Script.agrees_runHandlers`   the handlers of a node do what the walk does there;
* `Script.sound`          all that is needed to compare the pass with the walk.
-/

namespace ScopedTree

open ScopedTree.Tree Arena

variable {σ : Type} {a : Arena} {t t' : Tree} {r n : NodeId} {G : Ground r} {off : Bool}
  {p : PathId} {above : List NodeId}

namespace Script

/-! ## handlers -/

/-- The state of a walk is the own state of a pass over a tree that is settled. -/
structure Matched (a : Arena) (r : NodeId) (off : Bool) (x : Walked σ) (s : Pass σ) : Prop where
  own : s.own = x.own
  settled : s.tree.Settled a r
  off : off = true → s.tree.options.noScope = true

/-- The walk of a script for its pass. New scopes may come too deep, unless scopes are off. -/
def bridge (σ : Type) (a : Arena) (r : NodeId) (off : Bool) : Bridge σ (Walked σ) where
  Inv := Matched a r off
  Fail x own := own = x.own
  Abort _ := False
  Bad x := off = false ∧ Limits.traversal ≤ x.deepest
  Arrived _ _ := True

/-- What a handler leaves of the state `s` that reacted so at a node. The paths of the nodes above
it are left alone. -/
structure Reacted (G : Ground r) (a : Arena) (p : PathId) (above : List NodeId) (x : Reaction σ)
    (s s' : Pass σ) : Prop where
  own : s'.own = x.own
  settled : s'.tree.Settled a r
  steady : s'.tree.Steady G
  moves : s.tree.Moves G s.tree.nextContext (· ∈ above) s'.tree
  frames : s'.tree.frames = s.tree.frames
  flags : (s'.tree.path p).flags = (Request.marks x.requests (s.tree.path p)).flags

/-- The handler does what the act does, as far as a pass can tell. -/
def Heeds (G : Ground r) (a : Arena) (act : Act σ) (run : Handler σ) : Prop :=
  ∀ s p n above, s.tree.Steady G → s.tree.Settled a r → G.Place s.tree p n above →
    Near above s.tree.depth → s.tree.depth ≤ Limits.traversal →
    Ends (run p s) (fun _ s' => (act n s.own).failure = none
      ∧ Reacted G a p above (act n s.own) s s')
      fun e s' => (act n s.own).failure = some e ∧ s'.own = (act n s.own).own

theorem reacted_marks {s : Pass σ} (hs : s.tree.Steady G) (hset : s.tree.Settled a r)
    (hp : G.Place s.tree p n above) (x : Reaction σ) :
    Reacted G a p above x s ⟨s.tree.updatePath p (Request.marks x.requests), x.own⟩ where
  own := rfl
  settled := hset.keeps rfl rfl (s.tree.sameNames_updatePath p _ fun _ => Request.scope_marks)
  steady := by
    refine ⟨G.firm_of_same (s.tree.samePlaces_updatePath p _ fun _ =>
      Request.position_marks) hs.firm,
      fun q c hq => ?_⟩
    rw [s.tree.path_updatePath_congr p q _ PathData.contexts fun _ => Request.contexts_marks] at hq
    exact hs.handedOut q c hq
  moves := Bridge.moves_updatePath (G.node hp) _ (fun _ => Request.position_marks)
    (fun _ => Request.contexts_marks) (.inr (G.not_mem hs.firm hp))
  frames := rfl
  flags := congrArg PathData.flags (path_updatePath_self _ _ (G.lt hp))

theorem heeds_handler (G : Ground r) (a : Arena) (act : Act σ) : Heeds G a act act.handler := by
  intro s p n above hs hset hp _ _
  rw [act.handler_eq (G.node hp)]
  cases (act n s.own).failure with
  | some e => exact ⟨rfl, rfl⟩
  | none => exact ⟨rfl, reacted_marks hs hset hp (act n s.own)⟩

theorem Reacted.changed {x : Reaction σ} {s s' : Pass σ} (h : Reacted G a p above x s s')
    (hp : G.Place s.tree p n above) (hskip : (s.tree.path p).shouldSkip = false)
    (hstop : (s.tree.path p).shouldStop = false) :
    Engine.changed s'.tree p (some n)
      = (x.requests.contains .stop || x.requests.contains .skip) := by
  have hp' := G.place h.moves.grows hp
  have hnode : (s'.tree.path p).node = some n := G.node hp'
  unfold Engine.changed
  dsimp only
  rw [hnode, (G.inUse h.steady.firm hp').1, PathData.shouldSkip_of_flags h.flags,
    PathData.shouldStop_of_flags h.flags, Request.shouldSkip_marks, Request.shouldStop_marks,
    hskip, hstop]
  cases x.requests.contains Request.stop <;> simp

/-- The state between two handlers of a node. -/
structure Playing (G : Ground r) (a : Arena) (off : Bool) (n : NodeId) (p : PathId)
    (above : List NodeId) (phase : Phase) (skipped : List String) (s₀ : Pass σ) (x : Walked σ)
    (s : Pass σ) : Prop where
  matched : Matched a r off x s
  steady : s.tree.Steady G
  place : G.Place s.tree p n above
  near : Near above s.tree.depth
  depth : s.tree.depth ≤ Limits.traversal
  moves : s₀.tree.Moves G s₀.tree.nextContext (· ∈ above) s.tree
  frames : s.tree.frames = s₀.tree.frames
  shouldSkip : (s.tree.path p).shouldSkip = false
  shouldStop : (s.tree.path p).shouldStop = false
  skipKeys : phase = .enter → ∀ k, (s.tree.path p).skipKeys.contains k = skipped.contains k

section Play

variable {phase : Phase} {skipped : List String} {s₀ s s' : Pass σ} {x : Walked σ}

theorem Playing.reacted (h : Playing G a off n p above phase skipped s₀ x s) {y : Reaction σ}
    (hy : Reacted G a p above y s s') : Matched a r off { x with own := y.own } s'
      ∧ s₀.tree.Moves G s₀.tree.nextContext (· ∈ above) s'.tree ∧ s'.tree.frames = s₀.tree.frames :=
  ⟨⟨hy.own, hy.settled, fun hoff => (G.sameOptions hy.moves.grows) ▸ h.matched.off hoff⟩,
    h.moves.trans hy.moves h.moves.nextContext fun _ h => h, hy.frames.trans h.frames⟩

/-- **The handlers of a node do what the walk does there.** -/
theorem agrees_runHandlers {run : Act σ → Handler σ} (hrun : ∀ act, Heeds G a act (run act))
    (cues : List (Option VisitKey × Act σ)) :
    ∀ (skipped : List String) (x : Walked σ) (s : Pass σ),
      Playing G a off n p above phase skipped s₀ x s →
      (bridge σ a r off).Agrees ((bridge σ a r off).Called G p above phase s₀)
        (play n skipped ((cues.filter fun cue => fits a above n cue.1).map (·.2)) x)
        (Engine.runHandlers p (some n) (cues.map fun cue =>
          ((fun t => cue.1.all (·.passes t p)), run cue.2)) s) := by
  induction cues with
  | nil =>
    intro skipped x s h
    refine agrees_pure ⟨h.shouldStop, fun hph => ⟨rfl, h.shouldSkip, h.skipKeys hph⟩,
      h.matched, h.steady, h.moves, h.frames⟩
  | cons cue cues ih =>
    intro skipped x s h
    obtain ⟨key, act⟩ := cue
    have hcheck : key.all (·.passes s.tree p) = fits a above n key := by
      unfold fits
      rw [← h.matched.settled.arena]
      cases key with
      | none => rfl
      | some key =>
        simp only [Option.all_some, VisitKey.passes]
        cases key.check? with
        | none => rfl
        | some check =>
          simp only [Option.all_some]
          rw [G.matches_eq h.steady.firm h.place]
    cases hfits : fits a above n key with
    | false =>
      rw [List.filter_cons_of_neg (by simp [hfits]), List.map_cons,
        Engine.runHandlers_of_not (hcheck.trans hfits)]
      exact ih skipped x s h
    | true =>
      have hends := hrun act s p n above h.steady h.matched.settled h.place h.near h.depth
      rw [List.filter_cons_of_pos (by simp [hfits]), List.map_cons, List.map_cons, play,
        run_modifyGet_bind, ← h.matched.own]
      dsimp only
      cases hturn : run act p s with
      | error e s' =>
        obtain ⟨hfailure, hown⟩ := hends.of_error hturn
        rw [hfailure, Engine.runHandlers_of_error (hcheck.trans hfits) hturn]
        exact .inl ⟨_, rfl, hown⟩
      | ok _ s' =>
        obtain ⟨hfailure, hreacted⟩ := hends.of_ok hturn
        obtain ⟨hmatched, hmoves, hframes⟩ := h.reacted hreacted
        have hstopped := PathData.shouldStop_of_flags hreacted.flags
        rw [Request.shouldStop_marks, h.shouldStop, Bool.false_or] at hstopped
        rw [hfailure, Engine.runHandlers_of_ok (hcheck.trans hfits) hturn]
        dsimp only
        rw [hreacted.changed h.place h.shouldSkip h.shouldStop]
        cases hstop : (act n s.own).requests.contains Request.stop with
        | true =>
          exact agrees_pure ⟨hstopped.trans hstop, fun _ => rfl, hmatched, hreacted.steady, hmoves,
            hframes⟩
        | false =>
          cases hskip : (act n s.own).requests.contains Request.skip with
          | true =>
            exact agrees_pure ⟨hstopped.trans hstop, fun _ => rfl, hmatched,
              hreacted.steady, hmoves, hframes⟩
          | false =>
            refine ih _ _ _ ⟨hmatched, hreacted.steady, G.place hreacted.moves.grows h.place,
              hreacted.moves.depth ▸ h.near, hreacted.moves.depth ▸ h.depth, hmoves, hframes, ?_,
              hstopped.trans hstop, ?_⟩
            · rw [PathData.shouldSkip_of_flags hreacted.flags, Request.shouldSkip_marks,
                hstop, hskip, h.shouldSkip, Bool.or_false, Bool.or_false]
            · intro hph k
              rw [PathData.skipKeys_of_flags hreacted.flags, Request.contains_skipKeys_marks]
              simp only [List.contains_append, h.skipKeys hph]

end Play

/-! ## the pass -/

theorem stays_play {P : Walked σ → Prop} (hP : ∀ x own, P x → P { x with own }) (n : NodeId)
    (acts : List (Act σ)) : ∀ skipped, Stays P (play n skipped acts) := by
  induction acts with
  | nil => exact fun _ => stays_pure _
  | cons act acts ih =>
    intro skipped x hx
    rw [play, run_modifyGet_bind]
    dsimp only
    cases (act n x.own).failure with
    | some e => exact hP x _ hx
    | none =>
      dsimp only
      split
      · exact hP x _ hx
      · split
        · exact hP x _ hx
        · exact ih _ _ (hP x _ hx)

/-- The handlers of a script, run in a way of their own. -/
def dispatchBy (v : Script σ) (run : Act σ → Handler σ) : Dispatch σ where
  general := v.general.map fun x => (x.1, run x.2)
  typed := v.typed.map fun x => ⟨x.1, x.2.1, run x.2.2⟩
  denied := v.denied

theorem shouldVisit_dispatchBy (v : Script σ) (run : Act σ → Handler σ) (a : Arena) :
    (v.dispatchBy run).shouldVisit a = v.dispatch.shouldVisit a := by
  funext n
  unfold Dispatch.shouldVisit
  cases a.get? n with
  | none => rfl
  | some o =>
    simp only [dispatchBy, dispatch, Dispatch.handles, List.isEmpty_map, List.any_map]
    rfl

theorem call_eq (v : Script σ) (run : Act σ → Handler σ) {phase : Phase} {ty : NodeType}
    {s : Pass σ} (hn : s.tree.node p = some n) (hty : s.tree.arena.type? (some n) = some ty) :
    (v.dispatchBy run).engine.call p phase s = Engine.runHandlers p (some n) ((v.cues ty phase).map
      fun cue => ((fun t => cue.1.all (·.passes t p)), run cue.2)) s := by
  unfold Engine.call
  rw [run_ask_bind]
  simp only [id_eq, hn, hty]
  congr 1
  simp [cues, dispatchBy, Dispatch.engine, Dispatch.generalHandlers, Dispatch.entries,
    List.filter_map, Function.comp_def]

/-- **The pass of a script does what the walk does**, as long as its handlers do what its acts do.
-/
theorem sound (v : Script σ) {run : Act σ → Handler σ} (hrun : ∀ act, Heeds G a act (run act))
    (off : Bool) : (bridge σ a r off).Sound G (v.dispatchBy run).engine
      (v.walkerOn a (v.dispatch.shouldVisit a)) a where
  arena _ _ h := h.settled.arena
  takes := (v.shouldVisit_dispatchBy run a).symm
  denied := rfl
  quiet _ _ _ h hg hn _ := ⟨h.own, h.settled.keeps (G.sameArena hg) (G.sameOptions hg) hn,
    fun hoff => (G.sameOptions hg) ▸ h.off hoff⟩
  quietArrived _ _ _ _ _ _ := trivial
  fail _ _ h := h.own
  arrive_bad _ _ _ h := ⟨h.1, h.2.trans deepest_le_arrive⟩
  call_bad _ _ n := stays_play (fun _ _ h => h) n _ _
  assign {levels p n above x s} h htakes := by
    refine (h.inv.settled.assign h.steady h.place).imp ?_ fun _ _ ⟨hon, hdeep⟩ => .inr ⟨?_, ?_⟩
    · rintro _ t' ⟨hset, hsame⟩
      exact ⟨hsame.steady, hsame.moves _, hsame.frames, ⟨h.inv.own.trans own_arrive.symm, hset,
        fun hoff => (G.sameOptions (hsame.moves 0).grows) ▸ h.inv.off hoff⟩, trivial⟩
    · cases off with
      | false => rfl
      | true => cases hon.symm.trans (h.inv.off rfl)
    · have hlevel : Limits.traversal ≤ above.length := hdeep.trans h.near.1
      refine hlevel.trans (length_le_deepest_arrive (htakes.resolve_right fun h => ?_))
      rw [h] at hlevel
      exact absurd hlevel (by decide)
  call {levels p n above x s} phase h harr _ hskip hstop := by
    obtain ⟨o, ho⟩ := G.exists_get? h.steady.firm h.place
    have hty : s.tree.arena.type? (some n) = some o.type := by simp [type?, ho]
    have hacts : v.acts a phase above n
        = ((v.cues o.type phase).filter fun cue => fits a above n cue.1).map (·.2) := by
      unfold acts
      rw [← h.inv.settled.arena, hty]
      rfl
    show (bridge σ a r off).Agrees _ (play n [] (v.acts a phase above n) x) _
    rw [v.call_eq run (G.node h.place) hty, hacts]
    exact agrees_runHandlers hrun (v.cues o.type phase) [] x s ⟨h.inv, h.steady, h.place, h.near,
      h.depth ▸ Nat.le_add_right .., .refl _ _ _ _, rfl, hskip, hstop,
      fun hph k => by rw [(harr hph).2]⟩

end Script

end ScopedTree
