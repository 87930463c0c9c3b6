import ScopedTree.Proofs.Pass.Traverse

/-!
# Passes within passes

A handler may make a pass of its own, while the pass that it belongs to is under way. The flags that
handlers set are kept on paths, which all passes share. A pass of what lies below the node at hand
meets no path that the outer pass is amid, and goes unnoticed. A crawl of a scope around the node
does not.

* `Arena.Flat`              trees that are not too deep for a pass;
* `Script.Calm`             scripts that never fail, and their walks;
* `Errand`, `Act.amid`      passes that a handler makes before and after what it does;
* `Script.heeds_amid`       a handler does what it would do without them;
* `Script.traverse_amid`    **passes below the node at hand go unnoticed**;
* `traverse_skipAndCrawl`   a crawl undoes a request of the handler.
-/

namespace ScopedTree

open ScopedTree.Tree Arena

variable {σ τ : Type} {a : Arena} {t t' : Tree} {r n c : NodeId} {p : PathId} {above : List NodeId}
  {G : Ground r}

/-! ## trees that are not too deep -/

/-- All nodes below `r` lie above the level of the limit. -/
def Arena.Flat (a : Arena) (r : NodeId) : Prop :=
  ∀ n above, a.Under r n above → above.length < Limits.traversal

theorem Arena.Under.length_le (ha : a.Owned) (h : a.Under r n above) :
    above.length ≤ (a.above n).card := by
  induction h with
  | root => exact Nat.zero_le _
  | child _ hc ih =>
    exact Nat.succ_le_of_lt (ih.trans_lt (card_above_lt ha (ha.owner_of_child _ _ hc)))

theorem Arena.flat_of_size_lt (ha : a.Owned) (hsize : a.size < Limits.traversal) : a.Flat r :=
  fun n _ hu => ((hu.length_le ha).trans (card_above_le a n)).trans_lt hsize

namespace Script

/-- The script never fails. -/
structure Calm (v : Script σ) : Prop where
  general : ∀ x ∈ v.general, ∀ n own, (x.2 n own).failure = none
  typed : ∀ x ∈ v.typed, ∀ n own, (x.2.2 n own).failure = none

variable {v : Script σ} {takes : NodeId → Bool} {x : Walked σ}

theorem failure_of_mem_acts (hv : v.Calm) {act : Act σ} {phase : Phase}
    (hact : act ∈ v.acts a phase above n) (own : σ) : (act n own).failure = none := by
  unfold acts at hact
  cases hty : a.type? (some n) with
  | none =>
    rw [hty] at hact
    cases hact
  | some ty =>
    rw [hty] at hact
    obtain ⟨cue, hcue, rfl⟩ := List.mem_map.1 hact
    rcases List.mem_append.1 (List.mem_filter.1 hcue).1 with h | h
    · obtain ⟨y, hy, rfl⟩ := List.mem_map.1 h
      exact hv.general y (List.mem_filter.1 hy).1 n own
    · obtain ⟨y, hy, rfl⟩ := List.mem_map.1 h
      exact hv.typed y (List.mem_filter.1 hy).1 n own

/-- What is done at a node leaves the level alone, and fails only if the script does. -/
theorem ends_play {L : Prop} (acts : List (Act σ))
    (hacts : L → ∀ act ∈ acts, ∀ own, (act n own).failure = none) :
    ∀ (skipped : List String) (x : Walked σ), Ends (play n skipped acts x)
      (fun _ x' => x'.deepest = x.deepest) fun _ x' => x'.deepest = x.deepest ∧ ¬ L := by
  induction acts with
  | nil => exact fun _ _ => rfl
  | cons act acts ih =>
    intro skipped x
    rw [play, run_modifyGet_bind]
    dsimp only
    cases hfailure : (act n x.own).failure with
    | some e =>
      refine ⟨rfl, fun hL => ?_⟩
      cases (hacts hL act (List.mem_cons_self ..) x.own).symm.trans hfailure
    | none =>
      dsimp only
      split
      · rfl
      · split
        · rfl
        · exact ih (fun hL act hact => hacts hL act (List.mem_cons_of_mem _ hact)) _ _

theorem ends_each_of {α : Type} {P : α → Prop} {E : TreeError → α → Prop}
    {visit : NodeId → EStateM TreeError α Bool} (l : List NodeId)
    (h : ∀ c ∈ l, ∀ x, P x → Ends (visit c x) (fun _ => P) E) :
    ∀ x, P x → Ends (each visit l x) (fun _ => P) E := by
  induction l with
  | nil => exact fun x hx => hx
  | cons c l ih =>
    intro x hx
    refine ends_bind.2 ((h c (List.mem_cons_self ..) x hx).mono fun b x' hx' => ?_)
    cases b with
    | true => exact hx'
    | false => exact ih (fun c hc => h c (List.mem_cons_of_mem _ hc)) x' hx'

theorem mem_children_of_mem_keptChildren {o : Node} (ho : a.get? n = some o) {skipped : List String}
    (hc : c ∈ (o.keptChildren skipped).filter takes) : c ∈ a.children (some n) := by
  obtain ⟨f, -, hc⟩ := List.mem_flatMap.1 (List.mem_filter.1 hc).1
  rw [Arena.children_some, ho]
  exact (o.fieldChildren_sublist f.name).subset hc

theorem ends_below_of_walk (hflat : a.Flat r) {levels : Nat} (hu : a.Under r n above)
    (hwalk : ∀ c x, a.Under r c (n :: above) → x.deepest < Limits.traversal →
      Ends ((v.walkerOn a takes).walk a levels (n :: above) c x)
        (fun _ x' => x'.deepest < Limits.traversal) fun _ x' =>
        x'.deepest < Limits.traversal ∧ ¬ v.Calm)
    {cs : List NodeId} (hcs : ∀ c ∈ cs, c ∈ a.children (some n))
    (hx : x.deepest < Limits.traversal) :
    Ends ((v.walkerOn a takes).below a (levels + 1) (n :: above) cs x)
      (fun _ x' => x'.deepest < Limits.traversal)
      fun _ x' => x'.deepest < Limits.traversal ∧ ¬ v.Calm := by
  refine ends_each_of cs (fun c hc x hx => ?_) x hx
  rw [run_modify_bind]
  have huc := hu.child (hcs c hc)
  refine hwalk c _ huc ?_
  show (if _ then _ else _ : Walked σ).deepest < _
  split
  · exact max_lt hx (hflat c (n :: above) huc)
  · exact hx

/-- **The walk of a tree that is not too deep** does not come too deep, and fails only if its script
does. -/
theorem ends_walk_flat (hflat : a.Flat r) : ∀ (levels : Nat) (above : List NodeId) (n : NodeId)
    (x : Walked σ), a.Under r n above → Limits.traversal ≤ above.length + levels →
      x.deepest < Limits.traversal → Ends ((v.walkerOn a takes).walk a levels above n x)
        (fun _ x' => x'.deepest < Limits.traversal)
        fun _ x' => x'.deepest < Limits.traversal ∧ ¬ v.Calm
  | 0, above, n, _, hu, hlevels, _ => absurd (hflat n above hu) (by omega)
  | levels + 1, above, n, x, hu, hlevels, hx => by
    have hwalk (c : NodeId) (x : Walked σ) (huc : a.Under r c (n :: above))
        (hx : x.deepest < Limits.traversal) := ends_walk_flat hflat levels (n :: above) c x huc
      (by simp; omega) hx
    have hcall (phase : Phase) (x : Walked σ) (hx : x.deepest < Limits.traversal) :
        Ends ((v.walkerOn a takes).call phase above n x) (fun _ x' => x'.deepest < Limits.traversal)
          fun _ x' => x'.deepest < Limits.traversal ∧ ¬ v.Calm :=
      (ends_play _ (fun hv _ hact own => failure_of_mem_acts hv hact own) [] x).imp
        (fun _ x' h => h.trans_lt hx) fun _ x' h => ⟨h.1.trans_lt hx, h.2⟩
    rw [Walker.walk_eq, Walker.visit]
    cases ho : a.get? n with
    | none => exact hx
    | some o =>
      dsimp only
      split
      · exact hx
      · refine ends_bind.2 ((hcall .enter x hx).mono fun verdict x₁ hx₁ => ?_)
        cases verdict with
        | stop => exact hx₁
        | skip => exact hx₁
        | go skipped =>
          refine ends_bind.2 ((ends_below_of_walk hflat hu hwalk
            (fun c => mem_children_of_mem_keptChildren ho) hx₁).mono fun b x₂ hx₂ => ?_)
          cases b with
          | true => exact hx₂
          | false =>
            refine ends_bind.2 ((hcall .exit x₂ hx₂).mono fun verdict x₃ hx₃ => ?_)
            cases verdict <;> exact hx₃

theorem ends_below_flat (hflat : a.Flat r) (hv : v.Calm) {levels : Nat} (hu : a.Under r n above)
    (hlevels : Limits.traversal ≤ above.length + levels) {cs : List NodeId}
    (hcs : ∀ c ∈ cs, c ∈ a.children (some n)) (hx : x.deepest < Limits.traversal) :
    Ends ((v.walkerOn a takes).below a levels (n :: above) cs x)
      (fun _ x' => x'.deepest < Limits.traversal) fun _ _ => False := by
  have hlevel := hflat n above hu
  obtain ⟨levels, rfl⟩ : ∃ l, levels = l + 1 := ⟨levels - 1, by omega⟩
  refine (ends_below_of_walk hflat hu (fun c x huc hx => ends_walk_flat hflat levels _ c x huc
    (by simp; omega) hx) hcs hx).imp (fun _ _ h => h) fun _ _ h => h.2 hv

end Script

/-! ## passes that handlers make -/

/-- A pass of what lies below a node, by a script that never fails, with a state of its own. -/
structure Errand where
  State : Type
  script : Script State
  own : State
  calm : script.Calm

/-- Makes the pass. What it found is not looked at. -/
def Errand.run (x : Errand) (steps : Nat) (p : PathId) : PassM σ Unit := PassM.onTree do
  let _ ← TreeM.runPass x.own (x.script.dispatch.traversePath steps p)

/-- Makes all the passes that are called for at a node. -/
def runErrands (errands : NodeId → σ → List Errand) (steps : Nat) : Handler σ := fun p => do
  match ← PassM.ask (·.node p) with
  | none => return
  | some n => (errands n (← get).own).forM (·.run steps p)

/-- The handler of an act that makes passes before and after it. -/
def Act.amid (before after : NodeId → σ → List Errand) (steps : Nat) (act : Act σ) : Handler σ :=
  fun p => do
  runErrands before steps p
  act.handler p
  runErrands after steps p

namespace Script

/-- What a pass below a node leaves of the state `s`. Only paths below the node have other flags. -/
structure Unnoticed (G : Ground r) (a : Arena) (line : List NodeId) (s s' : Pass σ) : Prop where
  own : s'.own = s.own
  settled : s'.tree.Settled a r
  steady : s'.tree.Steady G
  moves : s.tree.Moves G s.tree.nextContext (· ∈ line) s'.tree
  frames : s'.tree.frames = s.tree.frames

variable {s s' s'' : Pass σ} {line : List NodeId}

theorem Unnoticed.refl (hs : s.tree.Steady G) (hset : s.tree.Settled a r) :
    Unnoticed G a line s s :=
  ⟨rfl, hset, hs, .refl _ _ _ _, rfl⟩

theorem Unnoticed.trans (h : Unnoticed G a line s s') (h' : Unnoticed G a line s' s'') :
    Unnoticed G a line s s'' :=
  ⟨h'.own.trans h.own, h'.settled, h'.steady, h.moves.trans h'.moves h.moves.nextContext
    fun _ h => h,
    h'.frames.trans h.frames⟩

theorem ends_ensureScope (v : Script σ) (hset : t.Settled a r) (hs : t.Steady G)
    (hp : G.Place t p n above) : Ends (v.dispatch.engine.ensureScope p t)
      (fun _ t' => t'.Settled a r ∧ t.Assigned G t') fun _ _ => Limits.traversal ≤ t.depth := by
  have hassign := (hset.assign hs hp).imp (fun _ _ h => h) fun _ _ h => h.2
  unfold Engine.ensureScope
  rw [run_get_bind]
  cases (t.path p).scope with
  | none => exact hassign
  | some c =>
    dsimp only
    split
    · exact hassign
    · exact ⟨hset, .refl hs⟩

section Errands

variable (hflat : a.Flat r) {steps : Nat} (hsteps : traversalSteps a ≤ steps) (hs : s.tree.Steady G)
  (hset : s.tree.Settled a r) (hp : G.Place s.tree p n above) (hnear : Near above s.tree.depth)

include hflat hsteps hs hset hp hnear

/-- **A pass below the node at hand** ends well and changes nothing but flags below the node. -/
theorem ends_errand (x : Errand) : Ends ((x.run steps p : PassM σ Unit) s)
    (fun _ s' => Unnoticed G a (n :: above) s s') fun _ _ => False := by
  have hB := x.script.sound (heeds_handler G a) false
  have hu : a.Under r n above := hset.arena ▸ G.under hp
  have hlevel := hflat n above hu
  obtain ⟨o, ho⟩ := hset.arena ▸ G.exists_get? hs.firm hp
  have hscope := ends_ensureScope x.script hset hs hp
  have hnear' := hnear.1
  unfold Errand.run Dispatch.traversePath Engine.traversePath
  refine ends_onTree.2 (ends_bind.2 (ends_runPass.2 (ends_bind.2 (ends_onTree.2 ?_))))
  show Ends ((do assertLive p; x.script.dispatch.engine.ensureScope p : TreeM Unit) s.tree) _ _
  rw [run_bind_of_ok (G.assertLive hs.firm hp)]
  refine hscope.imp (fun _ t₁ ⟨hset₁, h₁⟩ => ?_) fun _ _ hdeep =>
    absurd (hdeep.trans hnear') (by omega)
  have hp₁ := G.place (h₁.moves 0).grows hp
  have hdepth₁ : t₁.depth = s.tree.depth := (h₁.moves 0).depth
  obtain ⟨levels, hlevels⟩ : ∃ levels, s.tree.depth + levels = Limits.traversal :=
    ⟨Limits.traversal - s.tree.depth, by omega⟩
  have hneed : a.need levels - 1 ≤ steps := by
    have hmul : (levels + 1) * (a.childCount + 14) ≤ (Limits.traversal + 1) * (a.childCount + 14) :=
      Nat.mul_le_mul_right _ (by omega)
    unfold traversalSteps Arena.need at hsteps
    unfold Arena.need
    omega
  have hdeepest : ({ own := x.own } : Walked x.State).deepest < Limits.traversal :=
    (by decide : 0 < Limits.traversal)
  have hat : (bridge x.State a r false).At G levels p n above { own := x.own } ⟨t₁, x.own⟩ :=
    ⟨h₁.steady, ⟨rfl, hset₁, nofun⟩, hp₁, hdepth₁ ▸ hnear,
      (congrArg (· + levels) hdepth₁).trans hlevels⟩
  have hskipped (k : String) : (t₁.path p).skipKeys.contains k = (t₁.path p).skipKeys.contains k :=
    rfl
  have hnode := hB.visitNode (fun l _ => hB.paths l) ho steps (.inr hneed) hat hskipped
  obtain ⟨b, x', hwalk, hx'⟩ := (ends_below_flat (v := x.script) hflat x.calm hu
    (by omega : Limits.traversal ≤ above.length + levels)
    (fun c => mem_children_of_mem_keptChildren ho) hdeepest).exists_ok
  rw [run_ask_bind]
  dsimp only
  rw [G.node hp₁]
  refine ends_bind.2 (hnode.imp ?_ ?_)
  · rintro b s' ⟨_, _, _, hdone⟩
    exact ⟨rfl, hdone.inv.settled, hdone.steady, ((h₁.moves _).mono le_rfl fun _ _ => trivial).trans
      hdone.moves (h₁.moves 0).nextContext fun _ h => h, hdone.frames.trans h₁.frames⟩
  · rintro e s' (⟨y, hy, -⟩ | habort | hbad)
    · cases hwalk.symm.trans hy
    · exact habort
    · rw [hwalk] at hbad
      exact absurd hx' (Nat.not_lt.2 hbad.2)

theorem ends_forM_errands (errands : List Errand) :
    Ends ((errands.forM (·.run steps p) : PassM σ Unit) s)
    (fun _ s' => Unnoticed G a (n :: above) s s') fun _ _ => False := by
  induction errands generalizing s with
  | nil => exact .refl hs hset
  | cons x errands ih =>
    refine ends_bind.2 ((ends_errand hflat hsteps hs hset hp hnear x).mono fun _ s₁ h₁ => ?_)
    exact (ih h₁.steady h₁.settled (G.place h₁.moves.grows hp) (h₁.moves.depth ▸ hnear)).mono
      fun _ s' h' => h₁.trans h'

theorem ends_runErrands (errands : NodeId → σ → List Errand) : Ends (runErrands errands steps p s)
    (fun _ s' => Unnoticed G a (n :: above) s s') fun _ _ => False := by
  unfold runErrands
  rw [run_ask_bind, G.node hp]
  dsimp only
  rw [run_get_bind]
  exact ends_forM_errands hflat hsteps hs hset hp hnear _

end Errands

theorem flags_marks {d d' : PathData} (requests : List Request) (h : d.flags = d'.flags) :
    (Request.marks requests d).flags = (Request.marks requests d').flags := by
  induction requests generalizing d d' with
  | nil => exact h
  | cons request requests ih =>
    refine ih ?_
    have hskip := PathData.shouldSkip_of_flags h
    have hstop := PathData.shouldStop_of_flags h
    have hkeys := PathData.skipKeys_of_flags h
    cases request <;> simp [Request.mark, PathData.flags, hskip, hstop, hkeys]

/-- **A handler that makes passes below the node at hand** does what it would do without them. -/
theorem heeds_amid (hflat : a.Flat r) {steps : Nat} (hsteps : traversalSteps a ≤ steps)
    (before after : NodeId → σ → List Errand) (act : Act σ) :
    Heeds G a act (act.amid before after steps) := by
  intro s p n above hs hset hp hnear hdepth
  unfold Act.amid
  refine ends_bind.2 ((ends_runErrands hflat hsteps hs hset hp hnear before).imp
    (fun _ s₁ h₁ => ?_) fun _ _ h => h.elim)
  have hp₁ := G.place h₁.moves.grows hp
  have hnear₁ : Near above s₁.tree.depth := h₁.moves.depth ▸ hnear
  have hact := heeds_handler G a act s₁ p n above h₁.steady h₁.settled hp₁ hnear₁
    (h₁.moves.depth ▸ hdepth)
  rw [h₁.own] at hact
  refine ends_bind.2 (hact.mono fun _ s₂ ⟨hfailure, h₂⟩ => ?_)
  refine (ends_runErrands hflat hsteps h₂.steady h₂.settled (G.place h₂.moves.grows hp₁)
    (h₂.moves.depth ▸ hnear₁) after).imp (fun _ s₃ h₃ => ⟨hfailure, h₃.own.trans h₂.own, h₃.settled,
      h₃.steady, ?_, h₃.frames.trans (h₂.frames.trans h₁.frames), ?_⟩) fun _ _ h => h.elim
  · have h₁₂ := (h₁.moves.mono le_rfl fun _ h => List.mem_cons_of_mem n h).trans h₂.moves
      h₁.moves.nextContext fun _ h => h
    exact h₁₂.trans h₃.moves h₁₂.nextContext fun _ h => List.mem_cons_of_mem n h
  · -- the passes before and after leave the flags of the node itself alone
    rw [h₃.moves.flags p n (G.node (G.place h₂.moves.grows hp₁)) (List.mem_cons_self ..), h₂.flags]
    exact flags_marks _ (h₁.moves.flags p n (G.node hp) (List.mem_cons_self ..))

/-- **Passes that handlers make below the node at hand go unnoticed.** A traversal whose handlers
make any such passes, before and after what they do, and whatever those skip or stop, ends as it
would without them. The passes are made with `traversePath` at the node at hand; single visits,
passes elsewhere and crawls are others. -/
theorem traverse_amid (v : Script σ) (ha : a.WellOwned) (hr : (a.get? r).isSome)
    (ht : Prepared a r t) (hflat : a.Flat r) {steps : Nat} (hsteps : traversalSteps a ≤ steps)
    (before after : NodeId → σ → List Errand) (own : σ) :
    passEnd ((v.dispatchBy (Act.amid before after steps)).traverse steps ⟨t, own⟩)
      = passEnd (v.dispatch.traverse steps ⟨t, own⟩) := by
  have hshallow : (final ((v.walker a).walk a (Limits.traversal + 1) [] r { own })).deepest
      < Limits.traversal := by
    have hends : Ends ((v.walkerOn a fun _ => true).walk a (Limits.traversal + 1) [] r { own })
        (fun _ x' => x'.deepest < Limits.traversal) fun _ x' => x'.deepest < Limits.traversal
        ∧ ¬ v.Calm :=
      ends_walk_flat hflat _ [] r { own } .root (Nat.le_succ_of_le (Nat.le_add_left ..))
        (by decide : 0 < Limits.traversal)
    unfold Script.walker
    cases hrun : (v.walkerOn a fun _ => true).walk a (Limits.traversal + 1) [] r { own } with
    | ok b x => exact hends.of_ok hrun
    | error e x => exact (hends.of_error hrun).1
  have hready := ht.ready ha hr
  have hamid := v.passEnd_traverseBy (heeds_amid hflat hsteps before after) hready hsteps
    (Nat.lt_succ_self _) own hshallow
  have hplain := v.passEnd_traverseBy (heeds_handler (.trail r) a) hready hsteps
    (Nat.lt_succ_self _) own hshallow
  exact hamid.trans hplain.symm

def readAndDebugger : Arena := runAll [
  .alloc .identifier [.str "x", .node none],
  .alloc .expressionStatement [.node (some ⟨0⟩)],
  .alloc .debuggerStatement [],
  .alloc .program [.str "module", .list [], .list [some ⟨1⟩, some ⟨2⟩]]]

def stopper : Errand where
  State := Unit
  script := { general := [(.enter, fun _ own => { own, requests := [.stop] })] }
  own := ()
  calm := by
    refine ⟨fun x hx n own => ?_, nofun⟩
    obtain rfl := List.mem_singleton.1 hx
    rfl

/-- Passes that are stopped below each node do not stop the pass that they are made in. -/
theorem traverse_amid_stopper : passEnd ((nodeNoter.dispatchBy (Act.amid (fun _ _ => [stopper])
      (fun _ _ => [stopper]) (traversalSteps readAndDebugger))).traverse
      (traversalSteps readAndDebugger)
        ⟨ofArena readAndDebugger (some ⟨3⟩) { noScope := true }, []⟩)
    = (none, [⟨3⟩, ⟨1⟩, ⟨0⟩, ⟨2⟩]) := by
  have hwell : readAndDebugger.WellOwned := wellOwned_runAll _
  refine (traverse_amid nodeNoter hwell
    (by decide) (.off rfl) (flat_of_size_lt hwell.owned (by decide +kernel))
    (Nat.le_refl _) _ _ []).trans ?_
  decide +kernel

end Script

/-! ## crawls amid a pass -/

/-- Nodes are noted when they are entered and when they are left. At an expression statement
something is done besides. -/
def stepNoter (run : PathId → TreeM Unit) : Dispatch (List NodeId) :=
  let note : Handler (List NodeId) := fun p => do
    let t ← PassM.ask id
    PassM.note (· ++ (t.node p).toList)
  { general := [(.enter, note), (.exit, note)]
    typed := [⟨.ofType (.ofType .expressionStatement), .enter, fun p => PassM.onTree (run p)⟩] }

/-- A handler skips the statement `x` and crawls the program. The crawl comes by the statement and
clears its flags, so that the pass goes on to what was to be left out. -/
theorem traverse_skipAndCrawl : ∃ s s',
    (stepNoter Tree.skip).traverse (Script.traversalSteps Script.readAndDebugger)
        ⟨ofArena Script.readAndDebugger (some ⟨3⟩) {}, []⟩ = .ok () s
      ∧ (stepNoter fun p => do Tree.skip p; Tree.crawl ⟨0⟩).traverse
        (Script.traversalSteps Script.readAndDebugger)
        ⟨ofArena Script.readAndDebugger (some ⟨3⟩) {}, []⟩ = .ok () s'
      ∧ s.own = [⟨3⟩, ⟨1⟩, ⟨2⟩, ⟨2⟩, ⟨3⟩]
      ∧ s'.own = [⟨3⟩, ⟨1⟩, ⟨0⟩, ⟨0⟩, ⟨1⟩, ⟨2⟩, ⟨2⟩, ⟨3⟩] := by
  have hskip : passes ((stepNoter Tree.skip).traverse (Script.traversalSteps Script.readAndDebugger)
      ⟨ofArena Script.readAndDebugger (some ⟨3⟩) {}, []⟩)
      (fun _ s => s.own == [⟨3⟩, ⟨1⟩, ⟨2⟩, ⟨2⟩, ⟨3⟩]) = true := by decide +kernel
  have hcrawl : passes ((stepNoter fun p => do Tree.skip p; Tree.crawl ⟨0⟩).traverse
      (Script.traversalSteps Script.readAndDebugger)
      ⟨ofArena Script.readAndDebugger (some ⟨3⟩) {}, []⟩)
      (fun _ s => s.own == [⟨3⟩, ⟨1⟩, ⟨0⟩, ⟨0⟩, ⟨1⟩, ⟨2⟩, ⟨2⟩, ⟨3⟩]) = true := by decide +kernel
  obtain ⟨_, s, hrun, hs⟩ := ok_of_passes hskip
  obtain ⟨_, s', hrun', hs'⟩ := ok_of_passes hcrawl
  exact ⟨s, s', hrun, hrun', beq_iff_eq.1 hs, beq_iff_eq.1 hs'⟩

end ScopedTree
