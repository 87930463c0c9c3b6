import ScopedTree.Proofs.Arena.Copy
import ScopedTree.Proofs.Pass.Reworked
import ScopedTree.Proofs.Pass.Traverse

/-!
# Passes that end at the limit

Blocks may be nested deeper than a pass goes down. The pass fails there, and does not come to what
stands behind them.

* `Arena.nestedBlocks`               a program of blocks, each in the next, and one more statement;
* `Script.walk_nested`               the walk down the blocks;
* `traverse_nestedBlocks`            the pass of handlers that leave all statements alone;
* `traverse_nestedBlocks_limit`      with the least number of blocks that is too many.
-/

namespace ScopedTree

open ScopedTree.Tree Arena

/-! ## nested blocks -/

namespace Arena

variable {a b : Arena} {k i : Nat} {ty : NodeType} {values : List Value}

/-- What is in the block `i + 1`: nothing in the first, and in the others the block before. -/
def innerBlock : Nat → List (Option NodeId)
  | 0 => []
  | i + 1 => [some ⟨i + 1⟩]

/-- Makes `debugger` and `k + 1` blocks. -/
def nestedWrites : Nat → List Write
  | 0 => [.alloc .debuggerStatement [], .alloc .blockStatement [.list [], .list (innerBlock 0)]]
  | k + 1 => nestedWrites k ++ [.alloc .blockStatement [.list [], .list (innerBlock (k + 1))]]

/-- A program of `k + 1` nested blocks and a statement behind them. -/
def nestedBlocks (k : Nat) : Arena :=
  runAll (nestedWrites k ++ [.alloc .program [.str "module", .list [],
    .list [some ⟨k + 1⟩, some ⟨0⟩]]])

def HasBlocks (a : Arena) (k : Nat) : Prop :=
  ∀ i ≤ k, (a.get? ⟨i + 1⟩).map Node.content = some (.blockStatement,
    [.list [], .list (innerBlock i)])

/-- The first `k + 1` blocks were made, and the last one and the statement stand in nothing. -/
structure Stacked (k : Nat) (a : Arena) : Prop where
  size : a.size = k + 2
  blocks : a.HasBlocks k
  statement : a.parentOf (some ⟨0⟩) = none
  last : a.parentOf (some ⟨k + 1⟩) = none

theorem runAll_concat (calls : List Write) (w : Write) :
    runAll (calls ++ [w]) = w.run (runAll calls) := by
  simp [runAll]

/-- A node that is made is the last one. It stands in nothing, and other nodes hold what they held.
-/
theorem run_alloc_content (h : a.Makeable ty values) : ∃ b, (Write.alloc ty values).run a = b
    ∧ b.size = a.size + 1 ∧ b.get? ⟨a.size⟩ = some { type := ty, values }
    ∧ (∀ q, q ≠ ⟨a.size⟩ → (b.get? q).map Node.content = (a.get? q).map Node.content)
    ∧ ∀ q, q ≠ ⟨a.size⟩ → q ∉ values.flatMap Value.children →
    b.parentOf (some q) = a.parentOf (some q) := by
  obtain ⟨b, hrun, hsize, hget⟩ := run_alloc h
  refine ⟨b, congrArg final hrun, hsize, (hget _).trans (if_pos rfl), fun q hq => ?_,
    fun q hq hmem => ?_⟩
  · rw [hget, if_neg hq, Option.map_map]
    refine congrArg (fun f => (a.get? q).map f) (funext fun m => ?_)
    show Node.content (if _ then _ else _) = _
    split <;> rfl
  · rw [parentOf_some, hget, if_neg hq]
    simp [hmem, parentOf_some]

namespace Stacked

theorem makeable (h : Stacked k a) (cs : List NodeId) (hfills : List.Forall₂ Fills ty.fields values)
    (hcs : values.flatMap Value.children = cs) (hnodup : cs.Nodup)
    (hsub : ∀ c ∈ cs, c = ⟨k + 1⟩ ∨ c = ⟨0⟩) : a.Makeable ty values := by
  refine ⟨hfills, hcs ▸ hnodup, fun c hc => ?_⟩
  rcases hsub c (hcs ▸ hc) with rfl | rfl
  · exact ⟨h.size ▸ Nat.lt_succ_self _, h.last⟩
  · exact ⟨h.size ▸ Nat.succ_pos _, h.statement⟩

theorem hasBlocks_of (h : Stacked k a)
    (hold : ∀ q, q ≠ ⟨a.size⟩ → (b.get? q).map Node.content = (a.get? q).map Node.content) :
    b.HasBlocks k := by
  intro i hi
  refine (hold _ fun he => ?_).trans (h.blocks i hi)
  have he : i + 1 = a.size := congrArg NodeId.index he
  have hsize := h.size
  omega

theorem succ (h : Stacked k a) :
    Stacked (k + 1) ((Write.alloc .blockStatement [.list [], .list (innerBlock (k + 1))]).run
      a) := by
  have hmake : a.Makeable .blockStatement [.list [], .list (innerBlock (k + 1))] :=
    h.makeable [⟨k + 1⟩] (.cons ⟨rfl, fun h => absurd h (by decide)⟩
      (.cons ⟨rfl, fun h => absurd h (by decide)⟩ .nil)) rfl (List.nodup_singleton _) (by simp)
  obtain ⟨b, hrun, hsize, hnew, hold, hparent⟩ := run_alloc_content hmake
  rw [hrun]
  have hk := h.size
  refine ⟨by rw [hsize, hk], fun i hi => ?_, ?_, ?_⟩
  · rcases Nat.le_or_eq_of_le_succ hi with hi | rfl
    · exact h.hasBlocks_of hold i hi
    · rw [show (⟨k + 1 + 1⟩ : NodeId) = ⟨a.size⟩ by rw [hk], hnew]
      rfl
  · refine (hparent ⟨0⟩ (fun he => ?_) (by simp [innerBlock, Value.children, Value.handles])).trans
      h.statement
    have he : 0 = a.size := congrArg NodeId.index he
    omega
  · rw [show (⟨k + 1 + 1⟩ : NodeId) = ⟨a.size⟩ by rw [hk], parentOf_some, hnew]
    rfl

end Stacked

theorem stacked_nestedWrites : ∀ k, Stacked k (runAll (nestedWrites k))
  | 0 => ⟨by decide, fun i hi => by obtain rfl := Nat.le_zero.1 hi; rfl, by decide, by decide⟩
  | k + 1 => by
    rw [nestedWrites, runAll_concat]
    exact (stacked_nestedWrites k).succ

theorem get?_nestedBlocks (k : Nat) : (nestedBlocks k).HasBlocks k ∧ (nestedBlocks k).get? ⟨k + 2⟩
    = some { type := .program, values := [.str "module", .list [],
      .list [some ⟨k + 1⟩, some ⟨0⟩]] } := by
  have h := stacked_nestedWrites k
  have hmake : (runAll (nestedWrites k)).Makeable .program
      [.str "module", .list [], .list [some ⟨k + 1⟩, some ⟨0⟩]] :=
    h.makeable [⟨k + 1⟩, ⟨0⟩] (.cons ⟨rfl, fun h => absurd h (by decide)⟩
      (.cons ⟨rfl, fun h => absurd h (by decide)⟩
        (.cons ⟨rfl, fun h => absurd h (by decide)⟩ .nil))) rfl (by simp) (by simp)
  obtain ⟨b, hrun, -, hnew, hold, -⟩ := run_alloc_content hmake
  rw [nestedBlocks, runAll_concat, hrun]
  exact ⟨h.hasBlocks_of hold, h.size ▸ hnew⟩

end Arena

/-! ## the pass -/

/-- The visitor that leaves all statements alone. -/
def SelfEditor.idle : SelfEditor Unit where
  choose _ _ _ := return (.stay, ())
  leave _ _ _ := ()

namespace Script

def note (phase : Phase) : Act (Watch Unit) := fun n w => { own := ⟨w.log ++ [.quiet n phase], ()⟩ }

/-- What is done at statements that are left alone. -/
def noter : Script (Watch Unit) where
  typed := [(.ofType (.ofGroup .statement), .enter, note .enter),
    (.ofType (.ofGroup .statement), .exit, note .exit)]

theorem handler_note (phase : Phase) : (note phase).handler = SelfEditor.idle.handler phase := by
  funext p s
  cases hn : s.tree.node p with
  | none =>
    unfold Act.handler SelfEditor.handler SelfEditor.enter SelfEditor.exit
    cases phase <;> (dsimp only; rw [run_ask_bind, run_ask_bind, hn])
  | some n =>
    obtain ⟨_, hrun⟩ :=
      SelfEditor.Quiet.run_handler (v := SelfEditor.idle) (fun _ _ => ⟨(), rfl⟩) hn phase
    rw [hrun, Act.handler_eq _ hn]
    exact congrArg (EStateM.Result.ok _) (congrArg (Pass.mk · _) (Request.updatePath_id ..))

theorem dispatch_noter : noter.dispatch = SelfEditor.idle.dispatch := by
  simp only [dispatch, noter, SelfEditor.dispatch, List.map_cons, List.map_nil, handler_note]
  rfl

variable {a : Arena} {k : Nat} {takes : NodeId → Bool} {above : List NodeId}

theorem call_noter {n : NodeId} {ty : NodeType} (hty : a.type? (some n) = some ty)
    (hstatement : ty.isA .statement = true) (phase : Phase) (x : Walked (Watch Unit)) :
    (noter.walkerOn a takes).call phase above n x
      = .ok (.go []) { x with own := ⟨x.own.log ++ [.quiet n phase], ()⟩ } := by
  have hacts : noter.acts a phase above n = [note phase] := by
    have hcovers : VisitKey.covers (.ofType (.ofGroup .statement)) ty = true := hstatement
    unfold acts
    rw [hty]
    cases phase <;> simp [cues, noter, hcovers, fits, VisitKey.check?]
  show play n [] (noter.acts a phase above n) x = _
  rw [hacts]
  rfl

theorem shouldVisit_block (ha : a.HasBlocks k) {i : Nat} (hi : i ≤ k) :
    noter.dispatch.shouldVisit a ⟨i + 1⟩ = true := by
  obtain ⟨o, ho, hcontent⟩ := Option.map_eq_some_iff.1 (ha i hi)
  obtain ⟨htype, -⟩ := Prod.mk.inj hcontent
  unfold Dispatch.shouldVisit
  rw [ho]
  dsimp only
  rw [htype]
  rfl

theorem walk_block (ha : a.HasBlocks k) {i levels : Nat} (hi : i ≤ k) {x x' : Walked (Watch Unit)}
    {e : TreeError} (hbelow : (noter.walkerOn a (noter.dispatch.shouldVisit a)).below a levels
      (⟨i + 1⟩ :: above)
      ((innerBlock i).filterMap id) { x with own := ⟨x.own.log ++ [.quiet ⟨i + 1⟩ .enter], ()⟩ }
      = .error e x') :
    (noter.walkerOn a (noter.dispatch.shouldVisit a)).walk a levels above ⟨i + 1⟩ x
      = .error e x' := by
  obtain ⟨o, ho, hcontent⟩ := Option.map_eq_some_iff.1 (ha i hi)
  obtain ⟨htype, hvalues⟩ := Prod.mk.inj hcontent
  have hty : a.type? (some ⟨i + 1⟩) = some .blockStatement := by simp [type?, ho, htype]
  have hkept : (o.keptChildren []).filter (noter.dispatch.shouldVisit a)
      = (innerBlock i).filterMap id := by
    have hkids : o.keptChildren [] = (innerBlock i).filterMap id := by
      obtain ⟨type, values⟩ := o
      obtain rfl : type = .blockStatement := htype
      obtain rfl : values = [.list [], .list (innerBlock i)] := hvalues
      cases i <;> rfl
    rw [hkids]
    cases i with
    | zero => rfl
    | succ i => exact List.filter_cons_of_pos (shouldVisit_block ha (Nat.le_of_succ_le hi))
  rw [Walker.walk_eq, Walker.visit, ho]
  dsimp only
  rw [htype, if_neg (by exact Bool.false_ne_true), run_bind_of_ok (call_noter hty rfl .enter x)]
  dsimp only
  change ((noter.walkerOn a (noter.dispatch.shouldVisit a)).below a levels (⟨i + 1⟩ :: above)
    ((o.keptChildren []).filter (noter.dispatch.shouldVisit a)) >>= _ : EStateM _ _ _) _ = _
  rw [hkept, run_bind_of_error hbelow]

/-- The walk down nested blocks, of which there are more than levels, fails at the limit. Before
that it is nowhere but in the blocks. -/
theorem walk_nested (ha : a.HasBlocks k) (levels : Nat) : ∀ {i : Nat} (above : List NodeId)
    (x : Walked (Watch Unit)),
    i ≤ k → levels ≤ i → ∃ x', (noter.walkerOn a (noter.dispatch.shouldVisit a)).walk a levels
    above ⟨i + 1⟩ x
      = .error .depthLimit x' ∧ x'.own.on ⟨0⟩ = x.own.on ⟨0⟩ := by
  have hon (i : Nat) (w : Watch Unit) : Watch.on ⟨w.log ++ [.quiet ⟨i + 1⟩ .enter], ()⟩ ⟨0⟩
      = w.on ⟨0⟩ := by
    rw [Watch.on_append]
    simp
  induction levels with
  | zero => exact fun {i} above x hi _ => ⟨_, walk_block ha hi rfl, hon i x.own⟩
  | succ levels ih =>
    intro i above x hi hlevels
    obtain ⟨j, rfl⟩ : ∃ j, i = j + 1 := ⟨i - 1, by omega⟩
    let w := noter.walkerOn a (noter.dispatch.shouldVisit a)
    let x₁ : Walked (Watch Unit) := { x with own := ⟨x.own.log ++ [.quiet ⟨j + 2⟩ .enter], ()⟩ }
    obtain ⟨x', hx', hon'⟩ := ih (⟨j + 2⟩ :: above) (w.arrive (⟨j + 2⟩ :: above) ⟨j + 1⟩ x₁)
      (Nat.le_of_succ_le hi) (Nat.le_of_succ_le_succ hlevels)
    refine ⟨x', walk_block ha hi ?_, ?_⟩
    · change w.walkAll a levels (⟨j + 2⟩ :: above) [⟨j + 1⟩] x₁ = _
      rw [Walker.walkAll, each_singleton, run_modify_bind]
      exact hx'
    · rw [hon', own_arrive]
      exact hon (j + 1) x.own

theorem walk_nestedBlocks {levels : Nat} (hk : levels ≤ k) (above : List NodeId)
    (x : Walked (Watch Unit)) :
    ∃ x', (noter.walkerOn (nestedBlocks k) (noter.dispatch.shouldVisit (nestedBlocks k))).walk
      (nestedBlocks k)
      (levels + 1) above ⟨k + 2⟩ x = .error .depthLimit x' ∧ x'.own.on ⟨0⟩ = x.own.on ⟨0⟩ := by
  obtain ⟨hblocks, hprogram⟩ := get?_nestedBlocks k
  generalize nestedBlocks k = a at *
  let w := noter.walkerOn a (noter.dispatch.shouldVisit a)
  obtain ⟨x', hx', hon⟩ := walk_nested hblocks levels (⟨k + 2⟩ :: above)
    (w.arrive (⟨k + 2⟩ :: above) ⟨k + 1⟩ x) (Nat.le_refl k) hk
  refine ⟨x', ?_, by rw [hon, own_arrive]⟩
  have hcall : w.call .enter above ⟨k + 2⟩ x = .ok (.go []) x := by
    show play _ [] (noter.acts a .enter above ⟨k + 2⟩) x = _
    have hacts : noter.acts a .enter above ⟨k + 2⟩ = [] := by
      unfold acts type?
      rw [look_some, hprogram]
      rfl
    rw [hacts]
    rfl
  have hbelow : w.below a (levels + 1) (⟨k + 2⟩ :: above)
      ([⟨k + 1⟩, ⟨0⟩].filter (noter.dispatch.shouldVisit a)) x = .error .depthLimit x' := by
    rw [List.filter_cons_of_pos (shouldVisit_block hblocks (Nat.le_refl k))]
    change (EStateM.bind _ _ : EStateM _ _ _) _ = _
    refine run_bind_of_error ?_
    rw [run_modify_bind]
    exact hx'
  rw [Walker.walk_eq, Walker.visit, hprogram]
  dsimp only
  rw [if_neg (by exact Bool.false_ne_true), run_bind_of_ok hcall]
  exact run_bind_of_error hbelow

end Script

/-- **What stands behind too many blocks is not reached.** The pass of handlers that leave all
statements alone fails at the limit, and the statement behind the blocks is not entered. -/
theorem traverse_nestedBlocks {k : Nat} (hk : Limits.traversal ≤ k + 1) {steps : Nat}
    (hsteps : Script.traversalSteps (nestedBlocks k) ≤ steps) :
    ∃ s, SelfEditor.idle.dispatch.traverse steps
      ⟨ofArena (nestedBlocks k) (some ⟨k + 2⟩) { noScope := true }, ⟨[], ()⟩⟩
      = .error .depthLimit s ∧ s.own.on ⟨0⟩ = [] := by
  have hpresent : ((nestedBlocks k).get? ⟨k + 2⟩).isSome := by
    rw [(get?_nestedBlocks k).2]
    rfl
  have hready : Ready (nestedBlocks k) ⟨k + 2⟩
      (ofArena (nestedBlocks k) (some ⟨k + 2⟩) { noScope := true }) :=
    ready_ofArena (wellOwned_runAll _) hpresent rfl
  obtain ⟨x', hwalk, hon⟩ :=
    Script.walk_nestedBlocks (Nat.le_of_succ_le_succ hk) [] { own := ⟨[], ()⟩ }
  have hpass := (Script.noter.traverse_eq_walkOn hready rfl hsteps ⟨[], ()⟩).trans
    (congrArg Script.walkEnd hwalk)
  rw [Script.dispatch_noter] at hpass
  cases hrun : SelfEditor.idle.dispatch.traverse steps
      ⟨ofArena (nestedBlocks k) (some ⟨k + 2⟩) { noScope := true }, ⟨[], ()⟩⟩ with
  | ok _ s =>
    rw [hrun] at hpass
    cases (Prod.mk.inj hpass).1
  | error e s =>
    rw [hrun] at hpass
    obtain ⟨herror, hown⟩ := Prod.mk.inj hpass
    obtain rfl := Option.some.inj herror
    refine ⟨s, rfl, ?_⟩
    rw [hown]
    exact hon

/-- A program with one block more than fit below the limit, and the statement behind them. -/
theorem traverse_nestedBlocks_limit : (nestedBlocks 511).WellOwned
    ∧ (nestedBlocks 511).Lists ⟨513⟩ "body" [some ⟨512⟩, some ⟨0⟩]
    ∧ ∃ s, SelfEditor.idle.dispatch.traverse (Script.traversalSteps (nestedBlocks 511))
        ⟨ofArena (nestedBlocks 511) (some ⟨513⟩) { noScope := true }, ⟨[], ()⟩⟩
        = .error .depthLimit s
      ∧ s.own.on ⟨0⟩ = [] :=
  ⟨wellOwned_runAll _, ⟨_, (get?_nestedBlocks 511).2, rfl⟩,
    traverse_nestedBlocks (Nat.le_refl _) (Nat.le_refl _)⟩

end ScopedTree
