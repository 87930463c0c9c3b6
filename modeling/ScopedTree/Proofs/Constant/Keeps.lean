import ScopedTree.Constant.Evaluate
import ScopedTree.Proofs.Scope.Crawls

/-!
# What evaluations keep

To evaluate is to look up paths and scopes and to remember values; what is kept by that is kept by
every evaluation, whether or not it finds a value.

* `Evaluation.Keeps`          steps of an evaluation that keep a property;
* `Tree.Learns`              what crawls keep, and remembered values;
* `Tree.Learns.evalLevels`, `Tree.Learns.evaluate`   evaluations keep it.
-/

namespace ScopedTree

open ScopedTree.Tree

variable {α β : Type} {P : Tree → Prop}

namespace Evaluation

/-- The steps keep the property, whatever was met before. -/
def Keeps (P : Tree → Prop) (x : EvalM α) : Prop := ∀ e, Stays P (x e)

theorem Keeps.bind {x : EvalM α} {f : α → EvalM β} (hx : Keeps P x) (hf : ∀ y, Keeps P (f y)) :
    Keeps P (x >>= f) := fun e => (hx e).bind fun y => hf y.1 y.2

theorem keeps_pure (x : α) : Keeps P (pure x : EvalM α) := fun _ => stays_pure _

theorem keeps_lift {x : TreeM α} (h : Stays P x) : Keeps P (liftM x : EvalM α) :=
  fun _ => h.bind fun _ => stays_pure _

theorem keeps_tree {f : Tree → EvalM α} (h : ∀ t, Keeps P (f t)) : Keeps P (getThe Tree >>= f) :=
  fun e t ht => h t e t ht

theorem keeps_get {f : Evaluation → EvalM α} (h : ∀ e, Keeps P (f e)) : Keeps P (get >>= f) :=
  fun e => h e e

theorem keeps_modify (f : Evaluation → Evaluation) : Keeps P (modify f : EvalM PUnit) :=
  fun _ => stays_pure _

theorem keeps_giveUp (p : PathId) : Keeps P (giveUp p) := fun _ => stays_pure _

theorem Keeps.whenKnown {x : EvalM (Option Primitive)} {f : Primitive → EvalM (Option Primitive)}
    (hx : Keeps P x) (hf : ∀ v, Keeps P (f v)) : Keeps P (whenKnown x f) := by
  refine hx.bind fun v => ?_
  cases v with
  | none => exact keeps_pure _
  | some v => exact hf v

theorem keeps_ofOption (p : PathId) (result : Option Primitive) :
    Keeps P (match result with
      | some result => return some result
      | none => giveUp p) := by
  cases result with
  | none => exact keeps_giveUp p
  | some result => exact keeps_pure _

theorem Keeps.unlessSeen {x : EvalM (Option Primitive)} (hx : Keeps P x) (p : PathId) :
    Keeps P (unlessSeen p x) := by
  refine keeps_tree fun t => keeps_get fun e => ?_
  split
  · exact keeps_pure _
  · exact keeps_giveUp p
  · exact hx

theorem Keeps.record {x : EvalM (Option Primitive)} (hx : Keeps P x) (p : PathId) :
    Keeps P (record p x) :=
  keeps_tree fun _ => (keeps_modify _).bind fun _ => hx.bind fun _ => (keeps_modify _).bind fun _ =>
    keeps_pure _

end Evaluation

namespace Tree

/-- A property that crawls keep, and that is kept when a value is remembered. -/
structure Learns (P : Tree → Prop) (k : Nat) : Prop extends Crawls P k where
  remember : ∀ t b v, P t → P (t.updateBinding b (·.remember v))

namespace Learns

open Evaluation

variable {k : Nat} (h : Learns P k)

include h

theorem follow (p : PathId) (key : String) : Keeps P (liftM (Tree.follow p key) : EvalM PathId) :=
  keeps_lift (h.paths.follow p key)

theorem entries (p : PathId) (key : String) : Keeps P (liftM (Tree.entries p key) :
    EvalM (List PathId)) :=
  keeps_lift (h.paths.entries p key)

section Forms

variable {eval : PathId → EvalM (Option Primitive)} (heval : ∀ p, Keeps P (eval p))

include heval

theorem evalChild (p : PathId) (field : String) : Keeps P (evalChild eval p field) :=
  (h.follow p field).bind heval

omit h in
theorem evalTemplate (quasis expressions : List PathId) (text : String) :
    Keeps P (evalTemplate eval quasis expressions text) := by
  induction quasis generalizing expressions text with
  | nil => exact keeps_pure _
  | cons quasi quasis ih =>
    refine keeps_tree fun t => (keeps_lift (stays_ofShape _)).bind fun cooked => ?_
    cases cooked with
    | none => exact keeps_giveUp quasi
    | some cooked =>
      cases expressions with
      | nil => exact ih [] _
      | cons e expressions => exact (heval e).whenKnown fun v => ih expressions _

theorem evalMember (p : PathId) : Keeps P (evalMember eval p) := by
  refine (h.follow p _).bind fun object => (h.follow p _).bind
    fun property => keeps_tree fun t => ?_
  dsimp only
  split
  · exact keeps_giveUp p
  · refine (heval object).whenKnown fun v => ?_
    split <;> exact keeps_pure _

theorem evalBound (p : PathId) (id : BindingId) (b : Binding) :
    Keeps P (evalBound eval p id b) := by
  refine keeps_tree fun t => ?_
  split
  · exact keeps_giveUp _
  · split
    · exact keeps_pure _
    · split
      · exact keeps_giveUp _
      · refine (h.follow _ _).bind fun target => (h.follow _ _).bind
          fun start => keeps_tree fun t => ?_
        split
        · exact keeps_giveUp _
        · refine (heval start).whenKnown fun v => ?_
          have hremember : Stays P (modify (·.updateBinding id (·.remember v)) : TreeM Unit) :=
            stays_modify fun t => h.remember t id v
          exact (keeps_lift hremember).bind fun _ => keeps_pure _

theorem evalIdentifier (p : PathId) : Keeps P (evalIdentifier eval p) := by
  refine keeps_tree fun t => ?_
  split
  · exact keeps_giveUp p
  · refine (keeps_lift (h.scopeOf p)).bind fun s => keeps_tree fun t => ?_
    split
    · exact h.evalBound heval p _ _
    · unfold evalUnbound
      split
      · exact keeps_pure _
      · exact keeps_pure _
      · exact keeps_pure _
      · exact keeps_giveUp p

theorem evalUnary (p : PathId) : Keeps P (evalUnary eval p) := by
  refine (keeps_tree fun t => keeps_pure _ : Keeps P (operator p)).bind fun op => ?_
  split
  · exact keeps_pure _
  · refine (h.follow p _).bind fun argument => keeps_tree fun t => ?_
    split
    · exact keeps_pure _
    · exact (heval argument).whenKnown fun v => keeps_ofOption p _

theorem evalBinary (p : PathId) : Keeps P (evalBinary eval p) :=
  (keeps_tree fun _ => keeps_pure _ : Keeps P (operator p)).bind fun _ =>
    (h.evalChild heval p _).whenKnown fun _ => (h.evalChild heval p _).whenKnown fun _ =>
      keeps_ofOption p _

theorem evalLogical (p : PathId) : Keeps P (evalLogical eval p) := by
  have hunknown : Keeps P evalLogical.unknown := (keeps_modify _).bind fun _ => keeps_pure _
  refine (keeps_tree fun t => keeps_pure _ : Keeps P (operator p)).bind
    fun op => keeps_get fun e => ?_
  refine (h.evalChild heval p _).bind fun left => keeps_get fun e =>
    (keeps_modify _).bind fun _ => ?_
  refine (h.evalChild heval p _).bind fun right => keeps_get fun e => ?_
  split
  · split
    · exact hunknown
    · split
      · exact keeps_giveUp p
      · refine (keeps_modify _).bind fun _ => ?_
        split
        · exact keeps_pure _
        · split <;> exact keeps_pure _
  · exact hunknown

theorem evalSequence (p : PathId) : Keeps P (evalSequence eval p) := by
  refine (h.entries p _).bind fun qs => ?_
  split
  · exact heval _
  · exact keeps_giveUp p

theorem evalConditional (p : PathId) : Keeps P (evalConditional eval p) :=
  (h.evalChild heval p _).whenKnown fun _ => h.evalChild heval p _

theorem evalNode (p : PathId) : Keeps P (evalNode eval p) := by
  refine keeps_get fun e => ?_
  split
  · exact keeps_pure _
  · refine keeps_tree fun t => ?_
    dsimp only
    split
    · exact keeps_giveUp p
    · split
      · exact h.evalSequence heval p
      · exact (keeps_lift (stays_ofShape _)).bind fun _ => keeps_pure _
      · exact (keeps_lift (stays_ofShape _)).bind fun _ => keeps_pure _
      · exact (keeps_lift (stays_ofShape _)).bind fun _ => keeps_pure _
      · exact keeps_pure _
      · exact (h.entries p _).bind fun quasis => (h.entries p _).bind fun expressions =>
          evalTemplate heval quasis expressions ""
      · exact h.evalConditional heval p
      · exact h.evalMember heval p
      · exact h.evalIdentifier heval p
      · exact h.evalUnary heval p
      · exact h.evalLogical heval p
      · exact h.evalBinary heval p
      · split
        · exact h.evalChild heval p _
        · exact keeps_giveUp p

end Forms

/-- **What crawls and remembered values keep, evaluations keep.** -/
theorem evalLevels (fuel : Nat) (p : PathId) : Keeps P (evalLevels fuel p) := by
  induction fuel generalizing p with
  | zero => exact (keeps_giveUp p).unlessSeen p
  | succ fuel ih => exact ((h.evalNode ih p).record p).unlessSeen p

theorem evaluate (p : PathId) : Stays P (Tree.evaluate p) := by
  refine (h.paths.assertLive p).bind fun _ => (h.evalLevels _ p {}).bind fun x => ?_
  obtain ⟨value, e⟩ := x
  dsimp only
  split
  · split <;> exact stays_pure _
  · exact stays_pure _

end Learns

end Tree

end ScopedTree
