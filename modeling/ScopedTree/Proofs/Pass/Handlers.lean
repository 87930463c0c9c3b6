import Mathlib.Data.List.Forall2
import ScopedTree.Pass.Engine
import ScopedTree.Proofs.Outcome

/-!
# The handlers of a node

* `Visitor.dispatch_eq`   the dispatch of a visitor whose keys are known;
* `Engine.turns`          the entries that fit a node, as they are run;
* `Engine.ends_turns_cons`   they are run one by one while they leave the path alone.
-/

namespace ScopedTree

variable {σ : Type}

/-! ## keys -/

/-- An entry with one key. -/
theorem VisitorEntry.dispatch_eq (e : VisitorEntry σ) {key : String} {k : VisitKey}
    (hbar : '|' ∉ key.toList) (hk : VisitKey.ofName? (trimBlank key) = some k) :
    e.dispatch key = .ok [⟨k, e.phase, e.run⟩] := by
  unfold VisitorEntry.dispatch
  rw [parts_of_not_mem hbar]
  simp only [List.mapM_cons, List.mapM_nil, hk]
  rfl

def KeysRead (entries : List (VisitorEntry σ)) (keys : List VisitKey) : Prop :=
  List.Forall₂ (fun e k => ∃ key, e.key = some key ∧ '|' ∉ key.toList
    ∧ VisitKey.ofName? (trimBlank key) = some k) entries keys

theorem foldlM_push {entries : List (VisitorEntry σ)} {keys : List VisitKey}
    (h : KeysRead entries keys) (d : Dispatch σ) :
    entries.foldlM Dispatch.push d = .ok { d with
      typed := d.typed ++ List.zipWith (fun e k => ⟨k, e.phase, e.run⟩) entries keys } := by
  unfold KeysRead at h
  induction h generalizing d with
  | nil => simp [pure, Except.pure]
  | @cons e k entries keys hek _ ih =>
    obtain ⟨key, hkey, hbar, hk⟩ := hek
    have hpush : Dispatch.push d e = .ok { d with typed := d.typed ++ [⟨k, e.phase, e.run⟩] } := by
      unfold Dispatch.push
      rw [hkey]
      simp only [e.dispatch_eq hbar hk]
      rfl
    rw [List.foldlM_cons, hpush]
    refine (ih _).trans ?_
    simp

/-- The dispatch of a visitor whose keys are known. -/
theorem Visitor.dispatch_eq (v : Visitor σ) {keys : List VisitKey} (h : KeysRead v.entries keys) :
    v.dispatch = .ok { denied := v.denied
                       typed := List.zipWith (fun e k => ⟨k, e.phase, e.run⟩) v.entries keys } := by
  unfold Visitor.dispatch
  rw [foldlM_push h]
  simp

/-! ## turns -/

namespace Engine

variable {p : PathId} {ty : NodeType} {phase : Phase} {node : Option NodeId} {s : Pass σ}
  {Q : Bool → Pass σ → Prop} {E : TreeError → Pass σ → Prop}

/-- The entries that fit a type and a phase, as they are run on a path. -/
def turns (p : PathId) (ty : NodeType) (phase : Phase) (entries : List (DispatchEntry σ)) :
    List ((Tree → Bool) × Handler σ) :=
  (entries.filter fun e => e.phase == phase && e.key.covers ty).map fun e =>
    ((fun t : Tree => e.key.passes t p), e.run)

section Turn

variable {check : Tree → Bool} {run : Handler σ} {rest : List ((Tree → Bool) × Handler σ)}
  {s' : Pass σ}

theorem runHandlers_of_not (hc : check s.tree = false) :
    runHandlers p node ((check, run) :: rest) s = runHandlers p node rest s := by
  rw [runHandlers]
  show (if check s.tree = true then _ else _ : PassM σ Bool) s = _
  rw [hc]
  rfl

/-- After a handler that succeeds the others have their turn, unless it changed the path. -/
theorem runHandlers_of_ok (hc : check s.tree = true) (hrun : run p s = .ok ⟨⟩ s') :
    runHandlers p node ((check, run) :: rest) s
      = if changed s'.tree p node then .ok true s' else runHandlers p node rest s' := by
  rw [runHandlers]
  show (if check s.tree = true then _ else _ : PassM σ Bool) s = _
  rw [hc, if_pos rfl, run_bind_of_ok hrun]
  show (if changed s'.tree p node = true then _ else _ : PassM σ Bool) s' = _
  cases changed s'.tree p node <;> rfl

theorem runHandlers_of_error {err : TreeError} (hc : check s.tree = true)
    (hrun : run p s = .error err s') :
    runHandlers p node ((check, run) :: rest) s = .error err s' := by
  rw [runHandlers]
  show (if check s.tree = true then _ else _ : PassM σ Bool) s = _
  rw [hc, if_pos rfl, run_bind_of_error hrun]

end Turn

theorem ends_runHandlers_cons {J : Pass σ → Prop} {check : Tree → Bool} {run : Handler σ}
    {rest : List ((Tree → Bool) × Handler σ)}
    (hrun : check s.tree → Ends (run p s) (fun _ s' => changed s'.tree p node = false ∧ J s') E)
    (hskip : check s.tree = false → J s)
    (hrest : ∀ s', J s' → Ends (runHandlers p node rest s') Q E) :
    Ends (runHandlers p node ((check, run) :: rest) s) Q E := by
  cases hc : check s.tree with
  | false =>
    rw [runHandlers_of_not hc]
    exact hrest s (hskip hc)
  | true =>
    have h := hrun hc
    cases hr : run p s with
    | error err s' =>
      rw [hr] at h
      rw [runHandlers_of_error hc hr]
      exact h
    | ok _ s' =>
      rw [hr] at h
      obtain ⟨hch, hJ⟩ := h
      rw [runHandlers_of_ok hc hr, hch]
      exact hrest s' hJ

/-- An entry that fits has its turn, and the others come next. -/
theorem ends_turns_cons {J : Pass σ → Prop} {x : DispatchEntry σ} {rest : List (DispatchEntry σ)}
    (hrun : x.phase = phase → x.key.covers ty → x.key.passes s.tree p →
      Ends (x.run p s) (fun _ s' => changed s'.tree p node = false ∧ J s') E)
    (hskip : ¬ (x.phase = phase ∧ x.key.covers ty ∧ x.key.passes s.tree p) → J s)
    (hrest : ∀ s', J s' → Ends (runHandlers p node (turns p ty phase rest) s') Q E) :
    Ends (runHandlers p node (turns p ty phase (x :: rest)) s) Q E := by
  by_cases hx : (x.phase == phase && x.key.covers ty) = true
  · have hcons : turns p ty phase (x :: rest)
        = ((fun t : Tree => x.key.passes t p), x.run) :: turns p ty phase rest := by
      unfold turns
      rw [List.filter_cons, if_pos hx, List.map_cons]
    rw [hcons]
    simp only [Bool.and_eq_true, beq_iff_eq] at hx
    exact ends_runHandlers_cons (hrun hx.1 hx.2)
      (fun hc => hskip fun h => by simp [h.2.2] at hc) hrest
  · have hcons : turns p ty phase (x :: rest) = turns p ty phase rest := by
      unfold turns
      rw [List.filter_cons, if_neg hx]
    rw [hcons]
    refine hrest s (hskip fun h => hx ?_)
    simp [h.1, h.2.1]

end Engine

end ScopedTree
