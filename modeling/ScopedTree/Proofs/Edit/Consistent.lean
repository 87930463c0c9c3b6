import ScopedTree.Proofs.Constant.Keeps
import ScopedTree.Proofs.Edit.Changes
import ScopedTree.Proofs.Edit.Reached

/-!
# Records stay consistent

However a tree is used, the counts and flags of each binding agree with its lists: crawls and edits
change records one step at a time, and so does what is asked of a single binding.

* `BindingCall`               what is asked of a single binding;
* `Action`                    all that is done to a tree, its names and its bindings;
* `Tree.Consistent.endures`   edits keep records consistent;
* `Action.consistent`         so does every action;
* `Tree.consistent_runActions`   and any sequence of them.
-/

namespace ScopedTree

open ScopedTree.Tree

/-- What is asked of a single binding. -/
inductive BindingCall where
  | reference (p : PathId)
  | dereference (p : PathId)
  | reassign (p : PathId)
  | remember (value : Primitive)
  | clearMemo
  | refuseMemo

def BindingCall.apply : BindingCall → Binding → Binding
  | reference p, b => b.reference p
  | dereference p, b => b.dereference p
  | reassign p, b => b.reassign p
  | remember value, b => b.remember value
  | clearMemo, b => b.clearMemo
  | refuseMemo, b => b.refuseMemo

theorem Binding.Consistent.apply {b : Binding} (h : b.Consistent) (c : BindingCall) :
    (c.apply b).Consistent := by
  cases c with
  | reference p => exact h.reference p
  | dereference p => exact h.dereference p
  | reassign p => exact h.reassign p
  | remember value => exact h.remember value
  | clearMemo => exact h.clearMemo
  | refuseMemo => exact h.refuseMemo

/-- What is done to a tree, its names and its bindings. -/
inductive Action where
  /-- The nodes are changed in any way. -/
  | nodes (a : Arena)
  | change (c : Change)
  | call (c : PathCall)
  | registerBinding (s : ScopeId) (kind : BindingKind) (p : PathId)
  | registerDeclaration (s : ScopeId) (p : PathId)
  | registerViolation (s : ScopeId) (p : PathId)
  | evaluate (p : PathId)
  | binding (b : BindingId) (c : BindingCall)

def Action.run : Action → TreeM Unit
  | nodes a => modify ({ · with arena := a })
  | change c => c.run
  | call c => c.run
  | registerBinding s kind p => Tree.registerBinding s kind p
  | registerDeclaration s p => Tree.registerDeclaration s p
  | registerViolation s p => Tree.registerViolation s p
  | evaluate p => discard (Tree.evaluate p)
  | binding b c => modify (·.updateBinding b c.apply)

namespace Tree

variable {t t' : Tree}

def runActions (actions : List Action) (t : Tree) : Tree :=
  actions.foldl (fun t action => final (action.run t)) t

namespace Consistent

theorem congr (h : t.Consistent) (hb : t'.bindings = t.bindings) : t'.Consistent := by
  intro b record hr
  unfold binding? at hr
  rw [hb] at hr
  exact h b record hr

theorem updateBinding (h : t.Consistent) (b : BindingId) {f : Binding → Binding}
    (hf : ∀ x : Binding, x.Consistent → (f x).Consistent) : (t.updateBinding b f).Consistent := by
  intro c record hr
  rw [binding?_updateBinding] at hr
  split at hr
  · obtain ⟨old, hold, rfl⟩ := Option.map_eq_some_iff.1 hr
    exact hf old (h b old hold)
  · exact h c record hr

theorem pathless : Pathless Consistent := fun _ _ hsame h => h.congr hsame.bindings

theorem tableless : Tableless Consistent where
  paths := pathless.charted
  scope _ _ _ _ h := h.congr rfl
  bindings _ _ hdevelops h :=
    hdevelops.all (fun _ hnew => hnew.consistent)
      (fun _ _ scope name hb hbecomes => (hb.rehomed scope name).becomes hbecomes) h
  newScope _ _ _ _ h := h.congr rfl

theorem crawls : Crawls Consistent 0 where
  __ := tableless.names
  stack := pathless.stack
  next _ _ := Nat.zero_le _
  depth _ _ h := h.congr rfl
  push _ _ _ h := h.congr rfl
  pop _ _ _ h := h.congr rfl
  update _ _ _ _ _ h := h.congr rfl

/-- **Edits keep records consistent.** -/
theorem endures : Endures Consistent 0 where
  toCrawls := crawls
  pathless := pathless
  nodes _ _ _ h := h.congr rfl
  registry _ _ _ _ h := h.congr rfl
  counter _ _ _ _ _ _ h := h.congr rfl
  queue _ _ _ _ h := h.congr rfl
  forget := crawls.invalidate (fun _ _ h => h.congr rfl) fun _ _ _ h => h.congr rfl

theorem learns : Learns Consistent 0 where
  toCrawls := crawls
  remember _ b v h := h.updateBinding b fun _ hx => hx.remember v

end Consistent

end Tree

/-- **Each action keeps records consistent**, whether it succeeds or fails. -/
theorem Action.consistent (action : Action) : Stays Consistent action.run := by
  cases action with
  | nodes a => exact stays_modify fun _ h => h.congr rfl
  | change c => exact Consistent.endures.change c fun _ => Consistent.tableless.rehomes
  | call c => exact Consistent.endures.call c
  | registerBinding s kind p => exact Consistent.crawls.registerBinding s kind p
  | registerDeclaration s p => exact Consistent.crawls.registerDeclaration s p
  | registerViolation s p => exact Consistent.crawls.registerViolation s p
  | evaluate p => exact (Consistent.learns.evaluate p).discard
  | binding b c => exact stays_modify fun _ h => h.updateBinding b fun _ hx => hx.apply c

namespace Tree

theorem Consistent.runActions {t : Tree} (h : t.Consistent) (actions : List Action) :
    (t.runActions actions).Consistent := by
  induction actions generalizing t with
  | nil => exact h
  | cons action actions ih => exact ih (action.consistent t h)

/-- **The records of a tree are consistent, whatever is done to it.** After any actions, failed ones
too, each binding has as many references as paths that read it, is referenced if there are any, is
constant if no path writes it, lists no path twice, and has a value exactly if it says so, which is
never while values are refused. -/
theorem consistent_runActions (a : Arena) (root : Option NodeId) (options : Options)
    (actions : List Action) : ((ofArena a root options).runActions actions).Consistent := by
  have hstart : (ofArena a root options).Consistent := fun b record hr => by
    simp [binding?, ofArena] at hr
  exact hstart.runActions actions

end Tree

end ScopedTree
