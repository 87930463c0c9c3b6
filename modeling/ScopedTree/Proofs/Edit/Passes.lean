import ScopedTree.Proofs.Edit.Endures
import ScopedTree.Proofs.Edit.Forget
import ScopedTree.Proofs.Pass.Script
import ScopedTree.Proofs.Pass.Queued

/-!
# Passes with edits

The handlers of a pass may edit the tree that is being visited. What edits keep, their passes keep.

* `Deed`                    what a handler does, with all it may make it depend on;
* `Editor`                  a visitor of such handlers, with its keys read;
* `Tree.Bears.editor`       its passes keep what edits keep.
-/

namespace ScopedTree

open ScopedTree.Tree

variable {σ : Type}

/-! ## editors -/

/-- What a handler does: it may look at the tree and at its state, change the state, ask things of
the pass, edit the tree and go on whether or not that succeeds, and fail. -/
inductive Deed (σ : Type) where
  | done
  | fail (e : TreeError)
  | look (next : Tree → σ → Deed σ)
  | note (f : σ → σ) (next : Deed σ)
  | request (r : Request) (p : PathId) (next : Deed σ)
  | edit (e : PathEdit) (next : Except TreeError Unit → Deed σ)

def Deed.run : Deed σ → PassM σ Unit
  | done => return
  | fail e => throw e
  | look next => do
    let s ← get
    (next s.tree s.own).run
  | note f next => do
    PassM.note f
    next.run
  | request r p next => do
    PassM.onTree (r.on p)
    next.run
  | edit e next => do
    let outcome ← PassM.attempt (PassM.onTree e.run)
    (next outcome).run

/-- A visitor whose handlers do such things, with its keys read. -/
structure Editor (σ : Type) where
  /-- What is done at every path. -/
  general : List (Phase × (PathId → Deed σ)) := []
  /-- What is done at the paths that fit a key. -/
  typed : List (VisitKey × Phase × (PathId → Deed σ)) := []
  denied : List NodeType := []

def Editor.dispatch (v : Editor σ) : Dispatch σ where
  general := v.general.map fun x => (x.1, fun p => (x.2 p).run)
  typed := v.typed.map fun x => ⟨x.1, x.2.1, fun p => (x.2.2 p).run⟩
  denied := v.denied

/-! ## what their passes keep -/

theorem Tree.Charted.request {P : Tree → Prop} (h : Charted P) (r : Request) (p : PathId) :
    Stays P (r.on p) := by
  cases r with
  | skip => exact h.modifyPath p _
  | skipKey key => exact h.modifyPath p _
  | stop => exact h.modifyPath p _

namespace Tree.Bears

variable {ι : Type} {P : ι → Tree → Prop} {E : ι → TreeError → Tree → Prop} (h : Bears P E)

include h

theorem passes {d : Dispatch σ}
    (hd : d.Each fun run => ∀ i p, Leads (Pass.Has (P i)) (Pass.Fails (E i)) (run p)) (i : ι)
    (steps : Nat) :
    d.engine.Passes (P i) (E i) steps :=
  h.pass d Tree.crawl (.inl rfl) h.crawl hd i steps

variable (hE : ∀ i e t, E i e t → P i t)

include hE

theorem deed (i : ι) (deed : Deed σ) : Leads (Pass.Has (P i)) (Pass.Fails (E i)) deed.run := by
  have hle (e : TreeError) (s : Pass σ) : Pass.Has (P i) s → Pass.Fails (E i) e s := h.le i e s.tree
  induction deed with
  | done => exact leads_pure _
  | fail e => exact leads_throw hle e
  | look next ih => exact leads_get.bind fun s => ih s.tree s.own
  | note f next ih => exact ((Names.note f).leads hle).bind fun _ => ih
  | request r p next ih =>
    exact ((PassM.stays_onTree ((h.names i).paths.request r p)).leads hle).bind fun _ => ih
  | edit e next ih =>
    exact (PassM.leads_attempt (PassM.leads_onTree (h.run i e)) fun e s => hE i e s.tree).bind
      fun outcome =>
      ih outcome

theorem editor (v : Editor σ) (i : ι) (steps : Nat) : v.dispatch.engine.Passes (P i)
    (E i) steps := by
  refine h.passes ⟨fun x hx i p => ?_, fun x hx i p => ?_⟩ i steps
  · obtain ⟨y, _, rfl⟩ := List.mem_map.1 hx
    exact h.deed hE i _
  · obtain ⟨y, _, rfl⟩ := List.mem_map.1 hx
    exact h.deed hE i _

end Tree.Bears

end ScopedTree
