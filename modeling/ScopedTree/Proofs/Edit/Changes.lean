import ScopedTree.Proofs.Edit.Passes
import ScopedTree.Scope.Rename

/-!
# What changes of names keep

Besides edits of places, names are generated, declared, moved, removed and given to bindings, scopes
are crawled again, and passes edit the tree as they go. All that keeps what edits keep.

* `Visitor.runsOnly_dispatch`   the handlers of a pass are those of its visitor;
* `Tree.renameBinding`, `Tree.Bears.rename`   the pass of a renaming;
* `Change`, `Tree.Bears.change`   all that is done to a tree.
-/

namespace ScopedTree

variable {σ : Type}

/-! ## the handlers of a visitor -/

theorem VisitorEntry.run_of_dispatch (e : VisitorEntry σ) {key : String}
    {xs : List (DispatchEntry σ)} (h : e.dispatch key = .ok xs) : ∀ x ∈ xs, x.run = e.run := by
  unfold VisitorEntry.dispatch at h
  generalize parts '|' key = keys at h
  induction keys generalizing xs with
  | nil =>
    cases h
    exact fun x hx => nomatch hx
  | cons part keys ih =>
    rw [List.mapM_cons] at h
    obtain ⟨x, hx, h⟩ := bind_eq_ok.1 h
    obtain ⟨rest, hrest, h⟩ := bind_eq_ok.1 h
    cases h
    intro y hy
    rcases List.mem_cons.1 hy with rfl | hy
    · dsimp only at hx
      split at hx
      · cases hx
        rfl
      · cases hx
    · exact ih hrest y hy

/-- The handlers that are run are those of the entries. -/
def Dispatch.RunsOnly (d : Dispatch σ) (handlers : List (Handler σ)) : Prop :=
  (∀ x ∈ d.general, x.2 ∈ handlers) ∧ ∀ x ∈ d.typed, x.run ∈ handlers

theorem Dispatch.RunsOnly.push {d d' : Dispatch σ} {handlers : List (Handler σ)}
    {e : VisitorEntry σ} (h : d.RunsOnly handlers) (he : e.run ∈ handlers)
    (hpush : d.push e = .ok d') :
    d'.RunsOnly handlers := by
  unfold Dispatch.push at hpush
  split at hpush
  · cases hpush
    refine ⟨fun x hx => ?_, h.2⟩
    rcases List.mem_append.1 hx with hx | hx
    · exact h.1 x hx
    · rw [List.mem_singleton.1 hx]
      exact he
  · obtain ⟨xs, hxs, hpush⟩ := bind_eq_ok.1 hpush
    cases hpush
    refine ⟨h.1, fun x hx => ?_⟩
    rcases List.mem_append.1 hx with hx | hx
    · exact h.2 x hx
    · rw [e.run_of_dispatch hxs x hx]
      exact he

theorem Visitor.runsOnly_dispatch (v : Visitor σ) {d : Dispatch σ} (h : v.dispatch = .ok d) :
    d.RunsOnly (v.entries.map (·.run)) := by
  have hfold (entries : List (VisitorEntry σ)) (hsub : entries ⊆ v.entries) (d₀ : Dispatch σ)
      (h₀ : d₀.RunsOnly (v.entries.map (·.run)))
      (h : entries.foldlM Dispatch.push d₀ = .ok d) : d.RunsOnly (v.entries.map (·.run)) := by
    induction entries generalizing d₀ with
    | nil =>
      cases h
      exact h₀
    | cons e entries ih =>
      rw [List.foldlM_cons] at h
      obtain ⟨d₁, hpush, h⟩ := bind_eq_ok.1 h
      have he := List.mem_map_of_mem (f := VisitorEntry.run) (hsub (List.mem_cons_self ..))
      exact ih (fun x hx => hsub (List.mem_cons_of_mem _ hx)) d₁ (h₀.push he hpush) h
  exact hfold v.entries (List.Subset.refl _) _ ⟨fun _ hx => absurd hx List.not_mem_nil,
    fun _ hx => absurd hx List.not_mem_nil⟩ h

theorem Visitor.each_dispatch (v : Visitor σ) {d : Dispatch σ} {H : Handler σ → Prop}
    (h : v.dispatch = .ok d) (hv : ∀ e ∈ v.entries, H e.run) : d.Each H := by
  obtain ⟨hgeneral, htyped⟩ := v.runsOnly_dispatch h
  refine ⟨fun x hx => ?_, fun x hx => ?_⟩
  · obtain ⟨e, he, hrun⟩ := List.mem_map.1 (hgeneral x hx)
    exact hrun ▸ hv e he
  · obtain ⟨e, he, hrun⟩ := List.mem_map.1 (htyped x hx)
    exact hrun ▸ hv e he

namespace Tree

theorem engineOf_of_ok {v : Visitor σ} {assign : PathId → TreeM Unit} {d : Dispatch σ}
    (h : v.dispatch = .ok d) (t : Tree) :
    engineOf v assign t = .ok { dispatch := d, assign } t := by
  unfold engineOf
  rw [h]
  rfl

theorem engineOf_of_error {v : Visitor σ} {assign : PathId → TreeM Unit} {e : TreeError}
    (h : v.dispatch = .error e) (t : Tree) : engineOf v assign t = .error e t := by
  unfold engineOf
  rw [h]
  rfl

/-- What a renaming does once the new name is known. -/
def renameBinding (id : BindingId) (b : Binding) (old new : String) : TreeM (Option String) := do
  respell b old new
  rebind b.scope id old new
  return some new

end Tree

open ScopedTree.Tree

/-- What is done to a tree. -/
inductive Change where
  | edit (e : PathEdit)
  | crawl (s : ScopeId)
  | generate (s : ScopeId) (name : String)
  | declare (s : ScopeId) (id init : Option NodeId) (kind : String) (unique : Bool)
  | declareNew (s : ScopeId) (name : String)
  | rename (s : ScopeId) (old : String) (new : Option String)
  | removeBinding (s : ScopeId) (name : String)
  | removeOwnBinding (s : ScopeId) (name : String)
  | moveBinding (s : ScopeId) (name : String) (target : ScopeId)
  /-- A pass over the whole tree whose handlers edit it. -/
  | traverse (v : Editor Unit) (steps : Nat)

def Change.run : Change → TreeM Unit
  | edit e => e.run
  | crawl s => Tree.crawl s
  | generate s name => discard (generateUid s name)
  | declare s id init kind unique => discard (Tree.declare s id init kind unique)
  | declareNew s name => discard (declareUid s name)
  | rename s old new => discard (Tree.rename s old new)
  | removeBinding s name => Tree.removeBinding s name
  | removeOwnBinding s name => Tree.removeOwnBinding s name
  | moveBinding s name target => Tree.moveBinding s name target
  | traverse v steps => discard (TreeM.runPass () (v.dispatch.traverse steps))

def Change.IsPass : Change → Prop
  | traverse _ _ => True
  | _ => False

def Change.Rehomes : Change → Prop
  | rename _ _ _ | moveBinding _ _ _ => True
  | _ => False

namespace Tree

/-- A property that is kept when bindings come to belong elsewhere. -/
structure Rehomes (P : Tree → Prop) : Prop where
  rebind : ∀ s id old new, Stays P (Tree.rebind s id old new)
  moveBinding : ∀ s name target, Stays P (Tree.moveBinding s name target)

theorem Tableless.rehomes {P : Tree → Prop} (h : Tableless P) : Rehomes P where
  rebind s id old new := by
    refine (stays_modify fun t ht => ?_).bind fun _ => h.names.noteReference s new
    exact h.updateBinding _ _ (fun _ _ => ⟨_, new, .same⟩) (h.scope t s (fun _ => rfl) ht)
  moveBinding s name target := by
    refine stays_modify fun t ht => ?_
    split
    · exact ht
    · split
      · exact ht
      · refine h.scope _ _ (fun _ => rfl) ?_
        exact h.updateBinding _ _ (fun _ _ => ⟨target, _, .same⟩) (h.scope t _ (fun _ => rfl) ht)

namespace Bears

variable {ι : Type} {P : ι → Tree → Prop} {E : ι → TreeError → Tree → Prop} (h : Bears P E)

include h

/-! ## renaming -/

theorem setName (i : ι) (id : Option NodeId) (name : String) : Stays (P i) (Tree.setName id name) :=
  stays_get.bind fun _ => (stays_ofShape _).bind
    fun _ => stays_modify fun t => (h.edits i).arena 0 t _

theorem renameBound (i : ι) (r : Renaming) (p : PathId) : Stays (P i) (Tree.renameBound r p) := by
  unfold Tree.renameBound
  refine stays_get.bind fun t => ?_
  split
  · exact stays_pure _
  · exact Stays.forM (fun id => h.setName i _ _) _

theorem skipShadowed (i : ι) (r : Renaming) (p : PathId) :
    Leads (P i) (E i) (Tree.skipShadowed r p) := by
  unfold Tree.skipShadowed
  refine (h.scopeOf i p).bind fun s => ?_
  split
  · exact leads_pure _
  · refine leads_get.bind fun t => ?_
    split
    · exact ((h.names i).paths.modifyPath p _).leads (h.le i)
    · exact leads_pure _

theorem renameRead (i : ι) (r : Renaming) (p : PathId) : Stays (P i) (Tree.renameRead r p) := by
  unfold Tree.renameRead
  refine stays_get.bind fun t => ?_
  split
  · exact h.setName i _ _
  · exact stays_pure _

theorem renamer (r : Renaming) : ∀ e ∈ (ScopedTree.renamer r).entries, ∀ i p,
    Leads (Pass.Has (P i)) (Pass.Fails (E i)) (e.run p) := by
  intro e he i p
  simp only [ScopedTree.renamer, Visitor.enter, Visitor.add, List.nil_append, List.cons_append,
    List.mem_cons, List.not_mem_nil, or_false] at he
  rcases he with rfl | rfl | rfl
  · exact PassM.leads_onTree ((h.renameBound i r p).leads (h.le i))
  · exact PassM.leads_onTree (h.skipShadowed i r p)
  · exact PassM.leads_onTree ((h.renameRead i r p).leads (h.le i))

theorem respell (i : ι) (b : Binding) (old new : String) :
    Leads (P i) (E i) (Tree.respell b old new) := by
  intro t ht
  unfold Tree.respell
  cases hd : (ScopedTree.renamer { old, new, identifier := b.identifier }).dispatch with
  | error e =>
    rw [run_bind_of_error (engineOf_of_error hd t)]
    exact h.le i e t ht
  | ok d =>
    rw [run_bind_of_ok (engineOf_of_ok hd t)]
    have hpasses := h.passes (Visitor.each_dispatch _ hd
      (h.renamer { old, new, identifier := b.identifier })) i
    exact (leads_get.bind fun t₁ =>
      (PassM.leads_runPass ((hpasses _).traversePath _) ()).bind fun _ =>
      (h.setName i _ _).leads (h.le i)) t ht

theorem renameBinding (hr : ∀ i, Rehomes (P i)) (i : ι) (id : BindingId) (b : Binding)
    (old new : String) :
    Leads (P i) (E i) (renameBinding id b old new) :=
  (h.respell i b old new).bind fun _ => (((hr i).rebind _ _ _ _).leads (h.le i)).bind
    fun _ => leads_pure _

theorem rename (hr : ∀ i, Rehomes (P i)) (i : ι) (s : ScopeId) (old : String)
    (new : Option String) :
    Leads (P i) (E i) (Tree.rename s old new) := by
  unfold Tree.rename
  refine leads_get.bind fun t => ?_
  split
  · exact leads_pure _
  · next id b _ =>
    cases new with
    | none =>
      exact (((h.edits i).generateUid (m := 0) s old).leads (h.le i)).bind fun new =>
        h.renameBinding hr i id b old new
    | some new => exact (leads_pure _).bind fun new => h.renameBinding hr i id b old new

/-! ## the other changes -/

theorem removeOwnBinding (i : ι) (s : ScopeId) (name : String) :
    Stays (P i) (Tree.removeOwnBinding s name) := by
  refine stays_modify fun t ht => ?_
  split
  · exact (h.names i).retire t s name _ ht
  · exact ht

theorem removeBinding (i : ι) (s : ScopeId) (name : String) :
    Stays (P i) (Tree.removeBinding s name) := by
  have hforget : Stays (P i) (modify fun t => (t.scopeChain s).foldl (fun t c =>
      t.updateScope c fun d => { d with uids := d.uids.filter (· != name) }) t : TreeM Unit) := by
    refine stays_modify fun t ht => ?_
    generalize t.scopeChain s = chain
    induction chain generalizing t with
    | nil => exact ht
    | cons c chain ih => exact ih _ ((h.names i).scope t c (fun _ => ⟨rfl, rfl⟩) ht)
  unfold Tree.removeBinding
  refine stays_get.bind fun t => ?_
  split
  · exact (h.removeOwnBinding i _ name).bind fun _ => hforget
  · exact hforget

/-- **What edits keep, changes of names keep**, if it does not matter where bindings belong, and
passes do if failures leave enough to go on with. -/
theorem change (i : ι) (c : Change) (hr : c.Rehomes → ∀ i, Rehomes (P i))
    (hE : c.IsPass → ∀ i e t, E i e t → P i t) : Leads (P i) (E i) c.run := by
  have hedits := h.edits i
  cases c with
  | edit e => exact h.run i e
  | crawl s => exact h.crawl i s
  | generate s name => exact ((hedits.generateUid (m := 0) s name).leads (h.le i)).discard
  | declare s id init kind unique => exact (hedits.declare (m := 0) s id init kind unique).discard
  | declareNew s name => exact (hedits.declareUid (m := 0) s name).discard
  | rename s old new => exact (h.rename (hr trivial) i s old new).discard
  | removeBinding s name => exact (h.removeBinding i s name).leads (h.le i)
  | removeOwnBinding s name => exact (h.removeOwnBinding i s name).leads (h.le i)
  | moveBinding s name target => exact ((hr trivial i).moveBinding s name target).leads (h.le i)
  | traverse v steps =>
    exact (PassM.leads_runPass ((h.editor (hE trivial) v i steps).traverse) ()).discard

end Bears

theorem Endures.change {P : Tree → Prop} {k : Nat} (h : Endures P k) (c : Change)
    (hr : c.Rehomes → Rehomes P) : Stays P c.run :=
  (h.bears.change () c (fun hc _ => hr hc) fun _ _ _ _ ht => ht).stays

end Tree

end ScopedTree
