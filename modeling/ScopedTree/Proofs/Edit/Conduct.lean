import ScopedTree.Proofs.Edit.Changes
import ScopedTree.Proofs.Edit.Reached
import ScopedTree.Proofs.Pass.Restores
import ScopedTree.Proofs.Pass.Traverse
import ScopedTree.Proofs.Scope.Requests

/-!
# What passes leave behind

A pass may do anything to the tree through its handlers, make passes of its own among that, and
fail. Frames, depth and contexts are put back all the same, unless a scope could not be assigned:
the path that was to be visited then keeps a context of a frame that is gone.

* `Tree.Strands`            what leaves such a context behind;
* `Tree.Restores.bears`     edits, crawls and passes put back what they find;
* `Conduct`                 what handlers do;
* `Tree.SameStacks`         all is put back, save for contexts on top of paths that stray;
* `Dispatch.sameStacks`     what passes put back, however they end;
* `Tree.Reached.ready`      trees in use are ready for passes that do not edit.
-/

namespace ScopedTree

theorem Frame.grows_queue (p : PathId) (priority : Bool) (f : Frame) :
    f.Grows (f.queue p priority) := by
  have hadd (ps : List PathId) : ps <+: Tree.addOnce ps p := by
    unfold Tree.addOnce
    split
    · exact List.prefix_refl _
    · exact List.prefix_append ..
  cases priority with
  | true => exact ⟨rfl, rfl, rfl, rfl, List.prefix_refl _, hadd f.priority⟩
  | false => exact ⟨rfl, rfl, rfl, rfl, hadd f.pending, List.prefix_refl _⟩

namespace Tree

variable {k : Nat} {t t' : Tree}

theorem assignWith_of_noScope (crawl : ScopeId → TreeM Unit) (p : PathId)
    (hoff : t.options.noScope = true) :
    assignWith crawl p t = .ok ⟨⟩ t := by
  unfold assignWith assignUpTo
  rw [run_get_bind, run_get_bind, if_pos hoff]
  rfl

/-- A path had been put on a frame from `k` on when the scopes on the way to it were to be assigned,
and the crawl of one of them failed with the error and left the tree. -/
def Strands (k : Nat) (e : TreeError) (t' : Tree) (p : PathId) : Prop :=
  ∃ crawl t id, IsCrawl crawl ∧ k ≤ id.index ∧ (t.path p).contexts.head? = some id
    ∧ assignWith crawl p t = .error e t'

/-- A crawl failed on the way to a path that had been put on a frame from `k` on, and someone caught
the error. -/
def Strayed (catches : Prop) (k : Nat) (p : PathId) : Prop := catches ∧ ∃ e t', Strands k e t' p

namespace Restores

theorem tableless (strays : PathId → Prop) (k : Nat) (t : Tree) :
    Tableless (Restores strays k t) where
  paths := (tracked strays k t).charted
  scope _ _ _ _ h := h.congr rfl rfl rfl rfl rfl
  bindings _ _ _ h := h.congr rfl rfl rfl rfl rfl
  newScope _ _ _ _ h := h.congr rfl rfl rfl rfl rfl

theorem names (strays : PathId → Prop) (k : Nat) (t : Tree) : Names (Restores strays k t) :=
  (tableless strays k t).names

theorem sweeps (strays : PathId → Prop) (k : Nat) :
    Sweeps (Restores strays k) (Leaves strays (Strands k) k) where
  names := names strays k
  le _ e _ h := h.leaves e
  note t e t' p f hf h :=
    (tracked _ k t).path t' p f (fun d => (hf d).2) (h.unwinding ⟨_, _, _, rfl⟩)
  pass d crawl hcrawl hleads hd t steps := by
    refine Engine.Restoring.passes ⟨fun t p => ?_, fun t p id e t' hid htop hr => ⟨?_, ?_⟩, ?_⟩ t
      steps
    · exact (names strays k t).assignWith (hleads t) p
    · by_contra hscope
      cases (assignWith_of_noScope crawl p (by simpa using hscope)).symm.trans hr
    · exact ⟨crawl, t, id, hcrawl, hid, htop, hr⟩
    · exact hd.mono fun run hrun p t => hrun t p

/-- **Edits, crawls and passes put back what they find.** -/
theorem bears (strays : PathId → Prop) (k : Nat) : Bears (Restores strays k)
    (Leaves strays (Strands k) k) where
  toSweeps := sweeps strays k
  edits t := by
    have htracked := tracked strays k t
    exact
    { names := fun _ => names strays k t
      le := fun _ e _ h => h.leaves e
      crawl := (sweeps strays k).crawl t
      registerSubtree := (sweeps strays k).registerSubtree t
      mono := fun _ _ _ _ => ⟨id, fun _ => id⟩
      known := fun m t' h => ⟨max m t'.paths.size, le_max_left .., le_max_right .., h⟩
      child := fun m t' p owner slot _ h =>
        (stays_iff.1 (htracked.getOrCreatePath (some p) owner slot) t' h).mono fun q _ h =>
          ⟨max m (q.index + 1), le_max_left .., Nat.lt_of_succ_le (le_max_right ..), h⟩
      arena := fun _ _ _ h => h.congr rfl rfl rfl rfl rfl
      slide := fun _ t' p f hf => htracked.path t' p f fun d => (hf d).2
      fill := fun _ t' p _ f _ _ hf => htracked.path t' p f fun d => (hf d).2
      fillRoot := fun _ t' p x f _ _ hf h =>
        htracked.path { t' with root := some x } p f (fun d => (hf d).2)
          (h.congr rfl rfl rfl rfl rfl)
      registry := fun _ _ _ _ _ h => h.congr rfl rfl rfl rfl rfl
      counter := fun _ _ _ _ _ _ _ h => h.congr rfl rfl rfl rfl rfl
      queue := fun _ _ p priority id h =>
        ⟨h.toBooks.congr rfl rfl rfl (Nat.le_refl _),
          h.frames.update (Frame.grows_queue p priority), h.issues.congr (fun _ _ hc => hc) le_rfl⟩
      forget := fun _ => (names strays k t).invalidate
        (fun t' p => htracked.path t' p _ fun _ => rfl) fun _ _ _ h => h.congr rfl rfl rfl rfl rfl
      clear := fun _ t' _ => htracked.lists t' t'.rootPath _ }

end Restores

end Tree

/-! ## handlers -/

/-- What handlers do: they look at the tree and at their state, change the state, call the tree
through its paths, change names, have paths visited again, make passes of their own and fail. Those
that may catch failures can also go on after one. -/
inductive Conduct (catches : Prop) : {σ α : Type} → PassM σ α → Prop
  | done {σ α : Type} (x : α) : Conduct catches (pure x : PassM σ α)
  | fail {σ α : Type} (e : TreeError) : Conduct catches (throw e : PassM σ α)
  | bind {σ α β : Type} {x : PassM σ α} {f : α → PassM σ β} (hx : Conduct catches x)
      (hf : ∀ y, Conduct catches (f y)) : Conduct catches (x >>= f)
  | attempt {σ α : Type} {x : PassM σ α} (h : catches) (hx : Conduct catches x) :
      Conduct catches (PassM.attempt x)
  | look {σ : Type} : Conduct catches (get : PassM σ (Pass σ))
  | note {σ : Type} (f : σ → σ) : Conduct catches (PassM.note f)
  | call {σ : Type} (c : PathCall) : Conduct catches (PassM.onTree c.run : PassM σ Unit)
  | change {σ : Type} (c : Change) (h : c.IsPass → catches) :
      Conduct catches (PassM.onTree c.run : PassM σ Unit)
  | requeue {σ : Type} (p : PathId) : Conduct catches (PassM.onTree (Tree.requeue p) : PassM σ Unit)
  | traverse {σ τ : Type} {d : Dispatch τ}
    (hgeneral : ∀ x ∈ d.general, ∀ p, Conduct catches (x.2 p))
      (htyped : ∀ x ∈ d.typed, ∀ p, Conduct catches (x.run p)) (steps : Nat) (own : τ) :
      Conduct catches (PassM.onTree (TreeM.runPass own (d.traverse steps)) : PassM σ (Unit × τ))
  | traversePath {σ τ : Type} {d : Dispatch τ}
    (hgeneral : ∀ x ∈ d.general, ∀ p, Conduct catches (x.2 p))
      (htyped : ∀ x ∈ d.typed, ∀ p, Conduct catches (x.run p)) (steps : Nat)
      (p : PathId) (own : τ) :
      Conduct catches (PassM.onTree (TreeM.runPass own (d.traversePath steps p)) :
        PassM σ (Unit × τ))
  | visit {σ τ : Type} {d : Dispatch τ} (hgeneral : ∀ x ∈ d.general, ∀ p, Conduct catches (x.2 p))
      (htyped : ∀ x ∈ d.typed, ∀ p, Conduct catches (x.run p)) (steps : Nat)
      (p : PathId) (own : τ) :
      Conduct catches (PassM.onTree (TreeM.runPass own (d.visit steps p)) : PassM σ (Bool × τ))

namespace Conduct

open ScopedTree.Tree

variable {catches : Prop} {k : Nat}

theorem restores_of_leaves (h : catches) {t t' : Tree} {e : TreeError}
    (hleaves : t.Leaves (Strayed catches k) (Strands k) k e t') :
    t.Restores (Strayed catches k) k t' :=
  hleaves.mono fun _ hp => hp.elim id fun ⟨t₀, hstrands, _⟩ => ⟨h, e, t₀, hstrands⟩

/-- **Whatever handlers do, they put back what they find.** -/
theorem restores {σ α : Type} {x : PassM σ α} (h : Conduct catches x) :
    PassM.Restores (Strayed catches k) (Strands k) k x := by
  have hbears := Restores.bears (Strayed catches k) k
  have hle {σ : Type} (t : Tree) (e : TreeError) (s : Pass σ) (h : t.Restores
      (Strayed catches k) k s.tree) :
      t.Leaves (Strayed catches k) (Strands k) k e s.tree := h.leaves e
  have hpasses {τ : Type} {d : Dispatch τ}
      (hgeneral : ∀ x ∈ d.general, ∀ p, PassM.Restores (Strayed catches k) (Strands k) k (x.2 p))
      (htyped : ∀ x ∈ d.typed, ∀ p, PassM.Restores (Strayed catches k) (Strands k) k (x.run p))
      (t : Tree) (steps : Nat) : d.engine.Passes (t.Restores (Strayed catches k) k)
        (t.Leaves (Strayed catches k) (Strands k) k) steps :=
    hbears.passes ⟨fun x hx t p => hgeneral x hx p t, fun x hx t p => htyped x hx p t⟩ t steps
  induction h with
  | done x => exact fun _ => leads_pure x
  | fail e => exact fun t => leads_throw (hle t) e
  | bind hx hf ihx ihf => exact fun t => (ihx t).bind fun y => ihf y t
  | attempt hcatches hx ih =>
    exact fun t => PassM.leads_attempt (ih t) fun _ _ => restores_of_leaves hcatches
  | look => exact fun _ => leads_get
  | note f => exact fun t => (Names.note f).leads (hle t)
  | call c =>
    obtain ⟨m, hc⟩ := c.exists_known
    exact fun t => PassM.leads_onTree ((hbears.edits t).call hc)
  | change c hcatches =>
    exact fun t => PassM.leads_onTree (hbears.change t c
      (fun _ t => (Restores.tableless _ k t).rehomes) fun hpass t e t' =>
      restores_of_leaves (hcatches hpass))
  | requeue p =>
    exact fun t => PassM.leads_onTree (((hbears.edits t).requeue (m := 0) p).leads fun e t'
      h => h.leaves e)
  | traverse _ _ steps own ihg iht =>
    exact fun t => PassM.leads_onTree (PassM.leads_runPass (hpasses ihg iht t steps).traverse own)
  | traversePath _ _ steps p own ihg iht =>
    exact fun t => PassM.leads_onTree
      (PassM.leads_runPass ((hpasses ihg iht t steps).traversePath p) own)
  | visit _ _ steps p own ihg iht =>
    exact fun t => PassM.leads_onTree (PassM.leads_runPass ((hpasses ihg iht t steps).visit p) own)

end Conduct

/-! ## passes -/

namespace Tree

/-- The stacks of a tree are what they were: the depth, the frames, to whose queues paths may have
been added, and the frames that paths are on. Paths that stray may be on frames that are gone, on
top of those that they were on; there are none where no scope is ever assigned. That a crawl is
under way is no part of a tree: it is known from the engine that runs, so it ends with the run. -/
structure SameStacks (strays : PathId → Prop) (t t' : Tree) : Prop where
  depth : t'.depth = t.depth
  frames : FramesGrow t.frames t'.frames
  contexts : ∀ p, p.index < t.paths.size → (strays p → t.options.noScope = true) →
    (t'.path p).contexts = (t.path p).contexts
  above : ∀ p, p.index < t.paths.size → ∃ left, (t'.path p).contexts = left ++ (t.path p).contexts
    ∧ ∀ c ∈ left, t.nextContext ≤ c.index

variable {strays : PathId → Prop} {t t' : Tree}

theorem Restores.stacks (h : t.Restores strays t.nextContext t') : SameStacks strays t t' where
  depth := h.depth
  frames := h.frames
  contexts p hp hstay := by
    obtain ⟨left, heq, -, -, hexact⟩ := h.contexts p hp
    rw [heq, List.eq_nil_of_length_eq_zero (hexact hstay), List.nil_append]
  above p hp := by
    obtain ⟨left, heq, hnew, -, -⟩ := h.contexts p hp
    exact ⟨left, heq, hnew⟩

end Tree

open ScopedTree.Tree

/-- **However a pass ends, the stacks are what they were**, whatever its handlers do, save for paths
that stray. If handlers catch nothing there are none after a pass that succeeds. After one that
fails they had been put on frames of the pass when the scopes on the way to them could not be
assigned, which failed with the error of the pass; since then stacks were unwound and nothing else
was done. -/
theorem Dispatch.sameStacks {σ : Type} {catches : Prop} {d : Dispatch σ}
    (hgeneral : ∀ x ∈ d.general, ∀ p, Conduct catches (x.2 p))
    (htyped : ∀ x ∈ d.typed, ∀ p, Conduct catches (x.run p)) (steps : Nat) (p : PathId)
    (t : Tree) (own : σ) :
    ∀ run ∈ [d.traverse steps, d.traversePath steps p, discard (d.visit steps p)],
      Ends (run ⟨t, own⟩) (fun _ s => SameStacks (Strayed catches t.nextContext) t s.tree)
      fun e s =>
        SameStacks (Spoilt (Strayed catches t.nextContext) (Strands t.nextContext) e s.tree) t
          s.tree := by
  have hpasses : d.engine.Passes (t.Restores (Strayed catches t.nextContext) t.nextContext)
      (t.Leaves (Strayed catches t.nextContext) (Strands t.nextContext) t.nextContext) steps :=
    (Restores.bears _ _).passes ⟨fun x hx t p => (hgeneral x hx p).restores t,
      fun x hx t p => (htyped x hx p).restores t⟩ t steps
  have hstart : Pass.Has (t.Restores (Strayed catches t.nextContext) t.nextContext) ⟨t, own⟩ :=
    .refl _ (Nat.le_refl _)
  intro run hrun
  simp only [List.mem_cons, List.not_mem_nil, or_false] at hrun
  refine Ends.imp ?_ (fun _ _ h => Restores.stacks h) fun _ _ h => Restores.stacks h
  rcases hrun with rfl | rfl | rfl
  · exact hpasses.traverse _ hstart
  · exact hpasses.traversePath p _ hstart
  · exact (hpasses.visit p).discard _ hstart

/-- A debugger statement is removed when it is entered, and that is said to be a failure. -/
def Dispatch.refusing : Dispatch Unit where
  typed := [⟨.ofType (.ofType .debuggerStatement), .enter, fun p =>
    PassM.onTree (PathCall.edit (.remove p)).run >>= fun _ =>
      throw (.custom "program" "debugger found")⟩]

namespace Tree

/-- Two statements, with the path of their program. -/
def debugged : Tree := final (getRootPath (ofArena twoStatements (some ⟨2⟩)))

/-- The pass fails as its handler does, and leaves nothing behind but the edit. -/
theorem sameStacks_refusing : (∀ x ∈ Dispatch.refusing.typed, ∀ p, Conduct False (x.run p))
    ∧ ∃ s, Dispatch.refusing.traverse 40 ⟨debugged, ()⟩
        = .error (.custom "program" "debugger found") s
      ∧ s.tree.arena.items (some ⟨2⟩) "body" = [some ⟨1⟩]
      ∧ SameStacks (Spoilt (Strayed False debugged.nextContext) (Strands debugged.nextContext)
          (.custom "program" "debugger found") s.tree) debugged s.tree := by
  have hconduct : ∀ x ∈ Dispatch.refusing.typed, ∀ p, Conduct False (x.run p) := by
    intro x hx p
    obtain rfl := List.mem_singleton.1 hx
    exact .bind (.call _) fun _ => .fail _
  have hfails : (match Dispatch.refusing.traverse 40 ⟨debugged, ()⟩ with
      | .error e s => decide (e = .custom "program" "debugger found")
        && decide (s.tree.arena.items (some ⟨2⟩) "body" = [some ⟨1⟩])
      | .ok _ _ => false) = true := by decide +kernel
  have hsame := Dispatch.sameStacks (d := Dispatch.refusing) (fun x hx =>
    absurd hx List.not_mem_nil) hconduct 40 ⟨0⟩ debugged () _ (List.mem_cons_self ..)
  cases hrun : Dispatch.refusing.traverse 40 ⟨debugged, ()⟩ with
  | ok _ s =>
    rw [hrun] at hfails
    cases hfails
  | error e s =>
    rw [hrun] at hfails
    simp only [Bool.and_eq_true, decide_eq_true_eq] at hfails
    obtain ⟨rfl, hitems⟩ := hfails
    exact ⟨hconduct, s, rfl, hitems, hsame.of_error hrun⟩

/-- The program `let x; let x`, with the path of its root. -/
def doubled : Tree := final (getRootPath (ofArena letTwice (some ⟨6⟩)))

/-- A pass over it fails when the scope of the program is crawled, and the path of the root stays on
a frame that is gone. -/
theorem not_sameStacks_doubled : ∃ location s,
    ({} : Dispatch Unit).traverse 1000 ⟨doubled, ()⟩ = .error (.duplicateDeclaration "x" location) s
      ∧ (doubled.path ⟨0⟩).contexts = [] ∧ (s.tree.path ⟨0⟩).contexts = [⟨0⟩]
      ∧ s.tree.frames.length = 0 ∧ ¬ SameStacks (fun _ => False) doubled s.tree := by
  have hfails : (match ({} : Dispatch Unit).traverse 1000 ⟨doubled, ()⟩ with
      | .error (.duplicateDeclaration name _) s => decide (name = "x")
        && decide ((s.tree.path ⟨0⟩).contexts = [⟨0⟩]) && decide (s.tree.frames.length = 0)
      | _ => false) = true := by decide +kernel
  have hbefore : 0 < doubled.paths.size ∧ (doubled.path ⟨0⟩).contexts = [] := by decide +kernel
  cases hrun : ({} : Dispatch Unit).traverse 1000 ⟨doubled, ()⟩ with
  | ok _ s =>
    rw [hrun] at hfails
    cases hfails
  | error e s =>
    rw [hrun] at hfails
    cases e with
    | duplicateDeclaration name location =>
      simp only [Bool.and_eq_true, decide_eq_true_eq] at hfails
      obtain ⟨⟨rfl, hleft⟩, hframes⟩ := hfails
      refine ⟨location, s, rfl, hbefore.2, hleft, hframes, fun hsame => ?_⟩
      cases hleft.symm.trans ((hsame.contexts ⟨0⟩ hbefore.1 False.elim).trans hbefore.2)
    | _ => cases hfails

/-! ## trees in use -/

variable {t : Tree}

/-- The books of a tree in use are those of a new tree, but for what is left on paths. -/
theorem Reached.exists_restores (h : t.Reached) : ∃ a root options,
    Restores (fun _ => True) 0 (ofArena a root options) t := by
  have hbears := Restores.bears (fun _ => True) 0
  have hfails (t₀ : Tree) (e : TreeError) (t : Tree)
      (h : t₀.Leaves (fun _ => True) (Strands 0) 0 e t) : t₀.Restores (fun _ => True) 0 t :=
    h.mono fun _ _ => trivial
  induction h with
  | start a root options => exact ⟨a, root, options, .refl _ (Nat.zero_le _)⟩
  | arena a h ih =>
    obtain ⟨a₀, root, options, h₀⟩ := ih
    exact ⟨a₀, root, options, h₀.congr rfl rfl rfl rfl rfl⟩
  | call c _ h ih =>
    obtain ⟨a₀, root, options, h₀⟩ := ih
    obtain ⟨m, hc⟩ := c.exists_known
    refine ⟨a₀, root, options, ends_final.1 ?_⟩
    exact ((hbears.edits _).call hc _ h₀).imp (fun _ _ h => h) fun e t h => hfails _ e t h
  | traverse v _ steps own h ih =>
    obtain ⟨a₀, root, options, h₀⟩ := ih
    have hpass := (hbears.editor hfails v (ofArena a₀ root options) steps).traverse
    refine ⟨a₀, root, options, (ends_final (P := Pass.Has (Restores _ 0 _))).1 ?_⟩
    exact (hpass ⟨_, own⟩ h₀).imp (fun _ _ h => h) fun e s h => hfails _ e s.tree h
  | traversePath v _ steps p own h ih =>
    obtain ⟨a₀, root, options, h₀⟩ := ih
    have hpass := (hbears.editor hfails v (ofArena a₀ root options) steps).traversePath p
    refine ⟨a₀, root, options, (ends_final (P := Pass.Has (Restores _ 0 _))).1 ?_⟩
    exact (hpass ⟨_, own⟩ h₀).imp (fun _ _ h => h) fun e s h => hfails _ e s.tree h

/-- No pass is under way on a tree in use, and what was left on its paths is of frames that are
gone. -/
theorem Reached.idle (h : t.Reached) :
    t.depth = 0 ∧ ∀ p, ∀ c ∈ (t.path p).contexts, c.index < t.nextContext := by
  obtain ⟨a, root, options, h₀⟩ := h.exists_restores
  refine ⟨h₀.depth, fun p c hc => ?_⟩
  rcases h₀.issues p c hc with hc | hc | ⟨f, hf, -⟩
  · simp [path, ofArena] at hc
  · exact hc
  · cases hf

/-- **A tree in use is ready for a pass** if its nodes have single owners, the path of its root is
in use, and scopes are off or found. It does not matter how it was edited, nor how passes over it
ended. -/
theorem Reached.ready {r : NodeId} (h : t.Reached) (ha : t.arena.WellOwned)
    (hroot : t.root = some r) (hr : (t.arena.get? r).isSome) (hused : ∀ p, t.rootPath = some p →
      t.parentNode p = none ∧ (t.path p).removed = false ∧ (t.path p).stale = false)
    (hscopes : t.Settled t.arena r) : t.Ready t.arena r where
  steady := by
    refine ⟨⟨ha, hroot, hr, fun p hp => ?_, fun m => h.rooted.listed (some m)⟩, h.idle.2⟩
    obtain ⟨-, hslot, hnode⟩ := h.rooted.top p hp
    obtain ⟨hparent, hremoved, hstale⟩ := hused p hp
    refine .root hp ?_
    show (t.node p, t.parentPath p, t.parentNode p, t.slot p, (t.path p).removed,
      (t.path p).stale) = _
    rw [hnode, hroot, h.rooted.crown p hp, hparent, hslot, hremoved, hstale]
  settled := hscopes
  depth := h.idle.1

end Tree

end ScopedTree
