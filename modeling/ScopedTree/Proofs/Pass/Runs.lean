import ScopedTree.Pass.Run
import ScopedTree.Proofs.Pass.Refine
import ScopedTree.Proofs.Path.Orderly

/-!
# Passes over trees in order

With enough steps each part of a pass over a tree in order ends well if its turns do, and it leaves
what it keeps on paths as it found it.

* `Runs`                   with enough steps a run ends well, always in the same way;
* `Engine.visitTurn`       a visit of a path with all that is queued by it with priority;
* `Tree.Amid`              a tree while a queue is worked on;
* `Dispatch.runs_visitQueue`, `runs_visitField`, `runs_visitNode`   queues, fields and nodes whose
  turns keep an invariant;
* `Dispatch.runs_visitPath`   a visit of a path whose handlers leave it alone.
-/

namespace ScopedTree

open ScopedTree.Tree Arena

variable {σ α β : Type}

theorem run_attempt {x : PassM σ α} {s s' : Pass σ} {y : α} (h : x s = .ok y s') :
    PassM.attempt x s = .ok (.ok y) s' := by
  unfold PassM.attempt
  rw [h]

theorem run_resume_bind {y : α} (f : α → PassM σ β) (s : Pass σ) :
    (PassM.resume (.ok y) >>= f) s = f y s := rfl

/-! ## enough steps -/

/-- With enough steps the run ends well, and always in the same way. -/
def Runs (run : Nat → PassM σ α) (s : Pass σ) (x : α) (s' : Pass σ) : Prop :=
  ∃ least, ∀ steps, least ≤ steps → run steps s = .ok x s'

namespace Runs

variable {run run' : Nat → PassM σ α} {s s₀ s₁ s' : Pass σ} {x : α} {y : β}

theorem of_eq (h : ∀ steps, run steps s = .ok x s') : Runs run s x s' := ⟨0, fun steps _ => h steps⟩

theorem step (h : Runs run' s₀ x s') (hrun : ∀ steps, run (steps + 1) s = run' steps s₀) :
    Runs run s x s' := by
  obtain ⟨least, h⟩ := h
  refine ⟨least + 1, fun steps hsteps => ?_⟩
  obtain ⟨steps, rfl⟩ : ∃ k, steps = k + 1 := ⟨steps - 1, by omega⟩
  exact (hrun steps).trans (h steps (by omega))

theorem bind {f : Nat → α → PassM σ β} (h : Runs run s x s₁) (h' : Runs (f · x) s₁ y s') :
    Runs (fun k => run k >>= f k) s y s' := by
  obtain ⟨least, h⟩ := h
  obtain ⟨least', h'⟩ := h'
  refine ⟨max least least', fun steps hsteps => ?_⟩
  exact (run_bind_of_ok (h steps (by omega))).trans (h' steps (by omega))

/-- The outcome is put away while the tree is put in order, and then handed on. -/
theorem attempt {f : Tree → Tree} (h : Runs run s x s₁) :
    Runs (fun k => do
      let result ← PassM.attempt (run k)
      PassM.onTree (modify f)
      PassM.resume result) s x ⟨f s₁.tree, s₁.own⟩ := by
  obtain ⟨least, h⟩ := h
  exact ⟨least, fun steps hsteps => run_bind_of_ok (run_attempt (h steps hsteps))⟩

end Runs

/-! ## turns -/

namespace Engine

/-- Visits a path, and what is then queued on its frame with priority. -/
def visitTurn (e : Engine σ) (steps : Nat) (id : ContextId) (p : PathId) : PassM σ Bool := do
  if ← e.visitPath steps p then return true
  let priority ← PassM.onTree (takePriority id)
  if priority.isEmpty then return false
  e.visitQueue steps id priority

theorem runQueue_succ (e : Engine σ) (steps : Nat) (id : ContextId) (visited : List NodeId) :
    e.runQueue (steps + 1) id visited = (do
      match ← PassM.onTree (takePending id) with
      | none => return false
      | some p =>
        match ← PassM.onTree (e.visitable? id visited p) with
        | none => e.runQueue steps id visited
        | some n =>
          if ← e.visitTurn steps id p then return true
          e.runQueue steps id (n :: visited)) := by
  rw [Engine.runQueue]
  refine bind_congr fun x => ?_
  cases x with
  | none => rfl
  | some p =>
    refine bind_congr fun y => ?_
    cases y with
    | none => rfl
    | some n =>
      unfold visitTurn
      dsimp only
      rw [bind_assoc]
      refine bind_congr fun stopped => ?_
      cases stopped with
      | true => rfl
      | false =>
        simp only [Bool.false_eq_true, if_false, bind_assoc]
        refine bind_congr fun priority => ?_
        cases priority with
        | nil => rfl
        | cons q priority => rfl

def onFrame (e : Engine σ) (steps : Nat) (owner : Option NodeId) (key : String)
    (queue : List PathId) :
    PassM σ Bool := do
  let id ← PassM.onTree (Tree.pushFrame owner key)
  let result ← PassM.attempt (e.visitQueue steps id queue)
  PassM.onTree (Tree.popFrame id)
  PassM.resume result

def visitField (e : Engine σ) (steps : Nat) (p : PathId) (node : Option NodeId) (f : Field) :
    PassM σ Bool := do
  let queue ← PassM.onTree (e.childQueue p node f)
  if queue.isEmpty then return false
  e.onFrame steps node f.name queue

theorem visitFields_cons (e : Engine σ) (steps : Nat) (p : PathId)
    (node : Option NodeId) (f : Field) (fields : List Field) {s : Pass σ}
    (hused : (s.tree.path p).removed = false) (hnode : s.tree.node p = node)
    (hskip : (s.tree.path p).skipKeys = []) :
    e.visitFields (steps + 1) p node (f :: fields) s = (do
      if ← e.visitField steps p node f then return true
      e.visitFields steps p node fields) s := by
  rw [Engine.visitFields, run_ask_bind]
  simp only [hused, show (s.tree.path p).node = node from hnode, bne_self_eq_false, Bool.or_self,
    Bool.false_eq_true, if_false, hskip, List.contains_nil]
  unfold visitField onFrame
  simp only [bind_assoc]
  refine run_bind_congr fun queue s' _ => ?_
  cases queue with
  | nil => rfl
  | cons q queue =>
    simp only [List.isEmpty_cons, Bool.false_eq_true, if_false, bind_assoc]

end Engine

/-! ## queues -/

namespace Tree

variable {r n : NodeId} {gone gone' : NodeId → Prop} {id : ContextId} {entered done : List PathId}
  {t₀ t t' : Tree} {p q : PathId} {F F' : Frame} {fs : List Frame} {jobs : List (PathId × NodeId)}

/-- While a queue is worked on paths in use stay so, and the paths `entered` are on the frame
besides. -/
structure Amid (r : NodeId) (gone : NodeId → Prop) (id : ContextId) (entered : List PathId)
    (t₀ t : Tree) : Prop extends Remains gone t₀ t where
  orderly : t.Orderly r
  contexts : ∀ q, (t.path q).contexts
    = if q ∈ entered then id :: (t₀.path q).contexts else (t₀.path q).contexts

namespace Amid

variable (h : Amid r gone id entered t₀ t)

include h

theorem lasts (h₀ : t₀.Orderly r) (h' : t'.Orderly r) (hlasts : Lasts gone' t t')
    (hgone : ∀ m, m.index < t₀.arena.size → gone' m → gone m) : Amid r gone id entered t₀ t' where
  toRemains := h.toRemains.trans hlasts.toRemains fun p m hp => hgone m (h₀.filed.held p m hp.node)
  orderly := h'
  contexts q := (hlasts.contexts q).trans (h.contexts q)

theorem withFrames (frames : List Frame) :
    Amid r gone id entered t₀ (Bridge.withBooks t frames t.nextContext t.depth) where
  toRemains := h.toRemains.withBooks frames le_rfl
  orderly := h.orderly.withBooks frames le_rfl t.depth
  contexts := h.contexts

theorem enter (hp : t.Live p n) (hlt : id.index < t.nextContext) (hnew : p ∉ entered) :
    Amid r gone id (entered ++ [p]) t₀ (t.updatePath p (Bridge.readied id)) where
  toRemains := h.toRemains.note p (fun _ => rfl) fun _ _ => rfl
  orderly := h.orderly.note p (fun _ => rfl) fun d c hc => by
    rcases List.mem_cons.1 hc with rfl | hc
    · exact .inr hlt
    · exact .inl hc
  contexts q := by
    by_cases hqp : q = p
    · subst hqp
      rw [path_updatePath_self _ _ hp.lt, if_pos (by simp)]
      show id :: (t.path q).contexts = _
      rw [h.contexts, if_neg hnew]
    · rw [path_updatePath_ne _ _ hqp, h.contexts]
      simp [hqp]

end Amid

/-- Once all paths that were put on a frame are taken off it, they are on the frames that they were
on. -/
theorem Amid.popped : ∀ {entered : List PathId} {t : Tree}, Amid r gone id entered t₀ t →
    entered.Nodup → (entered.foldl Engine.popContext t).Orderly r
    ∧ Lasts gone t₀ (entered.foldl Engine.popContext t)
      ∧ (entered.foldl Engine.popContext t).arena = t.arena
      ∧ (entered.foldl Engine.popContext t).frames = t.frames
  | [], t, h, _ => ⟨h.orderly,
    ⟨h.toRemains, fun q => (h.contexts q).trans (if_neg List.not_mem_nil)⟩, rfl, rfl⟩
  | p :: entered, t, h, hnd => by
    obtain ⟨hp, hnd⟩ := List.nodup_cons.1 hnd
    have hpop : Amid r gone id entered t₀ (Engine.popContext t p) := by
      refine ⟨h.toRemains.note p (fun _ => rfl) fun _ hd => hd,
        h.orderly.note p (fun _ => rfl) fun d c hc => .inl (List.mem_of_mem_drop hc), fun q => ?_⟩
      unfold Engine.popContext
      by_cases hqp : q = p
      · subst hqp
        have hc := h.contexts q
        rw [if_pos (List.mem_cons_self ..)] at hc
        have hlt : q.index < t.paths.size := by
          by_contra hge
          rw [path_of_size_le (Nat.le_of_not_lt hge)] at hc
          cases hc
        rw [path_updatePath_self _ _ hlt, if_neg hp]
        show (t.path q).contexts.drop 1 = _
        rw [hc]
        rfl
      · rw [path_updatePath_ne _ _ hqp, h.contexts]
        simp [hqp]
    exact hpop.popped hnd

/-- The work on a queue: the frame is `F'` by now, the paths `done` were taken, and `jobs` are to
come. -/
structure Turning (r : NodeId) (gone : NodeId → Prop) (F : Frame) (fs : List Frame)
    (done : List PathId) (jobs : List (PathId × NodeId)) (t₀ t : Tree) (F' : Frame) : Prop where
  frames : t.frames = F' :: fs
  id : F'.id = F.id
  owner : F'.owner = F.owner
  key : F'.key = F.key
  priority : F'.priority = []
  amid : Amid r gone F.id F'.entered t₀ t
  nodup : F'.entered.Nodup
  entered : ∀ p ∈ F'.entered, p ∈ done
  live : ∀ x ∈ jobs, t.Live x.1 x.2

namespace Turning

variable {rest : List (PathId × NodeId)}

theorem run_visitable (d : Dispatch σ) (h : Turning r gone F fs done ((q, n) :: rest) t₀ t F')
    (hlt : F.id.index < t₀.nextContext) (hq : q ∉ done) {visited : List NodeId} (hn : n ∉ visited)
    (hcalm : (t₀.path q).contexts.head? = some F.id → (t₀.path q).Calm) :
    ∃ t' F'', d.engine.visitable? F.id visited q t = .ok (some n) t'
      ∧ Turning r gone F fs (done ++ [q]) ((q, n) :: rest) t₀ t' F'' ∧ F''.pending = F'.pending
      ∧ (t'.path q).contexts.head? = some F.id ∧ (t'.path q).Calm ∧ t'.arena = t.arena := by
  have hlive : t.Live q n := h.live (q, n) (List.mem_cons_self ..)
  have hentered : q ∉ F'.entered := fun hmem => hq (h.entered q hmem)
  have hcontexts : (t.path q).contexts = (t₀.path q).contexts :=
    (h.amid.contexts q).trans (if_neg hentered)
  have hlt : F.id.index < t.nextContext := hlt.trans_le h.amid.nextContext
  have hkept {t' : Tree} (hnode : t'.node q = some n) :
      (t'.node q).filter (fun m => !visited.contains m) = some n := by
    rw [hnode]
    simpa using hn
  unfold Engine.visitable?
  rw [run_bind_of_ok (h.amid.orderly.resync_eq hlive), run_get_bind]
  simp only [hlive.used, (h.amid.orderly.seat q n hlive).fresh, Bool.or_self,
    Bool.false_eq_true, if_false]
  by_cases hhead : (t.path q).contexts.head? = some F.id
  · simp only [hhead, bne_self_eq_false, Bool.false_eq_true, if_false]
    refine ⟨t, F', ?_, { h with entered := fun p hp => List.mem_append_left _ (h.entered p hp) },
      rfl, hhead, h.amid.calm q (hcalm (hcontexts ▸ hhead)) hlive.used, rfl⟩
    rw [run_get_bind, hkept hlive.node]
    rfl
  · have hframes : (t.updatePath q (Bridge.readied F.id)).frames = F' :: fs := h.frames
    have hamid := h.amid.enter hlive hlt hentered
    have hput : d.engine.pushContext F.id q t
        = .ok ⟨⟩ (Bridge.withBooks (t.updatePath q (Bridge.readied F.id))
        ({ F' with entered := F'.entered ++ [q] } :: fs) t.nextContext t.depth) := by
      have hassign : d.engine.assign q (t.updatePath q (Bridge.readied F.id))
          = .ok () (t.updatePath q (Bridge.readied F.id)) := hamid.orderly.assignWith_eq crawl q
      unfold Engine.pushContext
      rw [run_modify_bind]
      exact (run_bind_of_ok hassign).trans
        (congrArg (EStateM.Result.ok PUnit.unit) (Bridge.updateFrame_top hframes h.id _))
    simp only [bne_iff_ne.2 hhead, if_true]
    rw [run_bind_of_ok hput, run_get_bind]
    have hself := path_updatePath_self t (Bridge.readied F.id) hlive.lt
    refine ⟨_, { F' with entered := F'.entered ++ [q] }, congrArg (EStateM.Result.ok · _)
      (hkept ((congrArg PathData.node hself).trans hlive.node)),
      ⟨rfl, h.id, h.owner, h.key, h.priority,
      hamid.withFrames _, ?_, fun p hp => ?_, fun x hx => ?_⟩, rfl, ?_, ?_, rfl⟩
    · refine List.nodup_append.2 ⟨h.nodup, List.nodup_singleton q, fun p hp p' hp' he => ?_⟩
      obtain rfl := List.mem_singleton.1 hp'
      exact hentered (he ▸ hp)
    · rcases List.mem_append.1 hp with hp | hp
      · exact List.mem_append_left _ (h.entered p hp)
      · exact List.mem_append_right _ hp
    · have hx := h.live x hx
      exact ⟨(t.path_updatePath_congr q x.1 (Bridge.readied F.id) PathData.node
        fun _ => rfl).trans hx.node,
        (t.path_updatePath_congr q x.1 (Bridge.readied F.id) PathData.removed
          fun _ => rfl).trans hx.used⟩
    · exact congrArg (fun d => d.contexts.head?) hself
    · exact congrArg PathData.flags hself

theorem withPending (h : Turning r gone F fs done jobs t₀ t F') (pending : List PathId) :
    Turning r gone F fs done jobs t₀
      (Bridge.withBooks t ({ F' with pending } :: fs) t.nextContext t.depth)
      { F' with pending } where
  frames := rfl
  id := h.id
  owner := h.owner
  key := h.key
  priority := h.priority
  amid := h.amid.withFrames _
  nodup := h.nodup
  entered := h.entered
  live x hx := ⟨(h.live x hx).node, (h.live x hx).used⟩

end Turning

/-- A tree after a part of a pass: it is in order again, and the frames are those of before. -/
structure Visited (r : NodeId) (gone : NodeId → Prop) (t t' : Tree) : Prop
    extends Lasts gone t t' where
  orderly : t'.Orderly r
  frames : t'.frames = t.frames

theorem Lasts.visited (h : Lasts gone t t') (h' : t'.Orderly r) :
    Visited r gone t (Bridge.withBooks t' t.frames t'.nextContext t'.depth) :=
  ⟨h.withBooks _ le_rfl, h'.withBooks _ le_rfl _, rfl⟩

theorem Visited.refl (h : t.Orderly r) : Visited r gone t t := ⟨.refl gone t, h, rfl⟩

theorem Visited.trans {t'' : Tree} (h : Visited r gone t t') (h' : Visited r gone' t' t'')
    (hgone : ∀ p n, t.Live p n → gone' n → gone n) : Visited r gone t t'' :=
  ⟨h.toLasts.trans h'.toLasts hgone, h'.orderly, h'.frames.trans h.frames⟩

theorem Turning.visited {rest : List (PathId × NodeId)} {x : PathId × NodeId} (h₀ : t₀.Orderly r)
    (h : Turning r gone F fs done (x :: rest) t₀ t F') (h' : Visited r gone' t t')
    (hrest : ∀ x ∈ rest, ¬ gone' x.2) (hgone : ∀ m, m.index < t₀.arena.size → gone' m → gone m) :
    Turning r gone F fs done rest t₀ t' F' where
  frames := h'.frames.trans h.frames
  id := h.id
  owner := h.owner
  key := h.key
  priority := h.priority
  amid := h.amid.lasts h₀ h'.orderly h'.toLasts hgone
  nodup := h.nodup
  entered := h.entered
  live y hy := h'.live y.1 y.2 (h.live y (List.mem_cons_of_mem _ hy)) (hrest y hy)

end Tree

/-- What the turns of a queue have to do: each keeps the paths to come in use, and brings `I` one
node further. -/
def Dispatch.Turns (d : Dispatch σ) (r : NodeId) (gone : NodeId → Prop) (F : Frame)
    (fs : List Frame) (I : List NodeId → Arena → σ → Prop) (jobs : List (PathId × NodeId))
    (t₀ : Tree) : Prop :=
  ∀ done q n rest, jobs = done ++ (q, n) :: rest → ∀ s F',
    Turning r gone F fs (done.map (·.1) ++ [q]) ((q, n) :: rest) t₀ s.tree F' →
    (s.tree.path q).Calm → (s.tree.path q).contexts.head? = some F.id →
    I (done.map (·.2)) s.tree.arena s.own →
    ∃ s' gone', Runs (d.engine.visitTurn · F.id q) s false s' ∧ Visited r gone' s.tree s'.tree
      ∧ I (done.map (·.2) ++ [n]) s'.tree.arena s'.own
      ∧ (∀ x ∈ rest, ¬ gone' x.2) ∧ ∀ m, m.index < t₀.arena.size → gone' m → gone m

section Queues

variable {d : Dispatch σ} {r : NodeId} {gone : NodeId → Prop} {F : Frame} {fs : List Frame}
  {I : List NodeId → Arena → σ → Prop} {jobs : List (PathId × NodeId)} {t₀ : Tree}

/-- **The paths of a queue are visited one after the other.** -/
theorem Dispatch.runs_runQueue (h₀ : t₀.Orderly r) (hlt : F.id.index < t₀.nextContext)
    (hpaths : (jobs.map (·.1)).Nodup) (hnodes : (jobs.map (·.2)).Nodup)
    (hcalm : ∀ x ∈ jobs, (t₀.path x.1).contexts.head? = some F.id → (t₀.path x.1).Calm)
    (hturns : d.Turns r gone F fs I jobs t₀) (rest : List (PathId × NodeId)) :
    ∀ done, jobs = done ++ rest → ∀ s F', Turning r gone F fs (done.map (·.1)) rest t₀ s.tree F' →
      F'.pending = rest.map (·.1) → I (done.map (·.2)) s.tree.arena s.own →
      ∃ s' F'', Runs (fun k => d.engine.runQueue k F.id (done.map (·.2)).reverse) s false s'
        ∧ Turning r gone F fs (jobs.map (·.1)) [] t₀ s'.tree F''
        ∧ I (jobs.map (·.2)) s'.tree.arena s'.own := by
  induction rest with
  | nil =>
    intro done hjobs s F' ht hpend hI
    rw [List.append_nil] at hjobs
    subst hjobs
    refine ⟨s, F', ⟨1, fun steps hsteps => ?_⟩, ht, hI⟩
    obtain ⟨steps, rfl⟩ : ∃ k, steps = k + 1 := ⟨steps - 1, by omega⟩
    show d.engine.runQueue (steps + 1) F.id _ s = _
    rw [Engine.runQueue, run_onTree_bind (Bridge.takePending_eq_none ht.frames ht.id hpend)]
    rfl
  | cons x rest ih =>
    obtain ⟨q, n⟩ := x
    intro done hjobs s F' ht hpend hI
    have hq : q ∉ done.map (·.1) := fun hmem => by
      rw [hjobs, List.map_append, List.nodup_append] at hpaths
      exact hpaths.2.2 q hmem q (List.mem_cons_self ..) rfl
    have hn : n ∉ (done.map (·.2)).reverse := fun hmem => by
      rw [hjobs, List.map_append, List.nodup_append] at hnodes
      exact hnodes.2.2 n (List.mem_reverse.1 hmem) n (List.mem_cons_self ..) rfl
    obtain ⟨t₁, F₁, hvis, ht₁, hpend₁, hhead, hcalm₁, harena₁⟩ :=
      (ht.withPending (rest.map (·.1))).run_visitable d hlt hq hn (hcalm (q, n) (by simp [hjobs]))
    obtain ⟨s₂, gone', hrun₂, hvisited, hI₂, hrest, hgone⟩ :=
      hturns done q n rest hjobs ⟨t₁, s.own⟩ F₁ ht₁ hcalm₁ hhead (harena₁ ▸ hI)
    obtain ⟨s₃, F₃, hrun₃, ht₃, hI₃⟩ := ih (done ++ [(q, n)]) (by simp [hjobs]) s₂ F₁
      (by simpa using ht₁.visited h₀ hvisited hrest hgone) hpend₁ (by simpa using hI₂)
    refine ⟨s₃, F₃, ?_, ht₃, hI₃⟩
    refine (hrun₂.bind (f := fun k stopped => if stopped then pure true
      else d.engine.runQueue k F.id ((done ++ [(q, n)]).map (·.2)).reverse) hrun₃).step
        fun steps => ?_
    show d.engine.runQueue (steps + 1) F.id _ s = _
    rw [Engine.runQueue_succ, run_onTree_bind (Bridge.takePending_eq ht.frames ht.id hpend)]
    dsimp only
    rw [run_onTree_bind hvis]
    simp

/-- **A queue** leaves the frames, and what else is kept on paths, as it found them. -/
theorem Dispatch.runs_visitQueue {s : Pass σ} (h : s.tree.Orderly r)
    (hframes : s.tree.frames = F :: fs) (hlt : F.id.index < s.tree.nextContext)
    (hlive : ∀ x ∈ jobs, s.tree.Live x.1 x.2) (hnodes : (jobs.map (·.2)).Nodup)
    (hcalm : ∀ x ∈ jobs, (s.tree.path x.1).contexts.head? = some F.id → (s.tree.path x.1).Calm)
    (hturns : d.Turns r gone F fs I jobs s.tree) (hI : I [] s.tree.arena s.own) :
    ∃ s', Runs (d.engine.visitQueue · F.id (jobs.map (·.1))) s false s'
      ∧ Visited r gone s.tree s'.tree ∧ I (jobs.map (·.2)) s'.tree.arena s'.own := by
  have hpaths : (jobs.map (·.1)).Nodup := by
    -- a path in use holds one node
    rw [List.nodup_map_iff_inj_on (List.Nodup.of_map _ hnodes)]
    intro x hx y hy hxy
    have hxy' : x.2 = y.2 := (hlive x hx).unique (hxy ▸ hlive y hy)
    exact Prod.ext hxy hxy'
  let F₁ : Frame := { F with pending := jobs.map (·.1), priority := [], entered := [] }
  have ht₁ : Turning r gone F fs [] jobs s.tree
      (Bridge.withBooks s.tree (F₁ :: fs) s.tree.nextContext s.tree.depth) F₁ :=
    ⟨rfl, rfl, rfl, rfl, rfl, (⟨.refl gone s.tree, h, fun _ => rfl⟩ :
      Amid r gone F.id [] s.tree s.tree).withFrames _,
      .nil, nofun, fun x hx => ⟨(hlive x hx).node, (hlive x hx).used⟩⟩
  obtain ⟨s₂, F₂, hrun, ht₂, hI₂⟩ := Dispatch.runs_runQueue h hlt hpaths hnodes hcalm
    hturns jobs [] rfl ⟨_, s.own⟩ F₁ ht₁ rfl hI
  obtain ⟨hord, hlasts, harena, hfs⟩ := ht₂.amid.popped ht₂.nodup
  have hvisited := hlasts.visited hord
  have htidy : ((((s₂.tree.frame? F.id).map (·.entered)).getD []).foldl Engine.popContext
      s₂.tree).updateFrame
      F.id (fun _ => F) = Bridge.withBooks (F₂.entered.foldl Engine.popContext s₂.tree)
      s.tree.frames
        (F₂.entered.foldl Engine.popContext s₂.tree).nextContext
        (F₂.entered.foldl Engine.popContext s₂.tree).depth := by
    rw [Bridge.frame?_top ht₂.frames ht₂.id, hframes]
    exact Bridge.updateFrame_top (hfs.trans ht₂.frames) ht₂.id _
  rw [← htidy] at hvisited
  refine ⟨⟨((((s₂.tree.frame? F.id).map (·.entered)).getD []).foldl Engine.popContext
    s₂.tree).updateFrame F.id fun _ => F, s₂.own⟩, ?_, hvisited, htidy ▸ harena ▸ hI₂⟩
  refine (hrun.attempt (f := fun t => ((((t.frame? F.id).map (·.entered)).getD []).foldl
    Engine.popContext t).updateFrame F.id fun _ => F)).step fun steps => ?_
  show d.engine.visitQueue (steps + 1) F.id _ s = _
  rw [Engine.visitQueue, run_ask_bind, Bridge.frame?_top hframes rfl]
  dsimp only
  rw [run_modifyTree_bind, Bridge.updateFrame_top hframes rfl]
  rfl

/-- **A queue on a frame of its own**: the frames are as before once it is worked on. -/
theorem Dispatch.runs_onFrame {owner : Option NodeId} {key : String} {s : Pass σ}
    (h : s.tree.Orderly r) (hlive : ∀ x ∈ jobs, s.tree.Live x.1 x.2)
    (hnodes : (jobs.map (·.2)).Nodup) (hturns : ∀ F t₀, t₀.Orderly r →
      Lasts (fun _ => False) s.tree t₀ → t₀.arena = s.tree.arena → F.owner = owner →
      F.key = key → d.Turns r gone F s.tree.frames I jobs t₀) (hI : I [] s.tree.arena s.own) :
    ∃ s', Runs (d.engine.onFrame · owner key (jobs.map (·.1))) s false s'
      ∧ Visited r gone s.tree s'.tree ∧ I (jobs.map (·.2)) s'.tree.arena s'.own := by
  let F : Frame := { id := ⟨s.tree.nextContext⟩, owner, key }
  let t₁ := Bridge.withBooks s.tree (F :: s.tree.frames) (s.tree.nextContext + 1) s.tree.depth
  have h₁ : t₁.Orderly r := h.withBooks _ (Nat.le_succ _) _
  have hlasts₁ : Lasts (fun _ => False) s.tree t₁ :=
    (Lasts.refl _ s.tree).withBooks _ (Nat.le_succ _)
  have hcalm : ∀ x ∈ jobs, (t₁.path x.1).contexts.head? = some F.id → (t₁.path x.1).Calm :=
    fun x _ hhead =>
    -- the frame is new
    absurd (h.handedOut x.1 F.id (List.mem_of_head? hhead)) (Nat.lt_irrefl _)
  obtain ⟨s₂, hrun₂, hvisited₂, hI₂⟩ := Dispatch.runs_visitQueue (s := ⟨t₁, s.own⟩) (d := d) h₁ rfl
    (Nat.lt_succ_self _) (fun x hx => ⟨(hlive x hx).node, (hlive x hx).used⟩) hnodes hcalm
    (hturns F t₁ h₁ hlasts₁ rfl rfl rfl) hI
  have hpopped : Bridge.withBooks s₂.tree s.tree.frames s₂.tree.nextContext s₂.tree.depth
      = { s₂.tree with frames := s₂.tree.frames.eraseP (·.id == F.id) } := by
    rw [hvisited₂.frames, show t₁.frames = F :: s.tree.frames from rfl]
    simp [Bridge.withBooks]
  refine ⟨⟨Bridge.withBooks s₂.tree s.tree.frames s₂.tree.nextContext s₂.tree.depth, s₂.own⟩, ?_,
    ((hlasts₁.all gone).trans hvisited₂.toLasts fun _ _ _ => id).visited hvisited₂.orderly, hI₂⟩
  rw [hpopped]
  exact hrun₂.attempt (f := fun t => { t with frames := t.frames.eraseP (·.id == F.id) })

end Queues

/-! ## fields -/

section Fields

variable {d : Dispatch σ} {r n : NodeId} {gone : NodeId → Prop} {p : PathId} {o : Node} {f : Field}

@[simp] theorem Dispatch.dispatch_engine (d : Dispatch σ) : d.engine.dispatch = d := rfl

def Dispatch.comesBy (d : Dispatch σ) (a : Arena) (o : Node) (f : Field) : List NodeId :=
  (o.fieldChildren f.name).filter (d.shouldVisit a)

theorem Dispatch.nodup_comesBy (d : Dispatch σ) {a : Arena} (ha : a.Owned) (ho : a.get? n = some o)
    (f : Field) :
    (d.comesBy a o f).Nodup := by
  refine ((List.filter_sublist).trans (o.fieldChildren_sublist f.name)).nodup ?_
  have hchildren := ha.nodup_children n
  rwa [Arena.children_some, ho] at hchildren

theorem Tree.Orderly.run_childQueue {t : Tree} (h : t.Orderly r) (hp : t.Live p n)
    (ho : t.arena.get? n = some o) (hf : f ∈ o.type.fields) :
    ∃ qs t', d.engine.childQueue p (some n) f t = .ok qs t' ∧ Visited r (fun _ => False) t t'
      ∧ List.Forall₂ t'.Live qs (d.comesBy t.arena o f) ∧ t'.arena = t.arena := by
  obtain ⟨v, hv, _⟩ := (h.arena.shaped n o ho).value?_of_mem hf
  have hfc : o.fieldChildren f.name = v.children := by
    rw [Node.fieldChildren, hv]
    rfl
  have hfield : (do (← t.arena.node (some n)).field f.name : Except ShapeError Value) = .ok v := by
    have hnode : t.arena.node (some n) = .ok o := Arena.node_ok.2 ho
    simp [hnode, bind, Except.bind, Node.field, hv]
  have hnothing : (o.fieldChildren f.name).filter (d.shouldVisit t.arena) = [] →
      ∃ qs t', (pure [] : TreeM (List PathId)) t = .ok qs t' ∧ Visited r (fun _ => False) t t'
        ∧ List.Forall₂ t'.Live qs (d.comesBy t.arena o f) ∧ t'.arena = t.arena := fun hnil =>
    ⟨[], t, rfl, .refl h, by rw [Dispatch.comesBy, hnil]; exact .nil, rfl⟩
  unfold Engine.childQueue
  rw [Dispatch.dispatch_engine, run_get_bind, hfield, show (TreeM.ofShape (.ok v) : TreeM Value)
    = pure v from rfl, pure_bind]
  unfold Dispatch.comesBy at hnothing ⊢
  rw [hfc] at hnothing ⊢
  cases v with
  | node child =>
    cases child with
    | none => exact hnothing rfl
    | some c =>
      have hread : t.readSlot (some n) (.field f.name) = some c := by
        simp [Tree.readSlot, Arena.child?, ho, Node.child?, hv]
      by_cases hc : d.shouldVisit t.arena c
      · obtain ⟨q, t', hrun, h', hlasts, hq, -, harena, hframes⟩ := h.ends_child hp (by simp) hread
        have hkept : [c].filter (d.shouldVisit t.arena) = [c] := by simp [hc]
        refine ⟨[q], t', ?_, ⟨hlasts, h', hframes⟩, ?_, harena⟩
        · simp only [Option.any_some]
          rw [if_pos hc, run_bind_of_ok hrun]
          rfl
        · show List.Forall₂ _ _ ([c].filter _)
          rw [hkept]
          exact .cons hq .nil
      · have hnil : [c].filter (d.shouldVisit t.arena) = [] := by simp [hc]
        simp only [Option.any_some]
        rw [if_neg hc]
        exact hnothing hnil
  | list items =>
    have hread (i : Nat) : t.arena.slotAt (some n) (.entry f.name i) = items[i]?.join := by
      simp [Arena.slotAt, Arena.items, ho, Node.items, hv]
    have hmap : ((List.range items.length).filter fun i =>
        items[i]?.join.any (d.shouldVisit t.arena)).map (fun i => items[i]?.join)
        = ((items.filterMap id).filter (d.shouldVisit t.arena)).map some := by
      rw [Engine.map_getElem_filter_range items (·.any (d.shouldVisit t.arena)),
        Engine.filter_any_eq]
    have hplaces : List.Forall₂ (fun (i : Nat) c => Slot.entry f.name i ≠ .root
        ∧ t.arena.slotAt (some n) (.entry f.name i) = some c)
        ((List.range items.length).filter fun i => items[i]?.join.any (d.shouldVisit t.arena))
        ((items.filterMap id).filter (d.shouldVisit t.arena)) := by
      have heq := List.forall₂_eq_eq_eq ▸ hmap
      rw [List.forall₂_map_left_iff, List.forall₂_map_right_iff] at heq
      exact heq.imp fun i c hic => ⟨by simp, (hread i).trans hic⟩
    obtain ⟨qs, t', hrun, h', hlasts, hqs, -, harena, hframes⟩ := h.ends_children hp hplaces
    exact ⟨qs, t', hrun, ⟨hlasts, h', hframes⟩, hqs, harena⟩
  | _ => exact hnothing rfl

/-- **The children in a field** are visited on a frame of their own. -/
theorem Dispatch.runs_visitField {I : List NodeId → Arena → σ → Prop} {s : Pass σ}
    (h : s.tree.Orderly r) (hp : s.tree.Live p n) (ho : s.tree.arena.get? n = some o)
    (hf : f ∈ o.type.fields) (hI : I [] s.tree.arena s.own)
    (hturns : ∀ F jobs t₀, t₀.Orderly r → Lasts (fun _ => False) s.tree t₀ →
      t₀.arena = s.tree.arena →
      F.owner = some n → F.key = f.name → jobs.map (·.2) = d.comesBy s.tree.arena o f →
      (∀ x ∈ jobs, t₀.Live x.1 x.2) → d.Turns r gone F s.tree.frames I jobs t₀) :
    ∃ s', Runs (d.engine.visitField · p (some n) f) s false s' ∧ Visited r gone s.tree s'.tree
      ∧ I (d.comesBy s.tree.arena o f) s'.tree.arena s'.own := by
  obtain ⟨qs, t₁, hrun₁, hvisited₁, hqs, harena₁⟩ := h.run_childQueue (d := d) hp ho hf
  obtain ⟨jobs, hpaths, hnodes⟩ : ∃ jobs : List (PathId × NodeId), jobs.map (·.1) = qs
      ∧ jobs.map (·.2) = d.comesBy s.tree.arena o f :=
    ⟨qs.zip _, List.map_fst_zip hqs.length_eq.le, List.map_snd_zip hqs.length_eq.ge⟩
  have hlive : ∀ x ∈ jobs, t₁.Live x.1 x.2 := by
    rw [← hpaths, ← hnodes, List.forall₂_map_left_iff, List.forall₂_map_right_iff,
      List.forall₂_same] at hqs
    exact hqs
  have hI₁ : I [] t₁.arena s.own := harena₁ ▸ hI
  by_cases hempty : qs = []
  · -- no frame is needed
    have hnil : d.comesBy s.tree.arena o f = [] := List.forall₂_nil_left_iff.1 (hempty ▸ hqs)
    refine ⟨⟨t₁, s.own⟩, .of_eq fun steps => ?_,
      ⟨hvisited₁.toLasts.all gone, hvisited₁.orderly, hvisited₁.frames⟩, hnil ▸ hI₁⟩
    unfold Engine.visitField
    rw [run_onTree_bind hrun₁, hempty]
    rfl
  · have hturns₁ (F : Frame) (t₀ : Tree) (h₀ : t₀.Orderly r) (hlasts : Lasts (fun _ => False) t₁ t₀)
        (harena : t₀.arena = t₁.arena) (howner : F.owner = some n) (hkey : F.key = f.name) :
        d.Turns r gone F t₁.frames I jobs t₀ := by
      rw [hvisited₁.frames]
      exact hturns F jobs t₀ h₀ (hvisited₁.toLasts.trans hlasts fun _ _ _ => id)
        (harena.trans harena₁) howner hkey
        hnodes fun x hx => hlasts.live x.1 x.2 (hlive x hx) id
    obtain ⟨s₂, ⟨least, hrun₂⟩, hvisited₂, hI₂⟩ := Dispatch.runs_onFrame (s := ⟨t₁, s.own⟩)
      hvisited₁.orderly hlive (hnodes ▸ d.nodup_comesBy h.owned ho f) hturns₁ hI₁
    refine ⟨s₂, ⟨least, fun steps hsteps => ?_⟩,
      Visited.trans ⟨hvisited₁.toLasts.all gone, hvisited₁.orderly,
      hvisited₁.frames⟩ hvisited₂ fun _ _ _ => id, hnodes ▸ hI₂⟩
    show d.engine.visitField steps p (some n) f s = _
    unfold Engine.visitField
    rw [run_onTree_bind hrun₁, if_neg (by simpa using hempty), ← hpaths]
    exact hrun₂ steps hsteps

def Tree.deeper (t : Tree) : Tree := { t with depth := t.depth + 1 }

theorem Tree.Visited.back {t t' : Tree} (h : Visited r gone t.deeper t') :
    Visited r gone t { t' with depth := t'.depth - 1 } where
  rootPath := h.rootPath
  depth := (congrArg (· - 1) h.depth).trans (Nat.add_sub_cancel ..)
  nextContext := h.nextContext
  still := h.still
  calm := h.calm
  live p m hp hm := by
    have hlive := h.live p m ⟨hp.node, hp.used⟩ hm
    exact ⟨hlive.node, hlive.used⟩
  contexts := h.contexts
  orderly := h.orderly.withBooks t'.frames le_rfl _
  frames := h.frames

/-- What the visits of the fields of a node have to do: each brings `J` one field further. -/
def Dispatch.Fields (d : Dispatch σ) (r : NodeId) (gone : NodeId → Prop) (p : PathId) (n : NodeId)
    (J : List Field → Arena → σ → Prop) (fields : List Field) (t₀ : Tree) : Prop :=
  ∀ done f rest, fields = done ++ f :: rest → ∀ s, Visited r gone t₀ s.tree → s.tree.Live p n →
    J done s.tree.arena s.own →
    ∃ s', Runs (d.engine.visitField · p (some n) f) s false s' ∧ Visited r gone s.tree s'.tree
      ∧ J (done ++ [f]) s'.tree.arena s'.own

theorem Dispatch.runs_visitFields {J : List Field → Arena → σ → Prop}
    {fields : List Field} {t₀ : Tree} (hp : t₀.Live p n) (hcalm : (t₀.path p).Calm) (hn : ¬ gone n)
    (hfields : d.Fields r gone p n J fields t₀) (rest : List Field) : ∀ done,
    fields = done ++ rest → ∀ s, Visited r gone t₀ s.tree →
      J done s.tree.arena s.own →
      ∃ s', Runs (d.engine.visitFields · p (some n) rest) s false s' ∧ Visited r gone t₀ s'.tree
        ∧ J fields s'.tree.arena s'.own := by
  induction rest with
  | nil =>
    intro done hdone s hs hJ
    rw [List.append_nil] at hdone
    refine ⟨s, ⟨1, fun steps hsteps => ?_⟩, hs, hdone ▸ hJ⟩
    obtain ⟨steps, rfl⟩ : ∃ k, steps = k + 1 := ⟨steps - 1, by omega⟩
    show d.engine.visitFields (steps + 1) p (some n) [] s = _
    unfold Engine.visitFields
    rfl
  | cons f rest ih =>
    intro done hdone s hs hJ
    have hlive : s.tree.Live p n := hs.live p n hp hn
    have hflags : (s.tree.path p).Calm := hs.calm p hcalm hlive.used
    obtain ⟨s₁, hrun₁, hs₁, hJ₁⟩ := hfields done f rest hdone s hs hlive hJ
    obtain ⟨s₂, hrun₂, hs₂, hJ₂⟩ := ih (done ++ [f]) (by simp [hdone]) s₁
      (hs.trans hs₁ fun _ _ _ => id) hJ₁
    refine ⟨s₂, ?_, hs₂, hJ₂⟩
    refine (hrun₁.bind (f := fun k stopped => if stopped then pure true
      else d.engine.visitFields k p (some n) rest) hrun₂).step fun steps => ?_
    exact Engine.visitFields_cons d.engine steps p (some n) f rest hlive.used hlive.node
      (congrArg (·.2.2) hflags)

/-- **The children of a node** are visited one level deeper. -/
theorem Dispatch.runs_visitNode {J : List Field → Arena → σ → Prop} {s : Pass σ} {ty : NodeType}
    (h : s.tree.Orderly r) (hp : s.tree.Live p n) (hcalm : (s.tree.path p).Calm) (hn : ¬ gone n)
    (hty : s.tree.arena.type? (some n) = some ty) (hdepth : s.tree.depth < Limits.traversal)
    (hJ : J [] s.tree.arena s.own) (hfields : d.Fields r gone p n J ty.childFields s.tree.deeper) :
    ∃ s', Runs (d.engine.visitNode · p (some n)) s false s' ∧ Visited r gone s.tree s'.tree
      ∧ J ty.childFields s'.tree.arena s'.own := by
  have hstart : Visited r gone s.tree.deeper s.tree.deeper :=
    .refl (h.withBooks s.tree.frames le_rfl _)
  obtain ⟨s₁, hrun, hs₁, hJ₁⟩ := Dispatch.runs_visitFields (show s.tree.deeper.Live p n
    from ⟨hp.node, hp.used⟩) hcalm hn hfields ty.childFields [] rfl ⟨s.tree.deeper, s.own⟩ hstart hJ
  refine ⟨⟨{ s₁.tree with depth := s₁.tree.depth - 1 }, s₁.own⟩, ?_, hs₁.back, hJ₁⟩
  refine (hrun.attempt (f := fun t => { t with depth := t.depth - 1 })).step fun steps => ?_
  show d.engine.visitNode (steps + 1) p (some n) s = _
  rw [Engine.visitNode, run_ask_bind]
  simp only [id_eq]
  rw [if_neg (Nat.not_le.2 hdepth), hty]
  rfl

end Fields

/-! ## visits -/

section Visits

variable {d : Dispatch σ} {r n : NodeId} {gone : NodeId → Prop} {p : PathId} {ty : NodeType}

theorem Tree.Visited.note {t t' : Tree} (h : Visited r gone t t') (p : PathId)
    {f : PathData → PathData} (hpos : ∀ d, (f d).position = d.position)
    (hcontrol : ∀ d, (f d).control = d.control) :
    Visited r gone t (t'.updatePath p f) where
  toRemains := h.toRemains.note p hpos fun d hd =>
    show (f d).control.2 = _ from (congrArg Prod.snd (hcontrol d)).trans hd
  contexts q := (t'.path_updatePath_congr p q f PathData.contexts fun d =>
    congrArg (·.1) (hcontrol d)).trans (h.contexts q)
  orderly := h.orderly.note p hpos fun d _ hc =>
    .inl ((show (f d).contexts = d.contexts from congrArg Prod.fst (hcontrol d)) ▸ hc)
  frames := h.frames

/-- **A visit of a path** whose handlers leave the path alone. -/
theorem Dispatch.runs_visitPath {P Q : Arena → σ → Prop} {s u : Pass σ}
    (hnode : s.tree.node p = some n) (hty : s.tree.arena.type? (some n) = some ty)
    (hdenied : d.isDenied ty = false) (henter : d.engine.call p .enter s = .ok false u)
    (h : u.tree.Orderly r) (hp : u.tree.Live p n) (hcalm : (u.tree.path p).Calm) (hn : ¬ gone n)
    (hchildren : ∀ t, Visited r (fun _ => False) u.tree t → t.arena = u.tree.arena →
      ∃ s', Runs (d.engine.visitNode · p (some n)) ⟨t, u.own⟩ false s' ∧ Visited r gone t s'.tree
        ∧ P s'.tree.arena s'.own)
    (hexit : ∀ s' : Pass σ, s'.tree.Orderly r → s'.tree.Live p n → (s'.tree.path p).Calm →
      P s'.tree.arena s'.own →
      ∃ b own', d.engine.call p .exit s' = .ok b ⟨s'.tree, own'⟩ ∧ Q s'.tree.arena own') :
    ∃ s', Runs (d.engine.visitPath · p) s false s' ∧ Visited r gone u.tree s'.tree
      ∧ Q s'.tree.arena s'.own := by
  have h₁ : Visited r (fun _ => False) u.tree
      (u.tree.updatePath p ({ · with childrenDone := false })) :=
    (Visited.refl h).note p (fun _ => rfl) fun _ => rfl
  obtain ⟨s₂, hrun₂, h₂, hP⟩ := hchildren _ h₁ rfl
  have h₃ : Visited r gone u.tree (s₂.tree.updatePath p ({ · with childrenDone := true })) :=
    (Visited.trans ⟨h₁.toLasts.all gone, h₁.orderly, h₁.frames⟩ h₂ fun _ _ _ => id).note p
      (fun _ => rfl)
      fun _ => rfl
  have hlive : (s₂.tree.updatePath p ({ · with childrenDone := true })).Live p n :=
    h₃.live p n hp hn
  have hcalm₃ := h₃.calm p hcalm hlive.used
  obtain ⟨b, own', hexit, hQ⟩ := hexit ⟨s₂.tree.updatePath p ({ · with childrenDone := true }),
    s₂.own⟩ h₃.orderly hlive hcalm₃ hP
  refine ⟨⟨s₂.tree.updatePath p ({ · with childrenDone := true }), own'⟩, ?_, h₃, hQ⟩
  obtain ⟨least, hrun₂⟩ := hrun₂
  refine ⟨least + 1, fun steps hsteps => ?_⟩
  obtain ⟨steps, rfl⟩ : ∃ k, steps = k + 1 := ⟨steps - 1, by omega⟩
  have hattempt := run_attempt (hrun₂ steps (by omega))
  have hskip : (u.tree.path p).shouldSkip = false := congrArg (·.1) hcalm
  have hstop : ((s₂.tree.updatePath p ({ · with childrenDone := true })).path p).shouldStop
    = false :=
    congrArg (·.2.1) hcalm₃
  show d.engine.visitPath (steps + 1) p s = _
  rw [Engine.visitPath, run_ask_bind]
  simp only [id_eq, hnode, hty, Dispatch.dispatch_engine, hdenied, Bool.false_eq_true, if_false]
  rw [run_bind_of_ok henter, run_ask_bind]
  simp only [hskip, Bool.or_self, Bool.false_eq_true, if_false]
  rw [run_modifyTree_bind, run_bind_of_ok hattempt, run_modifyTree_bind, run_resume_bind]
  simp only [Bool.false_eq_true, if_false]
  rw [run_ask_bind]
  simp only [hlive.used,
    show (((s₂.tree.updatePath p ({ · with childrenDone := true })).path p).node = some n)
    from hlive.node, bne_self_eq_false, Bool.or_self, Bool.false_eq_true, if_false]
  rw [run_bind_of_ok hexit]
  exact congrArg (EStateM.Result.ok · _) hstop

theorem Dispatch.runs_visitPath_of_changed {s s₁ : Pass σ} (hnode : s.tree.node p = some n)
    (hty : s.tree.arena.type? (some n) = some ty) (hdenied : d.isDenied ty = false)
    (henter : d.engine.call p .enter s = .ok true s₁)
    (hstop : (s₁.tree.path p).shouldStop = false) :
    Runs (d.engine.visitPath · p) s false s₁ := by
  refine ⟨1, fun steps hsteps => ?_⟩
  obtain ⟨steps, rfl⟩ : ∃ k, steps = k + 1 := ⟨steps - 1, by omega⟩
  show d.engine.visitPath (steps + 1) p s = _
  rw [Engine.visitPath, run_ask_bind]
  simp only [id_eq, hnode, hty, Dispatch.dispatch_engine, hdenied, Bool.false_eq_true, if_false]
  rw [run_bind_of_ok henter, run_ask_bind]
  simp only [Bool.true_or, if_true]
  exact congrArg (EStateM.Result.ok · _) hstop

variable {id : ContextId} {F : Frame} {fs : List Frame} {s s₁ s' : Pass σ}

theorem Dispatch.runs_visitTurn (hvisit : Runs (d.engine.visitPath · p) s false s')
    (hframes : s'.tree.frames = F :: fs) (hid : F.id = id) (hpriority : F.priority = []) :
    Runs (d.engine.visitTurn · id p) s false s' := by
  have htake : Engine.takePriority id s'.tree = .ok [] s'.tree := by
    rw [Bridge.takePriority_eq hframes hid, hpriority, ← hpriority, Bridge.withBooks, ← hframes]
  obtain ⟨least, hvisit⟩ := hvisit
  refine ⟨least, fun steps hsteps => ?_⟩
  show d.engine.visitTurn steps id p s = _
  unfold Engine.visitTurn
  rw [run_bind_of_ok (hvisit steps hsteps)]
  simp only [Bool.false_eq_true, if_false]
  rw [run_onTree_bind htake]
  rfl

theorem Dispatch.runs_visitTurn_of_queued (hvisit : Runs (d.engine.visitPath · p) s false s₁)
    (hframes : s₁.tree.frames = F :: fs) (hid : F.id = id) (hpriority : F.priority ≠ [])
    (hqueue : Runs (d.engine.visitQueue · id F.priority) ⟨Bridge.withBooks s₁.tree
      ({ F with priority := [] } :: fs) s₁.tree.nextContext s₁.tree.depth, s₁.own⟩ false s') :
    Runs (d.engine.visitTurn · id p) s false s' := by
  obtain ⟨least, hvisit⟩ := hvisit
  obtain ⟨least', hqueue⟩ := hqueue
  refine ⟨max least least', fun steps hsteps => ?_⟩
  show d.engine.visitTurn steps id p s = _
  unfold Engine.visitTurn
  rw [run_bind_of_ok (hvisit steps (by omega))]
  simp only [Bool.false_eq_true, if_false]
  rw [run_onTree_bind (Bridge.takePriority_eq hframes hid), if_neg (by simpa using hpriority)]
  exact hqueue steps (by omega)

end Visits

end ScopedTree
