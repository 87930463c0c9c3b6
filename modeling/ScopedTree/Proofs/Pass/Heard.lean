import ScopedTree.Proofs.Edit.SelfEdits
import ScopedTree.Proofs.Pass.Runs

/-!
# What handlers are called on

A visitor keeps a log of what its handlers are called on. Where they leave the tree alone a visit of
a path changes nothing, and the log grows by calls on the nodes below.

* `Event`, `Watch`            the log, and the state of a visitor that keeps one;
* `SelfEditor`                a visitor whose enter handler edits the path it is called on;
* `Dispatch.Watches`          a type whose nodes are seen once in each phase;
* `SelfEditor.hushes`         visits where handlers leave the tree alone.
-/

namespace ScopedTree

open Arena ScopedTree.Tree Relation

variable {σ : Type}

/-! ## visitors that keep a log -/

/-- A handler was called on a node, and what it did. -/
inductive Event where
  | entered (n : NodeId) (e : SelfEdit)
  | exited (n : NodeId)

namespace Event

def node : Event → NodeId
  | entered n _ => n
  | exited n => n

/-- A handler was called on a node and left it alone. -/
def quiet (n : NodeId) : Phase → Event
  | .enter => entered n .stay
  | .exit => exited n

@[simp] theorem node_quiet (n : NodeId) (phase : Phase) :
    (quiet n phase).node = n := by cases phase <;> rfl

end Event

/-- The state of a visitor, together with a log. -/
structure Watch (σ : Type) where
  log : List Event
  own : σ

/-- A visitor whose enter handler looks at the tree and its state, makes new nodes, and does
something to the path it is called on. -/
structure SelfEditor (σ : Type) where
  choose : NodeId → Tree → σ → ArenaM (SelfEdit × σ)
  leave : NodeId → Tree → σ → σ

namespace SelfEditor

def enter (v : SelfEditor σ) : Handler (Watch σ) := fun p => do
  match ← PassM.ask (·.node p) with
  | none => return
  | some n =>
    let s ← get
    let (e, own) ← PassM.onTree (TreeM.edit (v.choose n s.tree s.own.own))
    PassM.note fun w => { log := w.log ++ [.entered n e], own }
    PassM.onTree (e.run p)

def exit (v : SelfEditor σ) : Handler (Watch σ) := fun p => do
  match ← PassM.ask (·.node p) with
  | none => return
  | some n =>
    let t ← PassM.ask id
    PassM.note fun w => { log := w.log ++ [.exited n], own := v.leave n t w.own }

def handler (v : SelfEditor σ) : Phase → Handler (Watch σ)
  | .enter => v.enter
  | .exit => v.exit

/-- Whatever the tree is, the handlers leave the node alone. -/
def Quiet (v : SelfEditor σ) (n : NodeId) : Prop :=
  ∀ t own, ∃ own', v.choose n t own t.arena = .ok (.stay, own') t.arena

/-- All handlers are those of the visitor. -/
structure Drives (v : SelfEditor σ) (d : Dispatch (Watch σ)) : Prop where
  general : ∀ x ∈ d.general, x.2 = v.handler x.1
  typed : ∀ x ∈ d.typed, x.run = v.handler x.phase

end SelfEditor

/-- The handlers that are called on a node of a type in a phase, each with its check. -/
def Dispatch.calls (d : Dispatch σ) (ty : NodeType) (phase : Phase)
    (p : PathId) : List ((Tree → Bool) × Handler σ) :=
  (d.generalHandlers phase).map (fun run => ((fun _ : Tree => true), run))
    ++ (d.entries ty phase).map fun entry => ((fun t : Tree => entry.key.passes t p), entry.run)

/-- Nodes of the type are visited, and there is one handler for them in each phase, without a check.
-/
structure Dispatch.Watches (d : Dispatch σ) (ty : NodeType) : Prop where
  admitted : d.isDenied ty = false
  once : ∀ phase, (d.generalHandlers phase).length + (d.entries ty phase).length = 1
  unchecked : ∀ phase, ∀ x ∈ d.entries ty phase, x.key.check? = none

section Calls

variable {v : SelfEditor σ} {d : Dispatch (Watch σ)} {ty : NodeType} {phase : Phase} {p : PathId}
  {n : NodeId} {s : Pass (Watch σ)}

theorem SelfEditor.Drives.calls (h : v.Drives d) : ∀ x ∈ d.calls ty phase p,
    x.2 = v.handler phase := by
  intro x hx
  rcases List.mem_append.1 hx with hx | hx
  · obtain ⟨run, hrun, rfl⟩ := List.mem_map.1 hx
    obtain ⟨y, hy, rfl⟩ := List.mem_map.1 hrun
    obtain ⟨hmem, hphase⟩ := List.mem_filter.1 hy
    obtain rfl : y.1 = phase := by simpa using hphase
    exact h.general y hmem
  · obtain ⟨entry, hentry, rfl⟩ := List.mem_map.1 hx
    obtain ⟨hmem, hphase⟩ := List.mem_filter.1 hentry
    obtain rfl : entry.phase = phase := by
      simp only [Bool.and_eq_true, beq_iff_eq] at hphase
      exact hphase.1
    exact h.typed entry hmem

theorem Dispatch.Watches.calls (h : d.Watches ty) (phase : Phase) (p : PathId) :
    (d.calls ty phase p).length = 1 ∧ ∀ x ∈ d.calls ty phase p, ∀ t, x.1 t = true := by
  refine ⟨?_, fun x hx t => ?_⟩
  · simpa [Dispatch.calls] using h.once phase
  · rcases List.mem_append.1 hx with hx | hx
    · obtain ⟨run, -, rfl⟩ := List.mem_map.1 hx
      rfl
    · obtain ⟨entry, hentry, rfl⟩ := List.mem_map.1 hx
      simp [VisitKey.passes, h.unchecked phase entry hentry]

theorem Dispatch.call_eq (hnode : s.tree.node p = some n)
    (hty : s.tree.arena.type? (some n) = some ty) :
    d.engine.call p phase s = Engine.runHandlers p (some n) (d.calls ty phase p) s := by
  unfold Engine.call
  rw [run_ask_bind]
  simp only [id_eq, hnode, hty]
  rfl

theorem SelfEditor.Quiet.run_handler (h : v.Quiet n) (hnode : s.tree.node p = some n)
    (phase : Phase) :
    ∃ own', v.handler phase p s = .ok ⟨⟩ ⟨s.tree, ⟨s.own.log ++ [.quiet n phase], own'⟩⟩ := by
  cases phase with
  | enter =>
    obtain ⟨own', hchoose⟩ := h s.tree s.own.own
    refine ⟨own', ?_⟩
    show v.enter p s = _
    unfold SelfEditor.enter
    rw [run_ask_bind, hnode]
    dsimp only
    rw [run_get_bind, run_onTree_bind (run_edit hchoose)]
    rfl
  | exit =>
    refine ⟨v.leave n s.tree s.own.own, ?_⟩
    show v.exit p s = _
    unfold SelfEditor.exit
    rw [run_ask_bind, hnode]
    rfl

theorem Engine.changed_eq_false {t : Tree} (hp : t.Live p n) (hcalm : (t.path p).Calm) :
    Engine.changed t p (some n) = false := by
  unfold Engine.changed
  simp [hp.used, show (t.path p).node = some n from hp.node,
    show (t.path p).shouldSkip = false from congrArg (·.1) hcalm,
    show (t.path p).shouldStop = false from congrArg (·.2.1) hcalm]

theorem SelfEditor.Quiet.run_handlers (h : v.Quiet n) (hp : s.tree.Live p n)
    (hcalm : (s.tree.path p).Calm) :
    ∀ (handlers : List ((Tree → Bool) × Handler (Watch σ))),
      (∀ x ∈ handlers, x.2 = v.handler phase) →
      ∀ w, ∃ k own', Engine.runHandlers p (some n) handlers ⟨s.tree, w⟩
          = .ok false ⟨s.tree, ⟨w.log ++ List.replicate k (.quiet n phase), own'⟩⟩
        ∧ ((∀ x ∈ handlers, ∀ t, x.1 t = true) → k = handlers.length)
  | [], _, w => ⟨0, w.own, by simp [Engine.runHandlers]; rfl, fun _ => rfl⟩
  | (check, run) :: rest, hrun, w => by
    have hrest : ∀ x ∈ rest, x.2 = v.handler phase := fun x hx => hrun x (List.mem_cons_of_mem _ hx)
    unfold Engine.runHandlers
    rw [run_ask_bind]
    by_cases hcheck : check s.tree = true
    · obtain ⟨own', hhandler⟩ := h.run_handler (s := ⟨s.tree, w⟩) hp.node phase
      obtain ⟨k, own'', hruns, hk⟩ := SelfEditor.Quiet.run_handlers h hp hcalm rest hrest
        ⟨w.log ++ [.quiet n phase], own'⟩
      refine ⟨k + 1, own'', ?_, fun hall => ?_⟩
      · simp only [hcheck, if_true]
        rw [show run = v.handler phase from hrun _ (List.mem_cons_self ..), run_bind_of_ok hhandler,
          run_ask_bind]
        simp only [Engine.changed_eq_false hp hcalm, Bool.false_eq_true, if_false]
        rw [hruns, List.append_assoc, List.replicate_succ]
        rfl
      · rw [hk fun x hx => hall x (List.mem_cons_of_mem _ hx), List.length_cons]
    · obtain ⟨k, own', hruns, hk⟩ := SelfEditor.Quiet.run_handlers h hp hcalm rest hrest w
      refine ⟨k, own', ?_, fun hall => absurd (hall _ (List.mem_cons_self ..) s.tree) hcheck⟩
      simp only [hcheck]
      exact hruns

/-- **A call on a node that is left alone** changes nothing but the log. -/
theorem SelfEditor.Quiet.call (h : v.Quiet n) (hd : v.Drives d) (hp : s.tree.Live p n)
    (hcalm : (s.tree.path p).Calm) (hty : s.tree.arena.type? (some n) = some ty) (phase : Phase) :
    ∃ k own', d.engine.call p phase s
        = .ok false ⟨s.tree, ⟨s.own.log ++ List.replicate k (.quiet n phase), own'⟩⟩
      ∧ (d.Watches ty → k = 1) := by
  obtain ⟨k, own', hrun, hk⟩ := h.run_handlers hp hcalm (d.calls ty phase p) hd.calls s.own
  refine ⟨k, own', (Dispatch.call_eq hp.node hty).trans hrun, fun hwatches => ?_⟩
  obtain ⟨hlen, hchecks⟩ := hwatches.calls phase p
  rw [hk hchecks, hlen]

end Calls

/-! ## visits that change nothing -/

/-- Handlers were called on nodes with the property since. -/
def Heard (P : NodeId → Prop) (w w' : Watch σ) : Prop :=
  ∃ calls, w'.log = w.log ++ calls ∧ ∀ x ∈ calls, P x.node

namespace Heard

variable {P Q : NodeId → Prop} {w w' w'' : Watch σ}

@[refl] theorem refl (P : NodeId → Prop) (w : Watch σ) : Heard P w w := ⟨[], by simp, nofun⟩

theorem trans (h : Heard P w w') (h' : Heard P w' w'') : Heard P w w'' := by
  obtain ⟨calls, hlog, hcalls⟩ := h
  obtain ⟨calls', hlog', hcalls'⟩ := h'
  exact ⟨calls ++ calls', by rw [hlog', hlog, List.append_assoc], fun x hx =>
    (List.mem_append.1 hx).elim (hcalls x) (hcalls' x)⟩

theorem mono (h : Heard P w w') (hPQ : ∀ n, P n → Q n) : Heard Q w w' :=
  h.imp fun _ ⟨hlog, hcalls⟩ => ⟨hlog, fun x hx => hPQ _ (hcalls x hx)⟩

theorem replicate (hn : P n) (k : Nat) (phase : Phase) (own : σ) :
    Heard P w ⟨w.log ++ List.replicate k (.quiet n phase), own⟩ :=
  ⟨_, rfl, fun x hx => by rw [List.eq_of_mem_replicate hx]; simpa using hn⟩

end Heard

def Watch.on (w : Watch σ) (n : NodeId) : List Event := w.log.filter (·.node == n)

theorem Watch.on_append (w : Watch σ) (calls : List Event) (own : σ) (n : NodeId) :
    Watch.on ⟨w.log ++ calls, own⟩ n = w.on n ++ calls.filter (·.node == n) := List.filter_append ..

theorem Heard.mem {P : NodeId → Prop} {w w' : Watch σ} {x : Event} (h : Heard P w w')
    (hx : x ∈ w'.log) :
    x ∈ w.log ∨ P x.node := by
  obtain ⟨calls, hlog, hcalls⟩ := h
  rw [hlog] at hx
  exact (List.mem_append.1 hx).imp_right (hcalls x)

theorem Heard.on_eq {P : NodeId → Prop} {w w' : Watch σ} {n : NodeId} (h : Heard P w w')
    (hn : ¬ P n) :
    w'.on n = w.on n := by
  obtain ⟨calls, hlog, hcalls⟩ := h
  have hnone : calls.filter (·.node == n) = [] := by
    rw [List.filter_eq_nil_iff]
    intro x hx he
    exact hn (by simpa using (beq_iff_eq.1 he) ▸ hcalls x hx)
  unfold Watch.on
  rw [hlog, List.filter_append, hnone, List.append_nil]

/-- A node and all below it were visited, and nothing was changed. -/
structure Pass.Hushed (r n : NodeId) (seen : Prop) (s s' : Pass (Watch σ)) : Prop
    extends Visited r (fun _ => False) s.tree s'.tree where
  arena : s'.tree.arena = s.tree.arena
  heard : Heard (fun z => ReflTransGen s.tree.arena.OwnedBy z n) s.own s'.own
  own : seen → s'.own.on n = s.own.on n ++ [.entered n .stay, .exited n]

section Hushes

variable {v : SelfEditor σ} {d : Dispatch (Watch σ)} {r n : NodeId} {p : PathId} {k : Nat}

theorem Dispatch.turns_of_visits {gone : NodeId → Prop} {F : Frame} {fs : List Frame}
    {I : List NodeId → Arena → σ → Prop} {jobs : List (PathId × NodeId)} {t₀ : Tree}
    {d : Dispatch σ} (hvisit : ∀ done q n rest, jobs = done ++ (q, n) :: rest →
      ∀ s : Pass σ, s.tree.Orderly r → s.tree.Live q n →
      (s.tree.path q).Calm → s.tree.depth = t₀.depth → I (done.map (·.2)) s.tree.arena s.own →
      ∃ s', Runs (d.engine.visitPath · q) s false s' ∧ Visited r (fun _ => False) s.tree s'.tree
        ∧ I (done.map (·.2) ++ [n]) s'.tree.arena s'.own) : d.Turns r gone F fs I jobs t₀ := by
  intro done q n rest hjobs s F' ht hcalm _ hI
  obtain ⟨s', hrun, hvisited, hI'⟩ := hvisit done q n rest hjobs s ht.amid.orderly
    (ht.live (q, n) (List.mem_cons_self ..)) hcalm ht.amid.depth hI
  exact ⟨s', fun _ => False, Dispatch.runs_visitTurn hrun (hvisited.frames.trans ht.frames) ht.id
    ht.priority, hvisited, hI', fun _ _ => id, fun _ _ => False.elim⟩

/-- Visits of nodes with less than so many levels below change nothing, if handlers leave all below
alone. -/
def SelfEditor.Hushes (v : SelfEditor σ) (d : Dispatch (Watch σ)) (r : NodeId) (k : Nat) : Prop :=
  ∀ (s : Pass (Watch σ)) p n ty, s.tree.Orderly r → s.tree.Live p n → (s.tree.path p).Calm →
    s.tree.arena.type? (some n) = some ty → s.tree.arena.Shallow k n →
    s.tree.depth + k ≤ Limits.traversal → (∀ z, ReflTransGen s.tree.arena.OwnedBy z n → v.Quiet z) →
    ∃ s', Runs (d.engine.visitPath · p) s false s' ∧ s.Hushed r n (d.Watches ty) s'

theorem exists_type? {a : Arena} (h : n.index < a.size) : ∃ ty, a.type? (some n) = some ty := by
  obtain ⟨k, hk⟩ := Option.isSome_iff_exists.1 (isSome_get?_iff.2 h)
  exact ⟨k.type, by simp [Arena.type?, hk]⟩

theorem SelfEditor.Hushes.visitField (h : v.Hushes d r k) {s : Pass (Watch σ)}
    {o : Node} {f : Field} (hs : s.tree.Orderly r) (hp : s.tree.Live p n)
    (ho : s.tree.arena.get? n = some o) (hf : f ∈ o.type.fields)
    (hkids : ∀ c ∈ o.fieldChildren f.name, s.tree.arena.Shallow k c
      ∧ ∀ z, ReflTransGen s.tree.arena.OwnedBy z c → v.Quiet z)
    (hdepth : s.tree.depth + k ≤ Limits.traversal) :
    ∃ s', Runs (d.engine.visitField · p (some n) f) s false s'
      ∧ Visited r (fun _ => False) s.tree s'.tree
      ∧ s'.tree.arena = s.tree.arena ∧ Heard (fun z => ∃ c ∈ o.fieldChildren f.name,
        ReflTransGen s.tree.arena.OwnedBy z c) s.own s'.own := by
  generalize ha : s.tree.arena = a at *
  let I : List NodeId → Arena → Watch σ → Prop := fun _ b w =>
    b = a ∧ Heard (fun z => ∃ c ∈ o.fieldChildren f.name, ReflTransGen a.OwnedBy z c) s.own w
  refine Dispatch.runs_visitField (d := d) (I := I) hs hp (ha ▸ ho) hf ⟨ha, .refl _ _⟩
    fun F jobs t₀ _ hlasts harena₀ _ _ hjobs _ => ?_
  refine Dispatch.turns_of_visits fun done q c rest hsplit s₁ hs₁ hq hcalm hdepth₁ hI => ?_
  obtain ⟨harena₁, hheard₁⟩ := hI
  have hc : c ∈ o.fieldChildren f.name := by
    have hmem : c ∈ jobs.map (·.2) := by simp [hsplit]
    rw [hjobs] at hmem
    exact (List.mem_filter.1 hmem).1
  obtain ⟨hshallow, hquiet⟩ := hkids c hc
  obtain ⟨ty, hty⟩ := exists_type? (hs₁.filed.held q c hq.node)
  rw [← harena₁] at hshallow hquiet
  obtain ⟨s₂, hrun₂, hhushed⟩ := h s₁ q c ty hs₁ hq hcalm hty hshallow
    (by rw [hdepth₁, hlasts.depth]; exact hdepth) hquiet
  refine ⟨s₂, hrun₂, hhushed.toVisited, hhushed.arena.trans harena₁,
    hheard₁.trans (hhushed.heard.mono fun z hz => ?_)⟩
  exact ⟨c, hc, harena₁ ▸ hz⟩

theorem SelfEditor.Hushes.visitNode (h : v.Hushes d r k) {s : Pass (Watch σ)} {ty : NodeType}
    (hs : s.tree.Orderly r) (hp : s.tree.Live p n) (hcalm : (s.tree.path p).Calm)
    (hty : s.tree.arena.type? (some n) = some ty) (hshallow : s.tree.arena.Shallow (k + 1) n)
    (hdepth : s.tree.depth + (k + 1) ≤ Limits.traversal)
    (hquiet : ∀ z, TransGen s.tree.arena.OwnedBy z n → v.Quiet z) :
    ∃ s', Runs (d.engine.visitNode · p (some n)) s false s'
      ∧ Visited r (fun _ => False) s.tree s'.tree
      ∧ s'.tree.arena = s.tree.arena ∧ Heard (fun z => TransGen s.tree.arena.OwnedBy z n) s.own
      s'.own := by
  generalize ha : s.tree.arena = a at *
  let J : List Field → Arena → Watch σ → Prop := fun _ b w =>
    b = a ∧ Heard (fun z => TransGen a.OwnedBy z n) s.own w
  obtain ⟨o, ho⟩ := Option.isSome_iff_exists.1 (isSome_get?_iff.2 (hs.filed.held p n hp.node))
  obtain rfl : o.type = ty := by
    rw [← ha] at hty
    simpa [Arena.type?, ho] using hty
  refine Dispatch.runs_visitNode (d := d) (J := J) hs hp hcalm id (ha ▸ hty) (by omega)
    ⟨ha, .refl _ _⟩ fun done f rest hfields s₁ hs₁ hlive hJ => ?_
  obtain ⟨harena₁, hheard₁⟩ := hJ
  have ho₁ : s₁.tree.arena.get? n = some o := by rw [harena₁, ← ha]; exact ho
  have hf : f ∈ o.type.fields := by
    have hf : f ∈ o.type.childFields := by simp [hfields]
    exact (List.mem_filter.1 hf).1
  have hchild (c : NodeId) (hc : c ∈ o.fieldChildren f.name) : a.OwnedBy c n := by
    refine ha ▸ hs.owned.owner_of_child n c ?_
    rw [children_some, ho]
    exact (o.fieldChildren_sublist f.name).mem hc
  have hkids : ∀ c ∈ o.fieldChildren f.name, s₁.tree.arena.Shallow k c
      ∧ ∀ z, ReflTransGen s₁.tree.arena.OwnedBy z c → v.Quiet z := fun c hc => by
    rw [harena₁]
    exact ⟨hshallow c (ha ▸ hs.owned.mem_children_iff.2 (ha ▸ hchild c hc)), fun z hz =>
      hquiet z (TransGen.tail' hz (hchild c hc))⟩
  have hdepth₁ : s₁.tree.depth + k ≤ Limits.traversal := by
    rw [hs₁.depth]
    show s.tree.depth + 1 + k ≤ _
    omega
  obtain ⟨s₂, hrun₂, hs₂, harena₂, hheard₂⟩ := h.visitField hs₁.orderly hlive ho₁ hf hkids hdepth₁
  refine ⟨s₂, hrun₂, hs₂, harena₂.trans harena₁, hheard₁.trans (hheard₂.mono ?_)⟩
  rintro z ⟨c, hc, hz⟩
  exact TransGen.tail' (harena₁ ▸ hz) (hchild c hc)

/-- **Where handlers leave all alone, visits change nothing**, and nodes of a type that is watched
are seen once in each phase. -/
theorem SelfEditor.hushes (hd : v.Drives d) : ∀ k, v.Hushes d r k
  | 0 => fun _ _ _ _ _ _ _ _ hshallow => hshallow.elim
  | k + 1 => fun s p n ty hs hp hcalm hty hshallow hdepth hquiet => by
    by_cases hdenied : d.isDenied ty = true
    · -- nothing is done
      refine ⟨s, ⟨1, fun steps hsteps => ?_⟩, .refl hs, rfl, .refl _ _, fun hw => ?_⟩
      · obtain ⟨steps, rfl⟩ : ∃ k, steps = k + 1 := ⟨steps - 1, by omega⟩
        show d.engine.visitPath (steps + 1) p s = _
        rw [Engine.visitPath, run_ask_bind]
        simp only [id_eq, hp.node, hty, Dispatch.dispatch_engine, hdenied, if_true]
        rfl
      · rw [hw.admitted] at hdenied
        cases hdenied
    · have hself := hquiet n .refl
      obtain ⟨i, own₁, henter, hi⟩ := hself.call hd hp hcalm hty .enter
      let P : Arena → Watch σ → Prop := fun b w => b = s.tree.arena
        ∧ Heard (fun z => TransGen s.tree.arena.OwnedBy z n)
        ⟨s.own.log ++ List.replicate i (.quiet n .enter), own₁⟩ w
      let Q : Arena → Watch σ → Prop := fun b w => b = s.tree.arena
        ∧ Heard (fun z => ReflTransGen s.tree.arena.OwnedBy z n) s.own w
        ∧ (d.Watches ty → w.on n = s.own.on n ++ [.entered n .stay, .exited n])
      have htree : ∃ s', Runs (d.engine.visitPath · p) s false s'
          ∧ Visited r (fun _ => False) s.tree s'.tree ∧ Q s'.tree.arena s'.own := by
        refine Dispatch.runs_visitPath (P := P)
          (u := ⟨s.tree, ⟨s.own.log ++ List.replicate i (.quiet n .enter), own₁⟩⟩)
          hp.node hty (by simpa using hdenied) henter hs hp hcalm id (fun t ht harena => ?_) fun s'
          hs' hp' hcalm' hP => ?_
        · obtain ⟨s', hrun, hvisited, harena', hheard⟩ := (SelfEditor.hushes hd k).visitNode
            (s := ⟨t, ⟨s.own.log ++ List.replicate i (.quiet n .enter), own₁⟩⟩) ht.orderly
            (ht.live p n hp id)
            (ht.calm p hcalm (ht.live p n hp id).used) (harena ▸ hty) (harena ▸ hshallow)
            (ht.depth ▸ hdepth) (fun z hz => hquiet z (harena ▸ hz.to_reflTransGen))
          exact ⟨s', hrun, hvisited, harena'.trans harena, harena ▸ hheard⟩
        · obtain ⟨harena', hheard⟩ := hP
          obtain ⟨j, own₂, hexit, hj⟩ := hself.call hd hp' hcalm' (harena' ▸ hty) .exit
          refine ⟨false, _, hexit, harena', ?_, fun hw => ?_⟩
          · exact ((Heard.replicate .refl i .enter own₁).trans
              (hheard.mono fun _ => TransGen.to_reflTransGen)).trans (.replicate .refl j .exit own₂)
          · -- no node is below itself
            have hon := hheard.on_eq (hs.owned.acyclic n)
            rw [hi hw] at hon
            rw [hj hw, Watch.on_append, hon, Watch.on_append, List.append_assoc]
            simp [Event.quiet, Event.node]
      obtain ⟨s', hrun, hvisited, harena', hheard, hseen⟩ := htree
      exact ⟨s', hrun, hvisited, harena', hheard, hseen⟩

end Hushes

end ScopedTree
