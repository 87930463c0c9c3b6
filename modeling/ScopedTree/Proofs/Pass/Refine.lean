import ScopedTree.Proofs.Pass.Frames

/-!
# Passes are walks

On a tree that nobody edits the frames, queues and contexts of a pass come down to the recursive
walk.

* `Bridge.Sound`            what is needed of handlers and of the assignment of scopes;
* `Bridge.At`               a pass is at a path;
* `Bridge.Done`             the state after a part of a pass;
* `Bridge.Sound.runQueue`, …, `Bridge.Sound.visitPath`   each part of the engine against the walk.
-/

namespace ScopedTree

open ScopedTree.Tree

variable {σ α : Type}

namespace Verdict

def stops : Verdict → Bool
  | stop => true
  | _ => false

/-- How a verdict shows on the path of the node after the enter handlers. -/
def Shows (v : Verdict) (changed : Bool) (d : PathData) : Prop :=
  match v with
  | go skipped =>
    changed = false ∧ d.shouldSkip = false ∧ ∀ k, d.skipKeys.contains k = skipped.contains k
  | _ => changed = true

end Verdict

/-- The nodes above one that a pass comes to at a depth: one for each level, and one more if the
pass began below the root. -/
def Near (above : List NodeId) (depth : Nat) : Prop :=
  depth ≤ above.length ∧ above.length ≤ depth + 1

/-- How many steps a part of a pass needs that goes so many levels down. -/
def Arena.need (a : Arena) (levels : Nat) : Nat := (levels + 1) * (a.childCount + 14)

namespace Bridge

/-- Steps run out only where that is an excuse. -/
def Enough (B : Bridge σ α) (k steps : Nat) : Prop := B.Abort .outOfSteps ∨ k ≤ steps

variable {r : NodeId}

/-- A pass is at a path of the node `n`, with so many levels left. -/
structure At (B : Bridge σ α) (G : Ground r) (levels : Nat) (p : PathId) (n : NodeId)
    (above : List NodeId) (x : α) (s : Pass σ) : Prop where
  steady : s.tree.Steady G
  inv : B.Inv x s
  place : G.Place s.tree p n above
  near : Near above s.tree.depth
  depth : s.tree.depth + levels = Limits.traversal

/-- After the handlers of a phase, which leave the paths of the nodes above alone. -/
structure Called (B : Bridge σ α) (G : Ground r) (p : PathId) (above : List NodeId) (phase : Phase)
    (s : Pass σ) (v : Verdict) (changed : Bool) (x : α) (s' : Pass σ) : Prop where
  stops : (s'.tree.path p).shouldStop = v.stops
  shows : phase = .enter → v.Shows changed (s'.tree.path p)
  inv : B.Inv x s'
  steady : s'.tree.Steady G
  moves : s.tree.Moves G s.tree.nextContext (· ∈ above) s'.tree
  frames : s'.tree.frames = s.tree.frames

/-- What is needed of the handlers of an engine and of its assignment of scopes. -/
structure Sound (B : Bridge σ α) (G : Ground r) (e : Engine σ) (w : Walker α)
    (a : Arena) : Prop where
  arena : ∀ x s, B.Inv x s → s.tree.arena = a
  takes : w.takes = e.dispatch.shouldVisit a
  denied : w.denied = e.dispatch.isDenied
  /-- the books of the pass do not matter -/
  quiet : ∀ x s t', B.Inv x s → G.Grows s.tree t' → s.tree.SameNames t' → G.Firm t' →
    B.Inv x ⟨t', s.own⟩
  quietArrived : ∀ n t t', B.Arrived n t → G.Grows t t' → t.SameNames t' → B.Arrived n t'
  fail : ∀ x s, B.Inv x s → B.Fail x s.own
  arrive_bad : ∀ above n x, B.Bad x → B.Bad (w.arrive above n x)
  call_bad : ∀ phase above n, Stays B.Bad (w.call phase above n)
  /-- the way to a node -/
  assign : ∀ {levels p n above x s}, B.At G levels p n above x s → (w.takes n = true ∨ above = []) →
    Ends (e.assign p s.tree)
      (fun _ t' => t'.Steady G ∧ s.tree.Moves G s.tree.nextContext (fun _ => True) t'
        ∧ t'.frames = s.tree.frames ∧ B.Inv (w.arrive above n x) ⟨t', s.own⟩ ∧ B.Arrived n t')
      fun err _ => B.Abort err ∨ B.Bad (w.arrive above n x)
  /-- the handlers of a node -/
  call : ∀ {levels p n above x s} phase, B.At G levels p n above x s →
    (phase = .enter → B.Arrived n s.tree ∧ (s.tree.path p).skipKeys = []) →
    (phase = .exit → w.Leaves a above n x) →
    (s.tree.path p).shouldSkip = false → (s.tree.path p).shouldStop = false →
    B.Agrees (B.Called G p above phase s) (w.call phase above n x) (e.call p phase s)

/-- After a part of a pass that began with the tree `t`: the states match, contexts from `k` on may
have come, and the flags of the nodes in `K` are those of before. -/
structure Done (B : Bridge σ α) (G : Ground r) (t : Tree) (k : Nat) (K : NodeId → Prop)
    (b c : Bool) (x : α) (s : Pass σ) : Prop where
  same : b = c
  inv : B.Inv x s
  steady : s.tree.Steady G
  moves : t.Moves G k K s.tree
  frames : s.tree.frames = t.frames

variable {B : Bridge σ α} {G : Ground r} {e : Engine σ} {w : Walker α} {a : Arena}

theorem Enough.zero {k : Nat} (h : B.Enough k 0) (hk : 0 < k) : B.Abort .outOfSteps := by
  rcases h with h | h
  · exact h
  · omega

theorem Enough.mono {k k' steps steps' : Nat} (h : B.Enough k steps)
    (hle : k ≤ steps → k' ≤ steps') : B.Enough k' steps' := h.imp_right hle

theorem agrees_outOfSteps {β γ : Type} {R : β → γ → α → Pass σ → Prop}
    {rx : EStateM.Result TreeError α β} {k : Nat} {s : Pass σ} (h : B.Enough k 0) (hk : 0 < k) :
    B.Agrees R rx ((throw .outOfSteps : PassM σ γ) s) := .inr (.inl (h.zero hk))

section Bad

variable (hB : B.Sound G e w a) (levels : Nat) (above : List NodeId)

include hB

theorem Sound.walk_bad (n : NodeId) : Stays B.Bad (w.walk a levels above n) :=
  Stays.walk a hB.arrive_bad hB.call_bad levels above n

theorem Sound.walkAll_bad (cs : List NodeId) : Stays B.Bad (w.walkAll a levels above cs) :=
  Stays.each (fun c => (stays_modify fun x => hB.arrive_bad above c x).bind fun _ =>
    hB.walk_bad levels above c) cs

theorem Sound.below_bad (cs : List NodeId) : Stays B.Bad (w.below a levels above cs) := by
  cases levels with
  | zero => exact stays_throw _
  | succ levels => exact hB.walkAll_bad levels above cs

end Bad

/-! ## books -/

section Books

variable {t t' : Tree} {id : ContextId} {F : Frame} {fs : List Frame} {k : Nat} {K : NodeId → Prop}
  {x : α} {s : Pass σ}

def withBooks (t : Tree) (frames : List Frame) (nextContext depth : Nat) : Tree :=
  { t with frames, nextContext, depth }

theorem samePlaces_withBooks (t : Tree) (frames : List Frame) (k d : Nat) :
    t.SamePlaces (withBooks t frames k d) := ⟨rfl, rfl, rfl, rfl, rfl, rfl, fun _ => rfl⟩

theorem sameNames_withBooks (t : Tree) (frames : List Frame) (k d : Nat) :
    t.SameNames (withBooks t frames k d) := ⟨rfl, rfl, rfl, fun _ => rfl⟩

theorem grows_withBooks (t : Tree) (frames : List Frame) (k d : Nat) :
    G.Grows t (withBooks t frames k d) := G.grows_of_same (samePlaces_withBooks t frames k d)

theorem steady_withBooks (ht : t.Steady G) (frames : List Frame) {k : Nat}
    (hk : t.nextContext ≤ k) (d : Nat) : (withBooks t frames k d).Steady G where
  firm := G.firm_of_same (samePlaces_withBooks t frames k d) ht.firm
  handedOut p c hc := (ht.handedOut p c hc).trans_le hk

theorem Sound.inv_withBooks (hB : B.Sound G e w a) {own : σ} (ht : t.Steady G)
    (h : B.Inv x ⟨t, own⟩) (frames : List Frame) {k : Nat} (hk : t.nextContext ≤ k) (d : Nat) :
    B.Inv x ⟨withBooks t frames k d, own⟩ :=
  hB.quiet x ⟨t, own⟩ _ h (grows_withBooks t frames k d) (sameNames_withBooks t frames k d)
    (steady_withBooks ht frames hk d).firm

theorem moves_withBooks (t : Tree) (frames : List Frame) {k' : Nat} (hk : t.nextContext ≤ k') :
    t.Moves G k K (withBooks t frames k' t.depth) :=
  ⟨grows_withBooks t frames k' t.depth, rfl, hk, fun _ _ h => .inl h, fun _ _ _ _ => rfl⟩

theorem frame?_top (h : t.frames = F :: fs) (hid : F.id = id) : t.frame? id = some F := by
  unfold frame?
  rw [h, List.find?_cons_of_pos]
  simpa using hid

theorem updateFrame_top (h : t.frames = F :: fs) (hid : F.id = id) (f : Frame → Frame) :
    t.updateFrame id f = withBooks t (f F :: fs) t.nextContext t.depth := by
  unfold updateFrame withBooks
  rw [h, replaceFrame, if_pos (by simpa using hid)]

theorem Sound.inv_updatePath (hB : B.Sound G e w a) (hs : s.tree.Steady G)
    (hx : B.Inv x s) (p : PathId) (f : PathData → PathData)
    (hpos : ∀ d, (f d).position = d.position) (hscope : ∀ d, (f d).scope = d.scope)
    (hctx : ∀ d, (f d).contexts = d.contexts) :
    B.Inv x ⟨s.tree.updatePath p f, s.own⟩ ∧ (s.tree.updatePath p f).Steady G := by
  have hsame := s.tree.samePlaces_updatePath p f hpos
  have hc := G.firm_of_same hsame hs.firm
  refine ⟨hB.quiet x s _ hx (G.grows_of_same hsame) (s.tree.sameNames_updatePath p f hscope) hc,
    hc, ?_⟩
  intro q c hq
  rw [s.tree.path_updatePath_congr p q f PathData.contexts hctx] at hq
  exact hs.handedOut q c hq

theorem moves_updatePath {p : PathId} {n : NodeId}
    (hn : t.node p = some n) (f : PathData → PathData) (hpos : ∀ d, (f d).position = d.position)
    (hctx : ∀ d, (f d).contexts = d.contexts) (hK : (∀ d, (f d).flags = d.flags) ∨ ¬ K n) :
    t.Moves G k K (t.updatePath p f) where
  grows := G.grows_of_same (t.samePlaces_updatePath p f hpos)
  depth := rfl
  nextContext := Nat.le_refl _
  contexts q c hq := by
    rw [t.path_updatePath_congr p q f PathData.contexts hctx] at hq
    exact .inl hq
  flags q m hm hKm := by
    rcases hK with hK | hK
    · exact t.path_updatePath_congr p q f PathData.flags hK
    · have hne : q ≠ p := by
        rintro rfl
        exact hK (Option.some.inj (hm.symm.trans hn) ▸ hKm)
      rw [path_updatePath_ne _ _ hne]

end Books

/-! ## the queue -/

/-- A path on its way to a frame: its flags are cleared. -/
def readied (id : ContextId) (d : PathData) : PathData :=
  { d with
    contexts := id :: d.contexts, shouldSkip := false, shouldStop := false, skipKeys := [] }

/-- After a path was put on a frame. -/
structure Readied (B : Bridge σ α) (G : Ground r) (t : Tree) (id : ContextId) (q : PathId)
    (c : NodeId) (frames : List Frame) (x : α) (own : σ) (t' : Tree) : Prop where
  steady : t'.Steady G
  inv : B.Inv x ⟨t', own⟩
  arrived : B.Arrived c t'
  flags : (t'.path q).flags = (false, false, [])
  moves : t.Moves G id.index (· ≠ c) t'
  others : ∀ p, p ≠ q → ∀ k ∈ (t'.path p).contexts, k ∈ (t.path p).contexts
    ∨ t.nextContext ≤ k.index
  frames : t'.frames = frames

section Queue

variable {levels : Nat} {above visited : List NodeId} {id : ContextId} {F : Frame} {fs : List Frame}
  {c : NodeId} {q : PathId} {cs : List NodeId} {qs : List PathId} {x : α} {s : Pass σ}

theorem Sound.at_readied (hB : B.Sound G e w a) (h : B.At G levels q c above x s)
    (hlt : id.index < s.tree.nextContext) :
    B.At G levels q c above x ⟨s.tree.updatePath q (readied id), s.own⟩
      ∧ s.tree.Moves G id.index (· ≠ c) (s.tree.updatePath q (readied id)) := by
  have hsame : s.tree.SamePlaces (s.tree.updatePath q (readied id)) :=
    s.tree.samePlaces_updatePath q _ fun _ => rfl
  have hnames : s.tree.SameNames (s.tree.updatePath q (readied id)) :=
    s.tree.sameNames_updatePath q _ fun _ => rfl
  have hfirm := G.firm_of_same hsame h.steady.firm
  have hgrows := G.grows_of_same hsame
  refine ⟨⟨⟨hfirm, fun p k hk => ?_⟩, hB.quiet x s _ h.inv hgrows hnames hfirm,
    G.place hgrows h.place, h.near, h.depth⟩, hgrows, rfl, Nat.le_refl _, fun p k hk => ?_,
    fun p n hn hne => ?_⟩
  · rw [path_updatePath] at hk
    split at hk
    · rcases List.mem_cons.1 hk with rfl | hk
      · exact hlt
      · exact h.steady.handedOut q k hk
    · exact h.steady.handedOut p k hk
  · rw [path_updatePath] at hk
    split at hk
    · next hp =>
      rcases List.mem_cons.1 hk with rfl | hk
      · exact .inr (Nat.le_refl _)
      · rw [hp.1]
        exact .inl hk
    · exact .inl hk
  · have hpq : p ≠ q := by
      rintro rfl
      exact hne (Option.some.inj (hn.symm.trans (G.node h.place)))
    rw [path_updatePath_ne _ _ hpq]

theorem Sound.visitable? (hB : B.Sound G e w a) (h : B.At G levels q c above x s)
    (htake : w.takes c = true ∨ above = []) (hF : s.tree.frames = F :: fs) (hid : F.id = id)
    (hlt : id.index < s.tree.nextContext) (hnew : id ∉ (s.tree.path q).contexts)
    (hc : c ∉ visited) :
    Ends (e.visitable? id visited q s.tree)
      (fun res t' => res = some c ∧ B.Readied G s.tree id q c
        ({ F with entered := F.entered ++ [q] } :: fs) (w.arrive above c x) s.own t')
      fun err _ => B.Abort err ∨ B.Bad (w.arrive above c x) := by
  obtain ⟨hat, hmoves⟩ := hB.at_readied h hlt
  have huse := G.inUse h.steady.firm h.place
  have hhead : ((s.tree.path q).contexts.head? != some id) = true := by
    rw [bne_iff_ne]
    intro h
    exact hnew (List.mem_of_head? h)
  unfold Engine.visitable?
  rw [run_bind_of_ok (G.resync h.steady.firm h.place), run_get_bind]
  simp only [huse.1, huse.2, Bool.or_self, Bool.false_eq_true, if_false, hhead, if_true]
  unfold Engine.pushContext
  simp only [ends_bind, ends_modify, ends_get, ends_pure]
  refine (hB.assign hat htake).imp ?_ fun _ _ h => h
  intro _ t' ⟨hst', hm, hfr, hinv', harr⟩
  have hq' : t'.node q = some c := G.node (G.place hm.grows hat.place)
  have htop : t'.frames = F :: fs := hfr.trans hF
  rw [updateFrame_top htop hid]
  refine ⟨?_, ⟨steady_withBooks hst' _ (Nat.le_refl _) _,
    hB.inv_withBooks hst' hinv' _ (Nat.le_refl _) _,
    hB.quietArrived c t' _ harr (grows_withBooks ..) (sameNames_withBooks ..), ?_, ?_, ?_, rfl⟩⟩
  · show (t'.node q).filter _ = _
    rw [hq']
    simpa using hc
  · show (t'.path q).flags = _
    rw [hm.flags q c (G.node hat.place) trivial, path_updatePath_self _ _ (G.lt h.place)]
    rfl
  · exact (hmoves.trans (hm.mono (Nat.le_of_lt hlt) fun _ _ => trivial) (Nat.le_refl _)
      fun _ h => h).trans (moves_withBooks t' _ (Nat.le_refl _)) (Nat.le_refl _) fun _ h => h
  · intro p hp k hk
    rcases hm.contexts p k hk with hk | hk
    · rw [path_updatePath_ne _ _ hp] at hk
      exact .inl hk
    · exact .inr hk

def Sound.Paths (_ : B.Sound G e w a) (levels : Nat) : Prop :=
  ∀ steps p n above x s, B.Enough (a.need levels) steps → B.At G levels p n above x s →
    B.Arrived n s.tree → (s.tree.path p).flags = (false, false, []) →
    B.Agrees (B.Done G s.tree s.tree.nextContext (· ∈ above)) (w.walk a levels above n x)
      (e.visitPath steps p s)

theorem takePending_eq {t : Tree} {p : PathId} {ps : List PathId} (h : t.frames = F :: fs)
    (hid : F.id = id) (hp : F.pending = p :: ps) :
    Engine.takePending id t
      = .ok (some p) (withBooks t ({ F with pending := ps } :: fs) t.nextContext t.depth) := by
  show EStateM.Result.ok _ _ = _
  simp only [frame?_top h hid, Option.map_some, hp, updateFrame_top h hid]

theorem takePending_eq_none {t : Tree} (h : t.frames = F :: fs) (hid : F.id = id)
    (hp : F.pending = []) : Engine.takePending id t = .ok none t := by
  show EStateM.Result.ok _ _ = _
  simp only [frame?_top h hid, Option.map_some, hp]

theorem takePriority_eq {t : Tree} (h : t.frames = F :: fs) (hid : F.id = id) :
    Engine.takePriority id t
      = .ok F.priority (withBooks t ({ F with priority := [] } :: fs) t.nextContext t.depth) := by
  show EStateM.Result.ok _ _ = _
  simp only [frame?_top h hid, Option.map_some, updateFrame_top h hid, Option.getD_some]

/-- A frame is to visit the paths `qs` of the nodes `cs`. None of them was put on the frame yet, and
nothing has priority. -/
structure Queueing (B : Bridge σ α) (G : Ground r) (w : Walker α) (levels : Nat)
    (above : List NodeId) (id : ContextId) (fs : List Frame) (cs visited : List NodeId)
    (qs : List PathId) (x : α) (s : Pass σ) (F : Frame) : Prop where
  steady : s.tree.Steady G
  inv : B.Inv x s
  near : Near above s.tree.depth
  depth : s.tree.depth + levels = Limits.traversal
  places : List.Forall₂ (fun c q => G.Place s.tree q c above) cs qs
  nodup : cs.Nodup
  unvisited : ∀ c ∈ cs, c ∉ visited
  takes : ∀ c ∈ cs, w.takes c = true ∨ above = []
  handle : F.id = id
  priority : F.priority = []
  frames : s.tree.frames = F :: fs
  lt : id.index < s.tree.nextContext
  contexts : ∀ q ∈ qs, id ∉ (s.tree.path q).contexts

/-- After the paths queued on a frame. -/
structure Queued (B : Bridge σ α) (G : Ground r) (t : Tree) (id : ContextId) (K : NodeId → Prop)
    (fs : List Frame) (b c : Bool) (x : α) (s : Pass σ) : Prop where
  same : b = c
  inv : B.Inv x s
  steady : s.tree.Steady G
  moves : t.Moves G id.index K s.tree
  frames : ∃ F, F.id = id ∧ s.tree.frames = F :: fs

theorem Queueing.withFrame (hB : B.Sound G e w a) {F : Frame}
    (h : B.Queueing G w levels above id fs cs visited qs x s F) {E : Frame} (hid : E.id = F.id)
    (hpriority : E.priority = []) :
    B.Queueing G w levels above id fs cs visited qs x
      ⟨withBooks s.tree (E :: fs) s.tree.nextContext s.tree.depth, s.own⟩ E where
  steady := steady_withBooks h.steady _ (Nat.le_refl _) _
  inv := hB.inv_withBooks h.steady h.inv _ (Nat.le_refl _) _
  near := h.near
  depth := h.depth
  places := h.places.imp fun _ _ hp => G.place (grows_withBooks ..) hp
  nodup := h.nodup
  unvisited := h.unvisited
  takes := h.takes
  handle := hid.trans h.handle
  priority := hpriority
  frames := rfl
  lt := h.lt
  contexts := h.contexts

theorem Queueing.next {F : Frame}
    (h : B.Queueing G w levels above id fs (c :: cs) visited (q :: qs) x s F)
    {t₂ : Tree} {y z : α} {own : σ} {frames : List Frame}
    (hready : B.Readied G s.tree id q c frames y own t₂) {b b' : Bool} {s₃ : Pass σ}
    (hdone : B.Done G t₂ t₂.nextContext (· ∈ above) b b' z s₃) {E : Frame} (hid : E.id = id)
    (hpriority : E.priority = []) (hframes : frames = E :: fs) :
    s.tree.Moves G id.index (· ∈ above) s₃.tree
      ∧ B.Queueing G w levels above id fs cs (c :: visited) qs z s₃ E := by
  obtain ⟨hq, hqs⟩ := List.forall₂_cons.1 h.places
  obtain ⟨hcs, hnd⟩ := List.nodup_cons.1 h.nodup
  have hm₂ : s.tree.Moves G id.index (· ∈ above) t₂ := by
    refine (Moves.refl G _ _ _).trans hready.moves (Nat.le_refl _) fun n hn => ?_
    rintro rfl
    exact G.not_mem h.steady.firm hq hn
  have hlt₂ : id.index < t₂.nextContext := h.lt.trans_le hm₂.nextContext
  have hm₃ := hm₂.trans (hdone.moves.mono (Nat.le_of_lt hlt₂) fun _ h => h) (Nat.le_refl _)
    fun _ h => h
  refine ⟨hm₃, ⟨hdone.steady, hdone.inv, hm₃.depth ▸ h.near,
    (congrArg (· + levels) hm₃.depth).trans h.depth,
    hqs.imp fun _ _ hp => G.place hm₃.grows hp, hnd, fun d hd hmem => ?_,
    fun d hd => h.takes d (List.mem_cons_of_mem _ hd), hid, hpriority,
    hdone.frames.trans (hready.frames.trans hframes), h.lt.trans_le hm₃.nextContext,
    fun p hp hmem => ?_⟩⟩
  · rcases List.mem_cons.1 hmem with rfl | hmem
    · exact hcs hd
    · exact h.unvisited d (List.mem_cons_of_mem _ hd) hmem
  · -- a path still queued got no context of this frame meanwhile
    have hne : p ≠ q := by
      rintro rfl
      obtain ⟨d, hd, hpl⟩ := forall₂_exists_of_mem_right hqs hp
      exact hcs (Option.some.inj ((G.node hq).symm.trans (G.node hpl)) ▸ hd)
    rcases hdone.moves.contexts p id hmem with hmem | hle
    · rcases hready.others p hne id hmem with hmem | hle
      · exact h.contexts p (List.mem_cons_of_mem _ hp) hmem
      · exact absurd h.lt (Nat.not_lt.2 hle)
    · exact absurd hlt₂ (Nat.not_lt.2 hle)

/-- The paths queued on a frame are visited one after the other. -/
theorem Sound.runQueue (hB : B.Sound G e w a) (hpaths : hB.Paths levels) (cs : List NodeId) :
    ∀ (qs : List PathId) (visited : List NodeId) (steps : Nat) (x : α) (s : Pass σ) (F : Frame),
      B.Queueing G w levels above id fs cs visited qs x s F → F.pending = qs →
      B.Enough (a.need levels + qs.length + 1) steps →
      B.Agrees (B.Queued G s.tree id (· ∈ above) fs) (w.walkAll a levels above cs x)
        (e.runQueue steps id visited s) := by
  induction cs with
  | nil =>
    intro qs visited steps x s F h hpending hsteps
    obtain rfl := List.forall₂_nil_left_iff.1 h.places
    cases steps with
    | zero => exact agrees_outOfSteps hsteps (Nat.succ_pos _)
    | succ steps =>
      rw [Engine.runQueue, run_onTree_bind (takePending_eq_none h.frames h.handle hpending)]
      exact ⟨false, x, rfl, rfl, h.inv, h.steady, .refl _ _ _ _, F, h.handle, h.frames⟩
  | cons c cs ih =>
    intro qs visited steps x s F h hpending hsteps
    obtain ⟨q, qs, -, -, rfl⟩ := List.forall₂_cons_left_iff.1 h.places
    cases steps with
    | zero => exact agrees_outOfSteps hsteps (Nat.succ_pos _)
    | succ steps =>
      have h₁ := h.withFrame hB (E := { F with pending := qs }) rfl h.priority
      have hm₁ : s.tree.Moves G id.index (· ∈ above) _ :=
        moves_withBooks s.tree ({ F with pending := qs } :: fs) (Nat.le_refl _)
      rw [Engine.runQueue, run_onTree_bind (takePending_eq h.frames h.handle hpending)]
      generalize withBooks s.tree ({ F with pending := qs } :: fs) s.tree.nextContext
        s.tree.depth = t₁ at h₁ hm₁ ⊢
      have hat : B.At G levels q c above x ⟨t₁, s.own⟩ :=
        ⟨h₁.steady, h₁.inv, (List.forall₂_cons.1 h₁.places).1, h₁.near, h₁.depth⟩
      have hvisit := hB.visitable? hat (h.takes c (List.mem_cons_self ..)) h₁.frames h₁.handle h₁.lt
        (h₁.contexts q (List.mem_cons_self ..)) (h.unvisited c (List.mem_cons_self ..))
      have hrest : ∀ b : Bool, Stays B.Bad
          (if b = true then pure true else w.walkAll a levels above cs) := by
        rintro (_ | _)
        · exact hB.walkAll_bad levels above cs
        · exact stays_pure _
      refine ends_bind.2 (ends_onTree.2 (hvisit.imp ?_ ?_))
      · rintro _ t₂ ⟨rfl, h₂⟩
        have hat₂ : B.At G levels q c above (w.arrive above c x) ⟨t₂, s.own⟩ :=
          ⟨h₂.steady, h₂.inv, G.place h₂.moves.grows hat.place, h₂.moves.depth ▸ hat.near,
            (congrArg (· + levels) h₂.moves.depth).trans hat.depth⟩
        show B.Agrees _ ((w.walk a levels above c >>= fun b =>
            if b = true then pure true else w.walkAll a levels above cs) (w.arrive above c x))
          ((e.visitPath steps q >>= _) ⟨t₂, s.own⟩)
        refine Agrees.bind (hpaths steps q c above _ _
          (hsteps.mono fun h => by simp at h; omega) hat₂ h₂.arrived h₂.flags) hrest ?_
        rintro b _ x₃ s₃ hdone
        obtain rfl := hdone.same
        obtain ⟨hm₃, h₃⟩ := h₁.next
          (E := { F with pending := qs, priority := F.priority, entered := F.entered ++ [q] })
          h₂ hdone h.handle h.priority rfl
        have hall := hm₁.trans hm₃ (Nat.le_refl _) fun _ h => h
        cases b with
        | true => exact agrees_pure ⟨rfl, h₃.inv, h₃.steady, hall, _, h₃.handle, h₃.frames⟩
        | false =>
          have h₄ := h₃.withFrame hB
            (E := { F with pending := qs, priority := [], entered := F.entered ++ [q] }) rfl rfl
          have hm₄ := hall.trans (moves_withBooks s₃.tree
            ({ F with pending := qs, priority := [], entered := F.entered ++ [q] } :: fs)
            (Nat.le_refl _)) (Nat.le_refl _) fun _ h => h
          simp only [Bool.false_eq_true, if_false]
          rw [run_onTree_bind (takePriority_eq h₃.frames h₃.handle)]
          simp only [h.priority, List.isEmpty_nil, if_true]
          refine (ih qs (c :: visited) steps x₃ _ _ h₄ rfl
            (hsteps.mono fun h => by simp at h; omega)).mono ?_
          rintro b c' x₅ s₅ ⟨hbc, hx₅, hs₅, hm₅, hF₅⟩
          exact ⟨hbc, hx₅, hs₅, hm₄.trans hm₅ (Nat.le_refl _) fun _ h => h, hF₅⟩
      · rintro err t₂ (h | h)
        · exact .inr (.inl h)
        · exact .inr (.inr ((hB.walk_bad levels above c).bind hrest _ h))

/-- Contexts may have gone and nothing else. -/
structure Popped (t t' : Tree) : Prop where
  places : t.SamePlaces t'
  names : t.SameNames t'
  frames : t'.frames = t.frames
  depth : t'.depth = t.depth
  nextContext : t'.nextContext = t.nextContext
  contexts : ∀ p, ∀ c ∈ (t'.path p).contexts, c ∈ (t.path p).contexts
  flags : ∀ p, (t'.path p).flags = (t.path p).flags

theorem popped_foldl (ps : List PathId) (t : Tree) : Popped t (ps.foldl Engine.popContext t) := by
  induction ps generalizing t with
  | nil => exact ⟨⟨rfl, rfl, rfl, rfl, rfl, rfl, fun _ => rfl⟩, .refl t, rfl, rfl, rfl,
      fun _ _ h => h, fun _ => rfl⟩
  | cons p ps ih =>
    obtain ⟨hpl, hn, hf, hd, hnc, hc, hfl⟩ := ih (Engine.popContext t p)
    have hpl₁ : t.SamePlaces (Engine.popContext t p) := t.samePlaces_updatePath p _ fun _ => rfl
    have hn₁ : t.SameNames (Engine.popContext t p) := t.sameNames_updatePath p _ fun _ => rfl
    have hfl₁ : ∀ q, ((Engine.popContext t p).path q).flags = (t.path q).flags := fun q =>
      t.path_updatePath_congr p q _ PathData.flags fun _ => rfl
    have hc₁ : ∀ q, ∀ c ∈ ((Engine.popContext t p).path q).contexts, c ∈ (t.path q).contexts := by
      intro q c hc
      unfold Engine.popContext at hc
      rw [path_updatePath] at hc
      split at hc
      · next hq =>
        rw [hq.1]
        exact List.mem_of_mem_drop hc
      · exact hc
    refine ⟨?_, hn₁.trans hn, hf, hd, hnc, fun q c h => hc₁ q c (hc q c h),
      fun q => (hfl q).trans (hfl₁ q)⟩
    exact ⟨hpl.arena.trans hpl₁.arena, hpl.root.trans hpl₁.root, hpl.options.trans hpl₁.options,
      hpl.rootPath.trans hpl₁.rootPath, hpl.childPaths.trans hpl₁.childPaths,
      hpl.size.trans hpl₁.size, fun q => (hpl.position q).trans (hpl₁.position q)⟩

theorem Popped.steady {t t' : Tree} (h : Popped t t') (ht : t.Steady G) : t'.Steady G where
  firm := G.firm_of_same h.places ht.firm
  handedOut p c hc := by
    rw [h.nextContext]
    exact ht.handedOut p c (h.contexts p c hc)

theorem Popped.moves {t t' : Tree} (h : Popped t t') {k : Nat} {K : NodeId → Prop} :
    t.Moves G k K t' :=
  ⟨G.grows_of_same h.places, h.depth, h.nextContext.ge, fun p c hc => .inl (h.contexts p c hc),
    fun p _ _ _ => h.flags p⟩

theorem Sound.visitQueue (hB : B.Sound G e w a) (hpaths : hB.Paths levels) (steps : Nat)
    (h : B.Queueing G w levels above id fs cs [] qs x s F)
    (hsteps : B.Enough (a.need levels + qs.length + 2) steps) :
    B.Agrees (B.Done G s.tree id.index (· ∈ above)) (w.walkAll a levels above cs x)
      (e.visitQueue steps id qs s) := by
  cases steps with
  | zero => exact agrees_outOfSteps hsteps (Nat.succ_pos _)
  | succ steps =>
    rw [Engine.visitQueue, run_ask_bind, frame?_top h.frames h.handle]
    let F₁ : Frame := { F with pending := qs, priority := [], entered := [] }
    have hupd : s.tree.updateFrame id ({ · with pending := qs, priority := [], entered := [] })
        = withBooks s.tree (F₁ :: fs) s.tree.nextContext s.tree.depth :=
      updateFrame_top h.frames h.handle _
    have hm₁ : s.tree.Moves G id.index (· ∈ above) _ :=
      moves_withBooks s.tree (F₁ :: fs) (Nat.le_refl _)
    have hqueue := hB.runQueue hpaths cs qs [] steps x _ F₁ (h.withFrame hB rfl rfl) rfl
      (hsteps.mono fun h => by omega)
    dsimp only
    rw [run_modifyTree_bind, hupd, ← bind_pure (w.walkAll a levels above cs)]
    refine hqueue.attempt (fun _ => stays_pure _) ?_ fun _ _ => rfl
    rintro b c x₂ s₂ ⟨rfl, hx₂, hs₂, hm₂, F₂, hid₂, hF₂⟩
    refine agrees_pure ?_
    let entered : List PathId := ((s₂.tree.frame? id).map (·.entered)).getD []
    have hpop := popped_foldl entered s₂.tree
    have hs₃ := hpop.steady hs₂
    have hx₃ := hB.quiet x₂ s₂ _ hx₂ (G.grows_of_same hpop.places) hpop.names hs₃.firm
    have hm₃ := hm₁.trans (hm₂.trans hpop.moves (Nat.le_refl _) fun _ h => h) (Nat.le_refl _)
      fun _ h => h
    rw [updateFrame_top (hpop.frames.trans hF₂) hid₂]
    exact ⟨rfl, hB.inv_withBooks hs₃ hx₃ _ (Nat.le_refl _) _,
      steady_withBooks hs₃ _ (Nat.le_refl _) _,
      hm₃.trans (moves_withBooks _ _ (Nat.le_refl _)) (Nat.le_refl _) fun _ h => h, h.frames.symm⟩

end Queue

/-! ## the fields of a node -/

theorem walkAll_append (w : Walker α) (a : Arena) (levels : Nat) (above l l' : List NodeId) :
    w.walkAll a levels above (l ++ l') = (do
      if ← w.walkAll a levels above l then return true
      w.walkAll a levels above l') := each_append _ l l'

section Fields

variable {levels steps : Nat} {p : PathId} {n : NodeId} {above : List NodeId}
  {skipped : List String} {o : Node} {cs : List NodeId} {qs : List PathId} {x : α} {s : Pass σ}

theorem Sound.onFrame (hB : B.Sound G e w a) (hpaths : hB.Paths levels) {δ : Type}
    {R : δ → δ → α → Pass σ → Prop} (owner : Option NodeId) (key : String)
    {f : Bool → EStateM TreeError α δ} {k : Bool → PassM σ δ} (hs : s.tree.Steady G)
    (hx : B.Inv x s) (hnear : Near above s.tree.depth)
    (hdepth : s.tree.depth + levels = Limits.traversal)
    (hqs : List.Forall₂ (fun c q => G.Place s.tree q c above) cs qs) (hnd : cs.Nodup)
    (htakes : ∀ c ∈ cs, w.takes c = true ∨ above = [])
    (hsteps : B.Enough (a.need levels + qs.length + 2) steps) (hbad : ∀ b, Stays B.Bad (f b))
    (hk : ∀ b x' s', B.Done G s.tree s.tree.nextContext (· ∈ above) b b x' s' →
      B.Agrees R (f b x') (k b s')) :
    B.Agrees R ((w.walkAll a levels above cs >>= f) x) ((do
      let id ← PassM.onTree (Tree.pushFrame owner key)
      let result ← PassM.attempt (e.visitQueue steps id qs)
      PassM.onTree (Tree.popFrame id)
      k (← PassM.resume result)) s) := by
  let F : Frame := { id := ⟨s.tree.nextContext⟩, owner, key }
  have hfresh : ∀ q ∈ qs, F.id ∉ (s.tree.path q).contexts := fun q _ hmem =>
    Nat.lt_irrefl _ (hs.handedOut q _ hmem)
  have hm₁ : s.tree.Moves G s.tree.nextContext (· ∈ above) _ :=
    moves_withBooks s.tree (F :: s.tree.frames) (Nat.le_succ _)
  have hqueue := hB.visitQueue hpaths steps (x := x) (F := F)
    (s := ⟨withBooks s.tree (F :: s.tree.frames) (s.tree.nextContext + 1) s.tree.depth, s.own⟩)
    ⟨steady_withBooks hs _ (Nat.le_succ _) _, hB.inv_withBooks hs hx _ (Nat.le_succ _) _, hnear,
      hdepth, hqs.imp fun _ _ hp => G.place hm₁.grows hp, hnd, fun _ _ =>
      List.not_mem_nil, htakes, rfl, rfl, rfl, Nat.lt_succ_self _, hfresh⟩ hsteps
  rw [run_onTree_bind (show Tree.pushFrame owner key s.tree = .ok F.id
    (withBooks s.tree (F :: s.tree.frames) (s.tree.nextContext + 1) s.tree.depth) from rfl)]
  refine hqueue.attempt hbad ?_ fun _ _ => rfl
  rintro b _ x₂ s₂ ⟨rfl, hx₂, hs₂, hm₂, hf₂⟩
  have hpop : { s₂.tree with frames := s₂.tree.frames.eraseP (·.id == F.id) }
      = withBooks s₂.tree s.tree.frames s₂.tree.nextContext s₂.tree.depth := by
    rw [hf₂]
    show withBooks _ ((F :: s.tree.frames).eraseP _) _ _ = _
    rw [List.eraseP_cons_of_pos (by simp)]
  rw [hpop]
  exact hk b x₂ ⟨_, s₂.own⟩ ⟨rfl, hB.inv_withBooks hs₂ hx₂ _ (Nat.le_refl _) _,
    steady_withBooks hs₂ _ (Nat.le_refl _) _, (hm₁.trans hm₂ (Nat.le_refl _) fun _ h => h).trans
      (moves_withBooks _ _ (Nat.le_refl _)) (Nat.le_refl _) fun _ h => h, rfl⟩

/-- A pass is among the children of the node `n`, whose path leaves the fields `skipped` out. -/
structure Inside (B : Bridge σ α) (G : Ground r) (levels : Nat) (p : PathId) (n : NodeId)
    (above : List NodeId) (skipped : List String) (x : α) (s : Pass σ) : Prop where
  steady : s.tree.Steady G
  inv : B.Inv x s
  place : G.Place s.tree p n above
  near : Near (n :: above) s.tree.depth
  depth : s.tree.depth + levels = Limits.traversal
  skipKeys : ∀ k, (s.tree.path p).skipKeys.contains k = skipped.contains k

theorem Inside.later (h : B.Inside G levels p n above skipped x s) {x' : α} {s' : Pass σ}
    (hx : B.Inv x' s') (hs : s'.tree.Steady G) {k : Nat}
    (hm : s.tree.Moves G k (· ∈ n :: above) s'.tree) :
    B.Inside G levels p n above skipped x' s' where
  steady := hs
  inv := hx
  place := G.place hm.grows h.place
  near := hm.depth ▸ h.near
  depth := (congrArg (· + levels) hm.depth).trans h.depth
  skipKeys k := by
    rw [PathData.skipKeys_of_flags (hm.flags p n (G.node h.place) (List.mem_cons_self ..))]
    exact h.skipKeys k

theorem Done.trans {t t' : Tree} {K : NodeId → Prop} {b b' : Bool}
    (hm : t.Moves G t.nextContext K t') (hf : t'.frames = t.frames)
    (h : B.Done G t' t'.nextContext K b b' x s) :
    B.Done G t t.nextContext K b b' x s :=
  ⟨h.same, h.inv, h.steady, hm.trans h.moves hm.nextContext fun _ h => h, h.frames.trans hf⟩

theorem Sound.visitFields (hB : B.Sound G e w a) (hpaths : hB.Paths levels)
    (ho : a.get? n = some o) : ∀ (fields : List Field) (steps : Nat) (x : α) (s : Pass σ),
      (∀ f ∈ fields, f ∈ o.type.fields) →
      B.Enough (a.need levels + a.childCount + fields.length + 3) steps →
      B.Inside G levels p n above skipped x s →
      B.Agrees (B.Done G s.tree s.tree.nextContext (· ∈ n :: above))
        (w.walkAll a levels (n :: above) (((fields.filter fun f => !skipped.contains f.name).flatMap
          fun f => o.fieldChildren f.name).filter w.takes) x)
        (e.visitFields steps p (some n) fields s)
  | [], 0, x, s, _, hsteps, _ => agrees_outOfSteps hsteps (Nat.succ_pos _)
  | [], steps + 1, x, s, _, _, h =>
    agrees_pure ⟨rfl, h.inv, h.steady, .refl _ _ _ _, rfl⟩
  | f :: fields, 0, x, s, _, hsteps, _ => agrees_outOfSteps hsteps (Nat.succ_pos _)
  | f :: fields, steps + 1, x, s, hfs, hsteps, h => by
    have ih := fun x' s' => hB.visitFields hpaths ho fields steps x' s'
      (fun g hg => hfs g (List.mem_cons_of_mem _ hg)) (hsteps.mono fun h => by simp at h; omega)
    have hnode : ((s.tree.path p).node != some n) = false := by
      rw [show (s.tree.path p).node = some n from G.node h.place]
      exact bne_self_eq_false _
    have ha : s.tree.arena = a := hB.arena x s h.inv
    rw [Engine.visitFields, run_ask_bind]
    simp only [(G.inUse h.steady.firm h.place).1, hnode, Bool.or_self, Bool.false_eq_true, if_false,
      h.skipKeys]
    by_cases hk : skipped.contains f.name
    · simp only [hk, if_true, List.filter_cons, Bool.not_true, Bool.false_eq_true, if_false]
      exact ih x s h
    · simp only [hk, List.filter_cons, Bool.not_false, if_true, List.flatMap_cons,
        List.filter_append]
      have hchild := Engine.ends_childQueue (e := e) h.steady.firm h.place (ha ▸ ho)
        (hfs f (List.mem_cons_self ..))
      rw [ha, ← hB.takes] at hchild
      refine ends_bind.2 (ends_onTree.2 (hchild.imp ?_ fun _ _ h => h.elim))
      rintro qs t₁ ⟨hstep, hqs⟩
      have hm₁ : s.tree.Moves G s.tree.nextContext (· ∈ n :: above) t₁ := hstep.moves
      have h₁ : B.Inside G levels p n above skipped x ⟨t₁, s.own⟩ :=
        h.later (hB.quiet x s t₁ h.inv hstep.grows hstep.names hstep.firm)
          (hstep.steady h.steady) hm₁
      -- the children in this field, which are some of those of the node
      have hsub := (List.filter_sublist (p := w.takes)).trans (o.fieldChildren_sublist f.name)
      have hnd := hsub.nodup (by
        have h := (G.arena h.steady.firm).owned.nodup_children n
        rwa [ha, Arena.children_some, ho] at h)
      have hlen := hsub.length_le.trans (Arena.length_children_le ho)
      have htakes : ∀ c ∈ (o.fieldChildren f.name).filter w.takes,
          w.takes c = true ∨ n :: above = [] := fun c hc => .inl (List.mem_filter.1 hc).2
      have hlenq := hqs.length_eq
      generalize (o.fieldChildren f.name).filter w.takes = cs at hqs hnd hlen htakes hlenq ⊢
      cases qs with
      | nil =>
        obtain rfl := List.forall₂_nil_right_iff.1 hqs
        exact (ih x _ h₁).mono fun _ _ _ _ hd => hd.trans hm₁ hstep.control.frames
      | cons q qs =>
        rw [walkAll_append]
        simp only [List.isEmpty_cons, Bool.false_eq_true, if_false]
        refine hB.onFrame hpaths (some n) f.name h₁.steady h₁.inv h₁.near h₁.depth hqs hnd htakes
          (hsteps.mono fun h => by simp at h hlen hlenq ⊢; omega) ?_ fun b x₂ s₂ hd => ?_
        · rintro (_ | _)
          · exact hB.walkAll_bad levels (n :: above) _
          · exact stays_pure _
        · have hd₁ := hd.trans hm₁ hstep.control.frames
          cases b with
          | true => exact agrees_pure hd₁
          | false =>
            exact (ih x₂ s₂ (h₁.later hd.inv hd.steady hd.moves)).mono fun _ _ _ _ hd₂ =>
              hd₂.trans hd₁.moves hd₁.frames

/-! ## nodes -/

theorem Sound.visitNode (hB : B.Sound G e w a) (hpaths : ∀ l, levels = l + 1 → hB.Paths l)
    (ho : a.get? n = some o) (steps : Nat) (hsteps : B.Enough (a.need levels - 1) steps)
    (h : B.At G levels p n above x s)
    (hskip : ∀ k, (s.tree.path p).skipKeys.contains k = skipped.contains k) :
    B.Agrees (B.Done G s.tree s.tree.nextContext (· ∈ n :: above))
      (w.below a levels (n :: above) ((o.keptChildren skipped).filter w.takes) x)
      (e.visitNode steps p (some n) s) := by
  have ha : s.tree.arena = a := hB.arena x s h.inv
  have hdepth := h.depth
  have hneed : 13 ≤ a.need levels - 1 := by
    unfold Arena.need
    have h : 1 * (a.childCount + 14) ≤ (levels + 1) * (a.childCount + 14) :=
      Nat.mul_le_mul_right _ (Nat.le_add_left 1 levels)
    omega
  cases steps with
  | zero => exact agrees_outOfSteps hsteps (by omega)
  | succ steps =>
    rw [Engine.visitNode, run_ask_bind]
    cases levels with
    | zero =>
      simp only [show Limits.traversal ≤ s.tree.depth by omega, if_true, id_eq]
      exact agrees_throw (hB.fail x s h.inv)
    | succ levels =>
      have hlt : ¬ Limits.traversal ≤ s.tree.depth := by omega
      have hty : ((s.tree.arena.type? (some n)).map (·.childFields)).getD []
          = o.type.childFields := by
        rw [ha]
        simp [Arena.type?, ho]
      simp only [hlt, if_false, id_eq]
      rw [run_modifyTree_bind, hty]
      let t₁ := withBooks s.tree s.tree.frames s.tree.nextContext (s.tree.depth + 1)
      have hin : B.Inside G levels p n above skipped x ⟨t₁, s.own⟩ :=
        ⟨steady_withBooks h.steady _ (Nat.le_refl _) _,
          hB.inv_withBooks h.steady h.inv _ (Nat.le_refl _) _, G.place (grows_withBooks ..) h.place,
          ⟨Nat.succ_le_succ h.near.1, Nat.succ_le_succ h.near.2⟩,
          (show s.tree.depth + 1 + levels = _ by omega), hskip⟩
      have hlen := o.type.length_childFields_le
      have hfields := hB.visitFields (hpaths levels rfl) ho o.type.childFields steps x ⟨t₁, s.own⟩
        (fun f hf => (List.mem_filter.1 hf).1)
        (hsteps.mono fun h => by
          have hmul : (levels + 1 + 1) * (a.childCount + 14)
              = (levels + 1) * (a.childCount + 14) + (a.childCount + 14) := Nat.succ_mul ..
          unfold Arena.need at h ⊢
          omega) hin
      have hw : w.below a (levels + 1) (n :: above) ((o.keptChildren skipped).filter w.takes)
          = w.walkAll a levels (n :: above) ((o.keptChildren skipped).filter w.takes) := rfl
      rw [hw, ← bind_pure (w.walkAll a levels (n :: above) _)]
      refine hfields.attempt (fun _ => stays_pure _) ?_ fun _ _ => rfl
      rintro b _ x₂ s₂ ⟨rfl, hx₂, hs₂, hm₂, hf₂⟩
      refine agrees_pure ?_
      show B.Done _ _ _ _ _ _ _ ⟨withBooks s₂.tree s₂.tree.frames s₂.tree.nextContext
        (s₂.tree.depth - 1), s₂.own⟩
      refine ⟨rfl, hB.inv_withBooks hs₂ hx₂ _ (Nat.le_refl _) _,
        steady_withBooks hs₂ _ (Nat.le_refl _) _, ?_, hf₂⟩
      refine ⟨G.trans (grows_withBooks s.tree _ _ _) (G.trans hm₂.grows (grows_withBooks ..)), ?_,
        hm₂.nextContext, hm₂.contexts, hm₂.flags⟩
      show s₂.tree.depth - 1 = _
      rw [hm₂.depth]
      rfl

/-- A pass that came to the path with the tree `t` stands at it, not asked to skip or stop. -/
structure Going (B : Bridge σ α) (G : Ground r) (levels : Nat) (p : PathId) (n : NodeId)
    (above : List NodeId) (t : Tree) (x : α) (s : Pass σ) : Prop
    extends B.At G levels p n above x s where
  moves : t.Moves G t.nextContext (· ∈ above) s.tree
  frames : s.tree.frames = t.frames
  shouldSkip : (s.tree.path p).shouldSkip = false
  shouldStop : (s.tree.path p).shouldStop = false

theorem Going.moved {t : Tree} (h : B.Going G levels p n above t x s) {x' : α} {s' : Pass σ}
    (hx : B.Inv x' s') (hs : s'.tree.Steady G) {K : NodeId → Prop} (hK : ∀ c ∈ n :: above, K c)
    (hm : s.tree.Moves G s.tree.nextContext K s'.tree) (hf : s'.tree.frames = s.tree.frames) :
    B.Going G levels p n above t x' s' where
  steady := hs
  inv := hx
  place := G.place hm.grows h.place
  near := hm.depth ▸ h.near
  depth := (congrArg (· + levels) hm.depth).trans h.depth
  moves := h.moves.trans hm h.moves.nextContext fun c hc => hK c (List.mem_cons_of_mem _ hc)
  frames := hf.trans h.frames
  shouldSkip := (PathData.shouldSkip_of_flags
    (hm.flags p n (G.node h.place) (hK n (List.mem_cons_self ..)))).trans h.shouldSkip
  shouldStop := (PathData.shouldStop_of_flags
    (hm.flags p n (G.node h.place) (hK n (List.mem_cons_self ..)))).trans h.shouldStop

theorem Sound.note (hB : B.Sound G e w a) {t : Tree} (h : B.Going G levels p n above t x s)
    (b : Bool) :
    B.Going G levels p n above t x ⟨s.tree.updatePath p ({ · with childrenDone := b }), s.own⟩ := by
  obtain ⟨hx, hs⟩ := hB.inv_updatePath h.steady h.inv p ({ · with childrenDone := b })
    (fun _ => rfl) (fun _ => rfl) fun _ => rfl
  exact h.moved hx hs (K := fun _ => True) (fun _ _ => trivial) (moves_updatePath (G.node h.place) _
    (fun _ => rfl) (fun _ => rfl) (.inl fun _ => rfl)) rfl

theorem Sound.exit (hB : B.Sound G e w a) {t : Tree} (h : B.Going G levels p n above t x s)
    (b : Bool)
    (hleaves : b = false → w.Leaves a above n x) :
    B.Agrees (B.Done G t t.nextContext (· ∈ above))
      ((do
        if b = true then return true
        match ← w.call .exit above n with
        | .stop => return true
        | _ => return false : EStateM TreeError α Bool) x)
      ((do
        if b = true then
          PassM.onTree (modify (·.updatePath p ({ · with shouldStop := true })))
          return true
        let d ← PassM.ask (·.path p)
        if d.removed || d.node != some n then return d.shouldStop
        let _ ← e.call p .exit
        PassM.ask fun t => (t.path p).shouldStop : PassM σ Bool) s) := by
  cases b with
  | true =>
    obtain ⟨hx, hs⟩ := hB.inv_updatePath h.steady h.inv p ({ · with shouldStop := true })
      (fun _ => rfl) (fun _ => rfl) fun _ => rfl
    refine agrees_pure ⟨rfl, hx, hs, h.moves.trans (moves_updatePath (G.node h.place) _
      (fun _ => rfl) (fun _ => rfl) (.inr (G.not_mem h.steady.firm h.place))) h.moves.nextContext
      fun _ h => h, h.frames⟩
  | false =>
    have hnode : ((s.tree.path p).node != some n) = false := by
      rw [show (s.tree.path p).node = some n from G.node h.place]
      exact bne_self_eq_false _
    have hcall := hB.call .exit h.toAt (fun h => nomatch h) (fun _ => hleaves rfl) h.shouldSkip
      h.shouldStop
    simp only [Bool.false_eq_true, if_false]
    rw [run_ask_bind]
    simp only [(G.inUse h.steady.firm h.place).1, hnode, Bool.or_self, Bool.false_eq_true, if_false]
    refine hcall.bind (fun v => ?_) ?_
    · cases v <;> exact stays_pure _
    · rintro v _ x' s' ⟨hstop, _, hx', hs', hm, hf⟩
      have hdone : B.Done G t t.nextContext (· ∈ above) v.stops (s'.tree.path p).shouldStop x' s' :=
        ⟨hstop.symm, hx', hs', h.moves.trans hm h.moves.nextContext fun _ h => h, hf.trans h.frames⟩
      cases v <;> exact ⟨_, x', rfl, hdone⟩

/-- **A visit of a path is the walk from its node.** -/
theorem Sound.visitPath (hB : B.Sound G e w a) (hpaths : ∀ l, levels = l + 1 → hB.Paths l) :
    hB.Paths levels := by
  intro steps p n above x s hsteps h harr hflags
  have ha : s.tree.arena = a := hB.arena x s h.inv
  obtain ⟨o, ho⟩ := G.exists_get? h.steady.firm h.place
  rw [ha] at ho
  cases steps with
  | zero => exact agrees_outOfSteps hsteps (Nat.mul_pos (Nat.succ_pos _) (Nat.succ_pos _))
  | succ steps =>
    have hty : s.tree.arena.type? (some n) = some o.type := by
      rw [ha]
      simp [Arena.type?, ho]
    rw [Engine.visitPath, run_ask_bind, Walker.walk_eq, Walker.visit, ho]
    simp only [id_eq, G.node h.place, hty, hB.denied]
    by_cases hden : e.dispatch.isDenied o.type
    · simp only [hden, if_true]
      exact agrees_pure ⟨rfl, h.inv, h.steady, .refl _ _ _ _, rfl⟩
    · simp only [hden, Bool.false_eq_true, if_false]
      have hrest : ∀ b : Bool, Stays B.Bad (if b = true then pure true else
          w.call .exit above n >>= fun v =>
          match v with | .stop => pure true | _ => pure false) := by
        rintro (_ | _)
        · refine (hB.call_bad .exit above n).bind fun v => ?_
          cases v <;> exact stays_pure _
        · exact stays_pure _
      have hcall := hB.call .enter h (fun _ => ⟨harr, congrArg (·.2.2) hflags⟩) (fun h => nomatch h)
        (congrArg (·.1) hflags) (congrArg (·.2.1) hflags)
      refine hcall.run.bind ?_ ?_
      · intro v
        cases v with
        | stop => exact stays_pure _
        | skip => exact stays_pure _
        | go skipped => exact (hB.below_bad levels (n :: above) _).bind hrest
      · rintro v changed x₁ s₁ ⟨henter, hstop, hshow, hx₁, hs₁, hm₁, hf₁⟩
        rw [run_ask_bind]
        cases v with
        | stop =>
          simp only [show changed = true from hshow rfl, Bool.true_or, if_true]
          exact agrees_pure ⟨hstop.symm, hx₁, hs₁, hm₁, hf₁⟩
        | skip =>
          simp only [show changed = true from hshow rfl, Bool.true_or, if_true]
          exact agrees_pure ⟨hstop.symm, hx₁, hs₁, hm₁, hf₁⟩
        | go skipped =>
          obtain ⟨rfl, hskip, hkeys⟩ := hshow rfl
          simp only [hskip, Bool.or_self, Bool.false_eq_true, if_false]
          have h₁ : B.Going G levels p n above s.tree x₁ s₁ :=
            ⟨⟨hs₁, hx₁, G.place hm₁.grows h.place, hm₁.depth ▸ h.near,
              (congrArg (· + levels) hm₁.depth).trans h.depth⟩, hm₁, hf₁, hskip, hstop⟩
          have hkeys₂ (k : String) : ((s₁.tree.updatePath p ({ · with childrenDone := false })).path
              p).skipKeys.contains k = skipped.contains k := by
            rw [s₁.tree.path_updatePath_congr p p ({ · with childrenDone := false })
              PathData.skipKeys fun _ => rfl]
            exact hkeys k
          have h₂ := hB.note h₁ false
          have hnode := hB.visitNode hpaths ho steps (hsteps.mono fun h => by omega) h₂.toAt hkeys₂
          rw [run_modifyTree_bind]
          refine hnode.run.attempt hrest ?_ fun _ _ => rfl
          rintro b _ x₃ s₃ ⟨hchildren, rfl, hx₃, hs₃, hm₃, hf₃⟩
          refine hB.exit (hB.note (h₂.moved hx₃ hs₃ (fun _ h => h) hm₃ hf₃) true) b fun hb => ?_
          exact ⟨o, levels, skipped, x, x₁, ho, henter, hb ▸ hchildren⟩

end Fields

theorem Sound.paths (hB : B.Sound G e w a) : ∀ levels, hB.Paths levels
  | 0 => hB.visitPath fun _ h => nomatch h
  | levels + 1 => hB.visitPath fun l h => by
    obtain rfl := Nat.succ.inj h
    exact hB.paths levels

end Bridge

end ScopedTree
