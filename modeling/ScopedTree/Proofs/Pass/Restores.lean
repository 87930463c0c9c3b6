import ScopedTree.Proofs.Pass.Queued

/-!
# What passes put back

A pass pushes frames, notes on the paths it visits which frames they are on, and counts how deep it
is. However it ends, all of this is put back, save for the context of a path whose scope could not
be assigned: it stays on the path when its frame is gone. Such a path strays.

* `Frame.Grows`            a frame has stayed, and its queues lost nothing;
* `Tree.Restores`          the frames, the depth and the contexts of paths are what they were;
* `Tree.Ran`               so they are in the middle of a queue, save for what is still on its
  frame;
* `Engine.Restoring`       engines whose handlers restore;
* `Engine.Restoring.passes`   so do their passes.
-/

namespace ScopedTree

/-! ## frames -/

/-- The frame has stayed. Paths may have been queued on it behind those that were. -/
structure Frame.Grows (f f' : Frame) : Prop where
  id : f'.id = f.id
  owner : f'.owner = f.owner
  key : f'.key = f.key
  entered : f'.entered = f.entered
  pending : f.pending <+: f'.pending
  priority : f.priority <+: f'.priority

namespace Frame

variable {f f' f'' : Frame}

theorem Grows.refl (f : Frame) : f.Grows f :=
  ⟨rfl, rfl, rfl, rfl, List.prefix_refl _, List.prefix_refl _⟩

theorem Grows.trans (h : f.Grows f') (h' : f'.Grows f'') : f.Grows f'' where
  id := h'.id.trans h.id
  owner := h'.owner.trans h.owner
  key := h'.key.trans h.key
  entered := h'.entered.trans h.entered
  pending := h.pending.trans h'.pending
  priority := h.priority.trans h'.priority

def put (ps : List PathId) (f : Frame) : Frame :=
  { f with pending := [], priority := [], entered := f.entered ++ ps }

theorem Grows.put (h : f.Grows f') (ps : List PathId) : (f.put ps).Grows (f'.put ps) :=
  ⟨h.id, h.owner, h.key, congrArg (· ++ ps) h.entered, List.prefix_refl _, List.prefix_refl _⟩

def restart (queue : List PathId) (f : Frame) : Frame :=
  { f with pending := queue, priority := [], entered := [] }

theorem id_restart (queue : List PathId) (f : Frame) : (f.restart queue).id = f.id := rfl

theorem id_put (ps : List PathId) (f : Frame) : (f.put ps).id = f.id := rfl

theorem put_put (ps qs : List PathId) (f : Frame) : (f.put ps).put qs = f.put (ps ++ qs) := by
  simp [put]

end Frame

namespace Tree

variable {t t' t'' : Tree} {id : ContextId} {l l' l'' : List Frame}

theorem replaceFrame_replaceFrame {f g : Frame → Frame} (hf : ∀ frame, (f frame).id = frame.id) :
    replaceFrame id g (replaceFrame id f l) = replaceFrame id (fun frame => g (f frame)) l := by
  induction l with
  | nil => rfl
  | cons frame l ih =>
    by_cases h : frame.id == id
    · simp [replaceFrame, h, hf frame]
    · simp [replaceFrame, h, ih]

theorem replaceFrame_put (ps qs : List PathId) : replaceFrame id (Frame.put qs)
    (replaceFrame id (Frame.put ps) l) = replaceFrame id (Frame.put (ps ++ qs)) l := by
  rw [replaceFrame_replaceFrame (Frame.id_put ps)]
  exact congrArg (replaceFrame id · l) (funext (Frame.put_put ps qs))

theorem find?_replaceFrame_self {f : Frame → Frame} (hf : ∀ frame, (f frame).id = frame.id) :
    (replaceFrame id f l).find? (·.id == id) = (l.find? (·.id == id)).map f := by
  rw [find?_replaceFrame fun frame hid => (hf frame).trans hid, if_pos rfl]

theorem replaceFrame_eq_self {f : Frame → Frame}
    (h : ∀ frame, l.find? (·.id == id) = some frame → f frame = frame) :
    replaceFrame id f l = l := by
  induction l with
  | nil => rfl
  | cons frame l ih =>
    by_cases hid : frame.id = id
    · rw [replaceFrame, if_pos (by simpa using hid),
        h frame (List.find?_cons_of_pos (by simpa using hid))]
    · rw [replaceFrame, if_neg (by simpa using hid), ih fun frame' hfind =>
        h frame' ((List.find?_cons_of_neg (by simpa using hid)).trans hfind)]

def FramesGrow (l l' : List Frame) : Prop := List.Forall₂ Frame.Grows l l'

namespace FramesGrow

theorem refl (l : List Frame) : FramesGrow l l := List.forall₂_same.2 fun f _ => .refl f

theorem trans (h : FramesGrow l l') (h' : FramesGrow l' l'') : FramesGrow l l'' := by
  induction h generalizing l'' with
  | nil => exact h'
  | cons hf _ ih =>
    cases h' with
    | cons hf' h' => exact .cons (hf.trans hf') (ih h')

theorem replace {f g : Frame → Frame} (h : FramesGrow l l')
    (hfg : ∀ frame frame', frame.Grows frame' → (f frame).Grows (g frame')) :
    FramesGrow (replaceFrame id f l) (replaceFrame id g l') := by
  induction h with
  | nil => exact .nil
  | @cons frame frame' l l' hf hl ih =>
    by_cases hid : frame.id = id
    · rw [replaceFrame, if_pos (by simpa using hid), replaceFrame,
        if_pos (by simpa [hf.id] using hid)]
      exact .cons (hfg frame frame' hf) hl
    · rw [replaceFrame, if_neg (by simpa using hid), replaceFrame,
        if_neg (by simpa [hf.id] using hid)]
      exact .cons hf ih

theorem update {f : Frame → Frame} (h : FramesGrow l l')
    (hf : ∀ frame : Frame, frame.Grows (f frame)) :
    FramesGrow l (replaceFrame id f l') := by
  induction h with
  | nil => exact .nil
  | @cons frame frame' l l' hframe hl ih =>
    by_cases hid : frame'.id = id
    · rw [replaceFrame, if_pos (by simpa using hid)]
      exact .cons (hframe.trans (hf frame')) hl
    · rw [replaceFrame, if_neg (by simpa using hid)]
      exact .cons hframe ih

theorem find? (h : FramesGrow l l') {frame : Frame} (hfind : l.find? (·.id == id) = some frame) :
    ∃ frame', l'.find? (·.id == id) = some frame' ∧ frame.Grows frame' := by
  induction h with
  | nil => cases hfind
  | @cons f f' l l' hf hl ih =>
    by_cases hid : f.id = id
    · rw [List.find?_cons_of_pos (by simpa using hid)] at hfind
      obtain rfl := Option.some.inj hfind
      exact ⟨f', List.find?_cons_of_pos (by simpa [hf.id] using hid), hf⟩
    · rw [List.find?_cons_of_neg (by simpa using hid)] at hfind
      obtain ⟨frame', hfind', hgrows⟩ := ih hfind
      exact ⟨frame', (List.find?_cons_of_neg (by simpa [hf.id] using hid)).trans hfind', hgrows⟩

end FramesGrow

/-! ## the books -/

/-- Everything but the frames is what it was, save for the contexts of paths: some from `k` on may
have come on top, at least those of the paths in `ps`. There are no others but on paths that stray,
and none of those where no scope is ever assigned. -/
structure Books (strays : PathId → Prop) (k : Nat) (ps : List PathId) (t t' : Tree) : Prop where
  depth : t'.depth = t.depth
  noScope : t'.options.noScope = t.options.noScope
  size : t.paths.size ≤ t'.paths.size
  start : k ≤ t.nextContext
  next : t.nextContext ≤ t'.nextContext
  contexts : ∀ p, p.index < t.paths.size → ∃ left, (t'.path p).contexts
    = left ++ (t.path p).contexts ∧ (∀ c ∈ left, k ≤ c.index) ∧ ps.count p ≤ left.length
    ∧ ((strays p → t.options.noScope = true) → left.length = ps.count p)

/-- The contexts on paths were there before, or their handles were handed out, or their frames are
under way. -/
def Issues (t t' : Tree) : Prop := ∀ p, ∀ c ∈ (t'.path p).contexts,
  c ∈ (t.path p).contexts ∨ c.index < t'.nextContext ∨ ∃ f ∈ t.frames, f.id = c

/-- The frames, the depth and the contexts of the paths of a tree are what they were. Contexts from
`k` on may be left on paths that stray. -/
structure Restores (strays : PathId → Prop) (k : Nat) (t t' : Tree) : Prop
    extends Books strays k [] t t' where
  frames : FramesGrow t.frames t'.frames
  issues : t.Issues t'

/-- What a tree restores while the frame of a handle is at work, which was put on the paths in `ps`.
-/
structure Ran (strays : PathId → Prop) (k : Nat) (id : ContextId) (ps : List PathId)
    (t t' : Tree) : Prop extends Books strays k ps t t' where
  frames : FramesGrow (replaceFrame id (Frame.put ps) t.frames)
    (replaceFrame id (Frame.put []) t'.frames)
  issues : t.Issues t'

variable {strays strays' : PathId → Prop} {k : Nat} {ps qs : List PathId}

theorem path_congr {t t' : Tree} (hpaths : t'.paths = t.paths)
    (p : PathId) : t'.path p = t.path p :=
  congrArg (fun paths : Array PathData => paths[p.index]?.getD {}) hpaths

namespace Issues

theorem refl (t : Tree) : t.Issues t := fun _ _ hc => .inl hc

theorem trans (h : t.Issues t') (h' : t'.Issues t'') (hnext : t'.nextContext ≤ t''.nextContext)
    (hids : ∀ f ∈ t'.frames, ∃ g ∈ t.frames, g.id = f.id) : t.Issues t'' := by
  intro p c hc
  rcases h' p c hc with hc | hc | ⟨f, hf, rfl⟩
  · exact (h p c hc).imp_right fun hc => hc.imp_left fun hc => hc.trans_le hnext
  · exact .inr (.inl hc)
  · exact .inr (.inr (hids f hf))

theorem congr (h : t.Issues t') (hcontexts : ∀ p, ∀ c ∈ (t''.path p).contexts,
    c ∈ (t'.path p).contexts)
    (hnext : t'.nextContext ≤ t''.nextContext) : t.Issues t'' := fun p c hc =>
  (h p c (hcontexts p c hc)).imp_right fun hc => hc.imp_left fun hc => hc.trans_le hnext

end Issues

theorem FramesGrow.exists_id (h : FramesGrow l l') : ∀ f' ∈ l', ∃ f ∈ l, f.id = f'.id := by
  induction h with
  | nil => exact nofun
  | cons hf _ ih =>
    intro f' hf'
    rcases List.mem_cons.1 hf' with rfl | hf'
    · exact ⟨_, List.mem_cons_self .., hf.id.symm⟩
    · obtain ⟨f, hmem, hid⟩ := ih f' hf'
      exact ⟨f, List.mem_cons_of_mem _ hmem, hid⟩

theorem FramesGrow.exists_frame (h : FramesGrow l l') {c : ContextId} (hc : ∃ f ∈ l, f.id = c) :
    ∃ f ∈ l', f.id = c := by
  induction h with
  | nil => exact hc
  | @cons f f' l l' hf _ ih =>
    simp only [List.mem_cons, exists_eq_or_imp] at hc ⊢
    exact hc.imp hf.id.trans ih

theorem exists_id_replaceFrame {f : Frame → Frame} (hf : ∀ frame, (f frame).id = frame.id)
    (l : List Frame) (c : ContextId) :
    (∃ frame ∈ replaceFrame id f l, frame.id = c) ↔ ∃ frame ∈ l, frame.id = c := by
  induction l with
  | nil => exact Iff.rfl
  | cons frame l ih =>
    unfold replaceFrame
    split
    · simp only [List.mem_cons, exists_eq_or_imp, hf]
    · simp only [List.mem_cons, exists_eq_or_imp, ih]

namespace Books

theorem refl (strays : PathId → Prop) (hk : k ≤ t.nextContext) : Books strays k [] t t :=
  ⟨rfl, rfl, Nat.le_refl _, hk, Nat.le_refl _, fun _ _ =>
    ⟨[], rfl, nofun, Nat.le_refl _, fun _ => rfl⟩⟩

theorem trans (h : Books strays k ps t t') (h' : Books strays k qs t' t'') :
    Books strays k (ps ++ qs) t t'' where
  depth := h'.depth.trans h.depth
  noScope := h'.noScope.trans h.noScope
  size := h.size.trans h'.size
  start := h.start
  next := h.next.trans h'.next
  contexts p hp := by
    obtain ⟨left, heq, hnew, hle, hexact⟩ := h.contexts p hp
    obtain ⟨left', heq', hnew', hle', hexact'⟩ := h'.contexts p (hp.trans_le h.size)
    refine ⟨left' ++ left, by rw [heq', heq, List.append_assoc], fun c hc => ?_, ?_, fun hs => ?_⟩
    · exact (List.mem_append.1 hc).elim (hnew' c) (hnew c)
    · rw [List.count_append, List.length_append]
      omega
    · have hone := hexact hs
      have htwo := hexact' fun hstray => h.noScope.trans (hs hstray)
      rw [List.count_append, List.length_append]
      omega

theorem mono (h : Books strays k ps t t') (hs : ∀ p, strays p → strays' p) :
    Books strays' k ps t t' :=
  { h with
    contexts := fun p hp => by
      obtain ⟨left, heq, hnew, hle, hexact⟩ := h.contexts p hp
      exact ⟨left, heq, hnew, hle, fun hnot => hexact fun hstray => hnot (hs p hstray)⟩ }

theorem forget {p : PathId} (h : Books strays k [p] t t') (hp : strays p)
    (hscope : t.options.noScope = false) : Books strays k [] t t' :=
  { h with
    contexts := fun q hq => by
      obtain ⟨left, heq, hnew, hle, hexact⟩ := h.contexts q hq
      refine ⟨left, heq, hnew, Nat.zero_le _, fun hnot => ?_⟩
      have hqp : ¬ p = q := by
        rintro rfl
        cases (hnot hp).symm.trans hscope
      rw [hexact hnot]
      simp [hqp] }

theorem congr (h : Books strays k ps t t') (hpaths : t''.paths = t'.paths)
    (hdepth : t''.depth = t'.depth) (hoptions : t''.options.noScope = t'.options.noScope)
    (hnext : t'.nextContext ≤ t''.nextContext) :
    Books strays k ps t t'' where
  depth := hdepth.trans h.depth
  noScope := hoptions.trans h.noScope
  size := by rw [hpaths]; exact h.size
  start := h.start
  next := h.next.trans hnext
  contexts p hp := by
    rw [path_congr hpaths]
    exact h.contexts p hp

end Books

theorem contexts_popContext (t : Tree) (p q : PathId) : ((Engine.popContext t p).path q).contexts
    = (t.path q).contexts.drop (if q = p then 1 else 0) := by
  unfold Engine.popContext
  by_cases hq : q = p
  · subst hq
    by_cases hlt : q.index < t.paths.size
    · rw [path_updatePath_self _ _ hlt, if_pos rfl]
    · have hle := Nat.le_of_not_lt hlt
      rw [path_of_size_le (by simpa using hle), path_of_size_le hle]
      simp
  · rw [path_updatePath_ne _ _ hq, if_neg hq, List.drop_zero]

theorem contexts_popContexts (ps : List PathId) (t : Tree) (q : PathId) :
    ((ps.foldl Engine.popContext t).path q).contexts = (t.path q).contexts.drop (ps.count q) := by
  induction ps generalizing t with
  | nil => rfl
  | cons p ps ih =>
    rw [List.foldl_cons, ih, contexts_popContext, List.drop_drop, List.count_cons]
    congr 1
    by_cases hq : p = q
    · subst hq
      simp [Nat.add_comm]
    · simp [hq, Ne.symm hq]

theorem exists_popContexts (ps : List PathId) (t : Tree) : ∃ paths, paths.size = t.paths.size
    ∧ ps.foldl Engine.popContext t = { t with paths } := by
  induction ps generalizing t with
  | nil => exact ⟨t.paths, rfl, rfl⟩
  | cons p ps ih =>
    obtain ⟨paths, hsize, heq⟩ := ih (Engine.popContext t p)
    exact ⟨paths, hsize.trans Array.size_modify, heq⟩

theorem Books.pop (h : Books strays k ps t t') : Books strays k [] t
    (ps.foldl Engine.popContext t') := by
  obtain ⟨paths, hsize, heq⟩ := exists_popContexts ps t'
  refine ⟨?_, ?_, ?_, h.start, ?_, fun p hp => ?_⟩
  · rw [heq]
    exact h.depth
  · rw [heq]
    exact h.noScope
  · rw [heq]
    exact h.size.trans hsize.ge
  · rw [heq]
    exact h.next
  · obtain ⟨left, hleft, hnew, hle, hexact⟩ := h.contexts p hp
    refine ⟨left.drop (ps.count p), ?_, fun c hc => hnew c (List.mem_of_mem_drop hc), Nat.zero_le _,
      fun hs => ?_⟩
    · rw [contexts_popContexts, hleft, List.drop_append_of_le_length hle]
    · rw [List.length_drop, hexact hs, Nat.sub_self]
      rfl

namespace Restores

theorem refl (strays : PathId → Prop) (hk : k ≤ t.nextContext) : Restores strays k t t :=
  ⟨.refl strays hk, .refl _, .refl t⟩

theorem trans (h : Restores strays k t t') (h' : Restores strays k t' t'') :
    Restores strays k t t'' :=
  ⟨h.toBooks.trans h'.toBooks, h.frames.trans h'.frames,
    h.issues.trans h'.issues h'.next h.frames.exists_id⟩

theorem mono (h : Restores strays k t t') (hs : ∀ p, strays p → strays' p) :
    Restores strays' k t t' :=
  ⟨h.toBooks.mono hs, h.frames, h.issues⟩

/-- Only paths and frames matter, besides the depth, the options and the handles. -/
theorem congr (h : Restores strays k t t') (hpaths : t''.paths = t'.paths)
    (hframes : t''.frames = t'.frames) (hdepth : t''.depth = t'.depth)
    (hoptions : t''.options.noScope = t'.options.noScope)
    (hnext : t''.nextContext = t'.nextContext) : Restores strays k t t'' :=
  ⟨h.toBooks.congr hpaths hdepth hoptions hnext.ge, hframes ▸ h.frames,
    h.issues.congr (fun p c hc => by rwa [path_congr hpaths] at hc) hnext.ge⟩

theorem tracked (strays : PathId → Prop) (k : Nat) (t₀ : Tree) :
    Tracked (Restores strays k t₀) where
  path t p f hf h := by
    have hsame (q : PathId) := t.path_updatePath_congr p q f PathData.contexts hf
    refine ⟨⟨h.depth, h.noScope, h.size.trans (size_updatePath ..).ge, h.start, h.next,
      fun q hq => ?_⟩,
      h.frames, h.issues.congr (fun q c hc => hsame q ▸ hc) le_rfl⟩
    rw [hsame q]
    exact h.contexts q hq
  alloc t d hd h := by
    refine ⟨⟨h.depth, h.noScope, h.size.trans ?_, h.start, h.next, fun q hq => ?_⟩, h.frames,
      h.issues.congr (fun q c hc => ?_) le_rfl⟩
    · rw [Array.size_push]
      exact Nat.le_succ _
    · have hpath : path { t with paths := t.paths.push d } q = t.path q := by
        unfold path
        rw [Array.getElem?_push_lt (hq.trans_le h.size),
          Array.getElem?_eq_getElem (hq.trans_le h.size)]
      rw [hpath]
      exact h.contexts q hq
    · unfold path at hc ⊢
      rw [Array.getElem?_push] at hc
      split at hc
      · rw [Option.getD_some, hd] at hc
        cases hc
      · exact hc
  lists _ _ _ h := h.congr rfl rfl rfl rfl rfl

end Restores

namespace Ran

theorem of_restores (h : Restores strays k t t') (id : ContextId) : Ran strays k id [] t t' :=
  ⟨h.toBooks, h.frames.replace fun _ _ hf => hf.put [], h.issues⟩

theorem exists_id (h : Ran strays k id ps t t') : ∀ f ∈ t'.frames, ∃ g ∈ t.frames, g.id = f.id := by
  intro f hf
  obtain ⟨f', hf', hid'⟩ := (exists_id_replaceFrame (Frame.id_put []) t'.frames f.id).2 ⟨f, hf, rfl⟩
  obtain ⟨g, hg, hid⟩ := h.frames.exists_id f' hf'
  exact (exists_id_replaceFrame (Frame.id_put ps) t.frames f.id).1 ⟨g, hg, hid.trans hid'⟩

theorem exists_frame (h : Ran strays k id ps t t') {c : ContextId} (hc : ∃ f ∈ t.frames, f.id = c) :
    ∃ f ∈ t'.frames, f.id = c := by
  obtain ⟨f', hf', hid'⟩ := (exists_id_replaceFrame (Frame.id_put ps) t.frames c).2 hc
  exact (exists_id_replaceFrame (Frame.id_put []) t'.frames c).1
    (h.frames.exists_frame ⟨f', hf', hid'⟩)

theorem trans (h : Ran strays k id ps t t') (h' : Ran strays k id qs t' t'') :
    Ran strays k id (ps ++ qs) t t'' := by
  refine ⟨h.toBooks.trans h'.toBooks, ?_, h.issues.trans h'.issues h'.next h.exists_id⟩
  have hput : FramesGrow (replaceFrame id (Frame.put qs) (replaceFrame id (Frame.put ps) t.frames))
      (replaceFrame id (Frame.put qs) (replaceFrame id (Frame.put []) t'.frames)) :=
    h.frames.replace fun _ _ hf => hf.put qs
  rw [replaceFrame_put, replaceFrame_put] at hput
  exact hput.trans h'.frames

theorem mono (h : Ran strays k id ps t t') (hs : ∀ p, strays p → strays' p) :
    Ran strays' k id ps t t' :=
  ⟨h.toBooks.mono hs, h.frames, h.issues⟩

theorem updateFrame (h : Books strays k ps t t') (hframes : FramesGrow t.frames t'.frames)
    (hissues : t.Issues t') {f : Frame → Frame} (hf : ∀ frame, (f frame).put [] = frame.put ps) :
    Ran strays k id ps t (t'.updateFrame id f) := by
  refine ⟨h.congr rfl rfl rfl (Nat.le_refl _), ?_, hissues.congr (fun _ _ hc => hc) le_rfl⟩
  show FramesGrow _ (replaceFrame id _ (replaceFrame id f t'.frames))
  have hid (frame : Frame) : (f frame).id = frame.id :=
    show ((f frame).put []).id = (frame.put ps).id from congrArg Frame.id (hf frame)
  rw [replaceFrame_replaceFrame hid, funext hf]
  exact hframes.replace fun _ _ h => h.put ps

/-- The frame of a queue gets back what it had, and what it was put on is popped. -/
theorem finish {saved : Frame} {queue : List PathId} (hsaved : t.frame? id = some saved)
    (h : Ran strays k id ps (t.updateFrame id (Frame.restart queue)) t') :
    Restores strays k t
    ((((t'.frame? id).map (·.entered)).getD [] |>.foldl Engine.popContext t').updateFrame id
      fun _ => saved) := by
  have hstart : (replaceFrame id (Frame.put ps)
      (replaceFrame id (Frame.restart queue) t.frames)).find?
      (·.id == id) = some ((saved.restart queue).put ps) := by
    rw [find?_replaceFrame_self (Frame.id_put ps), find?_replaceFrame_self (Frame.id_restart queue),
      show t.frames.find? (·.id == id) = some saved from hsaved]
    rfl
  have hentered : ((t'.frame? id).map (·.entered)).getD [] = ps := by
    obtain ⟨frame, hframe, hgrows⟩ := h.frames.find? hstart
    rw [find?_replaceFrame_self (Frame.id_put [])] at hframe
    obtain ⟨frame', hframe', rfl⟩ := Option.map_eq_some_iff.1 hframe
    rw [show t'.frame? id = some frame' from hframe']
    simpa [Frame.put, Frame.restart] using hgrows.entered
  rw [hentered]
  obtain ⟨paths, -, hpop⟩ := exists_popContexts ps t'
  have hbooks : Books strays k [] t (ps.foldl Engine.popContext t') :=
    { h.toBooks.pop with contexts := h.toBooks.pop.contexts }
  have hissues : t.Issues t' := fun p c hc => (h.issues p c hc).imp_right
    fun hc => hc.imp_right fun hf =>
    (exists_id_replaceFrame (Frame.id_restart queue) t.frames c).1 hf
  refine ⟨hbooks.congr rfl rfl rfl (Nat.le_refl _), ?_, hissues.congr (fun p c hc => ?_)
    (by rw [hpop]; exact le_rfl)⟩
  swap
  · change c ∈ ((ps.foldl Engine.popContext t').path p).contexts at hc
    rw [contexts_popContexts] at hc
    exact List.mem_of_mem_drop hc
  have hframes : FramesGrow (replaceFrame id (fun _ => saved) _)
      (replaceFrame id (fun _ => saved) _) :=
    h.frames.replace fun _ _ _ => .refl saved
  rw [replaceFrame_replaceFrame (Frame.id_put ps),
    replaceFrame_replaceFrame (Frame.id_put [])] at hframes
  show FramesGrow t.frames (replaceFrame id (fun _ => saved) (ps.foldl Engine.popContext t').frames)
  rw [hpop]
  refine (?_ : t.frames = _) ▸ hframes
  exact ((replaceFrame_replaceFrame (Frame.id_restart queue)).trans
    (replaceFrame_eq_self fun frame hfind =>
    Option.some.inj (hsaved.symm.trans hfind))).symm

end Ran

end Tree

/-! ## programs -/

section Programs

variable {σ α β : Type}

theorem PassM.ends_attempt_tidy {x : PassM σ α} {tidy : Tree → Tree}
    {f : Except TreeError α → PassM σ β} {s : Pass σ} {Q : β → Pass σ → Prop}
    {E : TreeError → Pass σ → Prop} (hf : ∀ e s, f (.error e) s = .error e s)
    (h : Ends (x s) (fun y s' => Ends (f (.ok y) ⟨tidy s'.tree, s'.own⟩) Q E)
      fun e s' => E e ⟨tidy s'.tree, s'.own⟩) :
    Ends ((PassM.attempt x >>= fun y => PassM.onTree (modify tidy) >>= fun _ => f y) s) Q E := by
  refine ends_bind.2 ?_
  unfold PassM.attempt
  cases hr : x s with
  | ok y s' =>
    rw [hr] at h
    exact h
  | error e s' =>
    rw [hr] at h
    show Ends (f (.error e) _) Q E
    rw [hf]
    exact h

/-- The trees differ in no more than what is put back when a pass ends. -/
def Tree.Unwinds (t t' : Tree) : Prop := ∃ paths frames depth, t' = { t with paths, frames, depth }

theorem Tree.Unwinds.refl (t : Tree) : t.Unwinds t := ⟨t.paths, t.frames, t.depth, rfl⟩

theorem Tree.Unwinds.trans {t t' t'' : Tree} (h : t.Unwinds t')
    (h' : t'.Unwinds t'') : t.Unwinds t'' := by
  obtain ⟨_, _, _, rfl⟩ := h
  obtain ⟨paths, frames, depth, rfl⟩ := h'
  exact ⟨paths, frames, depth, rfl⟩

/-- The path strays, or it does so since the failure that is being handed on. -/
def Tree.Spoilt (strays : PathId → Prop) (spoils : TreeError → Tree → PathId → Prop) (e : TreeError)
    (t : Tree) (p : PathId) : Prop :=
  strays p ∨ ∃ t₀, spoils e t₀ p ∧ t₀.Unwinds t

def Tree.Leaves (strays : PathId → Prop) (spoils : TreeError → Tree → PathId → Prop)
    (k : Nat) (t : Tree) (e : TreeError) (t' : Tree) : Prop :=
  t.Restores (Tree.Spoilt strays spoils e t') k t'

/-- The program restores what it finds in a tree. Where it fails, paths may stray that the failure
spoils. -/
def PassM.Restores (strays : PathId → Prop) (spoils : TreeError → Tree → PathId → Prop) (k : Nat)
    (x : PassM σ α) : Prop :=
  ∀ t, Leads (Pass.Has (Tree.Restores strays k t)) (Pass.Fails (Tree.Leaves strays spoils k t)) x

variable {strays : PathId → Prop} {spoils : TreeError → Tree → PathId → Prop} {k : Nat}
  {x : PassM σ α}

theorem Tree.Spoilt.unwind {e : TreeError} {t t' : Tree} (h : t.Unwinds t') (p : PathId)
    (hp : Tree.Spoilt strays spoils e t p) : Tree.Spoilt strays spoils e t' p :=
  hp.imp_right fun ⟨t₀, hspoils, hunwinds⟩ => ⟨t₀, hspoils, hunwinds.trans h⟩

theorem Tree.Leaves.unwinding {e : TreeError} {t t' t'' : Tree} (h : t.Leaves strays spoils k e t')
    (hunwinds : t'.Unwinds t'') : t.Restores (Tree.Spoilt strays spoils e t'') k t' :=
  h.mono fun p => Tree.Spoilt.unwind hunwinds p

theorem Tree.Restores.leaves {t t' : Tree} (h : t.Restores strays k t') (e : TreeError) :
    t.Leaves strays spoils k e t' := h.mono fun _ => Or.inl

theorem PassM.Restores.ends (h : PassM.Restores strays spoils k x) {s : Pass σ}
    (hk : k ≤ s.tree.nextContext) :
    Ends (x s) (fun _ s' => s.tree.Restores strays k s'.tree)
      fun e s' => s.tree.Leaves strays spoils k e s'.tree :=
  h s.tree s (.refl strays hk)

theorem PassM.restores_of_ends (h : ∀ s : Pass σ, k ≤ s.tree.nextContext → Ends (x s)
    (fun _ s' => s.tree.Restores strays k s'.tree)
    fun e s' => s.tree.Leaves strays spoils k e s'.tree) :
    PassM.Restores strays spoils k x := fun _ s hs =>
  (h s (hs.start.trans hs.next)).imp (fun _ _ h => Tree.Restores.trans hs h) fun _ _ h =>
    Tree.Restores.trans (hs.mono fun _ => Or.inl) h

end Programs

/-! ## passes -/

namespace Engine

open ScopedTree.Tree

variable {σ : Type}

/-- Handlers restore what they find, and so does the assignment of a scope. A path that was put on a
frame from `k` on is spoiled where it fails. -/
structure Restoring (e : Engine σ) (strays : PathId → Prop)
    (spoils : TreeError → Tree → PathId → Prop) (k : Nat) : Prop where
  assign : ∀ t p, Leads (Tree.Restores strays k t) (Tree.Leaves strays spoils k t) (e.assign p)
  spoil : ∀ t p id error t', k ≤ id.index → (t.path p).contexts.head? = some id →
    e.assign p t = .error error t' → t.options.noScope = false ∧ spoils error t' p
  handlers : e.dispatch.Each fun run => ∀ p, PassM.Restores strays spoils k (run p)

namespace Restoring

variable {e : Engine σ} {strays : PathId → Prop} {spoils : TreeError → Tree → PathId → Prop}
  {k : Nat} (he : e.Restoring strays spoils k) {t : Tree} {id : ContextId}

omit he in
theorem paths (strays : PathId → Prop) (k : Nat) (t : Tree) : Charted (Tree.Restores strays k t) :=
  (Restores.tracked strays k t).charted

omit he in
theorem ends_takePending (strays : PathId → Prop) (hk : k ≤ t.nextContext) : Ends (takePending id t)
    (fun _ t' => Ran strays k id [] t t') fun _ _ => False := by
  unfold takePending
  rw [ends_modifyGet]
  split
  · exact .updateFrame (.refl strays hk) (.refl _) (.refl t) fun frame => by simp [Frame.put]
  · exact .of_restores (.refl strays hk) id

omit he in
theorem ends_takePriority (strays : PathId → Prop) (hk : k ≤ t.nextContext) :
    Ends (takePriority id t) (fun _ t' => Ran strays k id [] t t') fun _ _ => False := by
  unfold takePriority
  rw [ends_modifyGet]
  exact .updateFrame (.refl strays hk) (.refl _) (.refl t) fun frame => by simp [Frame.put]

theorem restores_popFrame {owner : Option NodeId} {key : String} {s : Pass σ}
    (h : Tree.Restores strays k { t with
      nextContext := t.nextContext + 1
      frames := { id := ⟨t.nextContext⟩, owner, key } :: t.frames } s.tree)
        (hk : k ≤ t.nextContext) :
    t.Restores strays k
    { s.tree with frames := s.tree.frames.eraseP (·.id == ⟨t.nextContext⟩) } := by
  refine ⟨{ h with start := hk, next := Nat.le_of_succ_le h.next }, ?_, fun p c hc => ?_⟩
  swap
  · rcases h.issues p c hc with hc | hc | ⟨f, hf, rfl⟩
    · exact .inl hc
    · exact .inr (.inl hc)
    · rcases List.mem_cons.1 hf with rfl | hf
      · exact .inr (.inl h.next)
      · exact .inr (.inr ⟨f, hf, rfl⟩)
  have hframes : FramesGrow (_ :: t.frames) s.tree.frames := h.frames
  generalize s.tree.frames = frames at hframes ⊢
  cases hframes with
  | cons hframe hrest =>
    rw [List.eraseP_cons_of_pos (by simp [hframe.id])]
    exact hrest

theorem leads_framed {α β : Type} {x : ContextId → PassM σ α} {next : α → PassM σ β}
    (hx : ∀ id : ContextId, k ≤ id.index → PassM.Restores strays spoils k (x id))
    (hnext : ∀ y, Leads (Pass.Has (Tree.Restores strays k t))
      (Pass.Fails (Tree.Leaves strays spoils k t)) (next y))
    (owner : Option NodeId) (key : String) :
    Leads (Pass.Has (Tree.Restores strays k t)) (Pass.Fails (Tree.Leaves strays spoils k t)) (do
      let id ← PassM.onTree (Tree.pushFrame owner key)
      let result ← PassM.attempt (x id)
      PassM.onTree (Tree.popFrame id)
      next (← PassM.resume result)) := by
  intro s hs
  have hk : k ≤ s.tree.nextContext := hs.start.trans hs.next
  have hrun := (hx ⟨s.tree.nextContext⟩ hk).ends (s := ⟨{ s.tree with
    nextContext := s.tree.nextContext + 1
    frames := { id := ⟨s.tree.nextContext⟩, owner, key } :: s.tree.frames },
      s.own⟩) (Nat.le_succ_of_le hk)
  refine PassM.ends_attempt_tidy (fun _ _ => rfl) (hrun.imp (fun y s₁ h₁ => ?_) fun _ s₁ h₁ => ?_)
  · exact hnext y ⟨_, s₁.own⟩ (Tree.Restores.trans hs (restores_popFrame h₁ hk))
  · exact Tree.Restores.trans (hs.mono fun _ => Or.inl)
      (restores_popFrame (h₁.unwinding ⟨_, _, _, rfl⟩) hk)

include he

theorem ends_pushContext (hid : k ≤ id.index) (hk : k ≤ t.nextContext)
    (hframe : ∃ f ∈ t.frames, f.id = id) (p : PathId) :
    Ends (e.pushContext id p t) (fun _ t' => Ran strays k id [p] t t')
      fun error t' => Ran (Spoilt strays spoils error t') k id [] t t' := by
  unfold pushContext
  rw [run_modify_bind]
  generalize ht₁ : t.updatePath p _ = t₁
  have hframes : t₁.frames = t.frames := by
    rw [← ht₁]
    rfl
  have hbooks : Books strays k [p] t t₁ := by
    rw [← ht₁]
    refine ⟨rfl, rfl, (size_updatePath ..).ge, hk, Nat.le_refl _, fun q hq => ?_⟩
    by_cases hqp : q = p
    · subst hqp
      refine ⟨[id], ?_, by simpa using hid, by simp, by simp⟩
      rw [path_updatePath_self _ _ hq]
      rfl
    · have hcount : [p].count q = 0 := List.count_eq_zero.2 (by simpa using hqp)
      refine ⟨[], ?_, by simp, by simp [hcount], by simp [hcount]⟩
      rw [path_updatePath_ne _ _ hqp]
      rfl
  have hissues : t.Issues t₁ := by
    intro q c hc
    rw [← ht₁, path_updatePath] at hc
    split at hc
    · next hq =>
      rcases List.mem_cons.1 hc with rfl | hc
      · exact .inr (.inr hframe)
      · exact .inl (hq.1 ▸ hc)
    · exact .inl hc
  have hk₁ : k ≤ t₁.nextContext := hk.trans hbooks.next
  have hissued {strays : PathId → Prop} {t₂ : Tree} (h : Tree.Restores strays k t₁ t₂) :
      t.Issues t₂ :=
    hissues.trans h.issues h.next fun f hf => ⟨f, hframes ▸ hf, rfl⟩
  have hend {t₂ : Tree} (h : Tree.Restores strays k t₁ t₂) :
      Ran strays k id [p] t (t₂.updateFrame id fun f => { f with entered := f.entered ++ [p] }) :=
    .updateFrame (hbooks.trans h.toBooks) (hframes ▸ h.frames) (hissued h) fun frame => by
      simp [Frame.put]
  have htop (hp : p.index < t.paths.size) : (t₁.path p).contexts.head? = some id := by
    rw [← ht₁, path_updatePath_self _ _ hp]
    rfl
  refine ends_bind.2 (ends_iff.2 ⟨fun _ t₂ hr => ?_, fun error t₂ hr => ?_⟩)
  · exact hend ((he.assign t₁ p t₁ (.refl strays hk₁)).of_ok hr)
  · have h := (he.assign t₁ p t₁ (.refl strays hk₁)).of_error hr
    have hbooks₂ : Books (Spoilt strays spoils error t₂) k [p] t t₂ :=
      (hbooks.mono fun _ => Or.inl).trans h.toBooks
    by_cases hp : p.index < t.paths.size
    · -- the context stays on the path
      obtain ⟨hscope, hspoils⟩ := he.spoil t₁ p id error t₂ hid (htop hp) hr
      exact .of_restores ⟨hbooks₂.forget (.inr ⟨t₂, hspoils, .refl t₂⟩)
        (hbooks.noScope.symm.trans hscope), hframes ▸ h.frames, hissued h⟩ id
    · refine .of_restores ⟨{ hbooks₂ with contexts := fun q hq => ?_ }, hframes ▸ h.frames,
        hissued h⟩ id
      have hqp : ¬ p = q := by
        rintro rfl
        exact hp hq
      obtain ⟨left, heq, hnew, -, hexact⟩ := hbooks₂.contexts q hq
      exact ⟨left, heq, hnew, Nat.zero_le _, fun hnot => (hexact hnot).trans (by simp [hqp])⟩

theorem ends_visitable? (hid : k ≤ id.index) (hk : k ≤ t.nextContext)
    (hframe : ∃ f ∈ t.frames, f.id = id) (visited : List NodeId) (p : PathId) :
    Ends (e.visitable? id visited p t) (fun _ t' => ∃ ps, Ran strays k id ps t t')
      fun error t' => ∃ ps, Ran (Spoilt strays spoils error t') k id ps t t' := by
  unfold visitable?
  refine ends_bind.2 ((stays_iff.1 ((paths strays k t).resync p) t (.refl strays hk)).imp
    (fun _ t₁ h₁ => ?_)
    fun _ t₁ h₁ => ⟨[], .of_restores (h₁.mono fun _ => Or.inl) id⟩)
  have hk₁ : k ≤ t₁.nextContext := hk.trans h₁.next
  have hran₁ : Ran strays k id [] t t₁ := .of_restores h₁ id
  rw [run_get_bind]
  dsimp only
  split
  · exact ⟨[], hran₁⟩
  · split
    · refine ends_bind.2 ((he.ends_pushContext hid hk₁ (h₁.frames.exists_frame hframe) p).imp
        (fun _ t₂ h₂ => ?_) fun _ t₂ h₂ => ?_)
      · exact ⟨_, hran₁.trans h₂⟩
      · exact ⟨_, (hran₁.mono fun _ => Or.inl).trans h₂⟩
    · exact ⟨[], hran₁⟩

/-- All visits that are granted so many steps restore. -/
structure Visits (e : Engine σ) (strays : PathId → Prop)
    (spoils : TreeError → Tree → PathId → Prop) (k steps : Nat) : Prop where
  queue : ∀ id queue, k ≤ id.index → PassM.Restores strays spoils k (e.visitQueue steps id queue)
  run : ∀ id visited (s : Pass σ), k ≤ id.index → k ≤ s.tree.nextContext →
    (∃ f ∈ s.tree.frames, f.id = id) → Ends (e.runQueue steps id visited s)
    (fun _ s' => ∃ ps, Ran strays k id ps s.tree s'.tree)
      fun error s' => ∃ ps, Ran (Spoilt strays spoils error s'.tree) k id ps s.tree s'.tree
  path : ∀ p, PassM.Restores strays spoils k (e.visitPath steps p)
  node : ∀ p node, PassM.Restores strays spoils k (e.visitNode steps p node)
  fields : ∀ p node fields, PassM.Restores strays spoils k (e.visitFields steps p node fields)

section Step

variable {steps : Nat} (hv : Visits e strays spoils k steps)

include hv

omit he in
theorem restores_visitQueue (id : ContextId) (queue : List PathId) (hid : k ≤ id.index) :
    PassM.Restores strays spoils k (e.visitQueue (steps + 1) id queue) := by
  refine PassM.restores_of_ends fun s hk => ?_
  unfold visitQueue
  rw [run_ask_bind]
  cases hsaved : s.tree.frame? id with
  | none => exact .refl strays hk
  | some saved =>
    dsimp only
    rw [run_modifyTree_bind]
    have hframe : ∃ f ∈ (s.tree.updateFrame id (Frame.restart queue)).frames, f.id = id :=
      (exists_id_replaceFrame (Frame.id_restart queue) s.tree.frames id).2
        ⟨saved, List.mem_of_find?_eq_some hsaved, by simpa using List.find?_some hsaved⟩
    have hrun := hv.run id [] ⟨s.tree.updateFrame id (Frame.restart queue), s.own⟩ hid hk hframe
    refine PassM.ends_attempt_tidy (fun _ _ => rfl) (hrun.imp ?_ ?_)
    · rintro stopped s₁ ⟨ps, hran⟩
      exact hran.finish hsaved
    · rintro e s₁ ⟨ps, hran⟩
      refine (hran.mono fun p => Spoilt.unwind ?_ p).finish hsaved
      obtain ⟨paths, -, heq⟩ :=
        exists_popContexts (((s₁.tree.frame? id).map (·.entered)).getD []) s₁.tree
      dsimp only
      rw [heq]
      exact ⟨_, _, _, rfl⟩

/-- **A run of a queue keeps the books**, save for what is still on its frame. -/
theorem ends_runQueue (id : ContextId) (visited : List NodeId) (s : Pass σ) (hid : k ≤ id.index)
    (hk : k ≤ s.tree.nextContext) (hframe : ∃ f ∈ s.tree.frames, f.id = id) :
    Ends (e.runQueue (steps + 1) id visited s)
      (fun _ s' => ∃ ps, Ran strays k id ps s.tree s'.tree)
      fun error s' => ∃ ps, Ran (Spoilt strays spoils error s'.tree) k id ps s.tree s'.tree := by
  have hrun {ps : List PathId} (s₁ : Pass σ) (h₁ : Ran strays k id ps s.tree s₁.tree)
      (visited : List NodeId) :
      Ends (e.runQueue steps id visited s₁) (fun _ s' => ∃ qs, Ran strays k id qs s.tree s'.tree)
        fun error s' => ∃ qs, Ran (Spoilt strays spoils error s'.tree) k id qs s.tree s'.tree :=
    (hv.run id visited s₁ hid (hk.trans h₁.next) (h₁.exists_frame hframe)).imp
      (fun _ _ ⟨_, h⟩ => ⟨_, h₁.trans h⟩)
      fun _ _ ⟨_, h⟩ => ⟨_, (h₁.mono fun _ => Or.inl).trans h⟩
  have hvisit {x : PassM σ Bool} (hx : PassM.Restores strays spoils k x)
      {next : Bool → PassM σ Bool} {ps : List PathId} (s₁ : Pass σ)
      (h₁ : Ran strays k id ps s.tree s₁.tree)
      (hnext : ∀ y qs s₂, Ran strays k id qs s.tree s₂.tree → Ends (next y s₂)
        (fun _ s' => ∃ qs, Ran strays k id qs s.tree s'.tree)
        fun error s' => ∃ qs, Ran (Spoilt strays spoils error s'.tree) k id qs s.tree s'.tree) :
      Ends ((x >>= next) s₁) (fun _ s' => ∃ qs, Ran strays k id qs s.tree s'.tree)
        fun error s' => ∃ qs, Ran (Spoilt strays spoils error s'.tree) k id qs s.tree s'.tree :=
    ends_bind.2 ((hx.ends (hk.trans h₁.next)).imp
      (fun y s₂ h₂ => hnext y _ s₂ (h₁.trans (.of_restores h₂ id)))
      fun _ _ h₂ => ⟨_, (h₁.mono fun _ => Or.inl).trans (.of_restores h₂ id)⟩)
  unfold runQueue
  refine ends_bind.2 (ends_onTree.2 ((ends_takePending strays hk).imp (fun next t₁ h₁ => ?_) fun _ _
    h => h.elim))
  cases next with
  | none => exact ⟨_, h₁⟩
  | some p =>
    refine ends_bind.2 (ends_onTree.2 ((he.ends_visitable? hid (hk.trans h₁.next)
      (h₁.exists_frame hframe) visited p).imp ?_ ?_))
    · rintro node t₂ ⟨ps, h₂⟩
      have h₂ := h₁.trans h₂
      cases node with
      | none => exact hrun ⟨t₂, s.own⟩ h₂ visited
      | some node =>
        refine hvisit (hv.path p) ⟨t₂, s.own⟩ h₂ fun stopped ps s₃ h₃ => ?_
        split
        · exact ⟨_, h₃⟩
        · refine ends_bind.2 (ends_onTree.2 ((ends_takePriority strays (hk.trans h₃.next)).imp
            (fun priority t₄ h₄ => ?_) fun _ _ h => h.elim))
          have h₄ := h₃.trans h₄
          split
          · exact hrun ⟨t₄, s₃.own⟩ h₄ _
          · refine hvisit (hv.queue id priority hid) ⟨t₄, s₃.own⟩ h₄ fun stopped ps s₅ h₅ => ?_
            split
            · exact ⟨_, h₅⟩
            · exact hrun s₅ h₅ _
    · rintro _ t₂ ⟨ps, h₂⟩
      exact ⟨_, (h₁.mono fun _ => Or.inl).trans h₂⟩

theorem restores_visitPath (p : PathId) : PassM.Restores strays spoils k
    (e.visitPath (steps + 1) p) := by
  intro t
  have hcall (phase : Phase) : Leads (Pass.Has (Tree.Restores strays k t))
      (Pass.Fails (Tree.Leaves strays spoils k t)) (e.call p phase) :=
    leads_call (he.handlers.mono fun run hrun p => hrun p t) p phase
  have hstop : Stays (Pass.Has (Tree.Restores strays k t))
      (PassM.onTree (modify (·.updatePath p ({ · with shouldStop := true }))) : PassM σ Unit) :=
    PassM.stays_onTree ((paths strays k t).modifyPath p _)
  unfold visitPath
  refine (PassM.leads_ask _).bind fun t₁ => ?_
  dsimp only
  split
  · exact leads_pure _
  · split
    · exact leads_pure _
    · refine (hcall .enter).bind fun entered => (PassM.leads_ask _).bind fun d => ?_
      split
      · exact leads_pure _
      · intro s hs
        have hopened := (paths strays k t).note s.tree p ({ · with childrenDone := false })
          (fun _ => ⟨rfl, rfl⟩) hs
        rw [run_modifyTree_bind]
        refine PassM.ends_attempt_tidy (fun _ _ => rfl) ((hv.node p _ t ⟨_, s.own⟩ hopened).imp
          (fun stopped s₁ h₁ => ?_) fun error s₁ h₁ => (paths _ k t).note s₁.tree p _
            (fun _ => ⟨rfl, rfl⟩) (h₁.unwinding ⟨_, _, _, rfl⟩))
        have hclosed := (paths strays k t).note s₁.tree p ({ · with childrenDone := true })
          (fun _ => ⟨rfl, rfl⟩) h₁
        refine (show Leads (Pass.Has (Tree.Restores strays k t))
          (Pass.Fails (Tree.Leaves strays spoils k t)) _ from ?_) ⟨_, s₁.own⟩ hclosed
        refine (leads_pure stopped).bind fun stopped => ?_
        split
        · exact (hstop.leads fun e s h => Tree.Restores.leaves h e).bind fun _ => leads_pure _
        · refine (PassM.leads_ask _).bind fun d => ?_
          split
          · exact leads_pure _
          · exact (hcall .exit).bind fun _ => PassM.leads_ask _

omit he in
theorem restores_visitNode (p : PathId) (node : Option NodeId) :
    PassM.Restores strays spoils k (e.visitNode (steps + 1) p node) := by
  refine PassM.restores_of_ends fun s hk => ?_
  unfold visitNode
  rw [run_ask_bind]
  split
  · exact .refl _ hk
  · dsimp only
    rw [run_modifyTree_bind]
    -- the depth goes up by one for the children
    have hdeeper {strays : PathId → Prop} {s₁ : Pass σ}
        (h : Tree.Restores strays k { s.tree with depth := s.tree.depth + 1 } s₁.tree) :
        s.tree.Restores strays k { s₁.tree with depth := s₁.tree.depth - 1 } :=
      ⟨{ h with depth := by rw [h.depth]; rfl }, h.frames, h.issues⟩
    have hfields := (hv.fields p node
      (((s.tree.arena.type? node).map (·.childFields)).getD [])).ends
      (s := ⟨{ s.tree with depth := s.tree.depth + 1 }, s.own⟩) hk
    exact PassM.ends_attempt_tidy (fun _ _ => rfl)
      (hfields.imp (fun _ _ h => hdeeper h) fun _ _ h =>
      hdeeper (h.unwinding ⟨_, _, _, rfl⟩))

omit he in
theorem restores_visitFields (p : PathId) (node : Option NodeId) (fields : List Field) :
    PassM.Restores strays spoils k (e.visitFields (steps + 1) p node fields) := by
  intro t
  cases fields with
  | nil => exact leads_pure _
  | cons f fields =>
    unfold visitFields
    refine (PassM.leads_ask _).bind fun d => ?_
    split
    · exact leads_pure _
    · split
      · exact hv.fields p node fields t
      · refine (PassM.leads_onTree ((stays_childQueue (paths strays k t) e p node f).leads
          fun e _ h =>
          h.leaves e)).bind fun queue => ?_
        split
        · exact hv.fields p node fields t
        · refine leads_framed (fun id hid => hv.queue id queue hid) (fun stopped => ?_) node f.name
          split
          · exact leads_pure _
          · exact hv.fields p node fields t

end Step

/-- **A pass restores what its handlers restore**, at each of its stages. -/
theorem visits (steps : Nat) : Visits e strays spoils k steps := by
  have hfails {α : Type} : PassM.Restores strays spoils k (throw .outOfSteps : PassM σ α) :=
    fun t =>
    leads_throw (fun e s h => Tree.Restores.leaves h e) _
  induction steps with
  | zero =>
    refine ⟨fun _ _ _ => hfails, fun id _ s _ hk _ => ⟨[], .of_restores (.refl _ hk) id⟩,
      fun _ => hfails,
      fun _ _ => hfails, fun _ _ fields => ?_⟩
    cases fields with
    | nil => exact hfails
    | cons f fields => exact hfails
  | succ steps ih =>
    exact ⟨restores_visitQueue ih, he.ends_runQueue ih, he.restores_visitPath ih,
      restores_visitNode ih, restores_visitFields ih⟩

theorem leads_ensureScope (t : Tree) (p : PathId) :
    Leads (Tree.Restores strays k t) (Tree.Leaves strays spoils k t) (e.ensureScope p) := by
  unfold ensureScope
  refine leads_get.bind fun t₁ => ?_
  split
  · split
    · exact he.assign t p
    · exact leads_pure _
  · exact he.assign t p

/-- **Passes restore what their handlers restore.** -/
theorem passes (t : Tree) (steps : Nat) :
    e.Passes (Tree.Restores strays k t) (Tree.Leaves strays spoils k t) steps := by
  have hpaths := paths strays k t
  have hle (e : TreeError) (t' : Tree) (h : t.Restores strays k t') :
      t.Leaves strays spoils k e t' := h.leaves e
  have hv := he.visits steps
  have hstart {α : Type} (p : PathId) {next : PassM σ α}
      (hnext : PassM.Restores strays spoils k next) :
      Leads (Pass.Has (Tree.Restores strays k t)) (Pass.Fails (Tree.Leaves strays spoils k t)) (do
        PassM.onTree do
          Tree.assertLive p
          e.ensureScope p
        next) :=
    (PassM.leads_onTree (((hpaths.assertLive p).leads hle).bind fun _ =>
      he.leads_ensureScope t p)).bind
      fun _ => hnext t
  refine ⟨?_, fun p => ?_, fun p => hstart p (hv.path p), fun p => hv.path p t⟩
  · unfold traverse
    refine (PassM.leads_onTree (hpaths.root.leads hle)).bind fun root => ?_
    exact leads_framed (fun id hid => hv.queue id [root] hid) (fun _ => leads_pure _) none ""
  · unfold traversePath
    exact hstart p fun t => (PassM.leads_ask _).bind fun node => (hv.node p node t).bind
      fun _ => leads_pure _

end Restoring

end Engine

end ScopedTree
