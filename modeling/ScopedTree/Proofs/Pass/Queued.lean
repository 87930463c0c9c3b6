import ScopedTree.Proofs.Pass.Keeps
import ScopedTree.Proofs.Path.Coherent

/-!
# What is queued

A path is queued on the frames that it stands on, else on the frame that works on its field, else
with an ancestor if a walk went through with the children of its parent.

* `Frame.queue`             a frame with a path queued on it;
* `Tree.stays_queueNewPath`   to queue a path is to put it on frames;
* `Tree.queueNewPath_of_around`   a new path is queued on the frame that works on its field.
-/

namespace ScopedTree

namespace Frame

variable {f : Frame} {p q : PathId} {priority : Bool}

/-- A frame with a path queued on it. -/
def queue (p : PathId) (priority : Bool) (f : Frame) : Frame :=
  if priority then { f with priority := Tree.addOnce f.priority p }
  else { f with pending := Tree.addOnce f.pending p }

def queueAll (ps : List PathId) (f : Frame) : Frame := ps.foldl (fun f p => f.queue p true) f

end Frame

namespace Tree

variable {t t' : Tree} {p q : PathId} {c : ContextId} {f : Frame}

/-! ## queueing -/

theorem find?_replaceFrame {g : Frame → Frame} {id : ContextId}
    (hg : ∀ f, f.id = id → (g f).id = id) (frames : List Frame)
    (c : ContextId) : (replaceFrame id g frames).find? (·.id == c)
      = if c = id then (frames.find? (·.id == c)).map g else frames.find? (·.id == c) := by
  induction frames with
  | nil => simp [replaceFrame]
  | cons f frames ih =>
    unfold replaceFrame
    by_cases hid : f.id = id
    · rw [if_pos (by simpa using hid)]
      by_cases hc : c = id
      · have hfc : f.id = c := hid.trans hc.symm
        rw [List.find?_cons_of_pos (by simpa [hg f hid] using hc.symm),
          List.find?_cons_of_pos (by simpa using hfc), if_pos hc]
        rfl
      · have hfc : ¬ f.id = c := fun h => hc (h.symm.trans hid)
        rw [List.find?_cons_of_neg (by simpa [hg f hid] using Ne.symm hc),
          List.find?_cons_of_neg (by simpa using hfc), if_neg hc]
    · rw [if_neg (by simpa using hid)]
      by_cases hfc : f.id = c
      · have hc : ¬ c = id := fun h => hid (hfc.trans h)
        rw [List.find?_cons_of_pos (by simpa using hfc),
          List.find?_cons_of_pos (by simpa using hfc), if_neg hc]
      · rw [List.find?_cons_of_neg (by simpa using hfc),
          List.find?_cons_of_neg (by simpa using hfc), ih]

/-- To queue a path is to put it on frames. -/
theorem stays_queueNewPath {P : Tree → Prop}
    (h : ∀ t p priority id, P t → P (queueOn t p priority id)) (p : PathId) (priority : Bool) :
    Stays P (queueNewPath p priority) := by
  have hqueue (ids : List ContextId) (priority : Bool) (t : Tree) (ht : P t) :
      P (ids.foldl (fun t id => t.queueOn p priority id) t) := by
    induction ids generalizing t with
    | nil => exact ht
    | cons id ids ih => exact ih _ (h t p priority id ht)
  refine stays_modify fun t ht => ?_
  dsimp only
  split
  · exact hqueue _ _ t ht
  · split
    · exact h t p priority _ ht
    · split
      · split
        · unfold queueWithAncestor
          split
          · exact hqueue _ _ t ht
          · exact ht
        · exact ht
      · exact ht

theorem queueNewPath_of_contexts (priority : Bool) (h : (t.path p).contexts ≠ []) :
    queueNewPath p priority t
    = .ok ⟨⟩ ((t.path p).contexts.reverse.foldl (fun t id => t.queueOn p priority id) t) := by
  refine congrArg (EStateM.Result.ok PUnit.unit) (if_pos ?_)
  cases hcontexts : (t.path p).contexts with
  | nil => exact absurd hcontexts h
  | cons _ _ => rfl

def around? (t : Tree) (owner : Option NodeId) (key : String) : Option Frame :=
  t.frames.find? fun f => f.owner == owner && f.key == key

theorem frameAround?_eq {d : PathData} {key : String} (h : d.slot.key? = some key) :
    t.frameAround? d = t.around? d.parent key := by
  unfold frameAround?
  rw [h]
  rfl

/-- A path that stands on no frame is queued on the one that works on its field. -/
theorem queueNewPath_of_around (priority : Bool) (h : (t.path p).contexts = [])
    (hf : t.frameAround? (t.path p) = some f) :
    queueNewPath p priority t = .ok ⟨⟩ (t.queueOn p priority f.id) := by
  refine congrArg (EStateM.Result.ok PUnit.unit) ?_
  dsimp only
  rw [h, hf]
  rfl

end Tree

end ScopedTree
