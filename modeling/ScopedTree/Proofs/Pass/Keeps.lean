import ScopedTree.Path.Relatives
import ScopedTree.Proofs.Pass.Frames

/-!
# What a pass keeps

Paths, frames, contexts and flags are the books that a tree keeps on itself. What depends neither on
paths nor on the frames of a pass is not touched by the pass if its handlers do not touch it.

* `Tree.Charted`      properties that are kept when paths are looked up;
* `Tree.Tracked`      properties that depend on no more of paths than the frames they are on;
* `Tree.Pathless`     properties that do not depend on paths;
* `Tree.Shelved`      charted properties that do not depend on frames from some handle on either;
* `Engine.Keeps`      engines whose handlers keep such a property;
* `Engine.Keeps.visits`   passes of such an engine keep it.
-/

namespace ScopedTree

variable {α β σ : Type}

/-! ## programs -/

section Programs

variable {ε : Type} {P : σ → Prop}

theorem stays_get : Stays P (get : EStateM ε σ σ) := fun _ h => h

theorem stays_modifyGet {f : σ → α × σ} (h : ∀ s, P s → P (f s).2) :
    Stays P (modifyGet f : EStateM ε σ α) := h

theorem Stays.forM_of_mem {f : α → EStateM ε σ PUnit} {l : List α}
    (hf : ∀ x ∈ l, Stays P (f x)) : Stays P (l.forM f) := by
  induction l with
  | nil => exact stays_pure _
  | cons x l ih =>
    exact (hf x (List.mem_cons_self ..)).bind fun _ => ih fun y hy =>
      hf y (List.mem_cons_of_mem _ hy)

theorem Stays.forM {f : α → EStateM ε σ PUnit} (hf : ∀ x, Stays P (f x)) (l : List α) :
    Stays P (l.forM f) := Stays.forM_of_mem fun x _ => hf x

theorem Stays.guard {c : Prop} [Decidable c] {x : EStateM ε σ PUnit} {next : PUnit → EStateM ε σ β}
    (hx : Stays P x) (hnext : ∀ y, Stays P (next y)) :
    Stays P (if c then x >>= next else next ⟨⟩) := by
  split
  · exact hx.bind hnext
  · exact hnext ⟨⟩

theorem leads_attempt_bind {P : Tree → Prop} {E : TreeError → Tree → Prop} {x : TreeM α}
    {f : Except TreeError α → TreeM β} (hx : Leads P E x) (hok : ∀ y, Leads P E (f (.ok y)))
    (herror : ∀ e t, E e t → Ends (f (.error e) t) (fun _ t' => P t') E) :
    Leads P E (TreeM.attempt x >>= f) := by
  refine fun t ht => ends_bind.2 ?_
  have hrun := hx t ht
  unfold TreeM.attempt
  cases hr : x t with
  | ok y t' =>
    rw [hr] at hrun
    exact hok y t' hrun
  | error e t' =>
    rw [hr] at hrun
    exact herror e t' hrun

theorem stays_ofShape {P : Tree → Prop} (x : Except ShapeError α) : Stays P (TreeM.ofShape x) := by
  cases x with
  | ok y => exact stays_pure y
  | error e => exact stays_throw _

end Programs

def Pass.Has (P : Tree → Prop) (s : Pass σ) : Prop := P s.tree

def Pass.Fails (E : TreeError → Tree → Prop) (e : TreeError) (s : Pass σ) : Prop := E e s.tree

namespace PassM

section OnTree

variable {P : Tree → Prop}

theorem leads_onTree {E : TreeError → Tree → Prop} {x : TreeM α} (h : Leads P E x) :
    Leads (Pass.Has P) (Pass.Fails E) (PassM.onTree x : PassM σ α) := by
  rintro ⟨t, own⟩ ht
  have hx := h t ht
  unfold PassM.onTree
  dsimp only
  cases hr : x t with
  | ok y t' =>
    rw [hr] at hx
    exact hx
  | error e t' =>
    rw [hr] at hx
    exact hx

theorem stays_onTree {x : TreeM α} (h : Stays P x) : Stays (Pass.Has P)
    (PassM.onTree x : PassM σ α) :=
  (leads_onTree (h.leads fun _ _ h => h)).stays

theorem leads_runPass {E : TreeError → Tree → Prop} {x : PassM σ α}
    (h : Leads (Pass.Has P) (Pass.Fails E) x) (own : σ) : Leads P E (TreeM.runPass own x) := by
  intro t ht
  have hx := h ⟨t, own⟩ ht
  unfold TreeM.runPass
  cases hr : x ⟨t, own⟩ with
  | ok y s =>
    rw [hr] at hx
    exact hx
  | error e s =>
    rw [hr] at hx
    exact hx

end OnTree

variable {P : Pass σ → Prop}

theorem leads_ask {E : TreeError → Pass σ → Prop} (f : Tree → α) : Leads P E (PassM.ask f) :=
  fun _ h => h

theorem stays_ask (f : Tree → α) : Stays P (PassM.ask f) := fun _ h => h

theorem exists_attempt (x : PassM σ α) (s : Pass σ) :
    ∃ outcome, PassM.attempt x s = .ok outcome (final (x s)) := by
  unfold PassM.attempt
  cases x s with
  | ok y s' => exact ⟨.ok y, rfl⟩
  | error e s' => exact ⟨.error e, rfl⟩

theorem stays_attempt {x : PassM σ α} (h : Stays P x) : Stays P (PassM.attempt x) := by
  intro s hs
  obtain ⟨outcome, hrun⟩ := exists_attempt x s
  rw [hrun]
  exact h s hs

theorem leads_attempt {E E' : TreeError → Pass σ → Prop} {x : PassM σ α} (h : Leads P E x)
    (hE : ∀ e s, E e s → P s) :
    Leads P E' (PassM.attempt x) := by
  intro s hs
  have hx := h s hs
  unfold PassM.attempt
  cases hr : x s with
  | ok y s' =>
    rw [hr] at hx
    exact hx
  | error e s' =>
    rw [hr] at hx
    exact hE e s' hx

theorem stays_resume (x : Except TreeError α) : Stays P (PassM.resume x : PassM σ α) := by
  cases x with
  | ok y => exact stays_pure y
  | error e => exact stays_throw e

end PassM

/-! ## the books -/

def PathData.place (d : PathData) : Option NodeId × Option NodeId × Slot × Bool :=
  (d.node, d.parent, d.slot, d.removed)

def PathData.stand (d : PathData) :
    (Option NodeId × Option NodeId × Slot × Bool) × Option PathId := (d.place, d.parentPath)

/-- Something is noted on a path: what it stands for stays, and so do the frames it is on. -/
def PathData.Jots (f : PathData → PathData) : Prop :=
  ∀ d, (f d).stand = d.stand ∧ (f d).contexts = d.contexts

namespace Tree

/-- The trees differ in their paths only. -/
structure SameButPaths (t t' : Tree) : Prop where
  arena : t'.arena = t.arena
  root : t'.root = t.root
  options : t'.options = t.options
  scopes : t'.scopes = t.scopes
  scopeOfNode : t'.scopeOfNode = t.scopeOfNode
  bindings : t'.bindings = t.bindings
  frames : t'.frames = t.frames
  nextContext : t'.nextContext = t.nextContext
  depth : t'.depth = t.depth

@[refl] theorem SameButPaths.refl (t : Tree) : t.SameButPaths t :=
  ⟨rfl, rfl, rfl, rfl, rfl, rfl, rfl, rfl, rfl⟩

theorem SameButPaths.trans {t t' t'' : Tree} (h : t.SameButPaths t') (h' : t'.SameButPaths t'') :
    t.SameButPaths t'' where
  arena := h'.arena.trans h.arena
  root := h'.root.trans h.root
  options := h'.options.trans h.options
  scopes := h'.scopes.trans h.scopes
  scopeOfNode := h'.scopeOfNode.trans h.scopeOfNode
  bindings := h'.bindings.trans h.bindings
  frames := h'.frames.trans h.frames
  nextContext := h'.nextContext.trans h.nextContext
  depth := h'.depth.trans h.depth

theorem SameButPaths.updatePath (t : Tree) (p : PathId) (f : PathData → PathData) :
    t.SameButPaths (t.updatePath p f) := ⟨rfl, rfl, rfl, rfl, rfl, rfl, rfl, rfl, rfl⟩

theorem SameButPaths.foldl {step : Tree → α → Tree} (h : ∀ (t : Tree) x, t.SameButPaths (step t x))
    (l : List α) (t : Tree) : t.SameButPaths (l.foldl step t) := by
  induction l generalizing t with
  | nil => rfl
  | cons x l ih => exact (h t x).trans (ih _)

theorem slotAmong_ne_root {id : Option NodeId} : ∀ {l : List (Field × Value)} {slot : Slot},
    slotAmong id l = some slot → slot ≠ .root
  | [], _, h => nomatch h
  | (f, value) :: rest, slot, h => by
    unfold slotAmong at h
    split at h
    · split at h
      · cases h
        exact Slot.noConfusion
      · exact slotAmong_ne_root h
    · split at h
      · cases h
        exact Slot.noConfusion
      · exact slotAmong_ne_root h
    · exact slotAmong_ne_root h

theorem findSlot_ne_root {t : Tree} {owner id : Option NodeId} {slot : Slot}
    (h : t.findSlot owner id = some slot) : slot ≠ .root := by
  obtain ⟨n, -, hn⟩ := Option.bind_eq_some_iff.1 h
  exact slotAmong_ne_root hn

/-- A property that is kept when paths are looked up and when something is noted on one. -/
structure Looked (P : Tree → Prop) : Prop where
  note : ∀ t p f, PathData.Jots f → P t → P (t.updatePath p f)
  root : Stays P Tree.getRootPath
  child : ∀ parentPath owner slot, slot ≠ .root →
    Stays P (Tree.getOrCreatePath parentPath owner slot)

namespace Looked

variable {P : Tree → Prop} (h : Looked P)

include h

theorem modifyPath (p : PathId) (f : PathData → PathData)
    (hf : PathData.Jots f := by exact fun _ => ⟨rfl, rfl⟩) :
    Stays P (modify (·.updatePath p f) : TreeM Unit) := stays_modify fun t => h.note t p f hf

theorem descend (p : PathId) (owner : Option NodeId) (below : List (Option NodeId)) :
    Stays P (Tree.descend p owner below) := by
  induction below generalizing p owner with
  | nil => exact stays_pure _
  | cons id below ih =>
    unfold Tree.descend
    refine stays_get.bind fun t => ?_
    split
    · exact stays_pure _
    · next slot hslot => exact (h.child _ _ slot (findSlot_ne_root hslot)).bind fun q => ih q id

theorem pathFor (id : Option NodeId) : Stays P (Tree.pathFor id) := by
  unfold Tree.pathFor
  refine stays_get.bind fun t => ?_
  split
  · exact h.root.bind fun p => h.descend p _ _
  · exact stays_pure _

end Looked

/-- A property that is also kept when paths are brought in line with the tree. -/
structure Charted (P : Tree → Prop) : Prop extends Looked P where
  resync : ∀ p, Stays P (Tree.resync p)

namespace Charted

variable {P : Tree → Prop} (h : Charted P)

include h

theorem modifyPath (p : PathId) (f : PathData → PathData)
    (hf : PathData.Jots f := by exact fun _ => ⟨rfl, rfl⟩) :
    Stays P (modify (·.updatePath p f) : TreeM Unit) := h.toLooked.modifyPath p f hf

theorem entry (parentPath : Option PathId) (owner : Option NodeId) (list : String) (index : Nat) :
    Stays P (Tree.getOrCreatePath parentPath owner (.entry list index)) :=
  h.child _ _ _ Slot.noConfusion

theorem field (parentPath : Option PathId) (owner : Option NodeId) (name : String) :
    Stays P (Tree.getOrCreatePath parentPath owner (.field name)) :=
  h.child _ _ _ Slot.noConfusion

theorem pathFor (id : Option NodeId) : Stays P (Tree.pathFor id) := h.toLooked.pathFor id

theorem assertLive (p : PathId) : Stays P (Tree.assertLive p) := by
  unfold Tree.assertLive
  refine (h.resync p).bind fun _ => stays_get.bind fun t => ?_
  dsimp only
  split
  · exact stays_throw _
  · exact stays_pure _

omit h in
theorem fieldOf (p : PathId) (name : String) : Stays P (Tree.fieldOf p name) := by
  unfold Tree.fieldOf
  refine stays_get.bind fun t => ?_
  split
  · exact stays_throw _
  · split
    · exact stays_throw _
    · exact stays_pure _

theorem followParts : ∀ (parts : List String) (p : PathId), Stays P (Tree.followParts p parts)
  | [], p => stays_pure p
  | part :: rest, p => by
    unfold Tree.followParts
    refine (fieldOf p part).bind fun x => stays_get.bind fun t => ?_
    dsimp only
    split
    · split
      · split
        · exact (h.entry _ _ _ _).bind fun q => followParts _ q
        · exact stays_throw _
      · exact stays_throw _
    · exact (h.field _ _ _).bind fun q => followParts rest q
    · exact (h.field _ _ _).bind fun q => followParts rest q
    · exact stays_throw _

theorem follow (p : PathId) (key : String) : Stays P (Tree.follow p key) :=
  (h.resync p).bind fun _ => h.followParts _ p

theorem listed (x : PathId × String) : Stays P (do
    let (ty, f) ← Tree.fieldOf x.1 x.2
    if f.kind != .list then throw (.shape (.fieldKind ty f.name f.kind))
    let node := (← get).node x.1
    let items ← TreeM.ofShape ((← get).arena.list node f.name)
    (List.range items.length).mapM fun i =>
      Tree.getOrCreatePath (some x.1) node (.entry f.name i) : TreeM (List PathId)) := by
  refine (fieldOf x.1 x.2).bind fun y => ?_
  dsimp only
  split
  · exact (stays_throw _).bind fun _ => stays_get.bind fun t => stays_get.bind fun t' =>
      (stays_ofShape _).bind fun items => Stays.mapM (fun i => h.entry _ _ _ _) _
  · exact stays_get.bind fun t => stays_get.bind fun t' =>
      (stays_ofShape _).bind fun items => Stays.mapM (fun i => h.entry _ _ _ _) _

theorem entries (p : PathId) (key : String) : Stays P (Tree.entries p key) := by
  unfold Tree.entries
  refine (h.resync p).bind fun _ => ?_
  split
  · exact (h.follow p _).bind fun q => h.listed (q, _)
  · exact h.listed (p, key)

end Charted

/-- A property that depends on no more of paths than the frames they are on. -/
structure Tracked (P : Tree → Prop) : Prop where
  path : ∀ t p (f : PathData → PathData), (∀ d, (f d).contexts = d.contexts) → P t →
    P (t.updatePath p f)
  alloc : ∀ t (d : PathData), d.contexts = [] → P t → P { t with paths := t.paths.push d }
  lists : ∀ t rootPath childPaths, P t → P { t with rootPath, childPaths }

namespace Tracked

variable {P : Tree → Prop} (h : Tracked P)

include h

theorem modifyPath (p : PathId) (f : PathData → PathData)
    (hf : ∀ d, (f d).contexts = d.contexts := by exact fun _ => rfl) :
    Stays P (modify (·.updatePath p f) : TreeM Unit) := stays_modify fun t => h.path t p f hf

theorem allocPath (data : PathData) (hdata : data.contexts = []) : Stays P (Tree.allocPath data) :=
  stays_modifyGet fun t => h.alloc t data hdata

theorem getRootPath : Stays P Tree.getRootPath := by
  unfold Tree.getRootPath
  refine stays_get.bind fun t => ?_
  split
  · exact stays_pure _
  · exact (h.allocPath _ rfl).bind fun p =>
      (stays_modify fun t => h.lists t (some p) t.childPaths).bind fun _ => stays_pure p

theorem getOrCreatePath (parentPath : Option PathId) (owner : Option NodeId) (slot : Slot) :
    Stays P (Tree.getOrCreatePath parentPath owner slot) := by
  unfold Tree.getOrCreatePath
  split
  · exact h.getRootPath
  · refine stays_get.bind fun t => ?_
    dsimp only
    split
    · exact (h.modifyPath _ _).bind fun _ => stays_pure _
    · refine (h.allocPath _ rfl).bind fun p => ?_
      split
      · exact (stays_modify fun t => h.lists t t.rootPath _).bind fun _ => stays_pure p
      · exact stays_pure p

theorem looked : Looked P where
  note t p f hf := h.path t p f fun d => (hf d).2
  root := h.getRootPath
  child parentPath owner slot _ := h.getOrCreatePath parentPath owner slot

theorem resyncParent (p : PathId) (owner : Option NodeId) :
    Stays P (Tree.resyncParent p owner) := by
  unfold Tree.resyncParent
  refine stays_get.bind fun t => ?_
  dsimp only
  split
  · exact (h.looked.pathFor owner).bind fun _ => h.modifyPath p _
  · split
    · refine stays_get.bind fun t => ?_
      split
      · exact (h.looked.pathFor owner).bind fun _ => h.modifyPath p _
      · exact stays_pure _
    · exact stays_pure _

theorem resyncSlot (p : PathId) (owner node : Option NodeId) :
    Stays P (Tree.resyncSlot p owner node) := by
  unfold Tree.resyncSlot
  refine stays_get.bind fun t => ?_
  dsimp only
  split
  · exact h.modifyPath p _
  · split
    · exact h.modifyPath p _
    · exact h.modifyPath p _

theorem resync (p : PathId) : Stays P (Tree.resync p) := by
  unfold Tree.resync
  refine stays_get.bind fun t => ?_
  dsimp only
  split
  · exact stays_pure _
  · split
    · exact h.modifyPath p _
    · exact (h.resyncParent p _).bind fun _ => h.resyncSlot p _ _

theorem charted : Charted P where
  toLooked := h.looked
  resync := h.resync

end Tracked

/-- A property that does not depend on paths. -/
def Pathless (P : Tree → Prop) : Prop := ∀ t t', SameButPaths t t' → P t → P t'

namespace Pathless

variable {P : Tree → Prop} (h : Pathless P)

include h

theorem tracked : Tracked P where
  path t p f _ := h t _ (.updatePath t p f)
  alloc t _ _ := h t _ ⟨rfl, rfl, rfl, rfl, rfl, rfl, rfl, rfl, rfl⟩
  lists t _ _ := h t _ ⟨rfl, rfl, rfl, rfl, rfl, rfl, rfl, rfl, rfl⟩

theorem stack (t : Tree) (p : PathId) (f : PathData → PathData) (_ : ∀ d, (f d).stand = d.stand)
    (ht : P t) : P (t.updatePath p f) := h t _ (.updatePath t p f) ht

theorem getOrCreatePath (parentPath : Option PathId) (owner : Option NodeId) (slot : Slot) :
    Stays P (Tree.getOrCreatePath parentPath owner slot) :=
    h.tracked.getOrCreatePath parentPath owner slot

theorem charted : Charted P := h.tracked.charted

end Pathless

/-- A property that is kept when paths are looked up and does not depend on frames with a handle
from `k` on, which are all that are still to come. -/
structure Shelved (P : Tree → Prop) (k : Nat) : Prop where
  paths : Charted P
  stack : ∀ t p (f : PathData → PathData), (∀ d, (f d).stand = d.stand) → P t → P (t.updatePath p f)
  next : ∀ t, P t → k ≤ t.nextContext
  depth : ∀ t d, P t → P { t with depth := d }
  push : ∀ t owner key, P t →
    P { t with
      nextContext := t.nextContext + 1
      frames := { id := ⟨t.nextContext⟩, owner, key } :: t.frames }
  pop : ∀ t (id : ContextId), k ≤ id.index → P t →
    P { t with frames := t.frames.eraseP (·.id == id) }
  update : ∀ t (id : ContextId) f, k ≤ id.index → (∀ frame, frame.id = id → (f frame).id = id) →
    P t → P (t.updateFrame id f)

namespace Shelved

variable {P : Tree → Prop} {k : Nat} (h : Shelved P k)

include h

theorem modifyPath (p : PathId) (f : PathData → PathData)
    (hf : ∀ d, (f d).stand = d.stand := by exact fun _ => rfl) :
    Stays P (modify (·.updatePath p f) : TreeM Unit) := stays_modify fun t => h.stack t p f hf

theorem modifyFrame {id : ContextId} (hid : k ≤ id.index) {f : Frame → Frame}
    (hf : ∀ frame, (f frame).id = frame.id) :
    Stays P (modify (·.updateFrame id f) : TreeM Unit) :=
  stays_modify fun t => h.update t id f hid fun frame heq => (hf frame).trans heq

theorem popFrame {id : ContextId} (hid : k ≤ id.index) : Stays P (Tree.popFrame id) :=
  stays_modify fun t => h.pop t id hid

theorem pushFrame_bind {next : ContextId → PassM σ β}
    (hnext : ∀ id : ContextId, k ≤ id.index → Stays (Pass.Has P) (next id)) (owner : Option NodeId)
    (key : String) : Stays (Pass.Has P) (PassM.onTree (Tree.pushFrame owner key) >>= next) := by
  intro s hs
  exact hnext ⟨s.tree.nextContext⟩ (h.next _ hs) _ (h.push s.tree owner key hs)

end Shelved

end Tree

/-! ## passes -/

def Dispatch.Each (d : Dispatch σ) (H : Handler σ → Prop) : Prop :=
  (∀ x ∈ d.general, H x.2) ∧ ∀ x ∈ d.typed, H x.run

theorem Dispatch.Each.mono {d : Dispatch σ} {H H' : Handler σ → Prop} (h : d.Each H)
    (hH : ∀ run, H run → H' run) : d.Each H' :=
  ⟨fun x hx => hH _ (h.1 x hx), fun x hx => hH _ (h.2 x hx)⟩

namespace Engine

open ScopedTree.Tree

/-- Passes that end well keep `P`, and those that fail do so with `E`. -/
structure Passes (e : Engine σ) (P : Tree → Prop) (E : TreeError → Tree → Prop)
    (steps : Nat) : Prop where
  traverse : Leads (Pass.Has P) (Pass.Fails E) (e.traverse steps)
  traversePath : ∀ p, Leads (Pass.Has P) (Pass.Fails E) (e.traversePath steps p)
  visit : ∀ p, Leads (Pass.Has P) (Pass.Fails E) (e.visit steps p)
  /-- a visit to a path whose scope is known -/
  visitPath : ∀ p, Leads (Pass.Has P) (Pass.Fails E) (e.visitPath steps p)

variable {P : Tree → Prop} {k : Nat}

theorem leads_runHandlers {P : Pass σ → Prop} {E : TreeError → Pass σ → Prop} (p : PathId)
    (node : Option NodeId) (turns : List ((Tree → Bool) × Handler σ))
    (hturns : ∀ x ∈ turns, ∀ q, Leads P E (x.2 q)) :
    Leads P E (Engine.runHandlers p node turns) := by
  induction turns with
  | nil => exact leads_pure _
  | cons x turns ih =>
    have hrest := ih fun y hy => hturns y (List.mem_cons_of_mem _ hy)
    obtain ⟨check, run⟩ := x
    unfold Engine.runHandlers
    refine (PassM.leads_ask _).bind fun passes => ?_
    split
    · refine (hturns _ (List.mem_cons_self ..) p).bind fun _ => (PassM.leads_ask _).bind fun b => ?_
      split
      · exact leads_pure _
      · exact hrest
    · exact hrest

theorem leads_call {e : Engine σ} {P : Pass σ → Prop} {E : TreeError → Pass σ → Prop}
    (hd : e.dispatch.Each fun run => ∀ p, Leads P E (run p)) (p : PathId) (phase : Phase) :
    Leads P E (e.call p phase) := by
  unfold Engine.call
  refine (PassM.leads_ask _).bind fun t => ?_
  dsimp only
  split
  · exact leads_pure _
  · refine leads_runHandlers p _ _ fun x hx q => ?_
    rcases List.mem_append.1 hx with hx | hx
    · obtain ⟨run, hrun, rfl⟩ := List.mem_map.1 hx
      obtain ⟨y, hy, rfl⟩ := List.mem_map.1 hrun
      exact hd.1 y (List.mem_of_mem_filter hy) q
    · obtain ⟨y, hy, rfl⟩ := List.mem_map.1 hx
      exact hd.2 y (List.mem_of_mem_filter hy) q

theorem stays_childQueue (hpaths : Charted P) (e : Engine σ) (p : PathId) (node : Option NodeId)
    (f : Field) :
    Stays P (e.childQueue p node f) := by
  unfold Engine.childQueue
  refine stays_get.bind fun t => (stays_ofShape _).bind fun value => ?_
  split
  · split
    · exact (hpaths.field _ _ _).bind fun q => stays_pure _
    · exact stays_pure _
  · exact Stays.mapM (fun i => hpaths.entry _ _ _ _) _
  · exact stays_pure _

/-- The handlers of a pass keep a property that does not depend on its books. -/
structure Keeps (e : Engine σ) (P : Tree → Prop) (k : Nat) : Prop where
  shelved : Shelved P k
  assign : ∀ p, Stays P (e.assign p)
  general : ∀ x ∈ e.dispatch.general, ∀ p, Stays (Pass.Has P) (x.2 p)
  typed : ∀ x ∈ e.dispatch.typed, ∀ p, Stays (Pass.Has P) (x.run p)

namespace Keeps

variable {e : Engine σ} (he : e.Keeps P k)

include he

theorem paths : Charted P := he.shelved.paths

theorem takePending {id : ContextId} (hid : k ≤ id.index) : Stays P (Engine.takePending id) :=
  stays_modifyGet fun t ht => by
    split
    · exact he.shelved.update t id _ hid (fun _ heq => heq) ht
    · exact ht

theorem takePriority {id : ContextId} (hid : k ≤ id.index) : Stays P (Engine.takePriority id) :=
  stays_modifyGet fun t => he.shelved.update t id _ hid fun _ heq => heq

theorem pushContext {id : ContextId} (hid : k ≤ id.index) (p : PathId) :
    Stays P (e.pushContext id p) :=
  (he.shelved.modifyPath p _).bind fun _ => (he.assign p).bind fun _ =>
    he.shelved.modifyFrame hid fun _ => rfl

theorem visitable? {id : ContextId} (hid : k ≤ id.index) (visited : List NodeId) (p : PathId) :
    Stays P (e.visitable? id visited p) := by
  unfold Engine.visitable?
  refine (he.paths.resync p).bind fun _ => stays_get.bind fun t => ?_
  dsimp only
  split
  · exact stays_pure _
  · split
    · exact (he.pushContext hid p).bind fun _ => stays_get.bind fun t => stays_pure _
    · exact stays_get.bind fun t => stays_pure _

theorem popContexts (entered : List PathId) (t : Tree) (ht : P t) :
    P (entered.foldl Engine.popContext t) := by
  induction entered generalizing t with
  | nil => exact ht
  | cons p entered ih => exact ih _ (he.shelved.stack t p _ (fun _ => rfl) ht)

theorem call (p : PathId) (phase : Phase) : Stays (Pass.Has P) (e.call p phase) :=
  (leads_call ⟨fun x hx p => (he.general x hx p).leads fun _ _ h => h,
    fun x hx p => (he.typed x hx p).leads fun _ _ h => h⟩ p phase).stays

omit he in
/-- All visits that are granted so many steps keep the property. -/
structure Visits (e : Engine σ) (P : Tree → Prop) (k steps : Nat) : Prop where
  queue : ∀ id queue, k ≤ id.index → Stays (Pass.Has P) (e.visitQueue steps id queue)
  run : ∀ id visited, k ≤ id.index → Stays (Pass.Has P) (e.runQueue steps id visited)
  path : ∀ p, Stays (Pass.Has P) (e.visitPath steps p)
  node : ∀ p node, Stays (Pass.Has P) (e.visitNode steps p node)
  fields : ∀ p node fields, Stays (Pass.Has P) (e.visitFields steps p node fields)

section Step

variable {steps : Nat} (hv : Visits e P k steps)

include hv

theorem stays_visitQueue (id : ContextId) (queue : List PathId) (hid : k ≤ id.index) :
    Stays (Pass.Has P) (e.visitQueue (steps + 1) id queue) := by
  intro s hs
  unfold Engine.visitQueue
  rw [run_ask_bind]
  cases hsaved : s.tree.frame? id with
  | none => exact hs
  | some saved =>
    have hsavedId : saved.id = id := by simpa using List.find?_some hsaved
    have hrun : Stays (Pass.Has P) (do
        PassM.onTree <| modify (·.updateFrame id
          ({ · with pending := queue, priority := [], entered := [] }))
        let result ← PassM.attempt (e.runQueue steps id [])
        PassM.onTree <| modify fun t =>
          let entered := ((t.frame? id).map (·.entered)).getD []
          (entered.foldl Engine.popContext t).updateFrame id fun _ => saved
        PassM.resume result : PassM σ Bool) := by
      refine Stays.bind ?_ fun _ => (PassM.stays_attempt (hv.run id [] hid)).bind fun result =>
        Stays.bind (PassM.stays_onTree (stays_modify fun t ht => ?_)) fun _ => PassM.stays_resume _
      · exact PassM.stays_onTree (he.shelved.modifyFrame hid fun _ => rfl)
      refine he.shelved.update _ id _ hid (fun _ _ => hsavedId) ?_
      exact he.popContexts _ t ht
    exact hrun s hs

theorem stays_runQueue (id : ContextId) (visited : List NodeId) (hid : k ≤ id.index) :
    Stays (Pass.Has P) (e.runQueue (steps + 1) id visited) := by
  unfold Engine.runQueue
  refine (PassM.stays_onTree (he.takePending hid)).bind fun next => ?_
  split
  · exact stays_pure _
  · refine (PassM.stays_onTree (he.visitable? hid visited _)).bind fun node => ?_
    split
    · exact hv.run id visited hid
    · refine (hv.path _).bind fun stopped => ?_
      split
      · exact stays_pure _
      · refine (PassM.stays_onTree (he.takePriority hid)).bind fun priority => ?_
        split
        · exact hv.run id _ hid
        · refine (hv.queue id _ hid).bind fun stopped => ?_
          split
          · exact stays_pure _
          · exact hv.run id _ hid

theorem stays_visitPath (p : PathId) : Stays (Pass.Has P) (e.visitPath (steps + 1) p) := by
  have hpath (f : PathData → PathData) (hf : PathData.Jots f := by exact fun _ => ⟨rfl, rfl⟩) :
      Stays (Pass.Has P) (PassM.onTree (modify (·.updatePath p f)) : PassM σ Unit) :=
    PassM.stays_onTree (he.paths.modifyPath p f hf)
  unfold Engine.visitPath
  refine (PassM.stays_ask _).bind fun t => ?_
  dsimp only
  split
  · exact stays_pure _
  · split
    · exact stays_pure _
    · refine (he.call p .enter).bind fun entered => (PassM.stays_ask _).bind fun d => ?_
      split
      · exact stays_pure _
      · refine (hpath _).bind fun _ => (PassM.stays_attempt (hv.node p _)).bind fun children =>
          (hpath _).bind fun _ => (PassM.stays_resume children).bind fun stopped => ?_
        split
        · exact (hpath _).bind fun _ => stays_pure _
        · refine (PassM.stays_ask _).bind fun d => ?_
          split
          · exact stays_pure _
          · exact (he.call p .exit).bind fun _ => PassM.stays_ask _

theorem stays_visitNode (p : PathId) (node : Option NodeId) :
    Stays (Pass.Has P) (e.visitNode (steps + 1) p node) := by
  have hdepth (f : Nat → Nat) :
      Stays (Pass.Has P) (PassM.onTree (modify fun t => { t with depth := f t.depth }) :
        PassM σ Unit) :=
    PassM.stays_onTree (stays_modify fun t => he.shelved.depth t _)
  unfold Engine.visitNode
  refine (PassM.stays_ask _).bind fun t => ?_
  split
  · exact stays_throw _
  · exact (hdepth (· + 1)).bind fun _ => (PassM.stays_attempt (hv.fields p node _)).bind
      fun result =>
      (hdepth (· - 1)).bind fun _ => PassM.stays_resume _

theorem stays_visitFields (p : PathId) (node : Option NodeId) (fields : List Field) :
    Stays (Pass.Has P) (e.visitFields (steps + 1) p node fields) := by
  cases fields with
  | nil => exact stays_pure _
  | cons f fields =>
    unfold Engine.visitFields
    refine (PassM.stays_ask _).bind fun d => ?_
    split
    · exact stays_pure _
    · split
      · exact hv.fields p node fields
      · refine (PassM.stays_onTree (stays_childQueue he.paths e p node f)).bind fun queue => ?_
        split
        · exact hv.fields p node fields
        · refine he.shelved.pushFrame_bind (fun id hid => ?_) node _
          refine (PassM.stays_attempt (hv.queue id queue hid)).bind fun result =>
            (PassM.stays_onTree (he.shelved.popFrame hid)).bind fun _ =>
              (PassM.stays_resume result).bind fun stopped => ?_
          split
          · exact stays_pure _
          · exact hv.fields p node fields

end Step

/-- **A pass keeps what its handlers keep**, at each of its stages. -/
theorem visits (steps : Nat) : Visits e P k steps := by
  induction steps with
  | zero =>
    refine ⟨fun _ _ _ => stays_throw _, fun _ _ _ => stays_throw _, fun _ => stays_throw _,
      fun _ _ => stays_throw _, fun _ _ fields => ?_⟩
    cases fields with
    | nil => exact stays_throw _
    | cons f fields => exact stays_throw _
  | succ steps ih =>
    exact ⟨he.stays_visitQueue ih, he.stays_runQueue ih, he.stays_visitPath ih,
      he.stays_visitNode ih, he.stays_visitFields ih⟩

theorem ensureScope (p : PathId) : Stays P (e.ensureScope p) := by
  unfold Engine.ensureScope
  refine stays_get.bind fun t => ?_
  split
  · split
    · exact he.assign p
    · exact stays_pure _
  · exact he.assign p

theorem traversePath (steps : Nat) (p : PathId) : Stays (Pass.Has P) (e.traversePath steps p) := by
  unfold Engine.traversePath
  exact (PassM.stays_onTree ((he.paths.assertLive p).bind fun _ => he.ensureScope p)).bind fun _ =>
    (PassM.stays_ask _).bind fun node => ((he.visits steps).node p node).bind fun _ => stays_pure _

theorem traverse (steps : Nat) : Stays (Pass.Has P) (e.traverse steps) := by
  unfold Engine.traverse
  refine (PassM.stays_onTree he.paths.root).bind fun root =>
    he.shelved.pushFrame_bind (fun id hid => ?_) none ""
  exact (PassM.stays_attempt ((he.visits steps).queue id [root] hid)).bind fun result =>
    (PassM.stays_onTree (he.shelved.popFrame hid)).bind fun _ =>
      (PassM.stays_resume result).bind fun _ => stays_pure _

theorem passes (steps : Nat) : e.Passes P (fun _ => P) steps where
  traverse := (he.traverse steps).leads fun _ _ h => h
  traversePath p := (he.traversePath steps p).leads fun _ _ h => h
  visit p := Stays.leads ((PassM.stays_onTree ((he.paths.assertLive p).bind fun _ =>
    he.ensureScope p)).bind fun _ => (he.visits steps).path p) fun _ _ h => h
  visitPath p := ((he.visits steps).path p).leads fun _ _ h => h

end Keeps

end Engine

end ScopedTree
