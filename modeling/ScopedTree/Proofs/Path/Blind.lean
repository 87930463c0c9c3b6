import ScopedTree.Proofs.Path.Follow

/-!
# Looking for paths

To look for a path takes nodes and paths into account, and no scope and no binding. So it has the
same result whatever the scopes hold, and leaves them alone.

* `Tree.redrawn`        the tree with other scopes and bindings;
* `Tree.Blind`          a program that does not look at them;
* `Tree.blind_entries`  the paths of entries are found blindly.
-/

namespace ScopedTree.Tree

open Arena

variable {α β : Type} {p : PathId} {key : String}

/-- The tree with other scopes and bindings. -/
def redrawn (t : Tree) (scopes : Array ScopeData) (bindings : Array (Option Binding)) : Tree :=
  { t with scopes, bindings }

/-- Whatever the scopes and bindings are, the program does the same and leaves them alone. -/
structure Blind (x : TreeM α) : Prop where
  run : ∀ t scopes bindings, x (redrawn t scopes bindings) = match x t with
    | .ok y t' => .ok y (t'.redrawn scopes bindings)
    | .error e t' => .error e (t'.redrawn scopes bindings)

/-! ## how blind programs are built -/

theorem blind_pure (y : α) : Blind (pure y : TreeM α) := ⟨fun _ _ _ => rfl⟩

theorem blind_throw (e : TreeError) : Blind (throw e : TreeM α) := ⟨fun _ _ _ => rfl⟩

theorem blind_bind {x : TreeM α} {f : α → TreeM β} (hx : Blind x)
    (hf : ∀ y, Blind (f y)) : Blind (x >>= f) := by
  refine ⟨fun t scopes bindings => ?_⟩
  show EStateM.bind x f _ = match EStateM.bind x f t with | .ok y t' => _ | .error e t' => _
  unfold EStateM.bind
  rw [hx.run t scopes bindings]
  cases hrun : x t with
  | error e t' => rfl
  | ok y t' => exact (hf y).run t' scopes bindings

theorem blind_get {f : Tree → TreeM α} (hf : ∀ t, Blind (f t))
    (hsame : ∀ t scopes bindings, f (redrawn t scopes bindings) = f t) : Blind (get >>= f) := by
  refine ⟨fun t scopes bindings => ?_⟩
  rw [run_get_bind, run_get_bind, hsame]
  exact (hf t).run t scopes bindings

theorem blind_modify {g : Tree → Tree}
    (hg : ∀ t scopes bindings, g (redrawn t scopes bindings) = (g t).redrawn scopes bindings) :
    Blind (modify g) :=
    ⟨fun t scopes bindings => congrArg (EStateM.Result.ok PUnit.unit) (hg t scopes bindings)⟩

theorem blind_modifyGet {g : Tree → α × Tree}
    (hg : ∀ t scopes bindings, g (redrawn t scopes bindings)
      = ((g t).1, (g t).2.redrawn scopes bindings)) :
    Blind (modifyGet g) := by
  refine ⟨fun t scopes bindings => ?_⟩
  show EStateM.Result.ok (g (redrawn t scopes bindings)).1 (g (redrawn t scopes bindings)).2 = _
  rw [hg]
  rfl

theorem blind_updatePath (p : PathId) (f : PathData → PathData) :
    Blind (modify (·.updatePath p f)) :=
  blind_modify fun _ _ _ => rfl

theorem blind_ofShape (x : Except ShapeError α) : Blind (TreeM.ofShape x) := by
  cases x with
  | ok y => exact blind_pure y
  | error e => exact blind_throw _

theorem blind_mapM {f : α → TreeM β} (hf : ∀ x, Blind (f x)) : ∀ l : List α, Blind (l.mapM f)
  | [] => by
    rw [List.mapM_nil]
    exact blind_pure []
  | x :: l => by
    rw [List.mapM_cons]
    exact blind_bind (hf x) fun y => blind_bind (blind_mapM hf l) fun ys => blind_pure _

/-! ## paths -/

theorem blind_allocPath (d : PathData) : Blind (allocPath d) := blind_modifyGet fun _ _ _ => rfl

theorem blind_getRootPath : Blind getRootPath := by
  refine blind_get (fun t => ?_) fun _ _ _ => rfl
  split
  · exact blind_pure _
  · exact blind_bind (blind_allocPath _) fun p =>
      blind_bind (blind_modify fun _ _ _ => rfl) fun _ => blind_pure p

theorem blind_getOrCreatePath (q : Option PathId) (owner : Option NodeId) (slot : Slot) :
    Blind (getOrCreatePath q owner slot) := by
  unfold getOrCreatePath
  split
  · exact blind_getRootPath
  · refine blind_get (fun t => ?_) fun _ _ _ => rfl
    dsimp only
    split
    · exact blind_bind (blind_updatePath _ _) fun _ => blind_pure _
    · refine blind_bind (blind_allocPath _) fun p => ?_
      cases owner with
      | none => exact blind_pure p
      | some o => exact blind_bind (blind_modify fun _ _ _ => rfl) fun _ => blind_pure p

theorem chainFromRoot_redrawn (t : Tree) (scopes : Array ScopeData)
    (bindings : Array (Option Binding)) :
    ∀ (fuel : Nat) (id : Option NodeId) (below : List (Option NodeId)),
      (t.redrawn scopes bindings).chainFromRoot fuel id below = t.chainFromRoot fuel id below
  | 0, id, below => by
    unfold chainFromRoot
    rfl
  | fuel + 1, id, below => by
    have hnext (owner : NodeId) :=
      chainFromRoot_redrawn t scopes bindings fuel (some owner) (id :: below)
    have harena : (t.redrawn scopes bindings).arena = t.arena := rfl
    have hroot : (t.redrawn scopes bindings).root = t.root := rfl
    unfold chainFromRoot
    simp only [harena, hroot, hnext]

theorem blind_descend : ∀ (below : List (Option NodeId)) (q : PathId) (owner : Option NodeId),
    Blind (descend q owner below)
  | [], q, _ => blind_pure (some q)
  | id :: below, q, owner => by
    unfold descend
    refine blind_get (fun t => ?_) fun _ _ _ => rfl
    cases t.findSlot owner id with
    | none => exact blind_pure none
    | some slot => exact blind_bind (blind_getOrCreatePath ..) fun q' => blind_descend below q' id

theorem blind_pathFor (id : Option NodeId) : Blind (pathFor id) := by
  unfold pathFor
  refine blind_get (fun t => ?_) fun t scopes bindings => ?_
  · split
    · exact blind_bind blind_getRootPath fun q => blind_descend _ q _
    · exact blind_pure none
  · rw [chainFromRoot_redrawn]

theorem blind_resyncParent (p : PathId) (owner : Option NodeId) : Blind (resyncParent p owner) := by
  refine blind_get (fun t => ?_) fun _ _ _ => rfl
  dsimp only
  split
  · exact blind_bind (blind_pathFor owner) fun _ => blind_updatePath _ _
  · split
    · refine blind_get (fun t => ?_) fun _ _ _ => rfl
      split
      · exact blind_bind (blind_pathFor owner) fun _ => blind_updatePath _ _
      · exact blind_pure _
    · exact blind_pure _

theorem blind_resyncSlot (p : PathId) (owner node : Option NodeId) :
    Blind (resyncSlot p owner node) := by
  refine blind_get (fun t => ?_) fun _ _ _ => rfl
  dsimp only
  split
  · exact blind_updatePath _ _
  · split <;> exact blind_updatePath _ _

theorem blind_resync (p : PathId) : Blind (resync p) := by
  refine blind_get (fun t => ?_) fun _ _ _ => rfl
  dsimp only
  split
  · exact blind_pure _
  · split
    · exact blind_updatePath _ _
    · exact blind_bind (blind_resyncParent ..) fun _ => blind_resyncSlot ..

theorem ancestorsFrom_redrawn (t : Tree) (scopes : Array ScopeData)
    (bindings : Array (Option Binding)) :
    ∀ (fuel : Nat) (q : Option PathId),
      (t.redrawn scopes bindings).ancestorsFrom fuel q = t.ancestorsFrom fuel q
  | 0, _ => rfl
  | _ + 1, none => rfl
  | fuel + 1, some q =>
    congrArg (q :: ·) (ancestorsFrom_redrawn t scopes bindings fuel (t.parentPath q))

theorem location_redrawn (t : Tree) (scopes : Array ScopeData) (bindings : Array (Option Binding))
    (p : PathId) :
    (t.redrawn scopes bindings).location p = t.location p := by
  have hancestry : (t.redrawn scopes bindings).ancestry p = t.ancestry p :=
    congrArg (p :: ·) (ancestorsFrom_redrawn ..)
  have hlabel : (t.redrawn scopes bindings).slotLabel = t.slotLabel := by
    funext slot
    cases slot <;> rfl
  unfold location
  rw [hancestry, hlabel]
  rfl

theorem blind_fieldOf (p : PathId) (key : String) : Blind (fieldOf p key) := by
  refine blind_get (fun t => ?_) fun t scopes bindings => ?_
  rotate_left
  · rw [show detachedError (t.redrawn scopes bindings) p = t.detachedError p from
      congrArg TreeError.detachedPath (location_redrawn ..)]
    rfl
  split
  · exact blind_throw _
  · split
    · exact blind_throw _
    · exact blind_pure _

/-- **The paths of entries are found blindly.** -/
theorem blind_entries (p : PathId) (hkey : '.' ∉ key.toList) : Blind (entries p key) := by
  unfold entries
  refine blind_bind (blind_resync p) fun _ => ?_
  rw [splitKey_eq_none hkey]
  simp only [pure_bind]
  refine blind_bind (blind_fieldOf p key) fun x => ?_
  have hrest : Blind (do
      let node := (← get).node p
      let items ← TreeM.ofShape ((← get).arena.list node x.2.name)
      (List.range items.length).mapM fun i =>
      getOrCreatePath (some p) node (.entry x.2.name i)) := by
    refine blind_get (fun t => ?_) fun _ _ _ => rfl
    refine blind_get (fun t' => ?_) fun _ _ _ => rfl
    exact blind_bind (blind_ofShape _) fun items => blind_mapM (fun i => blind_getOrCreatePath ..) _
  split
  · exact blind_bind (blind_throw _) fun _ => hrest
  · exact hrest

theorem entries_redrawn {t : Tree} {qs : List PathId} (hkey : '.' ∉ key.toList)
    (h : entries p key t = .ok qs t) (scopes : Array ScopeData)
    (bindings : Array (Option Binding)) :
    entries p key (t.redrawn scopes bindings) = .ok qs (t.redrawn scopes bindings) := by
  rw [(blind_entries p hkey).run t scopes bindings, h]

end ScopedTree.Tree
