import ScopedTree.Edit.Hoist
import ScopedTree.Proofs.Arena.Writes
import ScopedTree.Proofs.Edit.Slots
import ScopedTree.Proofs.Pass.Queued
import ScopedTree.Proofs.Scope.Crawls
import ScopedTree.Proofs.Scope.Uids

/-!
# What edits at known paths keep

All edits write places, crawl what is new, forget what is gone and queue paths. A place may only be
written through a path that is known; those that an edit finds by itself are.

* `Edits`                     properties that all of this keeps, by how many paths are known;
* `Tree.Edits.get`            after a look at the tree all of its paths are known;
* `Tree.Edits.follow`         a path that is looked up is known;
* `Tree.Edits.replaceNode`, `Tree.Edits.insertEntries`   the edits that all others are made of;
* `Tree.Edits.remove`, `Tree.Edits.replaceWith`, `Tree.Edits.hoist`, …   the others.
-/

namespace ScopedTree.Tree

/-- The path holds another node; it stands where it stood, on the same frames. -/
def Refills (x : NodeId) (f : PathData → PathData) : Prop :=
  ∀ d, (f d).stand = ((some x, d.parent, d.slot, d.removed), d.parentPath)
    ∧ (f d).contexts = d.contexts

/-- The path holds its node below the same path, maybe elsewhere, on the same frames. -/
def Slides (f : PathData → PathData) : Prop :=
  ∀ d, ((f d).node = d.node ∧ (f d).parentPath = d.parentPath
    ∧ ((f d).slot = .root ↔ d.slot = .root)) ∧ (f d).contexts = d.contexts

/-- Properties `P m`, where the paths with an index below `m` are known, that are kept by writes at
known paths and where crawls succeed, when names are claimed and counters of tried names go up, when
a path is queued and when a subtree is forgotten. A crawl that fails leaves `E m`. -/
structure Edits (P : Nat → Tree → Prop) (E : Nat → TreeError → Tree → Prop) : Prop where
  names : ∀ m, Names (P m)
  le : ∀ m e t, P m t → E m e t
  crawl : ∀ {m} s, Leads (P m) (E m) (Tree.crawl s)
  registerSubtree : ∀ {m} p, Leads (P m) (E m) (Tree.registerSubtree p)
  mono : ∀ m m' t, m ≤ m' → (P m' t → P m t) ∧ ∀ e, E m' e t → E m e t
  known : ∀ m t, P m t → ∃ m', m ≤ m' ∧ t.paths.size ≤ m' ∧ P m' t
  child : ∀ m t p owner slot, slot ≠ .root → P m t → Ends (getOrCreatePath (some p) owner slot t)
    (fun q t' => ∃ m', m ≤ m' ∧ q.index < m' ∧ P m' t') fun _ t' => P m t'
  arena : ∀ m t a, P m t → P m { t with arena := a }
  slide : ∀ m t p f, Slides f → P m t → P m (t.updatePath p f)
  fill : ∀ m t p x f, p.index < m → t.slot p ≠ .root → Refills x f → P m t → P m (t.updatePath p f)
  fillRoot : ∀ m t p x f, p.index < m → t.slot p = .root → Refills x f → P m t →
    P m ({ t with root := some x }.updatePath p f)
  registry : ∀ m t names name, t.options.registry = some names → P m t →
    P m { t with options := { t.options with registry := some (names ++ [name]) } }
  counter : ∀ m t p base n (uids : ScopeData → List String), t.uidCounter p base ≤ n → P m t →
    P m (t.updateScope p fun d =>
      { d with uidCounters := d.uidCounters.put base n, uids := uids d })
  queue : ∀ m t p priority id, P m t → P m (t.queueOn p priority id)
  forget : ∀ m d t, P m t → P m (invalidate d t)
  clear : ∀ m t (n : NodeId), P m t → P m { t with childPaths := t.childPaths.drop n.index }

/-! ## paths that hold something are known -/

section Known

variable {t : Tree} {p parent : PathId} {ty : NodeType} {group : Alias} {other : Option NodeId}

theorem lt_of_nodeIs (hp : t.nodeIs p ty = true) : p.index < t.paths.size := by
  cases hn : t.node p with
  | none => simp [nodeIs, hn, Arena.is, Arena.type?, Arena.look] at hp
  | some n => exact lt_of_node hn

theorem lt_of_nodeIsA (hp : t.nodeIsA p group = true) : p.index < t.paths.size := by
  cases hn : t.node p with
  | none => simp [nodeIsA, hn, Arena.isA, Arena.type?, Arena.look] at hp
  | some n => exact lt_of_node hn

theorem lt_of_isStatementBody (hp : t.isStatementBody p = true) : p.index < t.paths.size := by
  refine Nat.lt_of_not_le fun hle => ?_
  have hslot : t.slot p = .root := congrArg PathData.slot (path_of_size_le hle)
  simp [isStatementBody, hslot] at hp

theorem parent_of_removal
    (h : t.removal p = .owner parent ∨ ∃ other, t.removal p = .become parent other) :
    t.parentPath p = some parent ∧ ∃ n, t.node parent = some n := by
  unfold removal at h
  cases hq : t.parentPath p with
  | none => simp [hq] at h
  | some q =>
    rw [hq] at h
    dsimp only at h
    cases hn : t.node q with
    | none => simp [hn, Arena.type?, Arena.look] at h
    | some n =>
      have hsame : q = parent := by
        rcases h with h | ⟨other, h⟩
        all_goals
          repeat' split at h
          all_goals cases h
          all_goals rfl
      exact ⟨congrArg some hsame, n, hsame ▸ hn⟩

theorem lt_of_removal (t : Tree) (p : PathId) :
    (∀ parent other, t.removal p = .become parent other → parent.index < t.paths.size)
      ∧ (t.removal p = .emptyBlock → p.index < t.paths.size) := by
  refine ⟨fun parent other h => ?_, fun h => Nat.lt_of_not_le fun hle => ?_⟩
  · obtain ⟨-, n, hn⟩ := parent_of_removal (.inr ⟨other, h⟩)
    exact lt_of_node hn
  · have hq : t.parentPath p = none := congrArg PathData.parentPath (path_of_size_le hle)
    unfold removal at h
    rw [hq] at h
    cases h

end Known

theorem Charted.insertionTarget {P : Tree → Prop} (h : Charted P) (fuel : Nat) (p : PathId) :
    Stays P (Tree.insertionTarget fuel p) := by
  induction fuel generalizing p with
  | zero => exact stays_throw _
  | succ fuel ih =>
    unfold Tree.insertionTarget
    refine (h.assertLive p).bind fun _ => stays_get.bind fun t => ?_
    split
    · exact ih _
    · exact stays_pure _

theorem Charted.completionLevels {P : Tree → Prop} (h : Charted P) (fuel : Nat) (p : PathId) :
    Stays P (Tree.completionLevels fuel p) := by
  induction fuel generalizing p with
  | zero => exact stays_pure _
  | succ fuel ih =>
    unfold Tree.completionLevels
    refine stays_get.bind fun t => ?_
    dsimp only
    split
    · exact stays_pure _
    · split
      · refine (h.entries p _).bind fun items => ?_
        split
        · exact ih _
        · exact stays_pure _
      · split
        · exact stays_pure _
        · refine (Stays.mapM (fun key => ?_) _).bind fun _ => stays_pure _
          refine stays_get.bind fun _ => (stays_ofShape _).bind fun child => ?_
          split
          · exact (h.follow p key).bind ih
          · exact stays_pure _

namespace Edits

variable {P : Nat → Tree → Prop} {E : Nat → TreeError → Tree → Prop} {m : Nat} {α β : Type}
  (h : Edits P E)

include h

theorem paths (m : Nat) : Charted (P m) := (h.names m).paths

theorem step {x : TreeM α} {f : α → TreeM β} (hx : Stays (P m) x)
    (hf : ∀ y, Leads (P m) (E m) (f y)) :
    Leads (P m) (E m) (x >>= f) := (hx.leads (h.le m)).bind hf

/-- After a look at the tree all of its paths are known. -/
theorem get {f : Tree → TreeM α} (hf : ∀ t m', m ≤ m' → t.paths.size ≤ m' →
    Leads (P m') (E m') (f t)) :
    Leads (P m) (E m) ((MonadState.get : TreeM Tree) >>= f) := by
  intro t ht
  obtain ⟨m', hm, hsize, ht'⟩ := h.known m t ht
  exact (hf t m' hm hsize t ht').imp (fun _ t' => (h.mono m m' t' hm).1)
    fun e t' => (h.mono m m' t' hm).2 e

def Gives (P : Nat → Tree → Prop) (m : Nat) (x : TreeM PathId) : Prop :=
  ∀ t, P m t → Ends (x t) (fun q t' => ∃ m', m ≤ m' ∧ q.index < m' ∧ P m' t') fun _ t' => P m t'

theorem bind_path {x : TreeM PathId} {f : PathId → TreeM α} (hx : Gives P m x)
    (hf : ∀ q m', m ≤ m' → q.index < m' → Leads (P m') (E m') (f q)) :
    Leads (P m) (E m) (x >>= f) := by
  refine fun t ht => ends_bind.2 ((hx t ht).imp ?_ (h.le m))
  rintro q t' ⟨m', hm, hq, ht'⟩
  exact (hf q m' hm hq t' ht').imp (fun _ t'' => (h.mono m m' t'' hm).1)
    fun e t'' => (h.mono m m' t'' hm).2 e

theorem edit (x : ArenaM α) : Stays (P m) (TreeM.edit x) := by
  intro t ht
  unfold TreeM.edit
  dsimp only
  cases x t.arena with
  | ok y a => exact h.arena m t a ht
  | error e a => exact h.arena m t a ht

theorem modifyArena (f : Tree → Arena) :
    Stays (P m) (modify fun t => { t with arena := f t } : TreeM Unit) :=
  stays_modify fun t => h.arena m t (f t)

theorem mark (p : PathId) : Stays (P m) (modify (·.markRemoved p) : TreeM Unit) :=
  stays_modify fun t => h.slide m t p _ fun _ => ⟨⟨rfl, rfl, Iff.rfl⟩, rfl⟩

theorem scopeOf (p : PathId) : Leads (P m) (E m) (Tree.scopeOf p) :=
  (h.names m).scopeOfWith h.crawl p

/-! ## paths -/

/-- A child that is looked up by its key has a path that is known. -/
theorem follow (p : PathId) (key : String) (hkey : '.' ∉ key.toList) :
    Gives P m (Tree.follow p key) := by
  have hchild (t : Tree) (slot : Slot) (hslot : slot ≠ .root) :
      Gives P m (getOrCreatePath (some p) (t.node p) slot >>= fun q => Tree.followParts q []) := by
    intro t' ht'
    refine ends_bind.2 ((h.child m t' p (t.node p) slot hslot ht').mono ?_)
    rintro q t'' ⟨m', hm, hq, ht''⟩
    exact ⟨m', hm, hq, ht''⟩
  intro t ht
  unfold Tree.follow
  refine ends_bind.2 ((stays_iff.1 ((h.paths m).resync p) t ht).mono fun _ t' ht' => ?_)
  rw [parts_of_not_mem hkey]
  unfold Tree.followParts
  refine ends_bind.2 ((stays_iff.1 (Charted.fieldOf p key) t' ht').mono fun x t₁ ht₁ => ?_)
  obtain ⟨ty, f⟩ := x
  dsimp only
  rw [run_get_bind]
  cases f.kind with
  | node => exact hchild t₁ _ Slot.noConfusion t₁ ht₁
  | optNode => exact hchild t₁ _ Slot.noConfusion t₁ ht₁
  | list => exact ht₁
  | _ => exact ht₁

/-- To clear a node drops what was attached to it and the list of the paths made below it. -/
theorem clearNode (id : Option NodeId) : Stays (P m) (Tree.clearNode id) := by
  refine stays_modify fun t ht => ?_
  cases id with
  | none => exact h.arena m t _ ht
  | some n => exact h.arena m _ _ (h.clear m t n ht)

/-! ## places -/

theorem shiftEntries (owner : Option NodeId) (list : String) (start : Nat) (move : Nat → Nat)
    (except : Option PathId) : Stays (P m) (Tree.shiftEntries owner list start move except) := by
  refine stays_modify fun t ht => ?_
  generalize t.cachedPaths owner = ps
  induction ps generalizing t with
  | nil => exact ht
  | cons p ps ih =>
    refine ih _ ?_
    dsimp only
    split
    · exact ht
    · refine h.slide m t p _ (fun d => ?_) ht
      split
      · next l i hs =>
        split
        · exact ⟨⟨rfl, rfl, by simp [hs]⟩, rfl⟩
        · exact ⟨⟨rfl, rfl, Iff.rfl⟩, rfl⟩
      · exact ⟨⟨rfl, rfl, Iff.rfl⟩, rfl⟩

/-- After a write to the place of a known path, the path may hold what was written. -/
theorem ends_writeSlot {t : Tree} {p : PathId} (hp : p.index < m) (x : NodeId) (ht : P m t) :
    Ends (writeSlot p (some x) t)
      (fun _ t' => ∀ a f, Refills x f → P m ({ t' with arena := a }.updatePath p f))
      fun _ t' => P m t' := by
  have hedit {α : Type} (y : ArenaM α) (hs : t.slot p ≠ .root) : Ends (TreeM.edit y t)
      (fun _ t' => ∀ a f, Refills x f → P m ({ t' with arena := a }.updatePath p f))
      fun _ t' => P m t' := by
    unfold TreeM.edit
    dsimp only
    cases y t.arena with
    | ok z a =>
      exact fun a' f hf => h.fill m { t with arena := a' } p x f hp hs hf (h.arena m t a' ht)
    | error e a => exact h.arena m t a ht
  unfold writeSlot
  rw [run_get_bind]
  dsimp only
  have hslot : t.slot p = (t.path p).slot := rfl
  cases hs : (t.path p).slot with
  | root => exact fun a f hf => h.fillRoot m { t with arena := a } p x f hp hs hf (h.arena m t a ht)
  | field name => exact hedit _ (by rw [hslot, hs]; exact Slot.noConfusion)
  | entry list index => exact hedit _ (by rw [hslot, hs]; exact Slot.noConfusion)

theorem takeFrom (id old : Option NodeId) : Stays (P m) (Tree.takeFrom id old) := by
  unfold Tree.takeFrom
  refine stays_get.bind fun t => ?_
  split
  · exact h.edit _
  · exact stays_pure _

theorem detachForWrap (p : PathId) (hp : p.index < m) : Stays (P m) (Tree.detachForWrap p) := by
  refine ((h.paths m).assertLive p).bind fun _ => stays_get.bind fun t => (h.edit _).bind fun x =>
    stays_iff.2 fun t' ht' => ends_bind.2 ((h.ends_writeSlot hp x ht').mono fun _ t'' hfill => ?_)
  exact hfill t''.arena _ fun _ => ⟨rfl, rfl⟩

theorem bodyStatements (body : Option NodeId) (inFunction : Bool) :
    Stays (P m) (Tree.bodyStatements body inFunction) := by
  unfold Tree.bodyStatements
  refine stays_get.bind fun t => ?_
  split
  · exact stays_pure _
  · split
    · exact stays_pure _
    · split
      · exact (h.edit _).bind fun _ => stays_pure _
      · exact (h.edit _).bind fun _ => stays_pure _

theorem shareComments (p : PathId) : Stays (P m) (Tree.shareComments p) :=
  stays_shareComments (fun t _ _ => h.arena m t _) p

theorem removeFromOwner (p : PathId) : Stays (P m) (Tree.removeFromOwner p) := by
  unfold Tree.removeFromOwner
  refine stays_get.bind fun t => ?_
  dsimp only
  split
  · exact (h.edit _).bind fun _ => h.shiftEntries _ _ _ _ _
  · split
    · rw [map_eq_pure_bind]
      exact ((h.edit _).bind fun _ => stays_pure _).bind fun _ => (h.edit _).bind fun _ =>
        stays_pure _
    · exact (stays_pure _).bind fun _ => (h.edit _).bind fun _ => stays_pure _
  · exact stays_throw _

/-! ## queues -/

theorem queueNewPath (p : PathId) (priority : Bool) : Stays (P m) (Tree.queueNewPath p priority) :=
  stays_queueNewPath (h.queue m) p priority

theorem requeue (p : PathId) : Stays (P m) (Tree.requeue p) :=
  ((h.paths m).modifyPath p _).bind fun _ => h.queueNewPath p true

/-! ## replacing and inserting -/

theorem overwrite (p : PathId) (hp : p.index < m) (replacement : NodeId) (old : Option NodeId)
    (enclosing : Option ScopeId) : Leads (P m) (E m) (do
      let _ ← writeSlot p (some replacement)
      moveComments old (some replacement)
      modify (·.updatePath p ({ · with node := some replacement, scope := none, stale := false }))
      match old with
      | some old =>
        modify (Tree.invalidate { old, keep := some replacement, holder := some p, enclosing })
      | none => pure ()
      Tree.registerSubtree p
      Tree.requeue p : TreeM Unit) := by
  have hrest : Leads (P m) (E m) (do
      Tree.registerSubtree p
      Tree.requeue p : TreeM Unit) :=
    (h.registerSubtree p).bind fun _ => (h.requeue p).leads (h.le m)
  refine fun t ht => ends_bind.2 ((h.ends_writeSlot hp replacement ht).imp (fun _ t' hfill => ?_)
    (h.le m))
  unfold moveComments
  rw [run_modify_bind, run_modify_bind]
  refine (show Leads (P m) (E m) _ from ?_) _ (hfill _ _ fun _ => ⟨rfl, rfl⟩)
  split
  · exact h.step (stays_modify (h.forget m _)) fun _ => hrest
  · exact hrest

theorem replaceNode (p : PathId) (hp : p.index < m) (replacement : NodeId) :
    Leads (P m) (E m) (Tree.replaceNode p replacement) := by
  have hwrite := h.overwrite p hp replacement
  unfold Tree.replaceNode
  refine leads_get.bind fun t => Leads.guard ((h.takeFrom _ _).leads (h.le m)) fun _ =>
    leads_get.bind fun t' => ?_
  cases t'.parentPath p with
  | none => exact (leads_pure _).bind (hwrite (t.node p))
  | some parent =>
    dsimp only
    by_cases hoff : t'.options.noScope = true
    · rw [if_pos hoff]
      exact (leads_pure _).bind (hwrite (t.node p))
    · rw [if_neg hoff]
      exact (h.scopeOf _).bind (hwrite (t.node p))

theorem insertEntries (parentPath : PathId) (owner : Option NodeId) (list : String) (index : Nat)
    (nodes : List (Option NodeId)) :
    Leads (P m) (E m) (Tree.insertEntries parentPath owner list index nodes) :=
  h.step (h.edit _) fun _ => h.step (h.shiftEntries _ _ _ _ _) fun _ =>
    h.step (Stays.mapM (fun _ => (h.paths m).entry _ _ _ _) _) fun _ =>
      (Leads.forM (fun p => (h.registerSubtree p).bind fun _ =>
        (h.queueNewPath p true).leads (h.le m)) _).bind fun _ => leads_pure _

theorem unshiftContainer (p : PathId) (key : String) (nodes : List (Option NodeId)) :
    Leads (P m) (E m) (Tree.unshiftContainer p key nodes) :=
  h.step ((h.paths m).assertLive p) fun _ => h.step (stays_listField p key) fun _ =>
    leads_get.bind fun _ => h.insertEntries _ _ _ _ _

theorem pushContainer (p : PathId) (key : String) (nodes : List (Option NodeId)) :
    Leads (P m) (E m) (Tree.pushContainer p key nodes) :=
  h.step ((h.paths m).assertLive p) fun _ => h.step (stays_listField p key) fun _ =>
    leads_get.bind fun _ => leads_get.bind fun _ => h.step (stays_ofShape _) fun _ =>
      h.insertEntries _ _ _ _ _

theorem ensureBlock (p : PathId) : Leads (P m) (E m) (Tree.ensureBlock p) := by
  unfold Tree.ensureBlock
  refine h.step ((h.paths m).assertLive p) fun _ => leads_get.bind fun _ =>
    h.bind_path (h.follow p "body" (by decide)) fun body m' _ hbody => leads_get.bind fun _ => ?_
  split
  · exact leads_pure _
  · refine h.step (h.detachForWrap body hbody) fun _ => leads_get.bind fun _ =>
      h.step (h.bodyStatements _ _) fun _ => h.step (h.edit _) fun _ => leads_get.bind fun _ => ?_
    exact Leads.guard ((h.modifyArena _).leads (h.le _)) fun _ =>
      (h.replaceNode body hbody _).bind fun _ => leads_pure _

/-! ## names -/

theorem claim (name : String) : Stays (P m) (Tree.claim name) := by
  intro t ht
  rcases claim_cases name t with ⟨-, hclaim⟩ | ⟨names, hr, ⟨-, hclaim⟩ | ⟨-, hclaim⟩⟩
  · rw [hclaim]
    exact ht
  · rw [hclaim]
    exact ht
  · rw [hclaim]
    exact h.registry m t names name hr ht

theorem reserve {s : ScopeId} {base : String} {n : Nat} {t : Tree}
    (hn : t.uidCounter (t.programScope s) base ≤ n) (uid : String) (ht : P m t) :
    P m (final (Tree.reserve s base uid n t)) := by
  obtain ⟨t₁, hnote, -, -, hcounter, hrun⟩ := reserve_eq s base uid n t
  have ht₁ := (h.names m).noteReference s uid t ht
  rw [hnote] at ht₁
  rw [hrun]
  refine h.counter m t₁ _ base n _ ?_ ht₁
  rw [hcounter]
  exact hn

theorem generateUid (s : ScopeId) (name : String) : Stays (P m) (Tree.generateUid s name) := by
  intro t ht
  cases hr : Tree.generateUid s name t with
  | error e t' =>
    cases (uidSearch_generateUid s name t).of_error hr
    exact ht
  | ok uid t' =>
    obtain ⟨n, t₁, hn, hclaim, -, rfl⟩ := (uidSearch_generateUid s name t).of_ok hr
    have ht₁ := h.claim uid t ht
    rw [hclaim] at ht₁
    refine h.reserve ?_ _ ht₁
    rw [programScope_congr (fun c => congrArg (·.parent) (scope_congr (scopes_claim hclaim) c)),
      uidCounter_congr (scopes_claim hclaim)]
    exact Nat.le_succ_of_le hn

theorem declarationBlock (s : ScopeId) : Leads (P m) (E m) (Tree.declarationBlock s) := by
  have hat (t : Tree) (p : PathId) : Leads (P m) (E m) (
      if t.nodeIsA p .loop || t.nodeIsA p .function || t.nodeIs p .catchClause
        then Tree.ensureBlock p
      else pure p) := by
    split
    · exact h.ensureBlock p
    · exact leads_pure p
  exact leads_get.bind fun t => hat t _

omit h in
theorem firstInserted (p : PathId) (message : String) (inserted : List PathId) :
    Stays (P m) (Tree.firstInserted p message inserted) := by
  cases inserted with
  | nil => exact stays_get.bind fun _ => stays_throw _
  | cons q _ => exact stays_pure q

theorem declarationFor (s : ScopeId) (block : PathId) (kind : String) (unique : Bool) :
    Leads (P m) (E m) (Tree.declarationFor s block kind unique) := by
  unfold Tree.declarationFor
  refine leads_get.bind fun t => ?_
  split
  · exact leads_pure _
  · refine h.step (h.edit _) fun _ => (h.unshiftContainer _ _ _).bind fun _ =>
      h.step (firstInserted _ _ _) fun p => Leads.guard ?_ fun _ => leads_pure p
    exact Stays.leads ((h.names m).modifyScope _ fun _ => ⟨rfl, rfl⟩) (h.le m)

theorem declare (s : ScopeId) (id init : Option NodeId) (kind : String) (unique : Bool) :
    Leads (P m) (E m) (Tree.declare s id init kind unique) :=
  (h.declarationBlock s).bind fun _ => (h.declarationFor _ _ _ _).bind fun _ =>
    h.step (h.edit _) fun _ =>
    (h.pushContainer _ _ _).bind fun _ => h.step (firstInserted _ _ _) fun p =>
      h.step ((h.names m).registerBinding s _ p) fun _ => leads_pure p

theorem declareUid (s : ScopeId) (name : String) : Leads (P m) (E m) (Tree.declareUid s name) :=
  h.step (h.generateUid s name) fun _ => h.step (h.edit _) fun _ =>
    (h.declare _ _ _ _ _).bind fun _ =>
    (h.edit _).leads (h.le m)

/-! ## statements in place of an expression -/

theorem completionVariable (callee body loop : PathId) :
    Leads (P m) (E m) (Tree.completionVariable callee body loop) := by
  unfold Tree.completionVariable
  refine leads_get.bind fun t => ?_
  split
  · exact leads_pure _
  · refine (h.scopeOf callee).bind fun s => ?_
    split
    · exact leads_get.bind fun _ => leads_throw (h.le _) _
    · exact (h.declareUid _ _).bind fun _ => leads_get.bind fun _ => h.step (h.edit _) fun _ =>
        (h.pushContainer _ _ _).bind fun _ => h.step ((h.paths m).modifyPath loop _) fun _ =>
          leads_pure _

theorem assignRecord (callee body loop record : PathId) :
    Leads (P m) (E m) (Tree.assignRecord callee body loop record) :=
  (h.completionVariable callee body loop).bind fun _ =>
    h.bind_path (h.follow record "expression" (by decide)) fun p _ _ hp =>
      h.step (h.detachForWrap p hp) fun _ => h.step (h.edit _) fun _ => h.step (h.edit _) fun _ =>
        h.replaceNode p hp _

theorem returnRecord (callee body record : PathId) :
    Leads (P m) (E m) (Tree.returnRecord callee body record) := by
  unfold Tree.returnRecord
  refine h.get fun t m' _ hsize => ?_
  split
  · exact leads_pure _
  · next hrecord =>
    have hlt : record.index < t.paths.size := lt_of_nodeIs (by simpa using hrecord)
    refine h.step (stays_ofShape _) fun _ => ?_
    split
    · exact h.assignRecord _ _ _ _
    · exact h.step (h.edit _) fun _ => h.step (h.edit _) fun _ =>
        h.replaceNode _ (hlt.trans_le hsize) _

theorem expressionOf (id : Option NodeId) : Stays (P m) (Tree.expressionOf id) := by
  unfold Tree.expressionOf
  refine stays_get.bind fun t => ?_
  split
  · exact (stays_ofShape _).bind fun _ => (h.edit _).bind fun _ => stays_pure _
  · exact stays_pure _

theorem replaceWithSequence (p : PathId) (hp : p.index < m) (nodes : List (Option NodeId)) :
    Leads (P m) (E m) (Tree.replaceWithSequence p nodes) := by
  unfold Tree.replaceWithSequence
  refine h.step (Stays.mapM h.expressionOf nodes) fun expressions => ?_
  split
  · exact h.replaceNode _ hp _
  · exact h.step (h.edit _) fun _ => h.replaceNode _ hp _

theorem replaceWithCall (p : PathId) (hp : p.index < m) (nodes : List (Option NodeId)) :
    Leads (P m) (E m) (Tree.replaceWithCall p nodes) :=
  h.step (h.edit _) fun _ => h.step (h.edit _) fun _ => h.step (h.edit _) fun _ =>
    (h.replaceNode p hp _).bind fun _ => h.step ((h.paths m).follow p _) fun callee =>
      h.step ((h.paths m).follow callee _) fun body =>
        h.step (stays_get.bind fun _ => (h.paths m).completionLevels _ body) fun _ =>
          Leads.forM (h.returnRecord callee body) _

theorem replaceWithStatements (p : PathId) (hp : p.index < m) (nodes : List (Option NodeId)) :
    Leads (P m) (E m) (Tree.replaceWithStatements p nodes) := by
  unfold Tree.replaceWithStatements
  refine h.step ((h.paths m).assertLive p) fun _ => leads_get.bind fun _ => ?_
  split
  · exact h.step (h.edit _) fun _ => h.step (h.edit _) fun _ => h.replaceNode _ hp _
  · dsimp only
    split
    · exact h.replaceWithSequence _ hp _
    · exact h.replaceWithCall _ hp _

/-! ## replacing and removing -/

theorem replaceSome (p : PathId) (hp : p.index < m) (replacement : NodeId) :
    Leads (P m) (E m) (Tree.replaceSome p replacement) := by
  unfold Tree.replaceSome
  refine h.step ((h.paths m).assertLive p) fun _ => leads_get.bind fun t => ?_
  dsimp only
  split
  · exact leads_pure _
  · split
    · exact leads_throw (h.le _) _
    · refine Leads.guard (leads_throw (h.le _) _) fun _ => ?_
      split
      · exact h.step (h.takeFrom _ _) fun _ => h.step (h.edit _) fun _ => h.replaceNode _ hp _
      · split
        · exact h.replaceWithStatements _ hp _
        · exact h.replaceNode _ hp _

theorem removePlain (p : PathId) : Stays (P m) (Tree.removePlain p) := by
  unfold Tree.removePlain
  refine stays_get.bind fun t => (h.shareComments p).bind fun _ => stays_get.bind fun _ =>
    (h.removeFromOwner p).bind fun _ => ?_
  split
  · exact (stays_modify (h.forget m _)).bind fun _ => h.mark p
  · exact h.mark p

theorem markUnlessFilled (p : PathId) (old : Option NodeId) :
    Leads (P m) (E m) (Tree.markUnlessFilled p old) := by
  unfold Tree.markUnlessFilled
  refine leads_get.bind fun t => ?_
  split
  · exact (h.mark p).leads (h.le m)
  · exact leads_pure _

theorem removeUpTo (fuel : Nat) (p : PathId) : Leads (P m) (E m) (Tree.removeUpTo fuel p) := by
  induction fuel generalizing p m with
  | zero => exact leads_throw (h.le _) _
  | succ fuel ih =>
    unfold Tree.removeUpTo
    refine h.step ((h.paths m).assertLive p) fun _ => h.get fun t m' _ hsize => ?_
    have hlt := t.lt_of_removal p
    dsimp only
    cases hrem : t.removal p with
    | plain => exact (h.removePlain p).leads (h.le _)
    | owner parent => exact (ih _).bind fun _ => h.markUnlessFilled p _
    | become parent other =>
      cases other with
      | some other =>
        have hparent := (hlt.1 parent _ hrem).trans_le hsize
        exact (h.replaceSome _ hparent _).bind fun _ => h.markUnlessFilled p _
      | none =>
        exact h.step ((h.paths m').assertLive _) fun _ => leads_get.bind fun _ =>
          Leads.guard (ih _) fun _ => h.markUnlessFilled p _
    | emptyBlock =>
      exact h.step (h.edit _) fun _ =>
        (h.replaceSome p ((hlt.2 hrem).trans_le hsize) _).bind fun _ =>
        h.markUnlessFilled p _

theorem remove (p : PathId) : Leads (P m) (E m) (Tree.remove p) :=
  leads_get.bind fun _ => h.removeUpTo _ p

theorem replaceWith (p : PathId) (hp : p.index < m) (replacement : Option NodeId) :
    Leads (P m) (E m) (Tree.replaceWith p replacement) := by
  unfold Tree.replaceWith
  split
  · exact h.replaceSome p hp _
  · refine h.step ((h.paths m).assertLive p) fun _ => leads_get.bind fun _ => ?_
    split
    · exact h.remove p
    · exact leads_pure _

/-! ## inserting -/

theorem insertBeside (p : PathId) (list : String) (position : Nat) (nodes : List (Option NodeId)) :
    Leads (P m) (E m) (Tree.insertBeside p list position nodes) := by
  unfold Tree.insertBeside
  refine leads_get.bind fun t => ?_
  split
  · exact leads_throw (h.le _) _
  · exact h.insertEntries _ _ _ _ _

theorem insertIntoBody (p : PathId) (hp : p.index < m) (before after : List (Option NodeId)) :
    Leads (P m) (E m) (Tree.insertIntoBody p before after) :=
  h.step (h.detachForWrap p hp) fun _ => leads_get.bind fun _ => h.step (h.edit _) fun _ =>
    (h.replaceNode p hp _).bind fun _ => leads_pure _

theorem insertBeforeHere (p : PathId) (nodes : List (Option NodeId)) :
    Leads (P m) (E m) (Tree.insertBeforeHere p nodes) := by
  unfold Tree.insertBeforeHere
  refine h.get fun t m' _ hsize => ?_
  split
  · next hp =>
    have hp := (lt_of_nodeIsA hp).trans_le hsize
    exact h.step (h.detachForWrap p hp) fun _ => (h.replaceWithStatements p hp _).bind
      fun _ => leads_pure _
  · split
    · exact h.insertBeside _ _ _ _
    · split
      · next hp => exact h.insertIntoBody _ ((lt_of_isStatementBody hp).trans_le hsize) _ _
      · exact leads_throw (h.le _) _

theorem insertAfterExpression (p : PathId) (hp : p.index < m) (nodes : List (Option NodeId)) :
    Leads (P m) (E m) (Tree.insertAfterExpression p nodes) := by
  unfold Tree.insertAfterExpression
  refine (h.scopeOf p).bind fun s => ?_
  split
  · exact leads_get.bind fun _ => leads_throw (h.le _) _
  · exact (h.declareUid _ _).bind fun _ => leads_get.bind fun _ =>
      h.step (h.detachForWrap p hp) fun _ => h.step (h.edit _) fun _ => h.step (h.edit _) fun _ =>
        h.step (h.edit _) fun _ => h.step (h.edit _) fun _ =>
          (h.replaceWithStatements p hp _).bind fun _ =>
          leads_pure _

theorem insertAfterHere (p : PathId) (nodes : List (Option NodeId)) :
    Leads (P m) (E m) (Tree.insertAfterHere p nodes) := by
  unfold Tree.insertAfterHere
  refine h.get fun t m' _ hsize => ?_
  split
  · next hp => exact h.insertAfterExpression _ ((lt_of_nodeIsA hp).trans_le hsize) _
  · split
    · exact h.insertBeside _ _ _ _
    · split
      · next hp => exact h.insertIntoBody _ ((lt_of_isStatementBody hp).trans_le hsize) _ _
      · exact leads_throw (h.le _) _

theorem insertWith {insertHere : PathId → List (Option NodeId) → TreeM (List PathId)}
    (hhere : ∀ p nodes, Leads (P m) (E m) (insertHere p nodes)) (p : PathId)
    (nodes : List (Option NodeId)) :
    Leads (P m) (E m) (Tree.insertWith insertHere p nodes) := by
  unfold Tree.insertWith
  refine h.step ((h.paths m).assertLive p) fun _ => ?_
  split
  · exact leads_pure _
  · exact leads_get.bind fun _ => leads_get.bind fun _ =>
      h.step ((h.paths m).insertionTarget _ p) fun q =>
      hhere q nodes

theorem insertBefore (p : PathId) (nodes : List (Option NodeId)) :
    Leads (P m) (E m) (Tree.insertBefore p nodes) := h.insertWith h.insertBeforeHere p nodes

theorem insertAfter (p : PathId) (nodes : List (Option NodeId)) :
    Leads (P m) (E m) (Tree.insertAfter p nodes) := h.insertWith h.insertAfterHere p nodes

theorem replaceWithMultiple (p : PathId) (hp : p.index < m) (nodes : List (Option NodeId)) :
    Leads (P m) (E m) (Tree.replaceWithMultiple p nodes) := by
  unfold Tree.replaceWithMultiple
  refine h.step ((h.paths m).assertLive p) fun _ => ?_
  split
  · exact (h.remove p).bind fun _ => leads_pure _
  · refine leads_get.bind fun _ => h.step (h.modifyArena _) fun _ =>
      (h.replaceWith p hp _).bind fun _ => ?_
    split
    · exact leads_pure _
    · exact (h.insertAfter p _).bind fun _ => leads_pure _

theorem replaceInline (p : PathId) (hp : p.index < m) (nodes : List (Option NodeId)) :
    Leads (P m) (E m) (Tree.replaceInline p nodes) := by
  unfold Tree.replaceInline
  refine h.step ((h.paths m).assertLive p) fun _ => ?_
  split
  · exact (h.replaceWith p hp _).bind fun _ => leads_pure _
  · refine leads_get.bind fun _ => ?_
    split
    · exact h.replaceWithMultiple p hp _
    · exact (h.insertAfter p _).bind fun _ => (h.remove p).bind fun _ => leads_pure _

/-! ## hoisting -/

theorem addHoistedRead (s : ScopeId) (reads : Hoisting) (node : NodeId) :
    Leads (P m) (E m) (Tree.addHoistedRead s reads node) := by
  unfold Tree.addHoistedRead
  refine h.step ((h.paths m).pathFor _) fun p => ?_
  split
  · exact leads_pure _
  · refine (h.scopeOf _).bind fun inner => ?_
    split
    · exact leads_pure _
    · refine leads_get.bind fun t => ?_
      split
      · exact leads_pure _
      · split
        · exact leads_pure _
        · dsimp only
          split
          · exact leads_pure _
          · split
            · exact leads_pure _
            · exact leads_pure _

theorem hoistedReads (p : PathId) (s : ScopeId) : Leads (P m) (E m) (Tree.hoistedReads p s) := by
  unfold Tree.hoistedReads
  refine leads_get.bind fun t => ?_
  generalize List.filter _ (t.arena.preorder (t.node p)) = candidates
  have hfold (reads : Hoisting) : Leads (P m) (E m)
      (candidates.foldlM (Tree.addHoistedRead s) reads) := by
    induction candidates generalizing reads with
    | nil => exact leads_pure _
    | cons node rest ih => exact (h.addHoistedRead s reads node).bind ih
  exact hfold {}

theorem firstStatement? (function : PathId) : Stays (P m) (Tree.firstStatement? function) := by
  unfold Tree.firstStatement?
  refine ((h.paths m).follow function _).bind fun body => stays_get.bind fun t => ?_
  split
  · exact ((h.paths m).follow body _).bind fun _ => stays_pure _
  · exact stays_pure _

theorem outermostAttachment (reads : Hoisting) (s : ScopeId) :
    Stays (P m) (Tree.outermostAttachment reads s) := by
  unfold Tree.outermostAttachment
  refine stays_get.bind fun t => ?_
  split
  · exact stays_pure _
  · dsimp only
    split
    · exact stays_pure _
    · split
      · split
        · exact stays_pure _
        · split
          · exact stays_pure _
          · exact h.firstStatement? _
      · split
        · exact stays_pure _
        · exact stays_pure _

theorem surroundingScope (p : PathId) : Leads (P m) (E m) (Tree.surroundingScope p) := by
  unfold Tree.surroundingScope
  refine (h.scopeOf p).bind fun s => ?_
  split
  · exact leads_pure _
  · refine leads_get.bind fun t => ?_
    split
    · exact leads_pure _
    · exact leads_pure _

theorem attachment (reads : Hoisting) (s : ScopeId) : Leads (P m) (E m)
    (Tree.attachment reads s) := by
  unfold Tree.attachment
  refine h.step (h.outermostAttachment reads s) fun p => ?_
  split
  · exact leads_pure _
  · refine (h.surroundingScope _).bind fun target => leads_get.bind fun t => ?_
    dsimp only
    split
    · split
      · exact leads_pure _
      · exact leads_pure _
    · exact leads_pure _

theorem hoistTo (p : PathId) (hp : p.index < m) (s : ScopeId) (place : Attachment) :
    Leads (P m) (E m) (Tree.hoistTo p s place) := by
  have hrest (uid : String) (declaration : NodeId) : Leads (P m) (E m) (do
      let inserted ←
        if place.after then Tree.insertAfter place.path [some declaration]
        else Tree.insertBefore place.path [some declaration]
      Tree.replaceWith p (some (← TreeM.edit (Arena.identifier uid)))
      return inserted.head? : TreeM (Option PathId)) := by
    have hend (inserted : List PathId) : Leads (P m) (E m) (do
        Tree.replaceWith p (some (← TreeM.edit (Arena.identifier uid)))
        return inserted.head? : TreeM (Option PathId)) :=
      h.step (h.edit _) fun _ => (h.replaceWith p hp _).bind fun _ => leads_pure _
    split
    · exact (h.insertAfter _ _).bind hend
    · exact (h.insertBefore _ _).bind hend
  unfold Tree.hoistTo
  refine h.step (h.generateUid s _) fun uid => h.step (h.detachForWrap p hp) fun _ =>
    h.step (h.edit _) fun _ => h.step (h.edit _) fun _ => leads_get.bind fun t => ?_
  by_cases hdeclarator : t.nodeIs place.path .variableDeclarator = true
  · rw [if_pos hdeclarator]
    exact (leads_pure _).bind (hrest uid)
  · rw [if_neg hdeclarator]
    exact h.step (h.edit _) (hrest uid)

theorem hoist (p : PathId) (hp : p.index < m) : Leads (P m) (E m) (Tree.hoist p) := by
  unfold Tree.hoist
  refine h.step ((h.paths m).assertLive p) fun _ => (h.scopeOf p).bind fun s => ?_
  split
  · exact leads_pure _
  · refine (h.hoistedReads p _).bind fun reads => (h.attachment reads _).bind fun place => ?_
    split
    · exact leads_pure _
    · refine leads_get.bind fun t => ?_
      split
      · exact leads_pure _
      · refine (h.scopeOf _).bind fun target => ?_
        split
        · exact leads_pure _
        · exact h.hoistTo p hp _ _

end Edits

end ScopedTree.Tree
