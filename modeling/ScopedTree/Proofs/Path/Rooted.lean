import ScopedTree.Proofs.Path.Seats

/-!
# Paths below the root

Whatever happens to nodes, one path holds the root, and all others stand below some path.

* `Tree.Rooted`            this, and how many paths are known;
* `Tree.Rooted.updatePath`   it stays so when a path moves below the root;
* `Tree.Rooted.crawls`     crawls keep it.
-/

namespace ScopedTree.Tree

/-- The path of the root holds the root and stands below no path, and all other paths stand below
some path. The paths with an index below `m` are known. -/
structure Rooted (m : Nat) (t : Tree) : Prop where
  size : m ≤ t.paths.size
  top : ∀ p, t.rootPath = some p → p.index < t.paths.size ∧ t.slot p = .root ∧ t.node p = t.root
  crown : ∀ p, t.rootPath = some p → t.parentPath p = none
  only : ∀ p, p.index < t.paths.size → t.slot p = .root → t.rootPath = some p
  below : ∀ p, p.index < t.paths.size → t.slot p ≠ .root → t.parentPath p ≠ none
  listed : ∀ o p, p ∈ t.cachedPaths o → p.index < t.paths.size ∧ t.slot p ≠ .root

variable {t t' t'' : Tree} {m : Nat} {p q : PathId} {n o x : NodeId} {slot : Slot}

theorem rooted_ofArena (a : Arena) (root : Option NodeId) (options : Options) :
    (ofArena a root options).Rooted 0 where
  size := Nat.zero_le _
  top p hp := nomatch hp
  crown p hp := nomatch hp
  only p hp := absurd hp (Nat.not_lt_zero _)
  below p hp := absurd hp (Nat.not_lt_zero _)
  listed o p hp := by
    cases o with
    | none => cases hp
    | some o => simp [cachedPaths, ofArena] at hp

theorem lt_of_slot (hp : t.slot p ≠ .root) : p.index < t.paths.size := by
  refine Nat.lt_of_not_le fun hle => hp ?_
  exact congrArg PathData.slot (path_of_size_le hle)

namespace Rooted

theorem of_paths (h : t.Rooted m) (hsize : t'.paths.size = t.paths.size)
    (hrootPath : t'.rootPath = t.rootPath) (hlists : ∀ o p, p ∈ t'.cachedPaths o →
      p ∈ t.cachedPaths o)
    (htop : ∀ p, p.index < t.paths.size → t.slot p = .root → t.node p = t.root →
      t'.slot p = .root ∧ t'.node p = t'.root ∧ t'.parentPath p = t.parentPath p)
    (hbelow : ∀ p, t.slot p ≠ .root → t.parentPath p ≠ none →
      t'.slot p ≠ .root ∧ t'.parentPath p ≠ none) : t'.Rooted m where
  size := h.size.trans_eq hsize.symm
  top p hp := by
    obtain ⟨hlt, hs, hn⟩ := h.top p (hrootPath ▸ hp)
    obtain ⟨hs', hn', -⟩ := htop p hlt hs hn
    exact ⟨hlt.trans_eq hsize.symm, hs', hn'⟩
  crown p hp := by
    have hp := hrootPath ▸ hp
    obtain ⟨hlt, hs, hn⟩ := h.top p hp
    exact (htop p hlt hs hn).2.2.trans (h.crown p hp)
  only p hp hs := by
    have hp := hp.trans_eq hsize
    have hs' : t.slot p = .root := by_contra fun hs' => (hbelow p hs' (h.below p hp hs')).1 hs
    exact hrootPath.trans (h.only p hp hs')
  below p hp hs := by
    have hp := hp.trans_eq hsize
    have hs' : t.slot p ≠ .root := fun hs' => hs (htop p hp hs' (h.top p (h.only p hp hs')).2.2).1
    exact (hbelow p hs' (h.below p hp hs')).2
  listed o p hp := by
    obtain ⟨hlt, hs⟩ := h.listed o p (hlists o p hp)
    exact ⟨hlt.trans_eq hsize.symm, (hbelow p hs (h.below p hlt hs)).1⟩

theorem of_congr (h : t.Rooted m) (hpaths : t'.paths = t.paths) (hroot : t'.root = t.root)
    (hrootPath : t'.rootPath = t.rootPath) (hlists : t'.childPaths = t.childPaths) :
    t'.Rooted m := by
  have hpath (p : PathId) : t'.path p = t.path p := by
    unfold path
    rw [hpaths]
  refine h.of_paths (congrArg Array.size hpaths) hrootPath (fun o p hp => ?_) (fun p _ hs hn => ?_)
    fun p hs hq => ?_
  · unfold cachedPaths at hp ⊢
    rwa [← hlists]
  · exact ⟨(congrArg PathData.slot (hpath p)).trans hs,
      ((congrArg PathData.node (hpath p)).trans hn).trans hroot.symm,
      congrArg PathData.parentPath (hpath p)⟩
  · exact ⟨(congrArg PathData.slot (hpath p)).trans_ne hs,
      (congrArg PathData.parentPath (hpath p)).trans_ne hq⟩

theorem mono {m' : Nat} (hm : m ≤ m') (h : t.Rooted m') : t.Rooted m :=
  { h with size := hm.trans h.size }

theorem all (h : t.Rooted m) : t.Rooted t.paths.size := { h with size := le_rfl }

/-- A path may move as long as it stays below the root. -/
theorem updatePath (h : t.Rooted m) {f : PathData → PathData} (hp : t.slot p ≠ .root)
    (hf : (f (t.path p)).slot ≠ .root ∧ (f (t.path p)).parentPath ≠ none) :
    (t.updatePath p f).Rooted m := by
  refine h.of_paths (size_updatePath ..) rfl (fun _ _ hp => hp) (fun q _ hs hn => ?_)
    fun q hs hq => ?_
  · have hother := path_updatePath_ne t f (p := p) (q := q) fun he => hp (he ▸ hs)
    exact ⟨(congrArg PathData.slot hother).trans hs, (congrArg PathData.node hother).trans hn,
      congrArg PathData.parentPath hother⟩
  · unfold Tree.slot Tree.parentPath
    rw [path_updatePath]
    split
    · exact hf
    · exact ⟨hs, hq⟩

/-- It makes no difference when paths hold the same nodes below the same paths. -/
theorem slide (h : t.Rooted m) (p : PathId) {f : PathData → PathData}
    (hf : ∀ d, (f d).node = d.node ∧ (f d).parentPath = d.parentPath
      ∧ ((f d).slot = .root ↔ d.slot = .root)) : (t.updatePath p f).Rooted m := by
  refine h.of_paths (size_updatePath ..) rfl (fun _ _ hp => hp) (fun q _ hs hn => ?_)
    fun q hs hq => ?_
  · unfold Tree.slot Tree.node Tree.parentPath
    rw [path_updatePath]
    split
    · next he =>
      obtain rfl := he.1
      exact ⟨(hf _).2.2.2 hs, (hf _).1.trans hn, (hf _).2.1⟩
    · exact ⟨hs, hn, rfl⟩
  · unfold Tree.slot Tree.parentPath
    rw [path_updatePath]
    split
    · next he =>
      obtain rfl := he.1
      exact ⟨fun hr => hs ((hf _).2.2.1 hr), (hf _).2.1.trans_ne hq⟩
    · exact ⟨hs, hq⟩

theorem pushes {d : PathData} (h : t.Rooted m) (hpush : t.Pushes t' d)
    (hd : d.slot ≠ .root ∧ d.parentPath ≠ none
      ∨ d.slot = .root ∧ d.node = t.root ∧ d.parentPath = none ∧ d.parent = none
        ∧ t.rootPath = none) : t'.Rooted m := by
  have hcases {p : PathId} (hp : p.index < t'.paths.size) : p.index < t.paths.size
      ∨ p = ⟨t.paths.size⟩ := by
    rcases Nat.lt_succ_iff_lt_or_eq.1 (hp.trans_eq hpush.size) with hlt | heq
    · exact .inl hlt
    · exact .inr (by cases p; simp_all)
  have hle : t.paths.size ≤ t'.paths.size := hpush.grows.size
  have hnew : t.paths.size < t'.paths.size := (Nat.lt_succ_self _).trans_eq hpush.size.symm
  refine ⟨h.size.trans hle, fun p hp => ?_, fun p hp => ?_, fun p hp hs => ?_, fun p hp hs => ?_,
    fun o p hp => ?_⟩
  · unfold Tree.slot Tree.node
    rw [hpush.root]
    rcases (hpush.rootPath p).1 hp with hp | ⟨rfl, hnone⟩
    · obtain ⟨hlt, hs, hn⟩ := h.top p hp
      rw [hpush.path_old hlt]
      exact ⟨hlt.trans_le hle, hs, hn⟩
    · rw [hpush.path_new]
      rcases hd with ⟨-, hq⟩ | ⟨hs, hn, -⟩
      · exact absurd hnone hq
      · exact ⟨hnew, hs, hn⟩
  · unfold Tree.parentPath
    rcases (hpush.rootPath p).1 hp with hp | ⟨rfl, hnone⟩
    · rw [hpush.path_old (h.top p hp).1]
      exact h.crown p hp
    · rw [hpush.path_new]
      exact hnone
  · unfold Tree.slot at hs
    refine (hpush.rootPath p).2 ?_
    rcases hcases hp with hlt | rfl
    · rw [hpush.path_old hlt] at hs
      exact .inl (h.only p hlt hs)
    · rw [hpush.path_new] at hs
      rcases hd with ⟨hs', -⟩ | ⟨-, -, hnone, -⟩
      · exact absurd hs hs'
      · exact .inr ⟨rfl, hnone⟩
  · unfold Tree.slot at hs
    unfold Tree.parentPath
    rcases hcases hp with hlt | rfl
    · rw [hpush.path_old hlt] at hs ⊢
      exact h.below p hlt hs
    · rw [hpush.path_new] at hs ⊢
      rcases hd with ⟨-, hq⟩ | ⟨hs', -⟩
      · exact hq
      · exact absurd hs' hs
  · unfold Tree.slot
    cases o with
    | none => cases hp
    | some o =>
      rcases (hpush.cached o p).1 hp with hp | ⟨rfl, ho⟩
      · obtain ⟨hlt, hs⟩ := h.listed (some o) p hp
        rw [hpush.path_old hlt]
        exact ⟨hlt.trans_le hle, hs⟩
      · rw [hpush.path_new]
        rcases hd with ⟨hs, -⟩ | ⟨-, -, -, hnone, -⟩
        · exact ⟨hnew, hs⟩
        · cases hnone.symm.trans ho

end Rooted

/-! ## looking paths up -/

/-- Paths may have come or moved, but none that holds `n`. -/
structure Spares (n : NodeId) (t t' : Tree) : Prop where
  arena : t'.arena = t.arena
  root : t'.root = t.root
  size : t.paths.size ≤ t'.paths.size
  path : ∀ p, t.node p = some n → t'.path p = t.path p

@[refl] theorem Spares.refl (n : NodeId) (t : Tree) : Spares n t t :=
  ⟨rfl, rfl, le_rfl, fun _ _ => rfl⟩

theorem Spares.trans (h : Spares n t t') (h' : Spares n t' t'') : Spares n t t'' where
  arena := h'.arena.trans h.arena
  root := h'.root.trans h.root
  size := h.size.trans h'.size
  path p hp := (h'.path p ((congrArg PathData.node (h.path p hp)).trans hp)).trans (h.path p hp)

theorem Pushes.spares {d : PathData} (h : t.Pushes t' d) (n : NodeId) : Spares n t t' :=
  ⟨h.arena, h.root, h.grows.size, fun _ hp => h.path_old (lt_of_node hp)⟩

/-! ## bringing paths in line -/

/-- A path below the root stays below it. -/
def Follows (f : PathData → PathData) : Prop :=
  ∀ d, d.slot ≠ .root → d.parentPath ≠ none → (f d).slot ≠ .root ∧ (f d).parentPath ≠ none

/-- To bring a path in line is to look up paths and to move this one, which goes on holding its
node. -/
theorem Looked.stays_resync {P : Tree → Prop} (h : Looked P)
    (hmove : ∀ f, Follows f → (∀ d, (f d).node = d.node) →
      Stays P (modify (·.updatePath p f) : TreeM Unit)) :
    Stays P (resync p) := by
  have hsome (x : Option PathId) (d : PathData) (hq : d.parentPath ≠ none) :
      (x <|> d.parentPath) ≠ none := by
    cases x
    · exact hq
    · exact Option.some_ne_none _
  have hparent (owner : Option NodeId) : Stays P (resyncParent p owner) := by
    unfold resyncParent
    refine stays_get.bind fun t => ?_
    dsimp only
    split
    · exact (h.pathFor _).bind fun x => hmove _ (fun d hs hq => ⟨hs, hsome x d hq⟩) fun _ => rfl
    · split
      · refine stays_get.bind fun t => ?_
        split
        · exact (h.pathFor _).bind fun x => hmove _ (fun d hs hq => ⟨hs, hsome x d hq⟩) fun _ => rfl
        · exact stays_pure _
      · exact stays_pure _
  have hslot (owner x : Option NodeId) : Stays P (resyncSlot p owner x) := by
    unfold resyncSlot
    refine stays_get.bind fun t => ?_
    dsimp only
    split
    · exact hmove _ (fun _ hs hq => ⟨hs, hq⟩) fun _ => rfl
    · split
      · next slot hslot => exact hmove _ (fun _ _ hq => ⟨findSlot_ne_root hslot, hq⟩) fun _ => rfl
      · exact hmove _ (fun _ hs hq => ⟨hs, hq⟩) fun _ => rfl
  unfold resync
  refine stays_get.bind fun t => ?_
  dsimp only
  split
  · exact stays_pure _
  · split
    · exact hmove _ (fun _ hs hq => ⟨hs, hq⟩) fun _ => rfl
    · exact (hparent _).bind fun _ => hslot _ _

namespace Rooted

theorem ends_getRootPath (h : t.Rooted m) : Ends (getRootPath t) (fun q t' => t'.Rooted m
    ∧ (∀ p, t.slot p ≠ .root → t'.slot p ≠ .root) ∧ (∀ n, Spares n t t')
    ∧ q.index < t'.paths.size ∧ t'.node q = t.root) fun _ _ => False := by
  obtain ⟨q, hq, hrun⟩ | ⟨hq, t', hrun, hpush⟩ := getRootPath_find t <;> rw [hrun]
  · obtain ⟨hlt, -, hn⟩ := h.top q hq
    exact ⟨h, fun _ hs => hs, fun n => .refl n t, hlt, hn⟩
  · exact ⟨h.pushes hpush (.inr ⟨rfl, rfl, rfl, rfl, hq⟩),
      fun p hs => (congrArg PathData.slot (hpush.path_old (lt_of_slot hs))).trans_ne hs,
        hpush.spares,
      (Nat.lt_succ_self _).trans_eq hpush.size.symm, congrArg PathData.node hpush.path_new⟩

theorem ends_child (h : t.Rooted m) (hs : slot ≠ .root) (owner : Option NodeId) :
    Ends (getOrCreatePath (some q) owner slot t) (fun p t' => t'.Rooted m
      ∧ (∀ p, t.slot p ≠ .root → t'.slot p ≠ .root)
      ∧ (∀ n, t.readSlot owner slot ≠ some n → Spares n t t')
      ∧ p.index < t'.paths.size ∧ t'.node p = t.readSlot owner slot) fun _ _ => False := by
  obtain ⟨p, hp, hn, hrun⟩ | ⟨t', hrun, hpush⟩ := getOrCreatePath_cases t q owner slot
  · obtain ⟨hlt, hsp⟩ := h.listed owner p hp
    rw [hrun]
    refine ⟨h.updatePath hsp ⟨hs, Option.some_ne_none q⟩, fun p' hp' => ?_,
      fun n hne => ⟨rfl, rfl, (size_updatePath ..).ge, fun p' hp' => ?_⟩,
      hlt.trans_eq (size_updatePath ..).symm, ?_⟩
    · unfold Tree.slot
      rw [path_updatePath]
      split
      · exact hs
      · exact hp'
    · exact path_updatePath_ne _ _ fun he => hne (by rw [← hn, ← he, hp'])
    · exact congrArg PathData.node (path_updatePath_self _ _ hlt)
  · rw [hrun]
    exact ⟨h.pushes hpush (.inl ⟨hs, Option.some_ne_none q⟩),
      fun p hp => (congrArg PathData.slot (hpush.path_old (lt_of_slot hp))).trans_ne hp,
      fun n _ => hpush.spares n, (Nat.lt_succ_self _).trans_eq hpush.size.symm,
      congrArg PathData.node hpush.path_new⟩

theorem note (h : t.Rooted m) (p : PathId) {f : PathData → PathData}
    (hf : ∀ d, (f d).stand = d.stand) :
    (t.updatePath p f).Rooted m := by
  refine h.slide p fun d => ?_
  have hstand := hf d
  unfold PathData.stand PathData.place at hstand
  simp only [Prod.mk.injEq] at hstand
  exact ⟨hstand.1.1, hstand.2, by rw [hstand.1.2.2.1]⟩

/-- A path that is not the one of the root does not become it when paths are looked up. -/
theorem looked (m : Nat) (ps : List PathId) :
    Looked fun t => t.Rooted m ∧ ∀ p ∈ ps, t.slot p ≠ .root where
  note t p f hf h := by
    refine ⟨h.1.note p fun d => (hf d).1, fun q hq => ?_⟩
    exact (t.path_updatePath_congr p q f PathData.slot fun d =>
      congrArg (·.1.2.2.1) (hf d).1).trans_ne (h.2 q hq)
  root := stays_iff.2 fun t h => by
    refine h.1.ends_getRootPath.imp ?_ fun _ _ hf => hf.elim
    rintro q t' ⟨h', hslots, -⟩
    exact ⟨h', fun q hq => hslots q (h.2 q hq)⟩
  child parentPath owner slot hs := stays_iff.2 fun t h => by
    cases parentPath with
    | none =>
      refine h.1.ends_getRootPath.imp ?_ fun _ _ hf => hf.elim
      rintro q t' ⟨h', hslots, -⟩
      exact ⟨h', fun q hq => hslots q (h.2 q hq)⟩
    | some q =>
      refine (h.1.ends_child hs owner).imp ?_ fun _ _ hf => hf.elim
      rintro q t' ⟨h', hslots, -⟩
      exact ⟨h', fun q hq => hslots q (h.2 q hq)⟩

theorem stays_move (p : PathId) {f : PathData → PathData} (hf : Follows f) :
    Stays (fun t => t.Rooted m ∧ ∀ q ∈ [p], t.slot q ≠ .root)
      (modify (·.updatePath p f) : TreeM Unit) := by
  refine stays_modify fun t ⟨h, hps⟩ => ?_
  have hs := hps p (List.mem_singleton_self p)
  have hself := hf (t.path p) hs (h.below p (lt_of_slot hs) hs)
  refine ⟨h.updatePath hs hself, fun q hq => ?_⟩
  obtain rfl := List.mem_singleton.1 hq
  exact (congrArg PathData.slot (path_updatePath_self t f (lt_of_slot hs))).trans_ne hself.1

theorem charted (m : Nat) : Charted (Rooted m) where
  note _ p _ hf h := h.note p fun d => (hf d).1
  root := stays_iff.2 fun _ h => (stays_iff.1 (looked m []).root _ ⟨h, nofun⟩).imp
    (fun _ _ h => h.1) fun _ _ h => h.1
  child parentPath owner slot hs := stays_iff.2 fun _ h =>
    (stays_iff.1 ((looked m []).child parentPath owner slot hs) _ ⟨h, nofun⟩).imp
      (fun _ _ h => h.1) fun _ _ h => h.1
  resync p := by
    refine stays_iff.2 fun t h => ?_
    by_cases hs : t.slot p = .root
    · rw [resync_of_root hs]
      exact h
    · have hmoves := (looked m [p]).stays_resync fun _ hf _ => stays_move p hf
      refine (stays_iff.1 hmoves t ⟨h, fun q hq => ?_⟩).imp (fun _ _ h => h.1) fun _ _ h => h.1
      obtain rfl := List.mem_singleton.1 hq
      exact hs

theorem tableless (m : Nat) : Tableless (Rooted m) where
  paths := charted m
  scope _ _ _ _ h := h.of_congr rfl rfl rfl rfl
  bindings _ _ _ h := h.of_congr rfl rfl rfl rfl
  newScope _ _ _ _ h := h.of_congr rfl rfl rfl rfl

/-- **Crawls leave all other paths below the path of the root.** -/
theorem crawls (m : Nat) : Crawls (Rooted m) 0 where
  __ := (tableless m).names
  stack _ p _ hf h := h.note p hf
  next _ _ := Nat.zero_le _
  depth _ _ h := h.of_congr rfl rfl rfl rfl
  push _ _ _ h := h.of_congr rfl rfl rfl rfl
  pop _ _ _ h := h.of_congr rfl rfl rfl rfl
  update _ _ _ _ _ h := h.of_congr rfl rfl rfl rfl

end Rooted

end ScopedTree.Tree
