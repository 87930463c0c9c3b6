import ScopedTree.Proofs.Arena.Term
import ScopedTree.Proofs.Edit.Put
import ScopedTree.Proofs.Path.Rooted

/-!
# Paths in step with a node

The paths made below a node are in step with it when each of those in use holds what is at its
place. While paths are looked up and scopes are crawled, a path goes to another place only to sit
where its node is. So paths in step with their node stay so, and they stay where they are.

* `Tree.Suits`, `Tree.InStep`   paths in step with a node;
* `Tree.Aligns`                 paths stay where they are or come to sit at the place of their node;
* `Tree.Aligns.slot_eq`         those that suit stay where they are;
* `Tree.Aligns.crawls`          looking paths up and crawling does no more than that.
-/

namespace ScopedTree.Tree

open Arena

variable {t t' t'' : Tree} {m n o : NodeId} {p q : PathId} {s s' : Slot}

/-- The path holds what is at its place in `m`, or it holds none and there is none. -/
def Suits (t : Tree) (m : NodeId) (p : PathId) : Prop := t.node p = t.readSlot (some m) (t.slot p)

/-- Each path in use that was made below `m` suits, and no two of them hold the same node. -/
structure InStep (t : Tree) (m : NodeId) : Prop where
  suits : ∀ p ∈ t.cachedPaths (some m), (t.path p).removed = false → t.Suits m p
  apart : ∀ p ∈ t.cachedPaths (some m), ∀ q ∈ t.cachedPaths (some m), (t.path p).removed = false →
    (t.path q).removed = false → ∀ n, t.node p = some n → t.node q = some n → p = q

instance (t : Tree) (m : NodeId) (p : PathId) : Decidable (t.Suits m p) :=
  inferInstanceAs (Decidable (_ = _))

instance (t : Tree) (m : NodeId) : Decidable (t.InStep m) :=
  decidable_of_iff ((∀ p ∈ t.cachedPaths (some m), (t.path p).removed = false → t.Suits m p)
      ∧ ∀ p ∈ t.cachedPaths (some m), ∀ q ∈ t.cachedPaths (some m), (t.path p).removed = false →
        (t.path q).removed = false → t.node p = t.node q → (t.node p).isSome → p = q) <| by
    constructor
    · rintro ⟨hsuits, hapart⟩
      exact ⟨hsuits, fun p hp q hq hpr hqr n hpn hqn =>
        hapart p hp q hq hpr hqr (hpn.trans hqn.symm) (Option.isSome_of_eq_some hpn)⟩
    · rintro ⟨hsuits, hapart⟩
      refine ⟨hsuits, fun p hp q hq hpr hqr heq hsome => ?_⟩
      obtain ⟨n, hn⟩ := Option.isSome_iff_exists.1 hsome
      exact hapart p hp q hq hpr hqr n hn (heq.symm.trans hn)

theorem place_unique (ha : t.arena.Owned) {o' : NodeId} (hs : s ≠ .root) (hs' : s' ≠ .root)
    (h : t.readSlot (some o) s = some n) (h' : t.readSlot (some o') s' = some n) :
    o = o' ∧ s = s' := by
  obtain rfl : o = o' := (ha.owner_of_child o n (mem_children_of_readSlot hs h)).unique
    (ha.owner_of_child o' n (mem_children_of_readSlot hs' h'))
  rw [readSlot_eq _ _ hs] at h
  rw [readSlot_eq _ _ hs'] at h'
  exact ⟨rfl, ha.slot_unique h h'⟩

theorem servesSlot_some :
    t.servesSlot s (some n) p = true ↔ (t.path p).removed = false ∧ t.node p = some n := by
  simp only [servesSlot, Option.isSome_some, if_true, Bool.and_eq_true,
    Bool.not_eq_true', beq_iff_eq]
  rfl

theorem servesSlot_none : t.servesSlot s none p = true
    ↔ (t.path p).removed = false ∧ t.node p = none ∧ t.slot p = s := by
  simp only [servesSlot, Option.isSome_none, Bool.false_eq_true, if_false, Bool.and_eq_true,
    Bool.not_eq_true', Option.isNone_iff_eq_none, beq_iff_eq]
  rfl

/-! ## looking around -/

theorem Retraces.readSlot (h : t.Retraces t') (owner : Option NodeId) (s : Slot) :
    t'.readSlot owner s = t.readSlot owner s := by
  cases s <;> simp only [Tree.readSlot, h.arena, h.root]

/-- Paths are retraced. One that does not stay where it is comes to sit at the place of its node.
Nodes that paths are in step with stay so. -/
structure Aligns (t t' : Tree) : Prop extends Retraces t t' where
  placed : ∀ p, p.index < t.paths.size → t'.slot p = t.slot p
    ∨ (t.path p).removed = false ∧ ∃ n o, t'.Sits p n o
  inStep : ∀ m, t.InStep m → t'.InStep m

section

variable (ha : t.arena.WellOwned) (hf : t.Filed)

include ha hf

theorem Retraces.slot_eq (h : t.Retraces t') (hplaced : t'.slot p = t.slot p
      ∨ (t.path p).removed = false ∧ ∃ n o, t'.Sits p n o)
    (hp : p ∈ t.cachedPaths (some m)) (hsuit : (t.path p).removed = false → t.Suits m p) :
    t'.slot p = t.slot p := by
  obtain ⟨hlt, hs⟩ := hf.listed _ p hp
  rcases hplaced with hsame | ⟨hr, n, o, hsits⟩
  · exact hsame
  · -- the node is at one place only
    have hholds := hsits.holds
    rw [h.readSlot] at hholds
    have hn := (h.nodes p hlt).symm.trans hsits.node
    exact (place_unique ha.owned hsits.slot hs hholds ((hsuit hr).symm.trans hn)).2

theorem Retraces.suits (h : t.Retraces t') (hplaced : t'.slot p = t.slot p
      ∨ (t.path p).removed = false ∧ ∃ n o, t'.Sits p n o)
    (hp : p ∈ t.cachedPaths (some m)) (hsuit : t.Suits m p) : t'.Suits m p := by
  rw [Suits, h.nodes p (hf.listed _ p hp).1, h.slot_eq ha hf hplaced hp fun _ => hsuit, h.readSlot]
  exact hsuit

/-- Paths stay in step if none moves but to sit at the place of its node, and if those that come
hold what is at their place and no other holds. -/
theorem Retraces.inStep (h : t.Retraces t')
    (hplaced : ∀ p, p.index < t.paths.size → t'.slot p = t.slot p
      ∨ (t.path p).removed = false ∧ ∃ n o, t'.Sits p n o)
    (hnew : ∀ p ∈ t'.cachedPaths (some m), t.paths.size ≤ p.index → t'.Suits m p
      ∧ ∀ q ∈ t'.cachedPaths (some m), (t'.path q).removed = false →
        ∀ n, t'.node p = some n → t'.node q = some n → q = p)
    (hin : t.InStep m) : t'.InStep m := by
  have hold (p : PathId) (hp : p ∈ t'.cachedPaths (some m)) (hlt : p.index < t.paths.size) :
      p ∈ t.cachedPaths (some m) := by
    obtain ⟨new, hnew, hge⟩ := h.lists (some m)
    rw [hnew] at hp
    exact (List.mem_append.1 hp).resolve_right fun hp => Nat.not_le.2 hlt (hge p hp)
  have hused (p : PathId) (hlt : p.index < t.paths.size) (hr : (t'.path p).removed = false) :
      (t.path p).removed = false := (h.removed p hlt).symm.trans hr
  refine ⟨fun p hp hr => ?_, fun p hp q hq hpr hqr n hpn hqn => ?_⟩
  · by_cases hlt : p.index < t.paths.size
    · have hmem := hold p hp hlt
      exact h.suits ha hf (hplaced p hlt) hmem (hin.suits p hmem (hused p hlt hr))
    · exact (hnew p hp (Nat.le_of_not_lt hlt)).1
  · by_cases hlt : p.index < t.paths.size
    · by_cases hlt' : q.index < t.paths.size
      · exact hin.apart p (hold p hp hlt) q (hold q hq hlt') (hused p hlt hpr) (hused q hlt' hqr) n
          ((h.nodes p hlt).symm.trans hpn) ((h.nodes q hlt').symm.trans hqn)
      · exact (hnew q hq (Nat.le_of_not_lt hlt')).2 p hp hpr n hqn hpn
    · exact ((hnew p hp (Nat.le_of_not_lt hlt)).2 q hq hqr n hpn hqn).symm

end

namespace Aligns

theorem refl (h : t.Filed) : t.Aligns t :=
  ⟨.refl h, fun _ _ => .inl rfl, fun _ hin => hin⟩

theorem trans (h : t.Aligns t') (h' : t'.Aligns t'') : t.Aligns t'' where
  toRetraces := h.toRetraces.trans h'.toRetraces
  placed p hp := by
    rcases h'.placed p (hp.trans_le h.size) with hs' | ⟨hr, hsits⟩
    · refine (h.placed p hp).imp hs'.trans ?_
      rintro ⟨hr, n, o, hsits⟩
      exact ⟨hr, n, o, h'.sits p n o hsits⟩
    · exact .inr ⟨(h.removed p hp).symm.trans hr, hsits⟩
  inStep m hin := h'.inStep m (h.inStep m hin)

section

variable (ha : t.arena.WellOwned)

include ha

/-- **A path that suits stays where it is.** -/
theorem slot_eq (hf : t.Filed) (h : t.Aligns t') (hp : p ∈ t.cachedPaths (some m))
    (hsuit : (t.path p).removed = false → t.Suits m p) : t'.slot p = t.slot p :=
  h.toRetraces.slot_eq ha hf (h.placed p (hf.listed _ p hp).1) hp hsuit

theorem suits (hf : t.Filed) (h : t.Aligns t') (hp : p ∈ t.cachedPaths (some m))
    (hsuit : t.Suits m p) :
    t'.Suits m p :=
  h.toRetraces.suits ha hf (h.placed p (hf.listed _ p hp).1) hp hsuit

theorem of_lists (hf : t.Filed) (h : t.Retraces t') (hplaced : ∀ p, p.index < t.paths.size →
      t'.slot p = t.slot p ∨ (t.path p).removed = false ∧ ∃ n o, t'.Sits p n o)
    (hlists : ∀ m, t'.cachedPaths m = t.cachedPaths m) : t.Aligns t' := by
  refine ⟨h, hplaced, fun m hin => h.inStep ha hf hplaced (fun p hp hge => ?_) hin⟩
  rw [hlists] at hp
  exact absurd (hf.listed _ p hp).1 (Nat.not_lt.2 hge)

theorem of_congr (h : t.Aligns t') (harena : t''.arena = t'.arena) (hroot : t''.root = t'.root)
    (hoptions : t''.options = t'.options) (hrootPath : t''.rootPath = t'.rootPath)
    (hpath : ∀ p, (t''.path p).place = (t'.path p).place) (hsize : t''.paths.size = t'.paths.size)
    (hlists : ∀ m, t''.cachedPaths m = t'.cachedPaths m) : t.Aligns t'' := by
  refine h.trans (of_lists (by rwa [h.arena]) h.filed
    ((Retraces.refl h.filed).of_congr harena hroot hoptions hrootPath hpath hsize hlists)
    (fun p _ => .inl ?_) hlists)
  exact congrArg (·.2.2.1) (hpath p)

theorem note (h : t.Aligns t') (p : PathId) {f : PathData → PathData}
    (hf : ∀ d, (f d).place = d.place) :
    t.Aligns (t'.updatePath p f) :=
  h.of_congr ha rfl rfl rfl rfl (fun q => t'.path_updatePath_congr p q f PathData.place hf)
    (size_updatePath ..) fun _ => rfl

theorem seat (hf : t.Filed) {f : PathData → PathData} (h : t.Retraces (t.updatePath p f))
    (hp : (f (t.path p)).slot = t.slot p
      ∨ (t.path p).removed = false ∧ ∃ n o, (t.updatePath p f).Sits p n o) :
    t.Aligns (t.updatePath p f) := by
  refine of_lists ha hf h (fun q hq => ?_) fun _ => rfl
  by_cases hqp : q = p
  · subst hqp
    exact hp.imp_left fun hs => (congrArg PathData.slot (path_updatePath_self t f hq)).trans hs
  · exact .inl (congrArg PathData.slot (path_updatePath_ne t f hqp))

/-- A path is made for a place below a node, and no path in use there holds what is at that place.
-/
theorem push {d : PathData} (hf : t.Filed) (h : t.Retraces t') (hpush : t.Pushes t' d)
    (hsuit : ∀ o, d.parent = some o → d.node = t.readSlot (some o) d.slot)
    (hnone : ∀ o n, d.parent = some o → d.node = some n →
      ∀ q ∈ t.cachedPaths (some o), (t.path q).removed = false → t.node q ≠ some n) :
    t.Aligns t' := by
  have hplaced (p : PathId) (hp : p.index < t.paths.size) : t'.slot p = t.slot p :=
    congrArg PathData.slot (hpush.path_old hp)
  refine ⟨h, fun p hp => .inl (hplaced p hp), fun m hin =>
    h.inStep ha hf (fun p hp => .inl (hplaced p hp)) (fun p hp hge => ?_) hin⟩
  obtain ⟨rfl, hd⟩ : p = ⟨t.paths.size⟩ ∧ d.parent = some m :=
    ((hpush.cached m p).1 hp).resolve_left fun hp => Nat.not_le.2 (hf.listed _ p hp).1 hge
  have hnode : t'.node ⟨t.paths.size⟩ = d.node := congrArg PathData.node hpush.path_new
  refine ⟨?_, fun q hq hr n hn hqn => ?_⟩
  · rw [Suits, hnode, show t'.slot ⟨t.paths.size⟩ = d.slot
      from congrArg PathData.slot hpush.path_new, h.readSlot]
    exact hsuit m hd
  · rcases (hpush.cached m q).1 hq with hq | ⟨rfl, -⟩
    · have hold := hpush.path_old (hf.listed _ q hq).1
      exact absurd ((congrArg PathData.node hold).symm.trans hqn)
        (hnone m n hd (hnode.symm.trans hn) q hq ((congrArg PathData.removed hold).symm.trans hr))
    · rfl

/-- A path that is looked up stays if it holds no node, and sits where its node is if it holds one.
-/
theorem getOrCreatePath (hf : t.Filed) (q : PathId) (owner : Option NodeId) (hs : s ≠ .root) :
    t.Aligns (final (Tree.getOrCreatePath (some q) owner s t)) := by
  have hret : t.Retraces (final (Tree.getOrCreatePath (some q) owner s t)) :=
    (Retraces.looked ha).child (some q) owner s hs t (.refl hf)
  obtain ⟨p, hfind, hrun⟩ | ⟨hfind, t', hrun, hpush⟩ := getOrCreatePath_find t q owner s
  · rw [hrun] at hret ⊢
    have hserves := List.find?_some hfind
    obtain ⟨hlt, -⟩ := hf.listed owner p (List.mem_of_find?_eq_some hfind)
    refine seat ha hf hret ?_
    cases hnode : t.readSlot owner s with
    | none =>
      rw [hnode, servesSlot_none] at hserves
      exact .inl hserves.2.2.symm
    | some n =>
      rw [hnode, servesSlot_some] at hserves
      obtain ⟨o, rfl⟩ : ∃ o, owner = some o := by
        cases owner with
        | none => cases (readSlot_none hs).symm.trans hnode
        | some o => exact ⟨o, rfl⟩
      have hself := path_updatePath_self t ({ · with
        parentPath := some q, parent := some o, slot := s, node := some n, stale := false }) hlt
      refine .inr ⟨hserves.1, n, o, (congrArg PathData.slot hself).trans_ne hs,
        congrArg PathData.node hself, congrArg PathData.parent hself, ?_⟩
      exact (congrArg (t.readSlot (some o)) (congrArg PathData.slot hself)).trans hnode
  · rw [hrun] at hret ⊢
    refine push ha hf hret hpush (fun o ho => ?_) fun o n ho hn k hk hr hkn => ?_
    · rw [show owner = some o from ho]
    · have hnot := List.find?_eq_none.1 hfind k ((show owner = some o from ho) ▸ hk)
      rw [show t.readSlot owner s = some n from hn] at hnot
      exact hnot (servesSlot_some.2 ⟨hr, hkn⟩)

theorem getRootPath (hf : t.Filed) : t.Aligns (final (Tree.getRootPath t)) := by
  have hret := retraces_getRootPath hf
  obtain ⟨p, -, hrun⟩ | ⟨-, t', hrun, hpush⟩ := getRootPath_find t <;> rw [hrun] at hret ⊢
  · exact refl hf
  · -- the path of the root is not made below a node
    refine push ha hf hret hpush (fun _ ho => ?_) fun _ _ ho => ?_ <;> cases ho

theorem looked : Looked t.Aligns where
  note _ p _ hf h := h.note ha p fun d => congrArg Prod.fst (hf d).1
  root _ h := h.trans (getRootPath (by rwa [h.arena]) h.filed)
  child parentPath owner s hs t' h := by
    have ha' : t'.arena.WellOwned := by rwa [h.arena]
    cases parentPath with
    | none => exact h.trans (getRootPath ha' h.filed)
    | some q => exact h.trans (getOrCreatePath ha' h.filed q owner hs)

/-! ## bringing paths in line -/

theorem ends_resyncParent (hf : t.Filed) (hn : t.node p = some n) (hs : t.slot p ≠ .root)
    (hm : t.arena.OwnedBy n m) :
    Ends (resyncParent p (some m) t) (fun _ t' => t.Aligns t') fun _ t' => t.Aligns t' := by
  have hlook := stays_iff.1 ((looked ha).pathFor (some m)) t (.refl hf)
  have hmove (f : Option PathId → PathData → PathData) (hf : ∀ x d, (f x d).node = d.node
      ∧ (f x d).slot = d.slot ∧ (f x d).removed = d.removed
      ∧ ((f x d).parent = d.parent ∨ (f x d).parent = some m)) :
      Ends ((do
        let x ← pathFor (some m)
        modify (·.updatePath p (f x)) : TreeM Unit) t) (fun _ t' => t.Aligns t')
          fun _ t' => t.Aligns t' := by
    refine ends_bind.2 (hlook.mono fun x t' h => h.trans ?_)
    obtain ⟨hnode, hslot, hremoved, hparent⟩ := hf x (t'.path p)
    have hlt := lt_of_node hn
    have hn' := (h.nodes p hlt).trans hn
    have hs' : t'.slot p ≠ .root := fun hr => hs ((h.slots p hlt).1 hr)
    have howner (k : NodeId) (hk : t.arena.OwnedBy n k) (hp : t'.parentNode p = some k) :
        (f x (t'.path p)).parent = some k := by
      rcases hparent with hparent | hparent
      · exact hparent.trans hp
      · rw [hparent, hm.unique hk]
    refine seat (by rwa [h.arena]) h.filed (Retraces.seat h.filed (hlt.trans_le h.size) hs' hnode
      (hslot.trans_ne hs') hremoved (fun k k' hk hk' hp => ?_) fun k k' hsits => ?_) (.inl hslot)
    · obtain rfl := Option.some.inj (hn'.symm.trans hk)
      exact howner k' (by rwa [← h.arena]) hp
    · obtain rfl := Option.some.inj (hn'.symm.trans hsits.node)
      have hk' := hsits.owned (by rw [h.arena]; exact ha.owned)
      exact ⟨howner k' (by rwa [← h.arena]) hsits.parent, hslot ▸ hsits.holds⟩
  unfold resyncParent
  rw [run_get_bind]
  split
  · exact hmove (fun x d => { d with parent := some m, parentPath := x <|> d.parentPath })
      fun _ _ => ⟨rfl, rfl, rfl, .inr rfl⟩
  · cases (t.path p).parentPath with
    | none => exact refl hf
    | some q =>
      dsimp only
      rw [run_get_bind]
      split
      · exact hmove (fun x d => { d with parentPath := x <|> d.parentPath })
          fun _ _ => ⟨rfl, rfl, rfl, .inl rfl⟩
      · exact refl hf

theorem ends_resyncSlot (hf : t.Filed) (hn : t.node p = some n) (hs : t.slot p ≠ .root)
    (hr : (t.path p).removed = false) (hpar : t.parentNode p = some m) :
    Ends (resyncSlot p (some m) (some n) t) (fun _ t' => t.Aligns t') fun _ t' => t.Aligns t' := by
  have hends := Tree.ends_resyncSlot hf ha hn hs hpar
  unfold resyncSlot at hends ⊢
  rw [run_get_bind] at hends ⊢
  split
  · exact (refl hf).note ha p fun _ => rfl
  · next hread =>
    rw [if_neg hread] at hends
    cases hfind : t.findSlot (some m) (some n) with
    | none => exact (refl hf).note ha p fun _ => rfl
    | some slot =>
      rw [hfind] at hends
      obtain ⟨hret, hsits⟩ := hends
      exact seat ha hf hret (.inr ⟨hr, n, m, hsits
        (congrArg PathData.stale (path_updatePath_self t _ (lt_of_node hn)))⟩)

theorem charted : Charted t.Aligns where
  toLooked := looked ha
  resync p := stays_iff.2 fun t' h => by
    have ha' : t'.arena.WellOwned := by rwa [h.arena]
    unfold Tree.resync
    rw [run_get_bind]
    by_cases hskip : ((t'.path p).removed || (t'.path p).slot == .root || (t'.path p).node.isNone)
      = true
    · rw [if_pos hskip]
      exact h
    · rw [if_neg hskip]
      simp only [Bool.or_eq_true, not_or, beq_iff_eq, Option.isNone_iff_eq_none,
        Bool.not_eq_true] at hskip
      obtain ⟨⟨hr, hs⟩, hn⟩ := hskip
      obtain ⟨n, hn⟩ := Option.ne_none_iff_exists'.1 hn
      have hlt : p.index < t'.paths.size := lt_of_node hn
      cases hown : t'.arena.parentOf (t'.path p).node with
      | none => exact h.note ha p fun _ => rfl
      | some m =>
        have hm : t'.arena.OwnedBy n m := by rw [hn] at hown; exact hown
        have hparent := (ends_resyncParent ha' h.filed hn hs hm).and
          (Tree.ends_resyncParent h.filed ha' hn hs hm)
        refine ends_bind.2 (hparent.imp ?_ fun _ _ h₁ => h.trans h₁.1)
        rintro _ t₁ ⟨h₁, -, hpar⟩
        rw [hn]
        exact (ends_resyncSlot (by rwa [h₁.arena]) h₁.filed ((h₁.nodes p hlt).trans hn)
          (fun hroot => hs ((h₁.slots p hlt).1 hroot)) ((h₁.removed p hlt).trans hr) hpar).imp
          (fun _ _ h₂ => h.trans (h₁.trans h₂)) fun _ _ h₂ => h.trans (h₁.trans h₂)

theorem tableless : Tableless t.Aligns where
  paths := charted ha
  scope _ _ _ _ h := h.of_congr ha rfl rfl rfl rfl (fun _ => rfl) rfl fun _ => rfl
  bindings _ _ _ h := h.of_congr ha rfl rfl rfl rfl (fun _ => rfl) rfl fun _ => rfl
  newScope _ _ _ _ h := h.of_congr ha rfl rfl rfl rfl (fun _ => rfl) rfl fun _ => rfl

/-- **Crawls align paths**: none goes to another place but one where its node is. -/
theorem crawls : Crawls t.Aligns 0 where
  __ := (tableless ha).names
  stack _ p _ hf h := h.note ha p fun d => congrArg Prod.fst (hf d)
  next _ _ := Nat.zero_le _
  depth _ _ h := h.of_congr ha rfl rfl rfl rfl (fun _ => rfl) rfl fun _ => rfl
  push _ _ _ h := h.of_congr ha rfl rfl rfl rfl (fun _ => rfl) rfl fun _ => rfl
  pop _ _ _ h := h.of_congr ha rfl rfl rfl rfl (fun _ => rfl) rfl fun _ => rfl
  update _ _ _ _ _ h := h.of_congr ha rfl rfl rfl rfl (fun _ => rfl) rfl fun _ => rfl

end

end Aligns

end ScopedTree.Tree
