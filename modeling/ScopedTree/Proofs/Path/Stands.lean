import ScopedTree.Proofs.Path.Resync

/-!
# Paths that stand for a place

A path that stands at the place of its node goes on doing so while paths are looked up and scopes
are crawled, whatever state other paths are in.

* `Tree.Stands`          the path holds the root, or it sits at the place of its node;
* `Tree.Moored`          it does so, and nodes are what they were;
* `Tree.Moored.crawls`   crawls keep that;
* `Tree.Rooted.ends_assertLive`   a path that is found live stands for a place.
-/

namespace ScopedTree.Tree

open Arena

variable {t t' : Tree} {a : Arena} {root owner : Option NodeId} {p q : PathId} {n m : NodeId}

/-- The path `p` stands at the place of `n` in `owner`; without an owner it is the one of the root.
-/
def Stands (t : Tree) (p : PathId) (n : NodeId) : Option NodeId → Prop
  | none => t.slot p = .root ∧ t.root = some n ∧ t.node p = some n
  | some o => t.Sits p n o

theorem Stands.node (h : t.Stands p n owner) : t.node p = some n := by
  cases owner with
  | none => exact h.2.2
  | some o => exact Sits.node h

theorem Stands.congr (h : t.Stands p n owner) (harena : t'.arena = t.arena)
    (hroot : t'.root = t.root) (hplace : (t'.path p).place = (t.path p).place) :
    t'.Stands p n owner := by
  have hslot : t'.slot p = t.slot p := congrArg (·.2.2.1) hplace
  have hnode : t'.node p = t.node p := congrArg (·.1) hplace
  cases owner with
  | none => exact ⟨hslot.trans h.1, hroot.trans h.2.1, hnode.trans h.2.2⟩
  | some o =>
    have hread (s : Slot) : t'.readSlot (some o) s = t.readSlot (some o) s := by
      cases s <;> simp only [readSlot, harena, hroot]
    refine ⟨hslot.trans_ne (Sits.slot h), hnode.trans h.node, ?_, ?_⟩
    · exact (congrArg (·.2.1) hplace).trans (Sits.parent h)
    · rw [hslot, hread]
      exact Sits.holds h

/-- The path `p` stands for its place, over the nodes `a` below `root`. -/
structure Moored (a : Arena) (root : Option NodeId) (p : PathId) (n : NodeId)
    (owner : Option NodeId) (t : Tree) : Prop where
  rooted : t.Rooted 0
  arena : t.arena = a
  root : t.root = root
  stands : t.Stands p n owner

namespace Moored

theorem of_place (h : Moored a root p n owner t) (hrooted : t'.Rooted 0)
    (harena : t'.arena = t.arena) (hroot : t'.root = t.root)
    (hplace : (t'.path p).place = (t.path p).place) :
    Moored a root p n owner t' :=
  ⟨hrooted, harena.trans h.arena, hroot.trans h.root, h.stands.congr harena hroot hplace⟩

theorem other (h : Moored a root p n owner t) (hq : q ≠ p) {f : PathData → PathData}
    (hrooted : (t.updatePath q f).Rooted 0) : Moored a root p n owner (t.updatePath q f) :=
  h.of_place hrooted rfl rfl (congrArg PathData.place (path_updatePath_ne t f hq.symm))

theorem pushes (h : Moored a root p n owner t) {d : PathData} (hpush : t.Pushes t' d)
    (hrooted : t'.Rooted 0) : Moored a root p n owner t' :=
  h.of_place hrooted hpush.arena hpush.root
    (congrArg PathData.place (hpush.path_old (lt_of_node h.stands.node)))

theorem getRootPath (h : Moored a root p n owner t) :
    Moored a root p n owner (final (Tree.getRootPath t)) := by
  have hrooted : (final (Tree.getRootPath t)).Rooted 0 := (Rooted.charted 0).root t h.rooted
  unfold Tree.getRootPath at hrooted ⊢
  rw [run_get_bind] at hrooted ⊢
  cases hq : t.rootPath with
  | some q => exact h
  | none =>
    rw [hq] at hrooted
    refine h.of_place hrooted rfl rfl (congrArg PathData.place ?_)
    show (t.paths.push _)[p.index]?.getD _ = t.paths[p.index]?.getD _
    rw [Array.getElem?_push_lt (lt_of_node h.stands.node), Array.getElem?_eq_getElem]

theorem seat (ha : a.Owned) (h : Moored a root p n (some m) t) {f : PathData → PathData}
    {o : NodeId} (hrooted : (t.updatePath p f).Rooted 0) (hnode : (f (t.path p)).node = some n)
    (hs : (f (t.path p)).slot ≠ .root) (hparent : (f (t.path p)).parent = some o)
    (hread : t.readSlot (some o) (f (t.path p)).slot = some n) :
    Moored a root p n (some m) (t.updatePath p f) := by
  have hself := path_updatePath_self t f (lt_of_node h.stands.node)
  have hsits : (t.updatePath p f).Sits p n o := by
    refine ⟨(congrArg PathData.slot hself).trans_ne hs, (congrArg PathData.node hself).trans hnode,
      (congrArg PathData.parent hself).trans hparent, ?_⟩
    show t.readSlot (some o) ((t.updatePath p f).path p).slot = some n
    rw [hself]
    exact hread
  refine ⟨hrooted, h.arena, h.root, ?_⟩
  have harena : t.arena.Owned := by rwa [h.arena]
  rw [OwnedBy.unique (Sits.owned harena h.stands) (Sits.owned (t := t.updatePath p f) harena hsits)]
  exact hsits

theorem child (ha : a.Owned) (h : Moored a root p n owner t) (q : PathId) (o : Option NodeId)
    {slot : Slot} (hs : slot ≠ .root) :
    Moored a root p n owner (final (getOrCreatePath (some q) o slot t)) := by
  have hrooted : (final (getOrCreatePath (some q) o slot t)).Rooted 0 :=
    (Rooted.charted 0).child (some q) o slot hs t h.rooted
  obtain ⟨p', hp', hn, hrun⟩ | ⟨t', hrun, hpush⟩ := getOrCreatePath_cases t q o slot
  · rw [hrun] at hrooted ⊢
    by_cases hpp : p' = p
    · subst hpp
      have hread : t.readSlot o slot = some n := hn.symm.trans h.stands.node
      cases owner with
      | none => exact absurd h.stands.1 (h.rooted.listed o p' hp').2
      | some m =>
        cases o with
        | none =>
          rw [readSlot_none hs] at hread
          cases hread
        | some o => exact h.seat ha hrooted hread hs rfl hread
    · exact h.other hpp hrooted
  · rw [hrun] at hrooted ⊢
    exact h.pushes hpush hrooted

theorem note (h : Moored a root p n owner t) (q : PathId) {f : PathData → PathData}
    (hf : ∀ d, (f d).stand = d.stand) : Moored a root p n owner (t.updatePath q f) :=
  h.of_place (h.rooted.note q hf) rfl rfl
    (t.path_updatePath_congr q p f PathData.place fun d => congrArg Prod.fst (hf d))

theorem looked (ha : a.Owned) (ps : List PathId) :
    Looked fun t => Moored a root p n owner t ∧ ∀ q ∈ ps, t.slot q ≠ .root where
  note t q f hf h :=
    ⟨h.1.note q fun d => (hf d).1, ((Rooted.looked 0 ps).note t q f hf ⟨h.1.rooted, h.2⟩).2⟩
  root t h := ⟨h.1.getRootPath, ((Rooted.looked 0 ps).root t ⟨h.1.rooted, h.2⟩).2⟩
  child parentPath o slot hs t h := by
    refine ⟨?_, ((Rooted.looked 0 ps).child parentPath o slot hs t ⟨h.1.rooted, h.2⟩).2⟩
    cases parentPath with
    | none => exact h.1.getRootPath
    | some q => exact h.1.child ha q o hs

theorem resync (ha : a.WellOwned) (q : PathId) : Stays (Moored a root p n owner)
    (Tree.resync q) := by
  intro t h
  by_cases hs : t.slot q = .root
  · rw [resync_of_root hs]
    exact h
  by_cases hqp : q = p
  · subst hqp
    cases hr : (t.path q).removed with
    | true =>
      have hrun : Tree.resync q t = .ok () t := by
        unfold Tree.resync
        rw [run_get_bind, if_pos (by simp [hr])]
        rfl
      rw [hrun]
      exact h
    | false =>
      cases owner with
      | none => exact absurd h.stands.1 hs
      | some o =>
        have ho : t.arena.OwnedBy n o := Sits.owned (by rw [h.arena]; exact ha.owned) h.stands
        obtain ⟨_, t', hrun, hrooted, harena, hroot, -, hline⟩ :=
          (h.rooted.ends_resync (by rw [h.arena]; exact ha) h.stands.node hs hr ho).exists_ok
        rw [hrun]
        exact ⟨hrooted, harena.trans h.arena, hroot.trans h.root, hline.toSits⟩
  · have hlooked : Looked fun t => Moored a root p n owner t ∧ ∀ k ∈ [q], t.slot k ≠ .root :=
      looked ha.owned [q]
    have hmoves := hlooked.stays_resync (p := q) fun f hf _ => stays_modify fun t h => ?_
    · refine (hmoves t ⟨h, fun k hk => ?_⟩).1
      obtain rfl := List.mem_singleton.1 hk
      exact hs
    · obtain ⟨hrooted, hslots⟩ := Rooted.stays_move q hf t ⟨h.1.rooted, h.2⟩
      exact ⟨h.1.other hqp hrooted, hslots⟩

theorem charted (ha : a.WellOwned) : Charted (Moored a root p n owner) where
  note _ q _ hf h := h.note q fun d => (hf d).1
  root _ h := h.getRootPath
  child parentPath o slot hs t h := ((looked ha.owned []).child parentPath o slot hs t ⟨h, nofun⟩).1
  resync := resync ha

theorem tableless (ha : a.WellOwned) : Tableless (Moored a root p n owner) where
  paths := charted ha
  scope _ _ _ _ h := h.of_place (h.rooted.of_congr rfl rfl rfl rfl) rfl rfl rfl
  bindings _ _ _ h := h.of_place (h.rooted.of_congr rfl rfl rfl rfl) rfl rfl rfl
  newScope _ _ _ _ h := h.of_place (h.rooted.of_congr rfl rfl rfl rfl) rfl rfl rfl

/-- **Crawls leave the path where it stands.** -/
theorem crawls (ha : a.WellOwned) : Crawls (Moored a root p n owner) 0 where
  __ := (tableless ha).names
  stack _ q _ hf h := h.note q hf
  next _ _ := Nat.zero_le _
  depth _ _ h := h.of_place (h.rooted.of_congr rfl rfl rfl rfl) rfl rfl rfl
  push _ _ _ h := h.of_place (h.rooted.of_congr rfl rfl rfl rfl) rfl rfl rfl
  pop _ _ _ h := h.of_place (h.rooted.of_congr rfl rfl rfl rfl) rfl rfl rfl
  update _ _ _ _ _ h := h.of_place (h.rooted.of_congr rfl rfl rfl rfl) rfl rfl rfl

end Moored

/-- A path that is found live stands for a place, and to look again makes no difference. -/
theorem Rooted.ends_assertLive (h : t.Rooted 0) (ha : t.arena.WellOwned) (hn : t.node p = some n) :
    Ends (assertLive p t) (fun _ t' => (∃ owner, Moored t.arena t.root p n owner t')
      ∧ assertLive p t' = .ok () t') fun _ _ => True := by
  have hend {t' : Tree} (hrun : Tree.resync p t = .ok () t') (hagain : Tree.resync p t' = .ok () t')
      (hmoored : (t'.path p).stale = false → ∃ owner, Moored t.arena t.root p n owner t') :
      Ends (assertLive p t) (fun _ t' => (∃ owner, Moored t.arena t.root p n owner t')
        ∧ assertLive p t' = .ok () t') fun _ _ => True := by
    unfold assertLive
    rw [run_bind_of_ok hrun, run_get_bind]
    split
    · trivial
    · next hfound =>
      refine ⟨hmoored ?_, ?_⟩
      · rw [Bool.or_eq_true, not_or, Bool.not_eq_true, Bool.not_eq_true] at hfound
        exact hfound.2
      · rw [run_bind_of_ok hagain, run_get_bind, if_neg hfound]
        rfl
  by_cases hs : t.slot p = .root
  · have hrun := resync_of_root hs
    refine hend hrun hrun fun _ => ?_
    obtain ⟨-, -, htop⟩ := h.top p (h.only p (lt_of_node hn) hs)
    exact ⟨none, ⟨h, rfl, rfl, hs, htop.symm.trans hn, hn⟩⟩
  cases hr : (t.path p).removed with
  | true =>
    unfold assertLive
    have hrun : Tree.resync p t = .ok () t := by
      unfold Tree.resync
      rw [run_get_bind, if_pos (by simp [hr])]
      rfl
    rw [run_bind_of_ok hrun, run_get_bind, if_pos (by simp [hr])]
    trivial
  | false =>
    cases ho : t.arena.parentOf (some n) with
    | none =>
      have hself := path_updatePath_self t ({ · with stale := true }) (lt_of_node hn)
      refine hend (resync_of_unowned hn hs hr ho) ?_ fun hstale => ?_
      · rw [resync_of_unowned ((congrArg PathData.node hself).trans hn)
          ((congrArg PathData.slot hself).trans_ne hs) ((congrArg PathData.removed hself).trans hr)
          ho, updatePath_eq_self _ _ (by rw [hself])]
      · cases hstale.symm.trans (congrArg PathData.stale hself)
    | some o =>
      obtain ⟨_, t', hrun, hrooted, harena, hroot, hr', hline⟩ :=
        (h.ends_resync ha hn hs hr ho).exists_ok
      exact hend hrun (hline.resync_eq (by rw [harena]; exact ha.owned) hr')
        fun _ => ⟨some o, ⟨hrooted, harena, hroot, hline.toSits⟩⟩

end ScopedTree.Tree
