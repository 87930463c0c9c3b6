import Mathlib.Data.List.Forall2
import ScopedTree.Proofs.Path.InStep
import ScopedTree.Proofs.Path.Routes

/-!
# Paths that were just looked up

A path that was just looked up stands at the place of its node, below a path of which the same can
be said. To look up more paths keeps that, so a family of such paths mirrors a part of the tree.

* `Tree.Fresh`                   a path that a look-up of its node gives;
* `Tree.lookUp`                  the paths of several nodes;
* `Tree.Rooted.ends_pathFor_fresh`   a path that is looked up is fresh, and the others stay so;
* `Tree.Reached.ends_lookUp`     **the nodes of a tree in use have fresh paths**;
* `Tree.Fresh.ancestry_child`    the ancestry of a fresh path is that of the path of the owner, and
  itself.
-/

namespace ScopedTree.Tree

open Arena Relation

variable {t t' : Tree} {m : Nat} {p p' q e : PathId} {n n' o r : NodeId} {s : Slot} {w : List Slot}
  {above : List NodeId} {ns : List NodeId}

/-- The path `p` is the one of the node `n`, and so are those above it: that of the root, or one
that serves a place below a fresh path. -/
inductive Fresh (t : Tree) : PathId → NodeId → Prop
  | top {p : PathId} {r : NodeId} (hp : t.rootPath = some p) (hr : t.root = some r)
    (hn : t.node p = some r) :
      Fresh t p r
  | child {q p : PathId} {o n : NodeId} {s : Slot} (hq : Fresh t q o)
    (h : t.Serves q o s p n) : Fresh t p n

/-- The paths of nodes, one after the other. -/
def lookUp (ns : List NodeId) : TreeM (List (Option PathId)) := ns.mapM fun n => pathFor (some n)

namespace Fresh

theorem node (h : t.Fresh p n) : t.node p = some n := by
  cases h with
  | top _ _ hn => exact hn
  | child _ h => exact h.node

theorem exists_under (h : t.Fresh p n) : ∃ r above, t.root = some r ∧ t.arena.Under r n above := by
  induction h with
  | top _ hr _ => exact ⟨_, [], hr, .root⟩
  | child _ h ih =>
    obtain ⟨r, above, hr, hu⟩ := ih
    exact ⟨r, _, hr, hu.child (mem_children_of_readSlot h.inner h.holds)⟩

theorem under (h : t.Fresh p n) (hr : t.root = some r) : ∃ above, t.arena.Under r n above := by
  obtain ⟨r', above, hr', hu⟩ := h.exists_under
  obtain rfl := Option.some.inj (hr.symm.trans hr')
  exact ⟨above, hu⟩

theorem ne_root (ha : t.arena.Owned) (hq : t.Fresh q o) (h : t.Serves q o s p n) :
    t.root ≠ some n := by
  intro hr
  obtain ⟨above, hu⟩ := hq.under hr
  cases (hu.child (mem_children_of_readSlot h.inner h.holds)).root_above ha

theorem unique (ha : t.arena.Owned) (h : t.Fresh p n) (h' : t.Fresh p' n) : p = p' := by
  cases h with
  | top hp hr _ =>
    cases h' with
    | top hp' _ _ => exact Option.some.inj (hp.symm.trans hp')
    | child hq' h' => exact absurd hr (hq'.ne_root ha h')
  | child hq h =>
    cases h' with
    | top _ hr _ => exact absurd hr (hq.ne_root ha h)
    | child _ h' =>
      obtain rfl := (h.owned ha).unique (h'.owned ha)
      exact h.found.inj h'.found

theorem serves (ha : t.arena.Owned) (hq : t.Fresh q o) (hs : s ≠ .root)
    (hread : t.readSlot (some o) s = some n) (h : t.Fresh p n) : t.Serves q o s p n := by
  cases h with
  | top _ hr _ =>
    obtain ⟨above, hu⟩ := hq.under hr
    cases (hu.child (mem_children_of_readSlot hs hread)).root_above ha
  | child hq' h =>
    obtain ⟨rfl, rfl⟩ := place_unique ha h.inner hs h.holds hread
    rwa [hq.unique ha hq']

theorem resync_eq (ha : t.arena.Owned) (hrooted : t.Rooted m) (h : t.Fresh p n) :
    resync p t = .ok () t := by
  cases h with
  | top hp _ _ => exact resync_of_root (hrooted.top p hp).2.1
  | child _ h => exact h.inLine.resync_eq ha h.found.removed

theorem locates (h : t.Fresh p n) (hrooted : t.Rooted m) (hf : Locates (· = n') t t')
    (hne : ∀ p, ¬ t.Fresh p n') : t'.Fresh p n := by
  induction h with
  | top hp hr hn =>
    exact .top (hf.rootPath.trans hp) (hf.root.trans hr) ((hf.node _ (lt_of_node hn)).trans hn)
  | child hq h ih => exact .child ih (h.locates hrooted hf fun he => hne _ (he ▸ hq.child h))

end Fresh

/-! ## looking up -/

/-- What a look-up leads to: the paths that were fresh are so, and nothing but paths changed. -/
structure Refreshes (t t' : Tree) : Prop where
  rooted : t'.Rooted 0
  arena : t'.arena = t.arena
  root : t'.root = t.root
  fresh : ∀ p n, t.Fresh p n → t'.Fresh p n

theorem Refreshes.refl (h : t.Rooted 0) : t.Refreshes t := ⟨h, rfl, rfl, fun _ _ h => h⟩

theorem Refreshes.trans {t'' : Tree} (h : t.Refreshes t') (h' : t'.Refreshes t'') :
    t.Refreshes t'' :=
  ⟨h'.rooted, h'.arena.trans h.arena, h'.root.trans h.root, fun p n hp =>
    h'.fresh p n (h.fresh p n hp)⟩

theorem Rooted.ends_serves_fresh (h : t.Rooted 0) (ha : t.arena.Owned) (hq : t.Fresh q o)
    (hs : s ≠ .root) (hread : t.readSlot (some o) s = some n) :
    Ends (getOrCreatePath (some q) (some o) s t) (fun p t' => t.Refreshes t' ∧ t'.Fresh p n)
      fun _ _ => False := by
  by_cases hold : ∃ p, t.Fresh p n
  · -- the path is there and nothing happens
    obtain ⟨p, hp⟩ := hold
    rw [(hq.serves ha hs hread hp).run]
    exact ⟨.refl h, hp⟩
  · refine (h.ends_serves hq.node hs hread).mono ?_
    rintro p t' ⟨h', hserves, hlocates, -⟩
    have hfresh (p' : PathId) (n' : NodeId) (hp' : t.Fresh p' n') : t'.Fresh p' n' :=
      hp'.locates h hlocates (not_exists.1 hold)
    exact ⟨⟨h', hlocates.arena, hlocates.root, hfresh⟩, .child (hfresh q o hq) hserves⟩

theorem Rooted.ends_placed_fresh (w : List Slot) (h : t.Rooted 0) (ha : t.arena.Owned)
    (hq : t.Fresh q o) (hw : t.arena.at? o w = some n) :
    Ends (placed q w t) (fun p t' => t.Refreshes t' ∧ t'.Fresh p n) fun _ _ => False := by
  induction w generalizing t q o with
  | nil =>
    obtain rfl := Option.some.inj hw
    exact ⟨.refl h, hq⟩
  | cons s w ih =>
    obtain ⟨c, hc, hw⟩ := Option.bind_eq_some_iff.1 hw
    have hs : s ≠ .root := by
      rintro rfl
      cases hc
    rw [placed, run_get_bind, hq.node]
    refine ends_bind.2 ((h.ends_serves_fresh ha hq hs ((readSlot_eq t _ hs).trans hc)).mono ?_)
    rintro q' t₁ ⟨hstep, hq'⟩
    refine (ih hstep.rooted (by rwa [hstep.arena]) hq' (by rwa [hstep.arena])).mono ?_
    rintro p t' ⟨hrest, hp⟩
    exact ⟨hstep.trans hrest, hp⟩

theorem Rooted.ends_top_fresh (h : t.Rooted 0) (hr : t.root = some r) :
    Ends (getRootPath t) (fun p t' => t.Refreshes t' ∧ t'.Fresh p r) fun _ _ => False := by
  cases hq : t.rootPath with
  | some q =>
    rw [run_getRootPath hq]
    exact ⟨.refl h, .top hq hr ((h.top q hq).2.2.trans hr)⟩
  | none =>
    have hnone : ∀ p n, ¬ t.Fresh p n := fun p n hp => by
      induction hp with
      | top hp _ _ => cases hq.symm.trans hp
      | child _ _ ih => exact ih
    refine h.ends_top.mono ?_
    rintro p t' ⟨h', hp, harena, hroot, hn, -⟩
    exact ⟨⟨h', harena, hroot, fun p' n' hp' => absurd hp' (hnone p' n')⟩,
      .top hp (hroot.trans hr) (hn.trans hr)⟩

theorem exists_at?_of_under (ha : t.arena.WellOwned) (h : t.arena.Under r n above) :
    ∃ w, t.arena.at? r w = some n ∧ w.length = above.length := by
  induction h with
  | root => exact ⟨[], rfl, rfl⟩
  | @child o c above hu hc ih =>
    obtain ⟨w, hw, hlen⟩ := ih
    obtain ⟨s, hs⟩ := exists_findSlot ha (ha.owned.owner_of_child o c hc)
    refine ⟨w ++ [s], ?_, by simp [hlen]⟩
    have hread : t.arena.slotAt (some o) s = some c :=
      (readSlot_eq t _ (findSlot_ne_root hs)).symm.trans (readSlot_of_findSlot ha.shaped hs)
    rw [at?_append, hw, Option.bind_some, Arena.at?, hread]
    rfl

/-- **A path that is looked up is fresh**, and the others stay so. -/
theorem Rooted.ends_pathFor_fresh (h : t.Rooted 0) (ha : t.arena.WellOwned) (hn : t.InReach n) :
    Ends (pathFor (some n) t) (fun p t' => t.Refreshes t' ∧ ∃ p', p = some p' ∧ t'.Fresh p' n)
      fun _ _ => False := by
  obtain ⟨r, above, hr, hu, hlen⟩ := hn
  obtain ⟨w, hw, hwlen⟩ := exists_at?_of_under ha hu
  rw [h.pathFor_eq ha hr hw (hwlen.trans_le hlen), ends_map]
  refine ends_bind.2 ((h.ends_top_fresh hr).mono ?_)
  rintro q t₁ ⟨htop, hq⟩
  refine (ends_placed_fresh w htop.rooted
    (by rw [htop.arena]; exact ha.owned) hq (by rwa [htop.arena])).mono ?_
  exact fun p t' ⟨hdown, hp⟩ => ⟨htop.trans hdown, p, rfl, hp⟩

theorem InReach.refreshes (h : t.InReach n) (ht : t.Refreshes t') : t'.InReach n := by
  obtain ⟨r, above, hr, hu, hlen⟩ := h
  exact ⟨r, above, ht.root.trans hr, by rwa [ht.arena], hlen⟩

theorem Rooted.ends_lookUp : ∀ (ns : List NodeId) {t : Tree}, t.Rooted 0 → t.arena.WellOwned →
    (∀ n ∈ ns, t.InReach n) →
    Ends (lookUp ns t) (fun ps t' => t.Refreshes t'
      ∧ List.Forall₂ (fun p n => ∃ p', p = some p' ∧ t'.Fresh p' n) ps ns) fun _ _ => False
  | [], t, h, _, _ => ⟨.refl h, .nil⟩
  | n :: ns, t, h, ha, hns => by
    unfold lookUp
    rw [List.mapM_cons]
    refine ends_bind.2 ((h.ends_pathFor_fresh ha (hns n (List.mem_cons_self ..))).mono ?_)
    rintro p t₁ ⟨hfirst, p', rfl, hp⟩
    refine ends_bind.2 ((ends_lookUp ns hfirst.rooted (by rwa [hfirst.arena]) fun n' hn' =>
      (hns n' (List.mem_cons_of_mem _ hn')).refreshes hfirst).mono ?_)
    rintro ps t' ⟨hrest, hps⟩
    exact ⟨hfirst.trans hrest, .cons ⟨p', rfl, hrest.fresh p' n hp⟩ hps⟩

/-- **The nodes of a tree in use have fresh paths.** Looked up in any order, each of them has one.
-/
theorem Reached.ends_lookUp (h : t.Reached) (ha : t.arena.WellOwned) (hns : ∀ n ∈ ns, t.InReach n) :
    ∃ (path : NodeId → PathId) (t' : Tree), lookUp ns t = .ok (ns.map fun n => some (path n)) t'
      ∧ t.Refreshes t' ∧ ∀ n ∈ ns, t'.Fresh (path n) n := by
  classical
  obtain ⟨ps, t', hrun, hrefreshes, hps⟩ := (h.rooted.ends_lookUp ns ha hns).exists_ok
  have howned : t'.arena.Owned := by
    rw [hrefreshes.arena]
    exact ha.owned
  let path (n : NodeId) : PathId := if h : ∃ p, t'.Fresh p n then h.choose else ⟨0⟩
  have hpath {p : PathId} {n : NodeId} (hp : t'.Fresh p n) : path n = p := by
    have hex : ∃ p, t'.Fresh p n := ⟨p, hp⟩
    simp only [path, dif_pos hex]
    exact hex.choose_spec.unique howned hp
  have hlist : ps = ns.map (fun n => some (path n)) ∧ ∀ n ∈ ns, t'.Fresh (path n) n := by
    clear hrun hns
    induction hps with
    | nil => exact ⟨rfl, nofun⟩
    | cons hp _ ih =>
      obtain ⟨p, rfl, hp⟩ := hp
      obtain ⟨hlist, hfresh⟩ := ih
      refine ⟨by rw [List.map_cons, hpath hp, hlist], fun n hn => ?_⟩
      rcases List.mem_cons.1 hn with rfl | hn
      · rwa [hpath hp]
      · exact hfresh n hn
  exact ⟨path, t', hlist.1 ▸ hrun, hrefreshes, hlist.2⟩

/-! ## ancestries -/

theorem Climbs.unique {ps ps' : List PathId} (h : t.Climbs p ps)
    (h' : t.Climbs p ps') : ps = ps' := by
  induction h generalizing ps' with
  | top h =>
    cases h' with
    | top _ => rfl
    | step h' _ => cases h.symm.trans h'
  | step h _ ih =>
    cases h' with
    | top h' => cases h.symm.trans h'
    | step h' hrest =>
      obtain rfl := Option.some.inj (h.symm.trans h')
      rw [ih hrest]

namespace Fresh

theorem climbs (hrooted : t.Rooted m) (h : t.Fresh p n) : ∃ r ps ns, t.root = some r
    ∧ t.arena.Under r n ns ∧ t.Climbs p ps ∧ List.Forall₂ t.Fresh ps ns := by
  induction h with
  | top hp hr _ => exact ⟨_, [], [], hr, .root, .top (hrooted.crown _ hp), .nil⟩
  | child hq h ih =>
    obtain ⟨r, ps, ns, hr, hu, hps, hfresh⟩ := ih
    exact ⟨r, _, _, hr, hu.child (mem_children_of_readSlot h.inner h.holds), .step h.parentPath hps,
      .cons hq hfresh⟩

theorem ancestry_climbs (ha : t.arena.Owned) (hrooted : t.Rooted m) (h : t.Fresh p n) :
    t.Climbs p (t.ancestry p).tail ∧ (t.ancestry p).Nodup := by
  obtain ⟨r, ps, above, hr, hu, hclimbs, hfresh⟩ := h.climbs hrooted
  have hnodes : (p :: ps).map t.node = (n :: above).map some := by
    rw [List.map_cons, List.map_cons, h.node]
    clear hu hclimbs
    induction hfresh with
    | nil => rfl
    | cons hp _ ih =>
      rw [List.map_cons, List.map_cons, hp.node, (List.cons.inj ih).2]
  -- the nodes on the way are different, so the paths are
  have hnodup : (p :: ps).Nodup := by
    refine List.Nodup.of_map t.node ?_
    rw [hnodes]
    exact (hu.nodup ha).map (Option.some_injective _)
  have hlt (q : PathId) (hq : q ∈ ps) : q.index < t.paths.size := by
    have hmem : t.node q ∈ (n :: above).map some :=
      hnodes ▸ List.mem_map_of_mem (List.mem_cons_of_mem p hq)
    obtain ⟨k, -, hk⟩ := List.mem_map.1 hmem
    exact lt_of_node hk.symm
  rw [hclimbs.ancestry hlt (List.nodup_cons.1 hnodup).2]
  exact ⟨hclimbs, hnodup⟩

theorem ancestry_nodup (ha : t.arena.Owned) (hrooted : t.Rooted m)
    (h : t.Fresh p n) : (t.ancestry p).Nodup :=
  (h.ancestry_climbs ha hrooted).2

theorem ancestry_top (ha : t.arena.Owned) (hrooted : t.Rooted m) (h : t.Fresh p n)
    (hp : t.rootPath = some p) :
    t.ancestry p = [p] :=
  congrArg (p :: ·) ((h.ancestry_climbs ha hrooted).1.unique (.top (hrooted.crown p hp)))

/-- The ancestry of a path that serves a place goes on with that of the path of the owner. -/
theorem ancestry_child (ha : t.arena.Owned) (hrooted : t.Rooted m) (hq : t.Fresh q o)
    (h : t.Serves q o s p n) :
    t.ancestry p = p :: t.ancestry q :=
  congrArg (p :: ·) (((hq.child h).ancestry_climbs ha hrooted).1.unique
    (.step h.parentPath (hq.ancestry_climbs ha hrooted).1))

end Fresh

end ScopedTree.Tree
