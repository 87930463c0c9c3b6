import ScopedTree.Proofs.Edit.Entries
import ScopedTree.Proofs.Edit.Updates
import ScopedTree.Proofs.Path.InStep

/-!
# Paths of a list that changes

When entries are put into a list or one is taken out, the paths of later entries move along, so that
the paths below the owner of the list stay in step with it. A path that suits another node stays
where it is.

* `Tree.Fades`                 paths go out of use;
* `Tree.Renumbers`             what becomes of paths when a list changes;
* `Tree.Shifted.renumbered`    the list is written and the paths move along;
* `Tree.InStep.renumbers`      **paths stay in step when entries come or one goes**;
* `Tree.Numbered`              just the paths of entries are in step, which does not do.
-/

namespace ScopedTree.Tree

open Arena

variable {t t' u w : Tree} {m n k : NodeId} {p q : PathId} {list : String} {i start : Nat}
  {move : Nat → Nat} {shift : Slot → Slot} {except : Option PathId} {gone : PathId → Prop}
  {d : Departure}

/-! ## paths that go out of use -/

/-- Paths may have gone out of use. All of them are where they were. -/
structure Fades (t t' : Tree) : Prop where
  arena : t'.arena = t.arena
  filed : t'.Filed
  size : t'.paths.size = t.paths.size
  lists : ∀ m, t'.cachedPaths m = t.cachedPaths m
  place : ∀ p, t'.node p = t.node p ∧ t'.slot p = t.slot p
  removed : ∀ p, (t.path p).removed = true → (t'.path p).removed = true

namespace Fades

theorem refl (hf : t.Filed) : t.Fades t :=
  ⟨rfl, hf, rfl, fun _ => rfl, fun _ => ⟨rfl, rfl⟩, fun _ => id⟩

theorem trans (h : t.Fades u) (h' : u.Fades w) : t.Fades w where
  arena := h'.arena.trans h.arena
  filed := h'.filed
  size := h'.size.trans h.size
  lists m := (h'.lists m).trans (h.lists m)
  place p := ⟨(h'.place p).1.trans (h.place p).1, (h'.place p).2.trans (h.place p).2⟩
  removed p hp := h'.removed p (h.removed p hp)

theorem used (h : t.Fades t') (p : PathId) (hp : (t'.path p).removed = false) :
    (t.path p).removed = false := by
  by_contra hr
  rw [h.removed p (Bool.not_eq_false _ ▸ hr)] at hp
  cases hp

theorem of_marks (hf : t.Filed) (h : Marks gone t t') : t.Fades t' where
  arena := h.arena
  filed := h.filed hf
  size := h.size
  lists := h.cachedPaths
  place p := ⟨(h.place p).1, (h.place p).2.2⟩
  removed := h.still

theorem markRemoved (h : t.Fades u) (p : PathId) : t.Fades (u.markRemoved p) := by
  have hmarks : Marks (· = p) u (u.markRemoved p) := Marks.markRemoved u rfl
  exact h.trans (of_marks h.filed hmarks)

theorem invalidate (hf : t.Filed) (ha : t.arena.WellOwned) (d : Departure) :
    t.Fades (invalidate d t) := by
  have hret := retraces_cleared hf ha d
  have hsame : (d.cleared t).SamePaths (Tree.invalidate d t) := by
    rw [invalidate_eq]
    exact ⟨(samePaths_settled d t).paths, (samePaths_settled d t).arena⟩
  have hsize : (Tree.invalidate d t).paths.size = (d.cleared t).paths.size :=
    congrArg Array.size hsame.paths
  refine (of_marks hf (marks_cleared d t)).trans ⟨hsame.arena, hret.filed, hsize, fun m => ?_,
    fun p => ?_,
    fun p => ?_⟩
  · -- no path came, so none is listed that was not
    obtain ⟨new, hnew, hge⟩ := hret.lists m
    have hnil : new = [] := List.eq_nil_iff_forall_not_mem.2 fun p hp => by
      have hlt := (hret.filed.listed m p (hnew ▸ List.mem_append_right _ hp)).1
      exact Nat.not_lt.2 (hge p hp) (hlt.trans_eq hsize)
    rw [hnew, hnil, List.append_nil]
  · unfold Tree.node Tree.slot
    rw [hsame.path]
    exact ⟨rfl, rfl⟩
  · rw [hsame.path]
    exact id

end Fades

/-! ## paths that move along -/

/-- A list of `m` changed. Paths hold what they held, and those made below `m` that are still in use
moved by `shift`. A path that suits another node stays where it is, and what is in step with a node
stays so. -/
structure Renumbers (m : NodeId) (shift : Slot → Slot) (t t' : Tree) : Prop where
  owned : t'.arena.WellOwned
  filed : t'.Filed
  size : t.paths.size ≤ t'.paths.size
  listed : ∀ k, ∀ p ∈ t.cachedPaths k, p ∈ t'.cachedPaths k
  inStep : ∀ k, t.InStep k → t'.InStep k
  nodes : ∀ p, p.index < t.paths.size → t'.node p = t.node p
  removed : ∀ p, (t.path p).removed = true → (t'.path p).removed = true ∧ t'.slot p = t.slot p
  moved : ∀ p ∈ t.cachedPaths (some m), (t'.path p).removed = false → t'.slot p = shift (t.slot p)
  others : ∀ k, k ≠ m → ∀ p ∈ t.cachedPaths (some k), t.Suits k p → t'.Suits k p
    ∧ t'.slot p = t.slot p

theorem Suits.of_slotAt (hsuit : t.Suits k p) (hs : t.slot p ≠ .root) (hs' : w.slot p ≠ .root)
    (hnode : w.node p = t.node p)
    (hread : w.arena.slotAt (some k) (w.slot p) = t.arena.slotAt (some k) (t.slot p)) :
    w.Suits k p := by
  have hold : t.node p = t.readSlot (some k) (t.slot p) := hsuit
  show w.node p = w.readSlot (some k) (w.slot p)
  rw [readSlot_eq _ _ hs', hread, hnode, hold, readSlot_eq _ _ hs]

/-- **The paths of `m` move along with what it holds.** None of those in use is left behind, and
nothing else moves. -/
theorem Shifted.renumbered {a : Arena} (hf : t.Filed) (ha : a.WellOwned)
    (h : Shifted (some m) (moved list start move) except { t with arena := a } u) (hw : u.Fades w)
    (hread : ∀ p ∈ t.cachedPaths (some m), (w.path p).removed = false → (t.path p).removed = false →
      some p ≠ except
        ∧ a.slotAt (some m) ((t.slot p).shift list start move) = t.arena.slotAt (some m) (t.slot p))
    (hothers : ∀ k, k ≠ m → ∀ s, a.slotAt (some k) s = t.arena.slotAt (some k) s) :
    t.Renumbers m (Slot.shift list start move) w := by
  have harena : w.arena = a := hw.arena.trans h.arena
  have hlists (k : Option NodeId) : w.cachedPaths k = t.cachedPaths k :=
    (hw.lists k).trans (h.cachedPaths k)
  have hnode (p : PathId) : w.node p = t.node p := (hw.place p).1.trans (h.place p).1
  have hgone (p : PathId) (hp : (t.path p).removed = true) : (w.path p).removed = true :=
    hw.removed p ((h.place p).2.2.1.trans hp)
  have hused (p : PathId) (hp : (w.path p).removed = false) : (t.path p).removed = false :=
    (h.place p).2.2.1.symm.trans (hw.used p hp)
  have hmoved (p : PathId) (hp : p ∈ t.cachedPaths (some m)) (hr : (w.path p).removed = false) :
      w.slot p = (t.slot p).shift list start move :=
    (hw.place p).2.trans (h.slot_along hp (hread p hp hr (hused p hr)).1 (hused p hr))
  have hsame (p : PathId) (hp : p ∈ t.cachedPaths (some m) → (t.path p).removed = true) :
      w.slot p = t.slot p := (hw.place p).2.trans (h.slot_same hp)
  have hsuits (k : NodeId) (p : PathId) (hp : p ∈ t.cachedPaths (some k)) (hsuit : t.Suits k p)
      (heq : a.slotAt (some k) (w.slot p) = t.arena.slotAt (some k) (t.slot p)) : w.Suits k p :=
    hsuit.of_slotAt (hf.listed _ p hp).2 (hw.filed.listed (some k) p (hlists _ ▸ hp)).2 (hnode p)
      (by rw [harena, heq])
  have hother (k : NodeId) (hk : k ≠ m) (p : PathId) (hp : p ∈ t.cachedPaths (some k))
      (hsuit : t.Suits k p) : w.Suits k p ∧ w.slot p = t.slot p := by
    have hslot := hsame p fun hpm => absurd (Option.some.inj (hf.once _ _ p hp hpm)) hk
    exact ⟨hsuits k p hp hsuit (by rw [hslot, hothers k hk]), hslot⟩
  refine ⟨by rwa [harena], hw.filed, (hw.size.trans h.size).ge, fun k p hp => hlists k ▸ hp,
    fun k hin => ⟨fun p hp hr => ?_, fun p hp q hq hpr hqr n hpn hqn => ?_⟩, fun p _ => hnode p,
    fun p hp => ⟨hgone p hp, hsame p fun _ => hp⟩, hmoved, hother⟩
  · rw [hlists] at hp
    have hsuit := hin.suits p hp (hused p hr)
    by_cases hk : k = m
    · subst hk
      refine hsuits k p hp hsuit ?_
      rw [hmoved p hp hr]
      exact (hread p hp hr (hused p hr)).2
    · exact (hother k hk p hp hsuit).1
  · rw [hlists] at hp hq
    exact hin.apart p hp q hq (hused p hpr) (hused q hqr) n ((hnode p).symm.trans hpn)
      ((hnode q).symm.trans hqn)

theorem Renumbers.aligned (h : t.Renumbers m shift u) (hm : t.InStep m) (h' : u.Aligns w) :
    t.Renumbers m shift w where
  owned := by
    rw [h'.arena]
    exact h.owned
  filed := h'.filed
  size := h.size.trans h'.size
  listed k p hp := by
    obtain ⟨new, hnew, -⟩ := h'.lists k
    exact hnew ▸ List.mem_append_left _ (h.listed k p hp)
  inStep k hk := h'.inStep k (h.inStep k hk)
  nodes p hp := (h'.nodes p (hp.trans_le h.size)).trans (h.nodes p hp)
  removed p hp := by
    obtain ⟨hr, hs⟩ := h.removed p hp
    have hlt := lt_of_removed hr
    refine ⟨(h'.removed p hlt).trans hr, ((h'.placed p hlt).resolve_right ?_).trans hs⟩
    rintro ⟨hr', -⟩
    cases hr.symm.trans hr'
  moved p hp hr := by
    have hmem := h.listed _ p hp
    have hr' : (u.path p).removed = false :=
      (h'.removed p (h.filed.listed _ p hmem).1).symm.trans hr
    exact (h'.slot_eq h.owned h.filed hmem fun _ => (h.inStep m hm).suits p hmem hr').trans
      (h.moved p hp hr')
  others k hk p hp hsuit := by
    obtain ⟨hsuit', hs⟩ := h.others k hk p hp hsuit
    have hmem := h.listed _ p hp
    exact ⟨h'.suits h.owned h.filed hmem hsuit',
      (h'.slot_eq h.owned h.filed hmem fun _ => hsuit').trans hs⟩

theorem Aligns.renumbered (ha : t.arena.WellOwned) (hf : t.Filed) (hm : t.InStep m) (h : t.Aligns u)
    (h' : u.Renumbers m shift w) : t.Renumbers m shift w where
  owned := h'.owned
  filed := h'.filed
  size := h.size.trans h'.size
  listed k p hp := by
    obtain ⟨new, hnew, -⟩ := h.lists k
    exact h'.listed k p (hnew ▸ List.mem_append_left _ hp)
  inStep k hk := h'.inStep k (h.inStep k hk)
  nodes p hp := (h'.nodes p (hp.trans_le h.size)).trans (h.nodes p hp)
  removed p hp := by
    have hlt := lt_of_removed hp
    obtain ⟨hr, hs⟩ := h'.removed p ((h.removed p hlt).trans hp)
    refine ⟨hr, hs.trans ((h.placed p hlt).resolve_right ?_)⟩
    rintro ⟨hr', -⟩
    cases hp.symm.trans hr'
  moved p hp hr := by
    obtain ⟨new, hnew, -⟩ := h.lists (some m)
    have hmem : p ∈ u.cachedPaths (some m) := hnew ▸ List.mem_append_left _ hp
    rw [h'.moved p hmem hr, h.slot_eq ha hf hp (hm.suits p hp)]
  others k hk p hp hsuit := by
    obtain ⟨new, hnew, -⟩ := h.lists (some k)
    have hmem : p ∈ u.cachedPaths (some k) := hnew ▸ List.mem_append_left _ hp
    obtain ⟨hsuit', hs⟩ := h'.others k hk p hmem (h.suits ha hf hp hsuit)
    exact ⟨hsuit', hs.trans (h.slot_eq ha hf hp fun _ => hsuit)⟩

/-! ## entries that come -/

/-- **Entries are put into a list.** -/
theorem InStep.ends_insertEntries (hm : t.InStep m) (ha : t.arena.WellOwned) (hf : t.Filed)
    (parentPath : PathId) (list : String) (index : Nat) (nodes : List (Option NodeId)) :
    Ends (insertEntries parentPath (some m) list index nodes t) (fun _ t' => t.Renumbers m
      (Slot.shift list (min index (t.arena.items (some m) list).length) (· + nodes.length)) t')
      fun _ _ => True := by
  unfold insertEntries
  refine ends_bind.2 ((ends_edit (ends_listInsert_owned ha (some m) list index nodes)).mono ?_)
  rintro i _ ⟨a, ⟨hwell, m', old, hm', hi, hwrite⟩, rfl⟩
  obtain rfl := Option.some.inj hm'
  have hitems : t.arena.items (some m) list = old := by
    obtain ⟨n, hn, hv, -⟩ := hwrite.held
    simp [Arena.items, hn, Node.items, hv]
  rw [hitems, ← hi]
  refine ends_bind.2 ((ends_shiftEntries (hf.edited hwrite.size.ge) (some m) list i
    (· + nodes.length) none).mono
    fun _ u hshift => ?_)
  have hu : t.Renumbers m (Slot.shift list i (· + nodes.length)) u :=
    hshift.renumbered hf hwell (.refl (hshift.filed (hf.edited hwrite.size.ge)))
      (fun p _ _ _ => ⟨Option.some_ne_none p,
        slotAt_inserted (hi.trans_le (min_le_right _ _)) hwrite _⟩)
      fun k hk => slotAt_of_content (hwrite.content_ne hk)
  have hentered := (Aligns.crawls hu.owned).entered
    (fun _ _ _ _ h => h.of_congr hu.owned rfl rfl rfl rfl (fun _ => rfl) rfl fun _ => rfl)
    parentPath (some m) list i nodes.length
  exact (stays_iff.1 hentered u (.refl hu.filed)).imp (fun _ t' h => hu.aligned hm h)
    fun _ _ _ => trivial

/-! ## an entry that goes -/

instance : (r : Removal) → Decidable (r = .plain)
  | .plain => isTrue rfl
  | .owner _ | .become _ _ | .emptyBlock => isFalse nofun

/-- The path stands for an entry of a list of `m`, and it is the only one in use below `m` that
does. When it is removed just the entry goes. -/
structure StandsAlone (t : Tree) (p : PathId) (m : NodeId) (list : String) (i : Nat) : Prop where
  parent : t.parentNode p = some m
  slot : t.slot p = .entry list i
  plain : t.removal p = .plain
  sole : ∀ q ∈ t.cachedPaths (some m), (t.path q).removed = false → t.slot q = .entry list i → q = p

theorem InStep.standsAlone (hm : t.InStep m) (hp : p ∈ t.cachedPaths (some m))
    (hr : (t.path p).removed = false) (hn : t.node p = some n) (hparent : t.parentNode p = some m)
    (hs : t.slot p = .entry list i) (hplain : t.removal p = .plain) : t.StandsAlone p m list i where
  parent := hparent
  slot := hs
  plain := hplain
  sole q hq hqr hqs := by
    have hsame : t.node q = t.node p := by
      rw [hm.suits q hq hqr, hm.suits p hp hr, hqs, hs]
    exact hm.apart q hq p hp hqr hr n (hsame.trans hn) hn

theorem ends_listRemove_slotAt {a : Arena} (ha : a.WellOwned) (m : NodeId)
    (list : String) (i : Nat) :
    Ends (listRemove (some m) list i a) (fun _ b => b.WellOwned ∧ b.size = a.size
      ∧ (∀ s, s ≠ .entry list i →
        b.slotAt (some m) (s.shift list (i + 1) (· - 1)) = a.slotAt (some m) s)
      ∧ ∀ k, k ≠ m → ∀ s, b.slotAt (some k) s = a.slotAt (some k) s) fun _ _ => True := by
  have howned := stays_iff.1 (stays_owned_listRemove (some m) list i) a ha.owned
  have hshaped := stays_iff.1 (stays_shaped_listRemove (some m) list i) a ha.shaped
  refine ((howned.and hshaped).and (ends_listRemove ha (some m) list i)).imp ?_ fun _ _ _ => trivial
  rintro _ b ⟨⟨hb, hb'⟩, m', k, old, hm', hk, hv, hnone, hcase⟩
  obtain rfl := Option.some.inj hm'
  rcases hcase with ⟨hnone', rfl⟩ | hwrite
  · -- there is nothing from there on
    refine ⟨⟨hb, hb'⟩, rfl, fun s hs => ?_, fun _ _ _ => rfl⟩
    have hlen : old.length ≤ i := List.getElem?_eq_none_iff.1 (hnone.symm.trans hnone')
    cases s with
    | root => rfl
    | field name => rfl
    | entry l j =>
      by_cases hj : l = list ∧ i + 1 ≤ j
      · obtain ⟨rfl, hj⟩ := hj
        have hitems : b.items (some m) l = old := by simp [Arena.items, hk, Node.items, hv]
        rw [Slot.shift, if_pos ⟨rfl, hj⟩]
        show (b.items (some m) l)[j - 1]?.join = (b.items (some m) l)[j]?.join
        rw [hitems, List.getElem?_eq_none (by omega), List.getElem?_eq_none (by omega)]
      · rw [Slot.shift, if_neg hj]
  · exact ⟨⟨hb, hb'⟩, hwrite.size, fun s hs => slotAt_erased hwrite hs,
      fun k hk => slotAt_of_content (hwrite.content_ne hk)⟩

/-- **An entry is taken out of its list.** -/
theorem StandsAlone.ends_removePlain (hp : t.StandsAlone p m list i) (ha : t.arena.WellOwned)
    (hf : t.Filed) :
    Ends (removePlain p t)
      (fun _ t' => t.Renumbers m (Slot.shift list (i + 1) (· - 1)) t') fun _ _ => True := by
  have hshare : Stays (fun u => ∃ b, u = { t with arena := b } ∧ Alike t.arena b)
    (shareComments p) := by
    refine stays_shareComments ?_ p
    rintro _ id f ⟨b, rfl, hb⟩
    exact ⟨_, rfl, hb.trans (Alike.update b id fun _ => ⟨rfl, rfl⟩)⟩
  unfold removePlain
  rw [run_get_bind]
  refine ends_bind.2 ((stays_iff.1 hshare t ⟨t.arena, rfl, .refl _⟩).imp ?_ fun _ _ _ => trivial)
  rintro _ _ ⟨b, rfl, hb⟩
  rw [run_get_bind]
  unfold removeFromOwner
  rw [bind_assoc, run_get_bind, show Tree.slot { t with arena := b } p = .entry list i from hp.slot,
    show Tree.parentNode { t with arena := b } p = some m from hp.parent]
  dsimp only
  rw [bind_assoc]
  refine ends_bind.2 ((ends_edit (ends_listRemove_slotAt (hb.wellOwned ha) m list i)).mono ?_)
  rintro _ _ ⟨a, ⟨hwell, hsize, hread, hothers⟩, rfl⟩
  have hfiled := hf.edited (hb.size.ge.trans hsize.ge)
  refine ends_bind.2 ((ends_shiftEntries hfiled (some m) list (i + 1) (· - 1) (some p)).mono
    fun _ u hshift => ?_)
  -- what is left is to forget what hangs under the entry, and the path at hand
  have hfades (w : Tree) (hw : u.Fades w) (hpw : p.index < u.paths.size →
      (w.path p).removed = true) :
      t.Renumbers m (Slot.shift list (i + 1) (· - 1)) w := by
    refine hshift.renumbered hf hwell hw (fun q hq hr hused => ?_) fun k hk s =>
      (hothers k hk s).trans (hb.slotAt k s)
    have hqp : q ≠ p := by
      rintro rfl
      rw [hpw ((hf.listed _ q hq).1.trans_eq hshift.size.symm)] at hr
      cases hr
    exact ⟨fun he => hqp (Option.some.inj he),
      (hread _ fun hs => hqp (hp.sole q hq hused hs)).trans (hb.slotAt m _)⟩
  have hend (v : Tree) (hv : u.Fades v) :
      t.Renumbers m (Slot.shift list (i + 1) (· - 1)) (v.markRemoved p) :=
    hfades _ (hv.markRemoved p) fun hlt => by
      rw [Tree.markRemoved, path_updatePath_self _ _ (hlt.trans_eq hv.size.symm)]
  have hfiled' := hshift.filed hfiled
  have hwell' : u.arena.WellOwned := by
    rw [hshift.arena]
    exact hwell
  cases Tree.node t p with
  | none => exact hend u (.refl hfiled')
  | some old => exact hend _ (.invalidate hfiled' hwell' _)

/-! ## both -/

/-- **Paths stay in step with the owner of a list that changes.** Entries are put into the list, or
one is removed through the only path that stands for it and nothing else has to go. Then all nodes
that paths were in step with are so again. Paths hold what they held. Those of later entries of the
list move by as much as came or went, those of earlier entries and of other fields stay, and so do
those that suit other nodes. -/
theorem InStep.renumbers (hm : t.InStep m) (ha : t.arena.WellOwned) (hf : t.Filed)
    (list : String) (i : Nat) :
    (∀ parentPath nodes paths t', insertEntries parentPath (some m) list i nodes t = .ok paths t' →
        t.Renumbers m (Slot.shift list (min i (t.arena.items (some m) list).length)
          (· + nodes.length)) t')
      ∧ ∀ p u t', assertLive p t = .ok ⟨⟩ u → u.StandsAlone p m list i → remove p t = .ok ⟨⟩ t' →
        t.Renumbers m (Slot.shift list (i + 1) (· - 1)) t' := by
  refine ⟨fun parentPath nodes paths t' hrun => ?_, fun p u t' hlive hp hrun => ?_⟩
  · exact (hm.ends_insertEntries ha hf parentPath list i nodes).of_ok hrun
  · have haligns : t.Aligns u :=
      (stays_iff.1 ((Aligns.charted ha).assertLive p) t (.refl hf)).of_ok hlive
    have ha' : u.arena.WellOwned := by rwa [haligns.arena]
    rw [run_remove hlive hp.plain] at hrun
    exact haligns.renumbered ha hf hm
      ((hp.ends_removePlain ha' haligns.filed).of_ok hrun)

/-- A statement comes ahead of both that are there, and the first one goes. -/
theorem renumbers_lookedUp : lookedUp.InStep ⟨2⟩
    ∧ (∃ paths t', insertEntries ⟨0⟩ (some ⟨2⟩) "body" 0 [some ⟨3⟩] lookedUp = .ok paths t'
      ∧ t'.InStep ⟨2⟩ ∧ t'.slot ⟨1⟩ = .entry "body" 1 ∧ t'.slot ⟨2⟩ = .entry "body" 2)
    ∧ ∃ t', remove ⟨1⟩ lookedUp = .ok ⟨⟩ t' ∧ t'.InStep ⟨2⟩ ∧ t'.slot ⟨2⟩ = .entry "body" 0 := by
  have ha : lookedUp.arena.WellOwned := Arena.wellOwned_runAll _
  have hf : lookedUp.Filed := by
    have hstart : (ofArena besideProgram (some ⟨2⟩) { noScope := true }).Filed :=
      filed_ofArena (fun r hr => Option.some.inj hr ▸ by decide) _
    have hlooked := (Aligns.charted (t := ofArena besideProgram (some ⟨2⟩) { noScope := true })
      ha).entries ⟨0⟩ "body" _ (Aligns.getRootPath ha hstart)
    exact hlooked.filed.edited (congrArg Arena.size hlooked.arena).le
  have hm : lookedUp.InStep ⟨2⟩ := by decide +kernel
  have hpaths : lookedUp.cachedPaths (some ⟨2⟩) = [⟨1⟩, ⟨2⟩] := by decide +kernel
  have hslots : lookedUp.slot ⟨1⟩ = .entry "body" 0 ∧ lookedUp.slot ⟨2⟩
      = .entry "body" 1 := by decide +kernel
  obtain ⟨hcome, hgo⟩ := hm.renumbers ha hf "body" 0
  have hinsert : passes (insertEntries ⟨0⟩ (some ⟨2⟩) "body" 0 [some ⟨3⟩] lookedUp) (fun _ t' =>
      !(t'.path ⟨1⟩).removed && !(t'.path ⟨2⟩).removed) = true := by decide +kernel
  obtain ⟨paths, t₁, hinsert, htest⟩ := ok_of_passes hinsert
  simp only [Bool.and_eq_true, Bool.not_eq_true'] at htest
  have hlive : passes (assertLive ⟨1⟩ lookedUp) (fun _ u => decide (u.InStep ⟨2⟩
      ∧ ⟨1⟩ ∈ u.cachedPaths (some ⟨2⟩) ∧ (u.path ⟨1⟩).removed = false ∧ u.node ⟨1⟩ = some ⟨0⟩
      ∧ u.parentNode ⟨1⟩ = some ⟨2⟩ ∧ u.slot ⟨1⟩ = .entry "body" 0
      ∧ u.removal ⟨1⟩ = .plain)) = true := by
    decide +kernel
  obtain ⟨_, u, hlive, hu⟩ := ok_of_passes hlive
  obtain ⟨hin, hmem, hr, hn, hparent, hs, hplain⟩ := of_decide_eq_true hu
  have hremove : passes (remove ⟨1⟩ lookedUp) (fun _ t' => !(t'.path ⟨2⟩).removed)
      = true := by decide +kernel
  obtain ⟨_, t₂, hremove, hr₂⟩ := ok_of_passes hremove
  have hcame := hcome _ _ _ _ hinsert
  have hwent := hgo _ _ _ hlive (hin.standsAlone hmem hr hn hparent hs hplain) hremove
  refine ⟨hm, ⟨paths, t₁, hinsert, hcame.inStep _ hm, ?_, ?_⟩, t₂, hremove, hwent.inStep _ hm, ?_⟩
  · rw [hcame.moved ⟨1⟩ (by simp [hpaths]) htest.1, hslots.1]
    rfl
  · rw [hcame.moved ⟨2⟩ (by simp [hpaths]) htest.2, hslots.2]
    rfl
  · rw [hwent.moved ⟨2⟩ (by simp [hpaths]) (by simpa using hr₂), hslots.2]
    rfl

/-! ## paths of entries alone -/

def entryPaths (t : Tree) (m : NodeId) : List PathId :=
  (t.cachedPaths (some m)).filter fun p => !(t.path p).removed && (t.slot p).list?.isSome

/-- The paths of entries of `m` suit, and no two of them hold the same node. Other paths made below
`m` may be out of step with it. -/
def Numbered (t : Tree) (m : NodeId) : Prop :=
  (∀ p ∈ t.entryPaths m, t.node p = t.readSlot (some m) (t.slot p))
    ∧ ∀ p ∈ t.entryPaths m, ∀ q ∈ t.entryPaths m, (t.node p).isSome → t.node p = t.node q → p = q

instance (t : Tree) (m : NodeId) : Decidable (t.Numbered m) := inferInstanceAs (Decidable (_ ∧ _))

/-- The program `{ null }`, and two statements that are not part of it. -/
def nullInBlock : Arena := Arena.runAll [
  .alloc .nullLiteral [],
  .alloc .expressionStatement [.node (some ⟨0⟩)],
  .alloc .blockStatement [.list [], .list [some ⟨1⟩]],
  .alloc .program [.str "module", .list [], .list [some ⟨2⟩]],
  .alloc .debuggerStatement [],
  .alloc .emptyStatement []]

/-- The path of the statement in the block was looked up before another came ahead of it. -/
def pushedBack : TreeM (PathId × PathId) := do
  let root ← getRootPath
  let p ← follow root "body.0.body.0"
  let _ ← TreeM.edit (Arena.listInsert (some ⟨2⟩) "body" 0 [some ⟨4⟩])
  return (root, p)

/-- The path of the statement was looked up in the block and again after it was moved ahead of it.
-/
def broughtOut : TreeM PathId := do
  let root ← getRootPath
  let p ← follow root "body.0.body.0"
  let _ ← TreeM.edit (Arena.take (some ⟨1⟩))
  let _ ← TreeM.edit (Arena.listInsert (some ⟨3⟩) "body" 0 [some ⟨1⟩])
  let _ ← follow root "body.0"
  let _ ← follow root "body.1"
  return p

/-- The program `{ x(y) }`, and a name that is not part of it. -/
def callInBlock : Arena := Arena.runAll [
  .alloc .identifier [.str "x", .node none],
  .alloc .identifier [.str "y", .node none],
  .alloc .callExpression [.node (some ⟨0⟩), .list [some ⟨1⟩]],
  .alloc .expressionStatement [.node (some ⟨2⟩)],
  .alloc .blockStatement [.list [], .list [some ⟨3⟩]],
  .alloc .program [.str "module", .list [], .list [some ⟨4⟩]],
  .alloc .identifier [.str "z", .node none]]

/-- The paths of callee and argument were looked up, and the argument took the place of the callee.
Then both nodes were put back, and the statement was moved to another block. The path of the callee
still holds the argument. -/
def calleeReplaced : TreeM PathId := do
  let root ← getRootPath
  let b ← follow root "body.0"
  let s ← follow b "body.0"
  let c ← follow s "expression"
  let q ← follow c "callee"
  let _ ← follow c "arguments.0"
  let _ ← TreeM.edit (Arena.listRemove (some ⟨2⟩) "arguments" 0)
  replaceNode q ⟨1⟩
  let _ ← TreeM.edit (Arena.setChild (some ⟨2⟩) "callee" (some ⟨0⟩))
  let _ ← TreeM.edit (Arena.listInsert (some ⟨2⟩) "arguments" 0 [some ⟨1⟩])
  let _ ← TreeM.edit (Arena.take (some ⟨3⟩))
  Tree.remove b
  let b ← TreeM.edit (Arena.blockStatement [some ⟨3⟩])
  let _ ← TreeM.edit (Arena.listInsert (some ⟨5⟩) "body" 0 [some b])
  resync s
  return c

/-- **Paths of entries may go astray where other paths are out of step.** A path that lags behind
below another node is brought in line when entries come. A path of a field that holds a node of the
list comes to stand for the same entry as another. When an entry is removed through a path that was
made below another node, the path made for it stays behind. -/
theorem numbered_astray :
    (∃ root p t paths t', pushedBack (ofArena nullInBlock (some ⟨3⟩) {}) = .ok (root, p) t
      ∧ t.Numbered ⟨3⟩ ∧ insertEntries root (some ⟨3⟩) "body" 1 [some ⟨5⟩] t = .ok paths t'
      ∧ p ∈ t.cachedPaths (some ⟨2⟩) ∧ t.slot p = .entry "body" 0 ∧ t'.slot p = .entry "body" 1)
    ∧ (∃ p t paths t', calleeReplaced (ofArena callInBlock (some ⟨5⟩) {}) = .ok p t ∧ t.Numbered ⟨2⟩
      ∧ insertEntries p (some ⟨2⟩) "arguments" 1 [some ⟨6⟩] t = .ok paths t' ∧ ¬ t'.Numbered ⟨2⟩)
    ∧ ∃ p t u t', broughtOut (ofArena nullInBlock (some ⟨3⟩) {}) = .ok p t ∧ t.Numbered ⟨3⟩
      ∧ assertLive p t = .ok ⟨⟩ u ∧ u.parentNode p = some ⟨3⟩ ∧ u.slot p = .entry "body" 0
      ∧ u.removal p = .plain ∧ remove p t = .ok ⟨⟩ t' ∧ ¬ t'.Numbered ⟨3⟩ := by
  refine ⟨?lagging, ?field, ?removed⟩
  case lagging =>
    have hrun : passes (pushedBack (ofArena nullInBlock (some ⟨3⟩) {})) (fun (root, p) t =>
        decide (t.Numbered ⟨3⟩) && passes (insertEntries root (some ⟨3⟩) "body" 1 [some ⟨5⟩] t)
          fun _ t' =>
          decide (p ∈ t.cachedPaths (some ⟨2⟩) ∧ t.slot p = .entry "body" 0
            ∧ t'.slot p = .entry "body" 1)) = true := by decide +kernel
    obtain ⟨⟨root, p⟩, t, hrun, htest⟩ := ok_of_passes hrun
    obtain ⟨hnumbered, htest⟩ := Bool.and_eq_true_iff.1 htest
    obtain ⟨paths, t', hinsert, htest⟩ := ok_of_passes htest
    exact ⟨root, p, t, paths, t', hrun, of_decide_eq_true hnumbered, hinsert,
      of_decide_eq_true htest⟩
  case field =>
    have hrun : passes (calleeReplaced (ofArena callInBlock (some ⟨5⟩) {})) (fun p t =>
        decide (t.Numbered ⟨2⟩) && passes (insertEntries p (some ⟨2⟩) "arguments" 1 [some ⟨6⟩] t)
          fun _ t' =>
          decide (¬ t'.Numbered ⟨2⟩)) = true := by decide +kernel
    obtain ⟨p, t, hrun, htest⟩ := ok_of_passes hrun
    obtain ⟨hnumbered, htest⟩ := Bool.and_eq_true_iff.1 htest
    obtain ⟨paths, t', hinsert, htest⟩ := ok_of_passes htest
    exact ⟨p, t, paths, t', hrun, of_decide_eq_true hnumbered, hinsert, of_decide_eq_true htest⟩
  case removed =>
    have hrun : passes (broughtOut (ofArena nullInBlock (some ⟨3⟩) {})) (fun p t =>
        decide (t.Numbered ⟨3⟩) && (passes (assertLive p t) (fun _ u =>
          decide (u.parentNode p = some ⟨3⟩ ∧ u.slot p = .entry "body" 0 ∧ u.removal p = .plain))
        && passes (remove p t) fun _ t' => decide (¬ t'.Numbered ⟨3⟩))) = true := by decide +kernel
    obtain ⟨p, t, hrun, htest⟩ := ok_of_passes hrun
    obtain ⟨hnumbered, htest⟩ := Bool.and_eq_true_iff.1 htest
    obtain ⟨hlive, hremove⟩ := Bool.and_eq_true_iff.1 htest
    obtain ⟨_, u, hlive, hu⟩ := ok_of_passes hlive
    obtain ⟨hparent, hs, hplain⟩ := of_decide_eq_true hu
    obtain ⟨_, t', hremove, htest⟩ := ok_of_passes hremove
    exact ⟨p, t, u, t', hrun, of_decide_eq_true hnumbered, hlive, hparent, hs, hplain, hremove,
      of_decide_eq_true htest⟩

end ScopedTree.Tree
