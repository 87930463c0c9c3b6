import Mathlib.Data.List.Chain
import ScopedTree.Proofs.Arena.Region
import ScopedTree.Proofs.Path.Rooted

/-!
# Bringing paths in line

To bring a path in line is to ask its node where it stands, and the owner of the node for its path.

* `Arena.Under.isChain`        the way up from a node;
* `Tree.InReach`                 a node hangs under the root, with few nodes above it;
* `Tree.Rooted.ends_pathFor`   its path is found, and paths of other nodes stay as they are;
* `Tree.InLine`                a path stands where its node does, below a path of the owner;
* `Tree.Rooted.ends_resync`    where a path stands once it is brought in line;
* `Tree.InLine.resync_eq`      to do so again makes no difference.
-/

namespace ScopedTree

open Relation

namespace Arena

variable {a : Arena} {r n : NodeId} {above : List NodeId}

/-- The way up from a node follows owner links. -/
theorem Under.isChain (ha : a.Owned) (h : a.Under r n above) : (n :: above).IsChain a.OwnedBy := by
  induction h with
  | root => exact .singleton r
  | child _ hc ih => exact .cons_cons (ha.owner_of_child _ _ hc) ih

theorem Under.getLast? (h : a.Under r n above) : (n :: above).getLast? = some r := by
  induction h with
  | root => rfl
  | child _ _ ih => rw [List.getLast?_cons_cons, ih]

end Arena

namespace Tree

open Arena

variable {t t' : Tree} {m : Nat} {p q : PathId} {n o r : NodeId} {slot : Slot} {above : List NodeId}

/-! ## the way down to a node -/

/-- The node hangs under the root, with no more nodes above it than are gone through. -/
def InReach (t : Tree) (n : NodeId) : Prop :=
  ∃ r above, t.root = some r ∧ t.arena.Under r n above ∧ above.length ≤ Limits.chain

theorem chainFromRoot_of_under (ha : t.arena.Owned) (hr : t.root = some r)
    (h : t.arena.Under r n above) :
    ∀ {fuel : Nat} {below : List (Option NodeId)}, above.length ≤ fuel →
      t.chainFromRoot fuel (some n) below = some ((n :: above).reverse.map some ++ below) := by
  induction h with
  | root =>
    intro fuel below _
    unfold chainFromRoot
    rw [if_pos (by rw [hr, beq_self_eq_true])]
    rfl
  | @child o c above ho hc ih =>
    intro fuel below hlen
    have hne : c ≠ r := by
      rintro rfl
      cases (Under.child ho hc).root_above ha
    cases fuel with
    | zero => exact absurd hlen (Nat.not_succ_le_zero _)
    | succ fuel =>
      have howner : t.arena.parentOf (some c) = some o := ha.owner_of_child o c hc
      unfold chainFromRoot
      rw [if_neg (by simp [hr, hne])]
      dsimp only
      rw [howner]
      dsimp only
      rw [ih (Nat.le_of_succ_le_succ hlen)]
      simp

theorem under_of_chainFromRoot (ha : t.arena.Owned) : ∀ {fuel : Nat} {n : NodeId}
    {below chain : List (Option NodeId)}, t.chainFromRoot fuel (some n) below = some chain →
      ∃ r above, t.root = some r ∧ t.arena.Under r n above ∧ above.length ≤ fuel
  | fuel, n, below, chain, h => by
    unfold chainFromRoot at h
    by_cases hn : t.root = some n
    · exact ⟨n, [], hn, .root, Nat.zero_le _⟩
    · rw [if_neg fun he => hn (beq_iff_eq.1 he).symm] at h
      cases fuel with
      | zero => cases h
      | succ fuel =>
        dsimp only at h
        cases ho : t.arena.parentOf (some n) with
        | none =>
          rw [ho] at h
          cases h
        | some o =>
          rw [ho] at h
          obtain ⟨r, above, hr, hu, hlen⟩ := under_of_chainFromRoot ha h
          exact ⟨r, o :: above, hr, .child hu (ha.mem_children ho), Nat.succ_le_succ hlen⟩

theorem chainFromRoot_eq_none (ha : t.arena.Owned) (hn : ¬ t.InReach n) :
    t.chainFromRoot Limits.chain (some n) [] = none := by
  cases hc : t.chainFromRoot Limits.chain (some n) [] with
  | none => rfl
  | some chain => exact absurd (under_of_chainFromRoot ha hc) hn

theorem exists_slotAmong : ∀ {l : List (Field × Value)}, (∃ x ∈ l, n ∈ x.2.children) →
    ∃ slot, slotAmong (some n) l = some slot
  | [], h => by simp at h
  | (f, value) :: rest, h => by
    have hrest (hn : n ∉ value.children) : ∃ slot, slotAmong (some n) rest = some slot := by
      obtain ⟨x, hx, hc⟩ := h
      rcases List.mem_cons.1 hx with rfl | hx
      · exact absurd hc hn
      · exact exists_slotAmong ⟨x, hx, hc⟩
    unfold slotAmong
    cases value with
    | node child =>
      dsimp only
      by_cases hc : child = some n
      · exact ⟨_, if_pos (beq_iff_eq.2 hc)⟩
      · rw [if_neg fun he => hc (beq_iff_eq.1 he)]
        exact hrest fun hn => hc (mem_children_node.1 hn)
    | list items =>
      dsimp only
      cases hi : items.findIdx? (· == some n) with
      | some i => exact ⟨_, rfl⟩
      | none =>
        refine hrest fun hn => ?_
        have := List.findIdx?_eq_none_iff.1 hi _ (mem_children_list.1 hn)
        simp at this
    | _ => exact hrest (by simp [Value.children, Value.handles])

theorem exists_findSlot (ha : t.arena.WellOwned) (h : t.arena.OwnedBy n o) :
    ∃ slot, t.findSlot (some o) (some n) = some slot := by
  obtain ⟨k, hk, hn⟩ := get?_of_mem_children (ha.owned.mem_children h)
  obtain ⟨v, hv, hnv⟩ := List.mem_flatMap.1 (k.children_eq ▸ hn)
  obtain ⟨i, hi⟩ := List.mem_iff_getElem?.1 hv
  have hlt : i < k.type.fields.length := by
    rw [(ha.shaped o k hk).length_eq]
    exact (List.getElem?_eq_some_iff.1 hi).1
  have hx : (k.type.fields[i], v) ∈ k.type.fields.zip k.values :=
    List.mem_of_getElem? (List.getElem?_zip_eq_some.2 ⟨List.getElem?_eq_getElem hlt, hi⟩)
  obtain ⟨slot, hslot⟩ := exists_slotAmong ⟨_, hx, hnv⟩
  refine ⟨slot, ?_⟩
  unfold findSlot
  rw [look_some, hk]
  exact hslot

namespace Rooted

theorem ends_descend : ∀ (below : List NodeId) {t : Tree} {q : PathId} {o : NodeId}, t.Rooted m →
    t.arena.WellOwned → t.node q = some o → (o :: below).IsChain (fun x y => t.arena.OwnedBy y x) →
    Ends (descend q (some o) (below.map some) t) (fun x t' => t'.Rooted m
      ∧ (∀ n, n ∉ below → Spares n t t')
      ∧ ∃ q', x = some q' ∧ t'.node q' = (o :: below).getLast?) fun _ _ => False
  | [], t, q, o, h, ha, hq, hc => ⟨h, fun n _ => .refl n t, q, rfl, hq⟩
  | c :: below, t, q, o, h, ha, hq, hc => by
    obtain ⟨hown, hc⟩ := List.isChain_cons_cons.1 hc
    obtain ⟨slot, hslot⟩ := exists_findSlot ha hown
    have hread := readSlot_of_findSlot ha.shaped hslot
    rw [List.map_cons]
    unfold descend
    rw [run_get_bind, hslot]
    refine ends_bind.2 ((h.ends_child (findSlot_ne_root hslot) (some o)).mono ?_)
    rintro q' t' ⟨h', -, hspares, -, hq'⟩
    have harena : t'.arena = t.arena := by
      obtain ⟨k, hk⟩ : ∃ k : NodeId, k ≠ c := ⟨⟨c.index + 1⟩, fun he => by cases c; simp_all⟩
      exact (hspares k fun he => hk (Option.some.inj (he.symm.trans hread))).arena
    refine (ends_descend below h' (by rwa [harena]) (hq'.trans hread) (by rwa [harena])).mono ?_
    rintro x t'' ⟨h'', hspares', q'', rfl, hq''⟩
    refine ⟨h'', fun n hn => ?_, q'', rfl, by rw [hq'', List.getLast?_cons_cons]⟩
    obtain ⟨hne, hn⟩ := not_or.1 (mt List.mem_cons.2 hn)
    exact (hspares n fun he => hne (Option.some.inj (he.symm.trans hread))).trans (hspares' n hn)

/-- The owner of a node is found if it hangs under the root, and the paths of the node stay as they
are. -/
theorem ends_pathFor (h : t.Rooted m) (ha : t.arena.WellOwned) (ho : t.arena.OwnedBy n o) :
    Ends (pathFor (some o) t) (fun x t' => t'.Rooted m ∧ Spares n t t'
      ∧ (t.InReach o → ∃ q, x = some q ∧ t'.node q = some o)) fun _ _ => False := by
  unfold pathFor
  rw [run_get_bind]
  by_cases hangs : t.InReach o
  · obtain ⟨r, above, hr, hu, hlen⟩ := hangs
    have hlast : (o :: above).reverse.head? = some r := by
      rw [List.head?_reverse, hu.getLast?]
    obtain ⟨below, hbelow⟩ : ∃ below, (o :: above).reverse = r :: below :=
      List.head?_eq_some_iff.1 hlast
    rw [chainFromRoot_of_under ha.owned hr hu hlen, hbelow]
    have hn : n ∉ o :: above := by
      intro hn
      refine ha.owned.acyclic n ?_
      rcases List.mem_cons.1 hn with rfl | hn
      · exact .single ho
      · exact .head ho (hu.reaches ha.owned n hn)
    have hchain : (r :: below).IsChain fun x y => t.arena.OwnedBy y x := by
      rw [← hbelow]
      exact List.isChain_reverse.2 (hu.isChain ha.owned)
    have hend : (r :: below).getLast? = some o := by
      rw [← hbelow, List.getLast?_reverse]
      rfl
    rw [List.append_nil, List.map_cons]
    refine ends_bind.2 (h.ends_getRootPath.mono ?_)
    rintro q t' ⟨h', -, hspares, -, hq⟩
    have harena := (hspares n).arena
    refine (ends_descend below h' (by rwa [harena]) (hq.trans hr) (by rwa [harena])).mono ?_
    rintro x t'' ⟨h'', hspares', q', rfl, hq'⟩
    refine ⟨h'', (hspares n).trans (hspares' n fun hm => hn ?_), fun _ => ⟨q', rfl, hq'.trans hend⟩⟩
    rw [← List.mem_reverse, hbelow]
    exact List.mem_cons_of_mem r hm
  · rw [chainFromRoot_eq_none ha.owned hangs]
    exact ⟨h, .refl n t, fun hh => absurd hh hangs⟩

end Rooted

/-! ## where a path stands -/

/-- The path `p` stands where `n` does in `o`, below a path of `o` if `o` hangs under the root. -/
structure InLine (t : Tree) (p : PathId) (n o : NodeId) : Prop extends Sits t p n o where
  fresh : (t.path p).stale = false
  below : t.InReach o → ∃ q, t.parentPath p = some q ∧ t.node q = some o

theorem InReach.congr (h : t'.InReach n) (harena : t'.arena = t.arena) (hroot : t'.root = t.root) :
    t.InReach n := by
  unfold InReach at h ⊢
  rwa [← harena, ← hroot]

namespace Rooted

/-- The path then stands below a path of the owner, with the same node at the same place. -/
theorem ends_resyncParent (h : t.Rooted m) (ha : t.arena.WellOwned) (hn : t.node p = some n)
    (hs : t.slot p ≠ .root) (ho : t.arena.OwnedBy n o) :
    Ends (resyncParent p (some o) t) (fun _ t' => t'.Rooted m ∧ t'.arena = t.arena
      ∧ t'.root = t.root ∧ t'.parentNode p = some o ∧ t'.node p = some n ∧ t'.slot p = t.slot p
      ∧ (t'.path p).removed = (t.path p).removed
      ∧ (t.InReach o → ∃ q, t'.parentPath p = some q ∧ t'.node q = some o)) fun _ _ => False := by
  have hlt := lt_of_node hn
  have hne : n ≠ o := ha.owned.owner_ne ho
  obtain ⟨q, hq⟩ := Option.ne_none_iff_exists'.1 (h.below p hlt hs)
  have hlook (f : Option PathId → PathData → PathData)
      (hf : ∀ x d, (f x d).node = d.node ∧ (f x d).slot = d.slot ∧ (f x d).removed = d.removed
        ∧ (f x d).parentPath = (x <|> d.parentPath))
      (hpar : ∀ x, (f x (t.path p)).parent = some o) :
      Ends ((do
        let x ← pathFor (some o)
        modify (·.updatePath p (f x)) : TreeM Unit) t)
        (fun _ t' => t'.Rooted m ∧ t'.arena = t.arena ∧ t'.root = t.root
          ∧ t'.parentNode p = some o ∧ t'.node p = some n ∧ t'.slot p = t.slot p
          ∧ (t'.path p).removed = (t.path p).removed
          ∧ (t.InReach o → ∃ q, t'.parentPath p = some q ∧ t'.node q = some o))
          fun _ _ => False := by
    refine ends_bind.2 ((h.ends_pathFor ha ho).mono ?_)
    rintro x t' ⟨h', hspares, hbelow⟩
    have hsame : t'.path p = t.path p := hspares.path p hn
    have hself := path_updatePath_self t' (f x) (hlt.trans_le hspares.size)
    obtain ⟨hfn, hfs, hfr, hfq⟩ := hf x (t'.path p)
    refine ⟨h'.updatePath ?_ ⟨hfs.trans_ne ?_, ?_⟩, hspares.arena, hspares.root, ?_, ?_, ?_, ?_,
      fun hangs => ?_⟩
    · exact (congrArg PathData.slot hsame).trans_ne hs
    · exact (congrArg PathData.slot hsame).trans_ne hs
    · rw [hfq, hsame, show (t.path p).parentPath = some q from hq]
      cases x <;> exact Option.some_ne_none _
    · refine (congrArg PathData.parent hself).trans ?_
      rw [hsame]
      exact hpar x
    · exact (congrArg PathData.node hself).trans
        (hfn.trans ((congrArg PathData.node hsame).trans hn))
    · exact (congrArg PathData.slot hself).trans (hfs.trans (congrArg PathData.slot hsame))
    · exact (congrArg PathData.removed hself).trans (hfr.trans (congrArg PathData.removed hsame))
    · obtain ⟨q', rfl, hq'⟩ := hbelow hangs
      refine ⟨q', (congrArg PathData.parentPath hself).trans hfq, ?_⟩
      -- the path of the owner is another one
      have hqp : q' ≠ p := by
        rintro rfl
        exact hne (Option.some.inj ((((congrArg PathData.node hsame).trans hn).symm).trans hq'))
      exact (congrArg PathData.node (path_updatePath_ne t' _ hqp)).trans hq'
  unfold resyncParent
  rw [run_get_bind]
  by_cases hpar : some o = (t.path p).parent
  · rw [if_neg (by simp [hpar]), show (t.path p).parentPath = some q from hq]
    dsimp only
    rw [run_get_bind]
    by_cases hqo : t.node q = some o
    · rw [if_neg (by simp [hqo])]
      exact ⟨h, rfl, rfl, hpar.symm, hn, rfl, rfl, fun _ => ⟨q, hq, hqo⟩⟩
    · rw [if_pos (bne_iff_ne.2 hqo)]
      exact hlook (fun x d => { d with parentPath := x <|> d.parentPath })
        (fun _ _ => ⟨rfl, rfl, rfl, rfl⟩) fun _ => hpar.symm
  · rw [if_pos (bne_iff_ne.2 hpar)]
    exact hlook (fun x d => { d with parent := some o, parentPath := x <|> d.parentPath })
      (fun _ _ => ⟨rfl, rfl, rfl, rfl⟩) fun _ => rfl

theorem ends_resyncSlot (h : t.Rooted m) (ha : t.arena.WellOwned) (hn : t.node p = some n)
    (hs : t.slot p ≠ .root) (ho : t.arena.OwnedBy n o) (hpar : t.parentNode p = some o)
    (hbelow : t.InReach o → ∃ q, t.parentPath p = some q ∧ t.node q = some o) :
    Ends (resyncSlot p (some o) (some n) t) (fun _ t' => t'.Rooted m ∧ t'.arena = t.arena
      ∧ t'.root = t.root ∧ (t'.path p).removed = (t.path p).removed ∧ t'.InLine p n o)
      fun _ _ => False := by
  have hlt := lt_of_node hn
  have hmove (slot : Slot) (hslot : slot ≠ .root) (hread : t.readSlot (some o) slot = some n)
      (f : PathData → PathData) (hf : f (t.path p) = { t.path p with slot, stale := false }) :
      (t.updatePath p f).Rooted m ∧ (t.updatePath p f).arena = t.arena
        ∧ (t.updatePath p f).root = t.root
        ∧ ((t.updatePath p f).path p).removed = (t.path p).removed
        ∧ (t.updatePath p f).InLine p n o := by
    have hself := (path_updatePath_self t f hlt).trans hf
    have hown : (t.updatePath p f).slot p = slot := congrArg PathData.slot hself
    refine ⟨h.updatePath hs ?_, rfl, rfl, (congrArg PathData.removed hself).trans rfl,
      ⟨⟨?_, ?_, ?_, ?_⟩, ?_, fun hangs => ?_⟩⟩
    · rw [hf]
      exact ⟨hslot, h.below p hlt hs⟩
    · exact hown.trans_ne hslot
    · exact (congrArg PathData.node hself).trans hn
    · exact (congrArg PathData.parent hself).trans hpar
    · rw [hown]
      exact hread
    · exact congrArg PathData.stale hself
    · obtain ⟨q, hq, hqo⟩ := hbelow hangs
      have hqp : q ≠ p := by
        rintro rfl
        exact ha.owned.owner_ne ho (Option.some.inj (hn.symm.trans hqo))
      exact ⟨q, (congrArg PathData.parentPath hself).trans hq,
        (congrArg PathData.node (path_updatePath_ne t _ hqp)).trans hqo⟩
  unfold resyncSlot
  rw [run_get_bind]
  by_cases hread : t.readSlot (t.path p).parent (t.path p).slot = some n
  · rw [if_pos (beq_iff_eq.2 hread)]
    rw [show (t.path p).parent = some o from hpar] at hread
    exact hmove (t.path p).slot hs hread _ rfl
  · obtain ⟨slot, hslot⟩ := exists_findSlot ha ho
    rw [if_neg fun hr => hread (beq_iff_eq.1 hr), hslot]
    exact hmove slot (findSlot_ne_root hslot) (readSlot_of_findSlot ha.shaped hslot) _ rfl

/-- A path below the root whose node has an owner is brought in line with it. -/
theorem ends_resync (h : t.Rooted m) (ha : t.arena.WellOwned) (hn : t.node p = some n)
    (hs : t.slot p ≠ .root) (hr : (t.path p).removed = false) (ho : t.arena.OwnedBy n o) :
    Ends (resync p t) (fun _ t' => t'.Rooted m ∧ t'.arena = t.arena ∧ t'.root = t.root
      ∧ (t'.path p).removed = false ∧ t'.InLine p n o) fun _ _ => False := by
  have hn' : (t.path p).node = some n := hn
  have hs' : (t.path p).slot ≠ .root := hs
  have howner : t.arena.parentOf (t.path p).node = some o := by rw [hn']; exact ho
  unfold resync
  rw [run_get_bind]
  rw [if_neg (by simp [hr, hs', hn']), howner, hn']
  refine ends_bind.2 ((h.ends_resyncParent ha hn hs ho).mono ?_)
  rintro _ t' ⟨h', harena, hroot, hpar, hnode, hslot, hrem, hbelow⟩
  refine (h'.ends_resyncSlot (by rwa [harena]) hnode (hslot.trans_ne hs) (by rwa [harena]) hpar
    fun hangs => hbelow (hangs.congr harena hroot)).mono ?_
  rintro _ t'' ⟨h'', harena', hroot', hrem', hline⟩
  exact ⟨h'', harena'.trans harena, hroot'.trans hroot, hrem'.trans (hrem.trans hr), hline⟩

end Rooted

theorem resync_of_unowned (hn : t.node p = some n) (hs : t.slot p ≠ .root)
    (hr : (t.path p).removed = false) (ho : t.arena.parentOf (some n) = none) :
    resync p t = .ok () (t.updatePath p ({ · with stale := true })) := by
  have hn' : (t.path p).node = some n := hn
  have hs' : (t.path p).slot ≠ .root := hs
  have howner : t.arena.parentOf (t.path p).node = none := by rw [hn']; exact ho
  unfold resync
  rw [run_get_bind]
  rw [if_neg (by simp [hr, hs', hn']), howner]
  rfl

/-- Nothing happens to a path that is in line. -/
theorem InLine.resync_eq (h : t.InLine p n o) (ha : t.arena.Owned)
    (hr : (t.path p).removed = false) :
    resync p t = .ok () t := by
  have hn : (t.path p).node = some n := h.node
  have hs : (t.path p).slot ≠ .root := h.slot
  have hpar : (t.path p).parent = some o := h.parent
  have howner : t.arena.parentOf (t.path p).node = some o := by rw [hn]; exact h.owned ha
  have hparent : resyncParent p (some o) t = .ok () t := by
    unfold resyncParent
    rw [run_get_bind]
    rw [if_neg (by simp [hpar])]
    cases hq : (t.path p).parentPath with
    | none => rfl
    | some q =>
      dsimp only
      rw [run_get_bind]
      by_cases hqo : t.node q = some o
      · rw [if_neg (by simp [hqo])]
        rfl
      · -- the owner is not found below the root, so the path stays below the one it has
        have hangs : ¬ t.InReach o := fun hangs => by
          obtain ⟨q', hq', hqo'⟩ := h.below hangs
          obtain rfl := Option.some.inj (hq.symm.trans hq')
          exact hqo hqo'
        have hfind : pathFor (some o) t = .ok none t := by
          unfold pathFor
          rw [run_get_bind, chainFromRoot_eq_none ha hangs]
          rfl
        rw [if_pos (bne_iff_ne.2 hqo), run_bind_of_ok hfind]
        show EStateM.Result.ok () (t.updatePath p _) = _
        rw [updatePath_eq_self t _ rfl]
  unfold resync
  rw [run_get_bind]
  rw [if_neg (by simp [hr, hs, hn]), howner]
  dsimp only
  rw [run_bind_of_ok hparent, hn]
  unfold resyncSlot
  rw [run_get_bind]
  rw [hpar, show t.readSlot (some o) (t.path p).slot = some n from h.holds,
    if_pos (beq_self_eq_true _)]
  show EStateM.Result.ok () (t.updatePath p _) = _
  rw [updatePath_eq_self]
  rw [← h.fresh]

end Tree

end ScopedTree
