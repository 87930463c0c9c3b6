import Mathlib.Data.List.Find
import ScopedTree.Proofs.Path.Follow
import ScopedTree.Proofs.Scope.Crawls

/-!
# Where paths stand

A path that stands at the place of its node goes on doing so while paths are looked up and scopes
are crawled, whatever else happens to be out of line.

* `Tree.Filed`       every path below a node is listed once, under one node;
* `Tree.Sits`        a path stands at the place of its node;
* `Tree.Answers`     a path is the one that is found for a node;
* `Tree.Retraces`    all of that is kept, and so are the nodes;
* `Tree.Retraces.crawls`   crawls do that;
* `Tree.ends_child`, `Tree.ends_resync`   the paths that are found so sit.
-/

namespace ScopedTree.Tree

open Arena

variable {t t' t'' : Tree} {n m o : NodeId} {p q : PathId} {slot : Slot}
  {parentPath : Option PathId} {owner : Option NodeId}

/-- Every path below a node is listed once, under one node. One path holds the root, if any does. -/
structure Filed (t : Tree) : Prop where
  present : ∀ r, t.root = some r → r.index < t.arena.size
  held : ∀ p n, t.node p = some n → n.index < t.arena.size
  root : ∀ p, p.index < t.paths.size → t.slot p = .root → t.rootPath = some p ∧ t.node p = t.root
  listed : ∀ m p, p ∈ t.cachedPaths m → p.index < t.paths.size ∧ t.slot p ≠ .root
  nodup : ∀ m, (t.cachedPaths m).Nodup
  once : ∀ m m' p, p ∈ t.cachedPaths m → p ∈ t.cachedPaths m' → m = m'

/-- The path `p` stands at the place of `n` in `o`. -/
structure Sits (t : Tree) (p : PathId) (n o : NodeId) : Prop where
  slot : t.slot p ≠ .root
  node : t.node p = some n
  parent : t.parentNode p = some o
  holds : t.readSlot (some o) (t.slot p) = some n

/-- The path `p` is the one that is found for `n` below `o`. -/
def Answers (t : Tree) (p : PathId) (n o : NodeId) : Prop :=
  (t.cachedPaths (some o)).find? (fun q => !(t.path q).removed && t.node q == some n) = some p

theorem filed_ofArena {a : Arena} {root : Option NodeId}
    (hr : ∀ r, root = some r → r.index < a.size) (options : Options) :
    (ofArena a root options).Filed := by
  have hnone (m : Option NodeId) : (ofArena a root options).cachedPaths m = [] := by
    cases m with
    | none => rfl
    | some m => simp [cachedPaths, ofArena]
  refine ⟨hr, fun p n hn => ?_, fun p hp => absurd hp (Nat.not_lt_zero _), fun m p hp => ?_,
    fun m => ?_, fun m _ p hp => ?_⟩
  · exact absurd (lt_of_node hn) (Nat.not_lt_zero _)
  · rw [hnone] at hp
    cases hp
  · rw [hnone]
    exact .nil
  · rw [hnone] at hp
    cases hp

theorem Sits.lt (h : t.Sits p n o) : p.index < t.paths.size := lt_of_node h.node

theorem Sits.mem (h : t.Sits p n o) : n ∈ t.arena.children (some o) :=
  mem_children_of_readSlot h.slot h.holds

theorem Sits.owned (ha : t.arena.Owned) (h : t.Sits p n o) : t.arena.OwnedBy n o :=
  ha.owner_of_child o n h.mem

theorem Answers.removed (h : t.Answers p n o) : (t.path p).removed = false := by
  have := List.find?_some h
  simp_all

theorem Answers.node (h : t.Answers p n o) : t.node p = some n := by
  have := List.find?_some h
  simp_all

theorem Answers.inj (h : t.Answers p n o) (h' : t.Answers q n o) : p = q :=
  Option.some.inj (h.symm.trans h')

theorem readSlot_none (hs : slot ≠ .root) : t.readSlot none slot = none := by
  cases slot with
  | root => exact absurd rfl hs
  | field name => rfl
  | entry list index => rfl

/-! ## what looking around keeps -/

/-- The node is the root or has an owner. -/
def Hung (t : Tree) (n : NodeId) : Prop := t.root = some n ∨ ∃ m, t.arena.OwnedBy n m

/-- Paths may have come. The old ones hold what they held, and those that stood at the place of
their node still do. -/
structure Retraces (t t' : Tree) : Prop where
  arena : t'.arena = t.arena
  root : t'.root = t.root
  options : t'.options = t.options
  rootPath : ∀ p, t.rootPath = some p → t'.rootPath = some p
  filed : t'.Filed
  size : t.paths.size ≤ t'.paths.size
  slots : ∀ p, p.index < t.paths.size → (t'.slot p = .root ↔ t.slot p = .root)
  nodes : ∀ p, p.index < t.paths.size → t'.node p = t.node p
  news : ∀ p n, t.paths.size ≤ p.index → t'.node p = some n → t.Hung n
  removed : ∀ p, p.index < t.paths.size → (t'.path p).removed = (t.path p).removed
  parents : ∀ p n m, t.node p = some n → t.slot p ≠ .root → t.arena.OwnedBy n m →
    t.parentNode p = some m → t'.parentNode p = some m
  sits : ∀ p n o, t.Sits p n o → t'.Sits p n o
  lists : ∀ m, ∃ new, t'.cachedPaths m = t.cachedPaths m ++ new
    ∧ ∀ p ∈ new, t.paths.size ≤ p.index

namespace Retraces

theorem refl (h : t.Filed) : t.Retraces t where
  arena := rfl
  root := rfl
  options := rfl
  rootPath _ h := h
  filed := h
  size := Nat.le_refl _
  slots _ _ := Iff.rfl
  nodes _ _ := rfl
  news p n hp hn := absurd (lt_of_node hn) (Nat.not_lt.2 hp)
  removed _ _ := rfl
  parents _ _ _ _ _ _ h := h
  sits _ _ _ h := h
  lists m := ⟨[], (List.append_nil _).symm, by simp⟩

theorem trans (h : t.Retraces t') (h' : t'.Retraces t'') : t.Retraces t'' where
  arena := h'.arena.trans h.arena
  root := h'.root.trans h.root
  options := h'.options.trans h.options
  rootPath p hp := h'.rootPath p (h.rootPath p hp)
  filed := h'.filed
  size := h.size.trans h'.size
  slots p hp := (h'.slots p (hp.trans_le h.size)).trans (h.slots p hp)
  nodes p hp := (h'.nodes p (hp.trans_le h.size)).trans (h.nodes p hp)
  news p n hp hn := by
    by_cases hp' : p.index < t'.paths.size
    · exact h.news p n hp ((h'.nodes p hp').symm.trans hn)
    · have hung := h'.news p n (Nat.le_of_not_lt hp') hn
      unfold Hung at hung ⊢
      rwa [h.root, h.arena] at hung
  removed p hp := (h'.removed p (hp.trans_le h.size)).trans (h.removed p hp)
  parents p n m hn hs ho hp := by
    have hlt := lt_of_node hn
    refine h'.parents p n m ((h.nodes p hlt).trans hn) (fun hr => hs ((h.slots p hlt).1 hr)) ?_
      (h.parents p n m hn hs ho hp)
    rwa [h.arena]
  sits p n o hs := h'.sits p n o (h.sits p n o hs)
  lists m := by
    obtain ⟨new, hnew, hlt⟩ := h.lists m
    obtain ⟨new', hnew', hlt'⟩ := h'.lists m
    refine ⟨new ++ new', by rw [hnew', hnew, List.append_assoc], fun p hp => ?_⟩
    rcases List.mem_append.1 hp with hp | hp
    · exact hlt p hp
    · exact h.size.trans (hlt' p hp)

theorem answers (h : t.Retraces t') (hf : t.Filed) (hp : t.Answers p n o) : t'.Answers p n o := by
  obtain ⟨new, hnew, -⟩ := h.lists (some o)
  have hcongr : (t.cachedPaths (some o)).find? (fun q => !(t'.path q).removed
      && t'.node q == some n)
      = (t.cachedPaths (some o)).find? fun q => !(t.path q).removed && t.node q == some n := by
    refine List.find?_congr fun q hq => ?_
    have hlt := (hf.listed _ q hq).1
    rw [h.removed q hlt, h.nodes q hlt]
  unfold Answers
  rw [hnew, List.find?_append, hcongr, hp]
  rfl

theorem of_congr (h : t.Retraces t') (harena : t''.arena = t'.arena) (hroot : t''.root = t'.root)
    (hoptions : t''.options = t'.options) (hrootPath : t''.rootPath = t'.rootPath)
    (hpath : ∀ p, (t''.path p).place = (t'.path p).place) (hsize : t''.paths.size = t'.paths.size)
    (hlists : ∀ m, t''.cachedPaths m = t'.cachedPaths m) : t.Retraces t'' := by
  have hnode (p : PathId) : t''.node p = t'.node p := congrArg (·.1) (hpath p)
  have hparent (p : PathId) : t''.parentNode p = t'.parentNode p := congrArg (·.2.1) (hpath p)
  have hslot (p : PathId) : t''.slot p = t'.slot p := congrArg (·.2.2.1) (hpath p)
  have hremoved (p : PathId) : (t''.path p).removed = (t'.path p).removed :=
    congrArg (·.2.2.2) (hpath p)
  have hread (m : Option NodeId) (slot : Slot) : t''.readSlot m slot = t'.readSlot m slot := by
    cases slot <;> simp only [readSlot, harena, hroot]
  refine h.trans ⟨harena, hroot, hoptions, fun p hp => hrootPath.trans hp,
    ⟨fun r hr => ?_, fun p n hn => ?_, fun p hp hs => ?_, fun m p hp => ?_, fun m => ?_,
      fun m m' p hp hp' => ?_⟩,
    hsize.ge, fun p _ => by rw [hslot], fun p _ => hnode p,
    fun p n hp hn => absurd ((lt_of_node hn).trans_eq hsize) (Nat.not_lt.2 hp),
      fun p _ => hremoved p,
    fun p _ _ _ _ _ hp => (hparent p).trans hp, fun p n o hs => ?_, fun m => ⟨[], ?_, by simp⟩⟩
  · rw [harena]
    exact h.filed.present r (hroot ▸ hr)
  · rw [harena]
    exact h.filed.held p n ((hnode p).symm.trans hn)
  · rw [hnode, hroot, hrootPath]
    exact h.filed.root p (hsize ▸ hp) ((hslot p).symm.trans hs)
  · rw [hlists] at hp
    rw [hsize, hslot]
    exact h.filed.listed m p hp
  · rw [hlists]
    exact h.filed.nodup m
  · rw [hlists] at hp hp'
    exact h.filed.once m m' p hp hp'
  · exact ⟨(hslot p).trans_ne hs.slot, (hnode p).trans hs.node, (hparent p).trans hs.parent,
      by rw [hslot, hread]; exact hs.holds⟩
  · rw [hlists, List.append_nil]

theorem note (h : t.Retraces t') (p : PathId) {f : PathData → PathData}
    (hf : ∀ d, (f d).place = d.place) : t.Retraces (t'.updatePath p f) :=
  h.of_congr rfl rfl rfl rfl (fun q => t'.path_updatePath_congr p q f PathData.place hf)
    (size_updatePath ..)
    fun _ => rfl

theorem seat (h : t.Filed) (hlt : p.index < t.paths.size) (hs : t.slot p ≠ .root)
    {f : PathData → PathData} (hnode : (f (t.path p)).node = t.node p)
    (hslot : (f (t.path p)).slot ≠ .root) (hremoved : (f (t.path p)).removed = (t.path p).removed)
    (hparent : ∀ n m, t.node p = some n → t.arena.OwnedBy n m → t.parentNode p = some m →
      (f (t.path p)).parent = some m)
    (hholds : ∀ n m, t.Sits p n m → (f (t.path p)).parent = some m
      ∧ t.readSlot (some m) (f (t.path p)).slot = some n) :
    t.Retraces (t.updatePath p f) := by
  have hself := path_updatePath_self t f hlt
  have hne {q : PathId} (hq : q ≠ p) : (t.updatePath p f).path q = t.path q :=
    path_updatePath_ne t f hq
  have hnodes (q : PathId) : (t.updatePath p f).node q = t.node q := by
    by_cases hq : q = p
    · subst hq
      exact (congrArg PathData.node hself).trans hnode
    · exact congrArg PathData.node (hne hq)
  have hslots (q : PathId) : (t.updatePath p f).slot q = .root ↔ t.slot q = .root := by
    by_cases hq : q = p
    · subst hq
      exact iff_of_false ((congrArg PathData.slot hself).trans_ne hslot) hs
    · show ((t.updatePath p f).path q).slot = _ ↔ _
      rw [hne hq]
      exact Iff.rfl
  refine ⟨rfl, rfl, rfl, fun _ h => h,
    ⟨h.present, fun q n hn => h.held q n ((hnodes q).symm.trans hn),
      fun q hq hr => ?_, fun m q hq => ?_, h.nodup, h.once⟩, (size_updatePath ..).ge,
    fun q _ => hslots q, fun q _ => hnodes q,
    fun q n hq hn => absurd ((lt_of_node hn).trans_eq (size_updatePath ..)) (Nat.not_lt.2 hq),
    fun q _ => ?_, fun q k m hk hr ho hm => ?_,
    fun q k m hsits => ?_, fun m => ⟨[], (List.append_nil _).symm, by simp⟩⟩
  · rw [hnodes]
    exact h.root q ((size_updatePath ..) ▸ hq) ((hslots q).1 hr)
  · rw [size_updatePath]
    exact ⟨(h.listed m q hq).1, fun hr => (h.listed m q hq).2 ((hslots q).1 hr)⟩
  · by_cases hq : q = p
    · rw [hq, hself, hremoved]
    · rw [hne hq]
  · by_cases hq : q = p
    · subst hq
      exact (congrArg PathData.parent hself).trans (hparent k m hk ho hm)
    · exact (congrArg PathData.parent (hne hq)).trans hm
  · refine ⟨fun hr => hsits.slot ((hslots q).1 hr), (hnodes q).trans hsits.node, ?_, ?_⟩
    · by_cases hq : q = p
      · subst hq
        exact (congrArg PathData.parent hself).trans (hholds k m hsits).1
      · exact (congrArg PathData.parent (hne hq)).trans hsits.parent
    · show t.readSlot (some m) ((t.updatePath p f).path q).slot = some k
      by_cases hq : q = p
      · subst hq
        rw [hself]
        exact (hholds k m hsits).2
      · rw [hne hq]
        exact hsits.holds

end Retraces

/-! ## a path that comes -/

/-- A tree with one path more. It is the first that holds the root, or it stands below another path,
and its node has an owner. -/
structure Adjoins (t t' : Tree) (d : PathData) : Prop extends t.Pushes t' d where
  hung : ∀ n, d.node = some n → t.Hung n
  crown : d.slot ≠ .root ∧ d.parentPath ≠ none
    ∨ d.slot = .root ∧ d.node = t.root ∧ d.parentPath = none ∧ d.parent = none ∧ t.rootPath = none

namespace Adjoins

variable {d : PathData}

theorem old_or_new (h : t.Adjoins t' d) (hq : q.index < t'.paths.size) :
    q.index < t.paths.size ∨ q = ⟨t.paths.size⟩ := by
  rw [h.toPushes.size] at hq
  refine (Nat.lt_succ_iff_lt_or_eq.1 hq).imp_right fun he => ?_
  cases q
  exact congrArg PathId.mk he

theorem slot_of_parent (h : t.Adjoins t' d) (hd : d.parent = some o) : d.slot ≠ .root := by
  rcases h.crown with ⟨hs, -⟩ | ⟨-, -, -, hnone, -⟩
  · exact hs
  · cases hd.symm.trans hnone

theorem not_listed (hf : t.Filed) (m : Option NodeId) :
    (⟨t.paths.size⟩ : PathId) ∉ t.cachedPaths m :=
  fun hq => Nat.lt_irrefl _ (hf.listed m _ hq).1

theorem mem_cachedPaths (h : t.Adjoins t' d) {m : Option NodeId} (hq : q ∈ t'.cachedPaths m) :
    q ∈ t.cachedPaths m ∨ q = ⟨t.paths.size⟩ ∧ m ≠ none ∧ d.parent = m := by
  cases m with
  | none => cases hq
  | some m => exact ((h.cached m q).1 hq).imp_right fun hq => ⟨hq.1, Option.some_ne_none m, hq.2⟩

theorem nodup (h : t.Adjoins t' d) (hf : t.Filed) (m : Option NodeId) :
    (t'.cachedPaths m).Nodup := by
  cases m with
  | none => exact .nil
  | some m =>
    rw [h.listed]
    refine List.nodup_append.2 ⟨hf.nodup _, ?_, fun q hq q' hq' he => ?_⟩
    · split
      · exact List.nodup_singleton _
      · exact .nil
    · split at hq'
      · rw [List.mem_singleton.1 hq'] at he
        exact not_listed hf _ (he ▸ hq)
      · cases hq'

/-- The new path is listed under one node, and there is none that listed it before. -/
theorem once (h : t.Adjoins t' d) (hf : t.Filed) {m m' : Option NodeId} (hq : q ∈ t'.cachedPaths m)
    (hq' : q ∈ t'.cachedPaths m') : m = m' := by
  rcases h.mem_cachedPaths hq with hold | ⟨rfl, -, hm⟩ <;>
    rcases h.mem_cachedPaths hq' with hold' | ⟨he, -, hm'⟩
  · exact hf.once m m' q hold hold'
  · exact absurd (he ▸ hold) (not_listed hf m)
  · exact absurd hold' (not_listed hf m')
  · exact hm.symm.trans hm'

theorem root_of_slot (h : t.Adjoins t' d) (hf : t.Filed) (hq : q.index < t'.paths.size)
    (hs : t'.slot q = .root) : t'.rootPath = some q ∧ t'.node q = t'.root := by
  rw [h.root, h.rootPath]
  rcases h.old_or_new hq with hlt | rfl
  · have hold := h.toPushes.path_old hlt
    obtain ⟨hroot, hnode⟩ := hf.root q hlt ((congrArg PathData.slot hold).symm.trans hs)
    exact ⟨.inl hroot, (congrArg PathData.node hold).trans hnode⟩
  · have hnew := h.toPushes.path_new
    rcases h.crown with ⟨hne, -⟩ | ⟨-, hnode, hnone, -⟩
    · exact absurd ((congrArg PathData.slot hnew).symm.trans hs) hne
    · exact ⟨.inr ⟨rfl, hnone⟩, (congrArg PathData.node hnew).trans hnode⟩

theorem held (h : t.Adjoins t' d) (hf : t.Filed) (hn : t'.node q = some n) :
    n.index < t.arena.size := by
  rcases h.old_or_new (lt_of_node hn) with hlt | rfl
  · exact hf.held q n ((congrArg PathData.node (h.toPushes.path_old hlt)).symm.trans hn)
  · have hnew := (congrArg PathData.node h.toPushes.path_new).symm.trans hn
    rcases h.hung n hnew with hroot | ⟨_, ho⟩
    · exact hf.present n hroot
    · exact ho.lt

theorem filed (h : t.Adjoins t' d) (hf : t.Filed) : t'.Filed where
  present r hr := by
    rw [h.arena]
    exact hf.present r (h.root ▸ hr)
  held q n hn := by
    rw [h.arena]
    exact h.held hf hn
  root q hq hs := h.root_of_slot hf hq hs
  listed m q hq := by
    rcases h.mem_cachedPaths hq with hq | ⟨rfl, hm, hd⟩
    · obtain ⟨hlt, hs⟩ := hf.listed m q hq
      exact ⟨hlt.trans_le h.toPushes.grows.size,
        (congrArg PathData.slot (h.toPushes.path_old hlt)).trans_ne hs⟩
    · obtain ⟨o, rfl⟩ := Option.ne_none_iff_exists'.1 hm
      exact ⟨h.toPushes.size.symm ▸ Nat.lt_succ_self _,
        (congrArg PathData.slot h.toPushes.path_new).trans_ne (h.slot_of_parent hd)⟩
  nodup := h.nodup hf
  once _ _ _ := h.once hf

theorem sits (h : t.Adjoins t' d) (hs : t.Sits p n o) : t'.Sits p n o := by
  have hold := h.toPushes.path_old hs.lt
  refine ⟨(congrArg PathData.slot hold).trans_ne hs.slot,
    (congrArg PathData.node hold).trans hs.node,
    (congrArg PathData.parent hold).trans hs.parent, ?_⟩
  rw [h.toPushes.readSlot, show t'.slot p = t.slot p from congrArg PathData.slot hold]
  exact hs.holds

theorem retraces (h : t.Adjoins t' d) (hf : t.Filed) : t.Retraces t' where
  arena := h.arena
  root := h.root
  options := h.options
  rootPath q hq := (h.rootPath q).2 (.inl hq)
  filed := h.filed hf
  size := h.toPushes.grows.size
  slots q hq := by
    rw [show t'.slot q = t.slot q from congrArg PathData.slot (h.toPushes.path_old hq)]
  nodes q hq := h.toPushes.grows.node q hq
  news q n hq hn := by
    rcases h.old_or_new (lt_of_node hn) with hlt | rfl
    · exact absurd hlt (Nat.not_lt.2 hq)
    · exact h.hung n ((congrArg PathData.node h.toPushes.path_new).symm.trans hn)
  removed q hq := congrArg PathData.removed (h.toPushes.path_old hq)
  parents q k m hk _ _ hm := (h.toPushes.grows.parentNode q (lt_of_node hk)).trans hm
  sits _ _ _ := h.sits
  lists
    | none => ⟨[], rfl, by simp⟩
    | some m => ⟨_, h.listed m, fun q hq => by
        split at hq
        · rw [List.mem_singleton.1 hq]
        · cases hq⟩

theorem answers (h : t.Adjoins t' d) (hf : t.Filed) (hn : d.node = some n) (hr : d.removed = false)
    (hd : d.parent = some o) (hnone :
      (t.cachedPaths (some o)).find? (fun q => !(t.path q).removed && t.node q == some n) = none) :
    t'.Answers ⟨t.paths.size⟩ n o := by
  have hold : (t.cachedPaths (some o)).find? (fun q => !(t'.path q).removed && t'.node q == some n)
      = none := by
    refine (List.find?_congr fun q hq => ?_).trans hnone
    unfold Tree.node
    rw [h.toPushes.path_old (hf.listed _ q hq).1]
  unfold Answers
  rw [h.listed, if_pos hd, List.find?_append, hold, Option.none_or, List.find?_singleton, if_pos]
  unfold Tree.node
  rw [h.toPushes.path_new, hn, hr]
  simp

end Adjoins

theorem retraces_getRootPath (h : t.Filed) : t.Retraces (final (getRootPath t)) := by
  obtain ⟨p, -, hrun⟩ | ⟨hr, t', hrun, hpush⟩ := getRootPath_find t <;> rw [hrun]
  · exact .refl h
  · exact Adjoins.retraces ⟨hpush, fun _ => .inl, .inr ⟨rfl, rfl, rfl, rfl, hr⟩⟩ h

theorem owner_of_readSlot (ha : t.arena.Owned) (hslot : slot ≠ .root)
    (hn : t.readSlot owner slot = some n) : ∃ o, owner = some o ∧ t.arena.OwnedBy n o := by
  cases owner with
  | none => cases (readSlot_none hslot).symm.trans hn
  | some o => exact ⟨o, rfl, ha.owner_of_child o n (mem_children_of_readSlot hslot hn)⟩

/-- A path that is found for a place sits there, and all others are left alone. -/
theorem ends_child (owner : Option NodeId) (h : t.Filed) (ha : t.arena.Owned)
    (hpar : parentPath ≠ none) (hslot : slot ≠ .root) :
    Ends (getOrCreatePath parentPath owner slot t)
      (fun q t' => t.Retraces t' ∧ q.index < t'.paths.size ∧ t'.slot q = slot
        ∧ t'.parentNode q = owner ∧ t'.node q = t.readSlot owner slot
        ∧ ∀ n o, owner = some o → t.readSlot owner slot = some n → t'.Answers q n o)
      fun _ _ => False := by
  obtain ⟨q, rfl⟩ := Option.ne_none_iff_exists'.1 hpar
  obtain ⟨p, hfind, hrun⟩ | ⟨hfind, t', hrun, hpush⟩ :=
    getOrCreatePath_find t q owner slot <;> rw [hrun]
  · obtain ⟨hlt, hsp⟩ := h.listed owner p (List.mem_of_find?_eq_some hfind)
    have hheld := node_of_servesSlot (List.find?_some hfind)
    have howner (n m : NodeId) (hn : t.node p = some n) (hm : t.arena.OwnedBy n m) :
        owner = some m ∧ t.readSlot (some m) slot = some n := by
      rw [hheld] at hn
      obtain ⟨o, rfl, ho⟩ := owner_of_readSlot ha hslot hn
      obtain rfl := ho.unique hm
      exact ⟨rfl, hn⟩
    have hret : t.Retraces (t.updatePath p fun d => { d with
        parentPath := some q, parent := owner, slot, node :=
          t.readSlot owner slot, stale := false }) :=
      Retraces.seat h hlt hsp hheld.symm hslot rfl (fun n m hn hm _ => (howner n m hn hm).1)
        fun n m hs => howner n m hs.node (hs.owned ha)
    have hself := path_updatePath_self t (fun d : PathData => { d with
      parentPath := some q, parent := owner, slot, node := t.readSlot owner slot, stale :=
        false }) hlt
    refine ⟨hret, (size_updatePath ..).symm ▸ hlt, congrArg PathData.slot hself,
      congrArg PathData.parent hself, congrArg PathData.node hself,
      fun n o ho hn => hret.answers h ?_⟩
    rw [hn] at hfind
    subst ho
    exact hfind
  · have hung (n : NodeId) (hn : t.readSlot owner slot = some n) : t.Hung n := by
      obtain ⟨o, -, ho⟩ := owner_of_readSlot ha hslot hn
      exact .inr ⟨o, ho⟩
    have hadjoins : t.Adjoins t'
        { node := t.readSlot owner slot, parentPath := some q, parent := owner, slot } :=
      ⟨hpush, hung, .inl ⟨hslot, hpar⟩⟩
    have hnew := hpush.path_new
    refine ⟨hadjoins.retraces h, hpush.size.symm ▸ Nat.lt_succ_self _, congrArg PathData.slot hnew,
      congrArg PathData.parent hnew, congrArg PathData.node hnew, fun n o ho hn => ?_⟩
    rw [hn] at hfind
    subst ho
    exact hadjoins.answers h hn rfl rfl hfind

/-! ## bringing paths in line -/

theorem slotAmong_eq {id : Option NodeId} : ∀ {l : List (Field × Value)},
    slotAmong id l = some slot → ∃ x ∈ l, x.2 = .node id ∧ slot = .field x.1.name
      ∨ ∃ items i, x.2 = .list items ∧ items[i]? = some id ∧ slot = .entry x.1.name i
  | [], h => nomatch h
  | (f, value) :: rest, h => by
    have hrest (h : slotAmong id rest = some slot) : ∃ x ∈ (f, value) :: rest,
        x.2 = .node id ∧ slot = .field x.1.name
          ∨ ∃ items i, x.2 = .list items ∧ items[i]? = some id ∧ slot = .entry x.1.name i := by
      obtain ⟨x, hx, hfound⟩ := slotAmong_eq h
      exact ⟨x, List.mem_cons_of_mem _ hx, hfound⟩
    unfold slotAmong at h
    cases value with
    | node child =>
      by_cases hc : child = id
      · simp only [hc, beq_self_eq_true, if_true, Option.some.injEq] at h
        exact ⟨(f, .node child), List.mem_cons_self .., .inl ⟨congrArg _ hc, h.symm⟩⟩
      · simp only [beq_eq_false_iff_ne.2 hc, Bool.false_eq_true, if_false] at h
        exact hrest h
    | list items =>
      cases hi : items.findIdx? (· == id) with
      | none =>
        simp only [hi] at h
        exact hrest h
      | some i =>
        simp only [hi, Option.some.injEq] at h
        obtain ⟨hlt, heq, -⟩ := List.findIdx?_eq_some_iff_getElem.1 hi
        refine ⟨(f, .list items), List.mem_cons_self .., .inr ⟨items, i, rfl, ?_, h.symm⟩⟩
        rw [List.getElem?_eq_getElem hlt, beq_iff_eq.1 heq]
    | _ => exact hrest h

theorem value?_of_mem_zip {o : Node} (ho : o.Shaped) {x : Field × Value}
    (hx : x ∈ o.type.fields.zip o.values) : o.value? x.1.name = some x.2 := by
  obtain ⟨i, hi⟩ := List.mem_iff_getElem?.1 hx
  obtain ⟨hf, hv⟩ := List.getElem?_zip_eq_some.1 hi
  have heq := congrArg (·[i]?) ho.values_eq
  simp only [List.getElem?_map, hf, hv, Option.map_some, Option.some.injEq] at heq
  exact heq.symm

theorem readSlot_of_findSlot (ha : t.arena.Shaped) (h : t.findSlot (some m) (some n) = some slot) :
    t.readSlot (some m) slot = some n := by
  obtain ⟨o, ho, hslot⟩ := Option.bind_eq_some_iff.1 h
  have ho : t.arena.get? m = some o := ho
  obtain ⟨x, hx, ⟨hv, rfl⟩ | ⟨items, i, hv, hi, rfl⟩⟩ := slotAmong_eq hslot
  · have hval := value?_of_mem_zip (ha m o ho) hx
    simp only [readSlot, Arena.child?, look_some, ho, Option.bind_some, Node.child?, hval, hv]
  · have hval := value?_of_mem_zip (ha m o ho) hx
    simp only [readSlot, Arena.items, look_some, ho, Option.elim_some, Node.items, hval, hv, hi,
      Option.join_some]

section Resync

variable (h : t.Filed) (ha : t.arena.WellOwned)

include h ha

omit h in
theorem Retraces.looked : Looked t.Retraces where
  note t' p f hf h' := h'.note p fun d => congrArg Prod.fst (hf d).1
  root t' h' := h'.trans (retraces_getRootPath h'.filed)
  child parentPath owner slot hslot t' h' := by
    cases parentPath with
    | none => exact h'.trans (retraces_getRootPath h'.filed)
    | some q =>
      have hend := ends_child owner h'.filed (by rw [h'.arena]; exact ha.owned)
        (Option.some_ne_none q) hslot
      cases hr : getOrCreatePath (some q) owner slot t' with
      | ok p t'' =>
        rw [hr] at hend
        exact h'.trans hend.1
      | error e t'' =>
        rw [hr] at hend
        exact hend.elim

theorem ends_resyncParent (hn : t.node p = some n) (hs : t.slot p ≠ .root)
    (hm : t.arena.OwnedBy n m) : Ends (resyncParent p (some m) t)
      (fun _ t' => t.Retraces t' ∧ t'.parentNode p = some m) fun _ t' => t.Retraces t' := by
  have hlook := stays_iff.1 ((Retraces.looked ha).pathFor (some m)) t (.refl h)
  unfold resyncParent
  rw [run_get_bind]
  by_cases hpar : (t.path p).parent = some m
  · simp only [hpar, bne_self_eq_false, Bool.false_eq_true, if_false]
    cases hq : (t.path p).parentPath with
    | none =>
      exact ⟨.refl h, hpar⟩
    | some q =>
      dsimp only
      rw [run_get_bind]
      split
      · refine ends_bind.2 (hlook.mono fun q' t' hret => ?_)
        have hsame := t'.path_updatePath_congr p p
          (fun d => { d with parentPath := q' <|> d.parentPath }) PathData.parent fun _ => rfl
        exact ⟨hret.note p fun _ => rfl, hsame.trans (hret.parents p n m hn hs hm hpar)⟩
      · exact ⟨.refl h, hpar⟩
  · rw [if_pos (bne_iff_ne.2 (Ne.symm hpar))]
    refine ends_bind.2 (hlook.mono fun q t' hret => ?_)
    have hlt := (lt_of_node hn).trans_le hret.size
    have hself := path_updatePath_self t'
      (fun d => { d with parent := some m, parentPath := q <|> d.parentPath }) hlt
    have hn' := (hret.nodes p (lt_of_node hn)).trans hn
    have hown : t'.arena.OwnedBy n m := by rwa [hret.arena]
    have hs' : t'.slot p ≠ .root := fun hr => hs ((hret.slots p (lt_of_node hn)).1 hr)
    refine ⟨hret.trans (Retraces.seat hret.filed hlt hs' rfl hs' rfl ?_ ?_),
      congrArg PathData.parent hself⟩
    · intro k k' hk hk' _
      obtain rfl := Option.some.inj (hn'.symm.trans hk)
      rw [hown.unique hk']
    · intro k k' hsits
      obtain rfl := Option.some.inj (hn'.symm.trans hsits.node)
      have hk' : t'.arena.OwnedBy n k' := hsits.owned (by rw [hret.arena]; exact ha.owned)
      rw [hown.unique hk']
      exact ⟨rfl, hsits.holds⟩

theorem ends_resyncSlot (hn : t.node p = some n) (hs : t.slot p ≠ .root)
    (hpar : t.parentNode p = some m) :
    Ends (resyncSlot p (some m) (some n) t)
      (fun _ t' => t.Retraces t' ∧ ((t'.path p).stale = false → t'.Sits p n m))
      fun _ _ => False := by
  have hlt := lt_of_node hn
  unfold resyncSlot
  rw [run_get_bind]
  by_cases hread : t.readSlot (t.path p).parent (t.path p).slot = some n
  · rw [if_pos (beq_iff_eq.2 hread)]
    have hsits : t.Sits p n m := by
      refine ⟨hs, hn, hpar, ?_⟩
      rw [← hpar]
      exact hread
    have hret : t.Retraces (t.updatePath p ({ · with stale := false })) :=
      (Retraces.refl h).note p fun _ => rfl
    exact ⟨hret, fun _ => hret.sits p n m hsits⟩
  · rw [if_neg fun hr => hread (beq_iff_eq.1 hr)]
    cases hfind : t.findSlot (some m) (some n) with
    | none =>
      refine ⟨(Retraces.refl h).note p fun _ => rfl, fun hst => ?_⟩
      have hself := path_updatePath_self t ({ · with stale := true }) hlt
      rw [show ((t.updatePath p ({ · with stale := true })).path p).stale = true from
        congrArg PathData.stale hself] at hst
      cases hst
    | some slot =>
      have hslot := findSlot_ne_root hfind
      have hholds := readSlot_of_findSlot ha.shaped hfind
      have hself := path_updatePath_self t (fun d => { d with slot, stale := false }) hlt
      refine ⟨Retraces.seat h hlt hs rfl hslot rfl (fun _ _ _ _ hk => hk) fun k k' hsits => ?_,
        fun _ => ?_⟩
      · refine absurd ?_ hread
        obtain rfl := Option.some.inj (hn.symm.trans hsits.node)
        rw [show (t.path p).parent = some k' from hsits.parent]
        exact hsits.holds
      · refine ⟨(congrArg PathData.slot hself).trans_ne hslot,
          (congrArg PathData.node hself).trans hn, (congrArg PathData.parent hself).trans hpar, ?_⟩
        show t.readSlot (some m) ((t.updatePath p _).path p).slot = _
        rw [hself]
        exact hholds

/-- A path below a node that is in line with the tree then sits at the place of its node. -/
theorem ends_resync (p : PathId) : Ends (resync p t)
    (fun _ t' => t.Retraces t' ∧ ∀ n, t.node p = some n → t.slot p ≠ .root →
      (t'.path p).removed = false → (t'.path p).stale = false → ∃ o, t'.Sits p n o)
    fun _ t' => t.Retraces t' := by
  unfold resync
  rw [run_get_bind]
  by_cases hskip : ((t.path p).removed || (t.path p).slot == .root || (t.path p).node.isNone) = true
  · rw [if_pos hskip]
    refine ⟨.refl h, fun n hn hs hr _ => ?_⟩
    have hn : (t.path p).node = some n := hn
    have hs : (t.path p).slot ≠ .root := hs
    simp [hn, hr, hs] at hskip
  · rw [if_neg hskip]
    simp only [Bool.or_eq_true, not_or, beq_iff_eq, Option.isNone_iff_eq_none] at hskip
    obtain ⟨⟨-, hs⟩, hn⟩ := hskip
    obtain ⟨n, hn⟩ := Option.ne_none_iff_exists'.1 hn
    have hlt : p.index < t.paths.size := lt_of_node hn
    cases hown : t.arena.parentOf (t.path p).node with
    | none =>
      refine ⟨(Retraces.refl h).note p fun _ => rfl, fun _ _ _ _ hst => ?_⟩
      have hself := path_updatePath_self t ({ · with stale := true }) hlt
      rw [show ((t.updatePath p ({ · with stale := true })).path p).stale = true from
        congrArg PathData.stale hself] at hst
      cases hst
    | some m =>
      have hm : t.arena.OwnedBy n m := by rw [hn] at hown; exact hown
      refine ends_bind.2 ((ends_resyncParent h ha hn hs hm).mono fun _ t' ⟨hret, hpar⟩ => ?_)
      have hn' := (hret.nodes p hlt).trans hn
      have hs' : t'.slot p ≠ .root := fun hr => hs ((hret.slots p hlt).1 hr)
      have hend := ends_resyncSlot hret.filed (by rw [hret.arena]; exact ha) hn' hs' hpar
      rw [hn]
      refine hend.imp (fun _ t'' ⟨hret', hsits⟩ => ⟨hret.trans hret', fun k hk _ _ hst => ?_⟩)
        fun _ _ hf => hf.elim
      obtain rfl := Option.some.inj (hn.symm.trans hk)
      exact ⟨m, hsits hst⟩

omit h in
theorem Retraces.charted : Charted t.Retraces where
  toLooked := Retraces.looked ha
  resync p := stays_iff.2 fun t' h' =>
    (ends_resync h'.filed (by rw [h'.arena]; exact ha) p).imp (fun _ _ hend => h'.trans hend.1)
      fun _ _ hend => h'.trans hend

omit h in
theorem Retraces.tableless : Tableless t.Retraces where
  paths := Retraces.charted ha
  scope _ _ _ _ h := h.of_congr rfl rfl rfl rfl (fun _ => rfl) rfl fun _ => rfl
  bindings _ _ _ h := h.of_congr rfl rfl rfl rfl (fun _ => rfl) rfl fun _ => rfl
  newScope _ _ _ _ h := h.of_congr rfl rfl rfl rfl (fun _ => rfl) rfl fun _ => rfl

omit h in
/-- **Crawls leave paths where they sit.** -/
theorem Retraces.crawls : Crawls t.Retraces 0 where
  __ := (Retraces.tableless ha).names
  stack _ p _ hf h := h.note p fun d => congrArg Prod.fst (hf d)
  next _ _ := Nat.zero_le _
  depth _ _ h := h.of_congr rfl rfl rfl rfl (fun _ => rfl) rfl fun _ => rfl
  push _ _ _ h := h.of_congr rfl rfl rfl rfl (fun _ => rfl) rfl fun _ => rfl
  pop _ _ _ h := h.of_congr rfl rfl rfl rfl (fun _ => rfl) rfl fun _ => rfl
  update _ _ _ _ _ h := h.of_congr rfl rfl rfl rfl (fun _ => rfl) rfl fun _ => rfl

end Resync

end ScopedTree.Tree
