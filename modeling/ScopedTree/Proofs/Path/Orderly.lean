import ScopedTree.Proofs.Arena.Term
import ScopedTree.Proofs.Edit.Forget
import ScopedTree.Proofs.Edit.Put
import ScopedTree.Proofs.Path.Resync

/-!
# Trees in order

A tree whose scopes are off is in order if each path in use stands below the path of the owner of
its node, at the place of the node, and is the only one in use for it. Looking paths up keeps that.

* `Tree.Live`             a path in use, and the node it holds;
* `Tree.Orderly`          a tree in order;
* `Tree.Lasts`            paths in use stay so with what a pass keeps on them;
* `Tree.Orderly.ends_child`   the path of a place that is looked up;
* `Tree.Orderly.resync_eq`    paths in use are in line.
-/

namespace ScopedTree

open Arena Relation

def PathData.Calm (d : PathData) : Prop := d.flags = (false, false, [])

namespace Tree

variable {t t' t'' : Tree} {p q : PathId} {n m o r : NodeId} {slot : Slot}
  {gone gone' : NodeId → Prop}

/-- The path is in use and holds `n`. -/
structure Live (t : Tree) (p : PathId) (n : NodeId) : Prop where
  node : t.node p = some n
  used : (t.path p).removed = false

theorem Live.lt (h : t.Live p n) : p.index < t.paths.size := lt_of_node h.node

theorem Live.unique (h : t.Live p n) (h' : t.Live p m) : n = m :=
  Option.some.inj (h.node.symm.trans h'.node)

/-- Each path in use stands where its node does, below the path of the owner. -/
structure Seat (t : Tree) (p : PathId) (n : NodeId) : Prop where
  fresh : (t.path p).stale = false
  below : t.slot p ≠ .root → ∃ q o, t.parentPath p = some q ∧ t.Live q o ∧ t.Sits p n o
    ∧ p ∈ t.cachedPaths (some o)

/-- Paths that were not in use before are on no frame. -/
def Opens (t t' : Tree) : Prop := ∀ p n, t'.Live p n → t.Live p n ∨ (t'.path p).contexts = []

/-- The tree has no scopes, and its paths in use stand where their nodes do, one for each node. -/
structure Orderly (r : NodeId) (t : Tree) : Prop where
  arena : t.arena.WellOwned
  filed : t.Filed
  off : t.options.noScope = true
  scopeless : ∀ i, t.scopeOfNode.get? i = none
  bindingless : t.bindings.size = 0
  root : t.root = some r
  free : t.arena.parentOf (some r) = none
  crown : ∀ p, t.rootPath = some p → t.slot p = .root ∧ t.Live p r
  seat : ∀ p n, t.Live p n → t.Seat p n
  sole : ∀ p q n, t.Live p n → t.Live q n → p = q
  handedOut : ∀ p, ∀ c ∈ (t.path p).contexts, c.index < t.nextContext

/-- Paths in use stay in use, but for those of the nodes `gone`, and nothing is asked for at paths
where nothing was. -/
structure Remains (gone : NodeId → Prop) (t t' : Tree) : Prop where
  rootPath : t'.rootPath = t.rootPath
  depth : t'.depth = t.depth
  nextContext : t.nextContext ≤ t'.nextContext
  still : ∀ p, (t.path p).removed = true → (t'.path p).removed = true
  calm : ∀ p, (t.path p).Calm → (t'.path p).removed = false → (t'.path p).Calm
  live : ∀ p n, t.Live p n → ¬ gone n → t'.Live p n

/-- Besides, paths are on the frames that they were on. -/
structure Lasts (gone : NodeId → Prop) (t t' : Tree) : Prop extends Remains gone t t' where
  contexts : ∀ p, (t'.path p).contexts = (t.path p).contexts

namespace Remains

@[refl] theorem refl (gone : NodeId → Prop) (t : Tree) : Remains gone t t :=
  ⟨rfl, rfl, le_rfl, fun _ h => h, fun _ h _ => h, fun _ _ h _ => h⟩

theorem trans (h : Remains gone t t') (h' : Remains gone' t' t'')
    (hgone : ∀ p n, t.Live p n → gone' n → gone n) : Remains gone t t'' where
  rootPath := h'.rootPath.trans h.rootPath
  depth := h'.depth.trans h.depth
  nextContext := h.nextContext.trans h'.nextContext
  still p hp := h'.still p (h.still p hp)
  calm p hp hused := h'.calm p (h.calm p hp (by
    by_contra hr
    rw [h'.still p (by simpa using hr)] at hused
    cases hused)) hused
  live p n hp hn := h'.live p n (h.live p n hp hn) fun hg => hn (hgone p n hp hg)

theorem note (h : Remains gone t t') (p : PathId) {f : PathData → PathData}
    (hpos : ∀ d, (f d).position = d.position) (hcalm : ∀ d, d.Calm → (f d).Calm) :
    Remains gone t (t'.updatePath p f) := by
  have hposition (q : PathId) : ((t'.updatePath p f).path q).position = (t'.path q).position :=
    t'.path_updatePath_congr p q f PathData.position hpos
  have hnode (q : PathId) : (t'.updatePath p f).node q = t'.node q := congrArg (·.1) (hposition q)
  have hremoved (q : PathId) : ((t'.updatePath p f).path q).removed = (t'.path q).removed :=
    congrArg (·.2.2.2.2.1) (hposition q)
  refine ⟨h.rootPath, h.depth, h.nextContext, fun q hq => (hremoved q).trans (h.still q hq),
    fun q hq hused => ?_, fun q n hq hn => ⟨(hnode q).trans (h.live q n hq hn).node,
      (hremoved q).trans (h.live q n hq hn).used⟩⟩
  have hkept := h.calm q hq ((hremoved q).symm.trans hused)
  rw [path_updatePath]
  split
  · next hqp => exact hcalm _ (hqp.1 ▸ hkept)
  · exact hkept

theorem withBooks (h : Remains gone t t') (frames : List Frame) {k : Nat}
    (hk : t'.nextContext ≤ k) :
    Remains gone t { t' with frames, nextContext := k } where
  rootPath := h.rootPath
  depth := h.depth
  nextContext := h.nextContext.trans hk
  still := h.still
  calm := h.calm
  live p m hp hm := ⟨(h.live p m hp hm).node, (h.live p m hp hm).used⟩

end Remains

namespace Lasts

@[refl] theorem refl (gone : NodeId → Prop) (t : Tree) : Lasts gone t t :=
  ⟨.refl gone t, fun _ => rfl⟩

theorem trans (h : Lasts gone t t') (h' : Lasts gone' t' t'')
    (hgone : ∀ p n, t.Live p n → gone' n → gone n) : Lasts gone t t'' :=
  ⟨h.toRemains.trans h'.toRemains hgone, fun p => (h'.contexts p).trans (h.contexts p)⟩

theorem withBooks (h : Lasts gone t t') (frames : List Frame) {k : Nat} (hk : t'.nextContext ≤ k) :
    Lasts gone t { t' with frames, nextContext := k } :=
    ⟨h.toRemains.withBooks frames hk, h.contexts⟩

theorem all (h : Lasts (fun _ => False) t t') (gone : NodeId → Prop) : Lasts gone t t' :=
  { h with live := fun p n hp _ => h.live p n hp id }

end Lasts

namespace Orderly

variable (h : t.Orderly r)

include h

theorem owned : t.arena.Owned := h.arena.owned

theorem slot_root (hp : t.Live p n) (hs : t.slot p = .root) : t.rootPath = some p ∧ n = r := by
  obtain ⟨hpath, hnode⟩ := h.filed.root p hp.lt hs
  rw [hp.node, h.root] at hnode
  exact ⟨hpath, Option.some.inj hnode⟩

theorem sits (hp : t.Live p n) (ho : t.arena.OwnedBy n o) : t.slot p ≠ .root ∧ t.Sits p n o
    ∧ p ∈ t.cachedPaths (some o) ∧ ∃ q, t.parentPath p = some q ∧ t.Live q o := by
  have hs : t.slot p ≠ .root := fun hs => by
    obtain ⟨-, rfl⟩ := h.slot_root hp hs
    cases h.free.symm.trans ho
  obtain ⟨q, o', hq, hlive, hsits, hmem⟩ := (h.seat p n hp).below hs
  obtain rfl := (hsits.owned h.owned).unique ho
  exact ⟨hs, hsits, hmem, q, hq, hlive⟩

theorem cases (hp : t.Live p n) : n = r ∧ t.slot p = .root ∧ t.rootPath = some p
    ∨ ∃ o q, t.arena.OwnedBy n o ∧ t.slot p ≠ .root ∧ t.parentPath p = some q ∧ t.Live q o
    ∧ t.Sits p n o
      ∧ p ∈ t.cachedPaths (some o) := by
  by_cases hs : t.slot p = .root
  · obtain ⟨hpath, rfl⟩ := h.slot_root hp hs
    exact .inl ⟨rfl, hs, hpath⟩
  · obtain ⟨q, o, hq, hlive, hsits, hmem⟩ := (h.seat p n hp).below hs
    exact .inr ⟨o, q, hsits.owned h.owned, hs, hq, hlive, hsits, hmem⟩

theorem within (hp : t.Live p n) : ReflTransGen t.arena.OwnedBy n r := by
  generalize hk : (t.arena.above n).card = k
  induction k using Nat.strong_induction_on generalizing p n with
  | _ k ih =>
    obtain ⟨rfl, -, -⟩ | ⟨o, q, ho, -, -, hq, -, -⟩ := h.cases hp
    · exact .refl
    · exact .head ho (ih _ (hk ▸ card_above_lt h.owned ho) hq rfl)

/-- A node that has no owner is not held by a path in use, unless it is the root. -/
theorem eq_of_unowned (hp : t.Live p n) (hn : t.arena.parentOf (some n) = none) : n = r := by
  obtain ⟨rfl, -, -⟩ | ⟨o, q, ho, -⟩ := h.cases hp
  · rfl
  · cases hn.symm.trans ho

theorem inLine (hp : t.Live p n) (ho : t.arena.OwnedBy n o) : t.InLine p n o := by
  obtain ⟨hs, hsits, -, q, hq, hlive⟩ := h.sits hp ho
  exact ⟨hsits, (h.seat p n hp).fresh, fun _ => ⟨q, hq, hlive.node⟩⟩

/-- **Nothing happens to a path in use** when it is brought in line. -/
theorem resync_eq (hp : t.Live p n) : resync p t = .ok () t := by
  obtain ⟨-, hs, -⟩ | ⟨o, q, ho, -⟩ := h.cases hp
  · exact resync_of_root hs
  · exact (h.inLine hp ho).resync_eq h.owned hp.used

theorem assertLive_eq (hp : t.Live p n) : assertLive p t = .ok () t := by
  unfold assertLive
  rw [run_bind_of_ok (h.resync_eq hp), run_get_bind,
    if_neg (by simp [hp.used, (h.seat p n hp).fresh])]
  rfl

theorem assignWith_eq (crawl : ScopeId → TreeM Unit) (p : PathId) :
    assignWith crawl p t = .ok () t := by
  unfold assignWith assignUpTo
  rw [run_get_bind, run_get_bind, if_pos h.off]
  rfl

theorem registerSubtree_eq (p : PathId) : registerSubtree p t = .ok () t := by
  unfold registerSubtree
  rw [run_get_bind, if_pos h.off]
  rfl

/-! ## notes -/

theorem of_positions (hpos : ∀ p, (t'.path p).position = (t.path p).position)
    (hsize : t'.paths.size = t.paths.size) (harena : t'.arena = t.arena) (hroot : t'.root = t.root)
    (hrootPath : t'.rootPath = t.rootPath) (hoptions : t'.options = t.options)
    (hlists : t'.childPaths = t.childPaths)
    (hscopes : ∀ i, t'.scopeOfNode.get? i = t.scopeOfNode.get? i)
    (hbindings : t'.bindings.size = t.bindings.size)
    (hcontexts : ∀ p, ∀ c ∈ (t'.path p).contexts, c.index < t'.nextContext) : t'.Orderly r := by
  have hnode (p : PathId) : t'.node p = t.node p := congrArg (·.1) (hpos p)
  have hparentPath (p : PathId) : t'.parentPath p = t.parentPath p := congrArg (·.2.1) (hpos p)
  have hparent (p : PathId) : t'.parentNode p = t.parentNode p := congrArg (·.2.2.1) (hpos p)
  have hslot (p : PathId) : t'.slot p = t.slot p := congrArg (·.2.2.2.1) (hpos p)
  have hremoved (p : PathId) : (t'.path p).removed = (t.path p).removed :=
    congrArg (·.2.2.2.2.1) (hpos p)
  have hstale (p : PathId) : (t'.path p).stale = (t.path p).stale := congrArg (·.2.2.2.2.2) (hpos p)
  have hcached (o : Option NodeId) : t'.cachedPaths o = t.cachedPaths o := by
    unfold cachedPaths
    rw [hlists]
  have hread (o : Option NodeId) (s : Slot) : t'.readSlot o s = t.readSlot o s := by
    unfold readSlot
    rw [harena, hroot]
  have hlive (p : PathId) (n : NodeId) : t'.Live p n ↔ t.Live p n :=
    ⟨fun hp => ⟨(hnode p).symm.trans hp.node, (hremoved p).symm.trans hp.used⟩,
      fun hp => ⟨(hnode p).trans hp.node, (hremoved p).trans hp.used⟩⟩
  refine ⟨harena ▸ h.arena, ⟨fun r hr => ?_, fun p n hn => ?_, fun p hp hs => ?_, fun o p hp => ?_,
      fun o => ?_, fun o o' p hp hp' => ?_⟩, hoptions ▸ h.off, fun i =>
        (hscopes i).trans (h.scopeless i),
    hbindings.trans h.bindingless, hroot.trans h.root, harena ▸ h.free,
    fun p hp => ?_, fun p n hp => ?_,
    fun p q n hp hq => h.sole p q n ((hlive p n).1 hp) ((hlive q n).1 hq), hcontexts⟩
  · rw [harena]
    exact h.filed.present r (hroot ▸ hr)
  · rw [harena]
    exact h.filed.held p n ((hnode p).symm.trans hn)
  · rw [hrootPath, hnode, hroot]
    exact h.filed.root p (hsize ▸ hp) ((hslot p).symm.trans hs)
  · rw [hsize, hslot]
    exact h.filed.listed o p (hcached o ▸ hp)
  · rw [hcached]
    exact h.filed.nodup o
  · rw [hcached] at hp hp'
    exact h.filed.once o o' p hp hp'
  · obtain ⟨hs, hp⟩ := h.crown p (hrootPath.symm.trans hp)
    exact ⟨(hslot p).trans hs, (hlive p r).2 hp⟩
  · have hseat := h.seat p n ((hlive p n).1 hp)
    refine ⟨(hstale p).trans hseat.fresh, fun hs => ?_⟩
    obtain ⟨q, o, hq, hq', hsits, hmem⟩ := hseat.below ((hslot p).symm.trans_ne hs)
    refine ⟨q, o, (hparentPath p).trans hq, (hlive q o).2 hq', ⟨hs, (hnode p).trans hsits.node,
      (hparent p).trans hsits.parent, ?_⟩, by rwa [hcached]⟩
    rw [hslot, hread]
    exact hsits.holds

theorem note (p : PathId) {f : PathData → PathData} (hf : ∀ d, (f d).position = d.position)
    (hc : ∀ d, ∀ c ∈ (f d).contexts, c ∈ d.contexts ∨ c.index < t.nextContext) :
    (t.updatePath p f).Orderly r := by
  refine h.of_positions (fun q => t.path_updatePath_congr p q f PathData.position hf)
    (size_updatePath ..) rfl rfl rfl rfl rfl (fun _ => rfl) rfl fun q c hq => ?_
  rw [path_updatePath] at hq
  split at hq
  · exact (hc _ c hq).elim (h.handedOut p c) id
  · exact h.handedOut q c hq

theorem withBooks (frames : List Frame) {k : Nat} (hk : t.nextContext ≤ k) (depth : Nat) :
    ({ t with frames, nextContext := k, depth } : Tree).Orderly r :=
  h.of_positions (fun _ => rfl) rfl rfl rfl rfl rfl rfl (fun _ => rfl) rfl fun p c hc =>
    (h.handedOut p c hc).trans_le hk

/-! ## looking paths up -/

theorem pushes (hq : t.Live q o) (hs : slot ≠ .root) (hread : t.readSlot (some o) slot = some n)
    (hnone : ∀ p, ¬ t.Live p n)
    (hpush : t.Pushes t' { node := some n, parentPath := some q, parent := some o, slot }) :
    t'.Orderly r ∧ Lasts (fun _ => False) t t' ∧ t'.Live ⟨t.paths.size⟩ n ∧ t.Opens t' := by
  have hnew := hpush.path_new
  have hrootPath := hpush.rootPath_eq (Option.some_ne_none q)
  have hown : t.arena.OwnedBy n o := h.owned.owner_of_child o n (mem_children_of_readSlot hs hread)
  have hret : t.Retraces t' := Adjoins.retraces ⟨hpush,
    fun k (hk : some n = some k) => .inr ⟨o, Option.some.inj hk ▸ hown⟩,
    .inl ⟨hs, Option.some_ne_none q⟩⟩ h.filed
  have hlive {p : PathId} {k : NodeId} (hp : t'.Live p k) : t.Live p k
      ∨ p = ⟨t.paths.size⟩ ∧ k = n := by
    rcases Nat.lt_succ_iff_lt_or_eq.1 (hp.lt.trans_eq hpush.size) with hlt | heq
    · have hpath := hpush.path_old hlt
      exact .inl ⟨(congrArg PathData.node hpath).symm.trans hp.node,
        (congrArg PathData.removed hpath).symm.trans hp.used⟩
    · obtain rfl : p = ⟨t.paths.size⟩ := by cases p; simp_all
      exact .inr ⟨rfl, (Option.some.inj ((congrArg PathData.node hnew).symm.trans hp.node)).symm⟩
  have hkeep {p : PathId} {k : NodeId} (hp : t.Live p k) : t'.Live p k := by
    have hpath := hpush.path_old hp.lt
    exact ⟨(congrArg PathData.node hpath).trans hp.node,
      (congrArg PathData.removed hpath).trans hp.used⟩
  have hself : t'.Live ⟨t.paths.size⟩ n := ⟨congrArg PathData.node hnew,
    congrArg PathData.removed hnew⟩
  have hcontexts := hpush.path_congr PathData.contexts rfl
  refine ⟨⟨by rw [hpush.arena]; exact h.arena, hret.filed, by rw [hpush.options]; exact h.off,
      fun i => by rw [hpush.scopeOfNode]; exact h.scopeless i, by
        rw [hpush.bindings]; exact h.bindingless,
      hpush.root.trans h.root, by rw [hpush.arena]; exact h.free, fun p hp => ?_, fun p k hp => ?_,
      fun p p' k hp hp' => ?_, fun p c hc => ?_⟩, ⟨⟨hrootPath, hpush.depth, hpush.nextContext.ge,
      fun p hp => ?_, fun p hp _ => ?_, fun p k hp _ => hkeep hp⟩, hcontexts⟩, hself,
        fun p k hp => ?_⟩
  · obtain ⟨hsp, hp⟩ := h.crown p (hrootPath.symm.trans hp)
    exact ⟨(congrArg PathData.slot (hpush.path_old hp.lt)).trans hsp, hkeep hp⟩
  · rcases hlive hp with hp | ⟨rfl, rfl⟩
    · have hpath := hpush.path_old hp.lt
      have hseat := h.seat p k hp
      refine ⟨(congrArg PathData.stale hpath).trans hseat.fresh, fun hsp => ?_⟩
      obtain ⟨q', o', hq', hlive', hsits, hmem⟩ :=
        hseat.below ((congrArg PathData.slot hpath).symm.trans_ne hsp)
      refine ⟨q', o', (congrArg PathData.parentPath hpath).trans hq', hkeep hlive',
        hret.sits p k o' hsits, ?_⟩
      exact (hpush.cached o' p).2 (.inl hmem)
    · refine ⟨congrArg PathData.stale hnew, fun _ => ⟨q, o, congrArg PathData.parentPath hnew,
        hkeep hq, ?_, ?_⟩⟩
      · refine ⟨(congrArg PathData.slot hnew).trans_ne hs, hself.node,
          congrArg PathData.parent hnew, ?_⟩
        rw [show t'.slot ⟨t.paths.size⟩ = slot from congrArg PathData.slot hnew, hpush.readSlot]
        exact hread
      · exact (hpush.cached o _).2 (.inr ⟨rfl, rfl⟩)
  · rcases hlive hp with hp | ⟨rfl, rfl⟩
    · rcases hlive hp' with hp' | ⟨rfl, rfl⟩
      · exact h.sole p p' k hp hp'
      · exact absurd hp (hnone p)
    · rcases hlive hp' with hp' | ⟨rfl, -⟩
      · exact absurd hp' (hnone p')
      · rfl
  · rw [hcontexts] at hc
    rw [hpush.nextContext]
    exact h.handedOut p c hc
  · rw [hpush.path_old (lt_of_removed hp)]
    exact hp
  · rw [hpush.path, path_withPath]
    split
    · rfl
    · exact hp
  · exact (hlive hp).imp_right fun hp => by
      rw [hp.1]
      exact congrArg PathData.contexts hnew

/-- A place that is looked up has a path in use. One that was there is left as it is. -/
theorem ends_child (hq : t.Live q o) (hs : slot ≠ .root)
    (hread : t.readSlot (some o) slot = some n) :
    ∃ p t', getOrCreatePath (some q) (some o) slot t = .ok p t' ∧ t'.Orderly r
      ∧ Lasts (fun _ => False) t t' ∧ t'.Live p n ∧ t.Opens t' ∧ t'.arena = t.arena
      ∧ t'.frames = t.frames := by
  have hown : t.arena.OwnedBy n o := h.owned.owner_of_child o n (mem_children_of_readSlot hs hread)
  obtain ⟨p, hp, hrun⟩ | ⟨hnone, t', hrun, hpush⟩ :=
    getOrCreatePath_find t q (some o) slot
  · rw [hread] at hp hrun
    have hserves := List.find?_some hp
    have hlive : t.Live p n := ⟨node_of_servesSlot hserves, by
      unfold servesSlot at hserves
      simp_all⟩
    obtain ⟨hsp, hsits, -, q', hq', hlive'⟩ := h.sits hlive hown
    obtain rfl := h.sole q' q o hlive' hq
    have hslot : t.slot p = slot := by
      refine h.owned.slot_unique (o := o) (c := n) ?_ ?_
      · rw [← readSlot_eq t _ hsp]
        exact hsits.holds
      · rw [← readSlot_eq t _ hs]
        exact hread
    have hsame : t.updatePath p (fun d => { d with
        parentPath := some q', parent := some o, slot, node := some n, stale := false }) = t := by
      refine t.updatePath_eq_self _ ?_
      rw [← show (t.path p).parentPath = some q' from hq', ← show (t.path p).parent = some o
        from hsits.parent,
        ← show (t.path p).slot = slot from hslot, ← show (t.path p).node = some n from hlive.node,
        ← (h.seat p n hlive).fresh]
    rw [hsame] at hrun
    exact ⟨p, t, hrun, h, .refl _ t, hlive, fun _ _ => .inl, rfl, rfl⟩
  · rw [hread] at hnone hpush
    have hfree (p : PathId) : ¬ t.Live p n := fun hp => by
      obtain ⟨-, -, hmem, -⟩ := h.sits hp hown
      have hserves := List.find?_eq_none.1 hnone p hmem
      unfold servesSlot at hserves
      simp [hp.used, show (t.path p).node = some n from hp.node] at hserves
    obtain ⟨h', hlasts, hlive, hopens⟩ := h.pushes hq hs hread hfree hpush
    exact ⟨_, t', hrun, h', hlasts, hlive, hopens, hpush.arena, hpush.frames⟩

theorem ends_children {α : Type} {place : α → Slot} {l : List α} {ns : List NodeId}
    (hq : t.Live q o) (hplaces : List.Forall₂ (fun x n => place x ≠ .root
      ∧ t.arena.slotAt (some o) (place x) = some n) l ns) :
    ∃ ps t', l.mapM (fun x => getOrCreatePath (some q) (some o) (place x)) t = .ok ps t'
      ∧ t'.Orderly r
      ∧ Lasts (fun _ => False) t t' ∧ List.Forall₂ t'.Live ps ns ∧ t.Opens t' ∧ t'.arena = t.arena
      ∧ t'.frames = t.frames := by
  generalize ha : t.arena = a at hplaces
  induction hplaces generalizing t with
  | nil => exact ⟨[], t, rfl, h, .refl _ t, .nil, fun _ _ => .inl, ha, rfl⟩
  | @cons x n l ns hx _ ih =>
    have hread : t.readSlot (some o) (place x) = some n := by
      rw [readSlot_eq _ _ hx.1, ha]
      exact hx.2
    obtain ⟨p, t₁, hrun, h₁, hlasts₁, hp, hopens₁, harena₁, hframes₁⟩ := h.ends_child hq hx.1 hread
    have hq₁ : t₁.Live q o := hlasts₁.live q o hq id
    obtain ⟨ps, t₂, hruns, h₂, hlasts₂, hps, hopens₂, harena₂, hframes₂⟩ :=
      ih h₁ hq₁ (harena₁.trans ha)
    refine ⟨p :: ps, t₂, ?_, h₂, hlasts₁.trans hlasts₂ fun _ _ _ => id,
      .cons (hlasts₂.live p n hp id) hps,
      fun k c hk => ?_, harena₂, hframes₂.trans hframes₁⟩
    · rw [List.mapM_cons, run_bind_of_ok hrun, run_bind_of_ok hruns]
      rfl
    · refine (hopens₂ k c hk).elim (fun hk => ?_) .inr
      exact (hopens₁ k c hk).imp_right (hlasts₂.contexts k).trans

theorem ends_getRootPath : ∃ p t', getRootPath t = .ok p t' ∧ t'.Orderly r ∧ t'.Live p r
    ∧ (∀ q n, t.Live q n → t'.Live q n) ∧ (∀ q, (t'.path q).contexts = (t.path q).contexts)
    ∧ t'.arena = t.arena ∧ t'.frames = t.frames ∧ t'.depth = t.depth ∧ t'.nextContext
    = t.nextContext := by
  obtain ⟨p, hp, hrun⟩ | ⟨hp, t', hrun, hpush⟩ := getRootPath_find t
  · exact ⟨p, t, hrun, h, (h.crown p hp).2, fun _ _ h => h, fun _ => rfl, rfl, rfl, rfl, rfl⟩
  -- no path in use holds the root so far, nor does a node above others
  have hempty (q : PathId) (n : NodeId) : ¬ t.Live q n := fun hq => by
    have hwithin := h.within hq
    generalize hk : (t.arena.above n).card = k
    induction k using Nat.strong_induction_on generalizing q n with
    | _ k ih =>
      obtain ⟨rfl, -, hpath⟩ | ⟨o, q', ho, -, -, hq', -, -⟩ := h.cases hq
      · cases hp.symm.trans hpath
      · exact ih _ (hk ▸ card_above_lt h.owned ho) q' o hq' (h.within hq') rfl
  have hret : t.Retraces t' :=
    Adjoins.retraces ⟨hpush, fun _ => .inl, .inr ⟨rfl, rfl, rfl, rfl, hp⟩⟩ h.filed
  have hnew := hpush.path_new
  have hlive {p : PathId} {k : NodeId} (hk : t'.Live p k) : p = ⟨t.paths.size⟩ ∧ k = r := by
    by_cases hp : p = ⟨t.paths.size⟩
    · subst hp
      have hnode := (congrArg PathData.node hnew).symm.trans hk.node
      exact ⟨rfl, Option.some.inj (hnode.symm.trans h.root)⟩
    · have hpath := (hpush.path p).trans ((path_withPath ..).trans (if_neg hp))
      exact absurd ⟨(congrArg PathData.node hpath).symm.trans hk.node,
        (congrArg PathData.removed hpath).symm.trans hk.used⟩ (hempty p k)
  have hself : t'.Live ⟨t.paths.size⟩ r :=
    ⟨(congrArg PathData.node hnew).trans h.root, congrArg PathData.removed hnew⟩
  have hslot := congrArg PathData.slot hnew
  have hcontexts := hpush.path_congr PathData.contexts rfl
  refine ⟨⟨t.paths.size⟩, t', hrun, ⟨by rw [hpush.arena]; exact h.arena, hret.filed,
      by rw [hpush.options]; exact h.off, fun i => by rw [hpush.scopeOfNode]; exact h.scopeless i,
      by rw [hpush.bindings]; exact h.bindingless, hpush.root.trans h.root, by
      rw [hpush.arena]; exact h.free,
      fun p hp => ?_, fun p k hk => ?_, fun p p' k hk hk' => ?_, fun p c hc => ?_⟩, hself,
    fun q n hq => absurd hq (hempty q n), hcontexts, hpush.arena, hpush.frames, hpush.depth,
      hpush.nextContext⟩
  · obtain ⟨rfl, -⟩ := ((hpush.rootPath _).1 hp).resolve_left (by simp [*])
    exact ⟨hslot, hself⟩
  · obtain ⟨rfl, rfl⟩ := hlive hk
    exact ⟨congrArg PathData.stale hnew, fun hs => absurd hslot hs⟩
  · rw [(hlive hk).1, (hlive hk').1]
  · rw [hcontexts] at hc
    rw [hpush.nextContext]
    exact h.handedOut p c hc

end Orderly

theorem orderly_ofArena {a : Arena} (ha : a.WellOwned) (hr : (a.get? r).isSome)
    (hfree : a.parentOf (some r) = none) {options : Options} (hoff : options.noScope = true) :
    (ofArena a (some r) options).Orderly r where
  arena := ha
  filed := filed_ofArena (fun _ hr' => Option.some.inj hr' ▸ isSome_get?_iff.1 hr) options
  off := hoff
  scopeless i := IndexTable.get?_empty i
  bindingless := rfl
  root := rfl
  free := hfree
  crown p hp := nomatch hp
  seat p n hp := absurd hp.lt (Nat.not_lt_zero _)
  sole p q n hp := absurd hp.lt (Nat.not_lt_zero _)
  handedOut p c hc := by
    rw [path_of_size_le (Nat.zero_le _)] at hc
    cases hc

end Tree

end ScopedTree
