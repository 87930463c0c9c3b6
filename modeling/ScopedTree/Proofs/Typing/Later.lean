import ScopedTree.Proofs.Path.Lookups
import ScopedTree.Proofs.Typing.Says

/-!
# Crawled trees in use

While types are asked for, paths are looked up and nodes are made, which belong to nothing that was
there. The program, its scopes and its bindings stay as they are.

* `Arena.Retains.under_root`   the nodes below the root are the same;
* `Tree.Coherent.enlarges`     a coherent tree stays so when nodes are made;
* `Tree.Later`                 a later state of a tree;
* `Tree.Later.uncovers`, `Tree.Later.enlarges`   look-ups and new nodes lead to one;
* `Tree.Later.ancestry`, `Tree.Later.isReferenced`, …   what is read there is what was read before.
-/

namespace ScopedTree

namespace Arena

variable {a b : Arena} {r n m : NodeId} {above : List NodeId} {id owner grand : Option NodeId}

/-- The nodes below the root are the same. -/
theorem Retains.under_root (h : Retains a b) (ha : a.Owned) (hr : r.index < a.size) :
    b.Under r n above ↔ a.Under r n above := by
  have hlt {n : NodeId} {above : List NodeId} (hu : a.Under r n above) : n.index < a.size := by
    obtain ⟨k, hk⟩ := hu.get? ha (isSome_get?_iff.2 hr)
    exact get?_eq_some_lt hk
  constructor
  · intro hu
    induction hu with
    | root => exact .root
    | child _ hc ih => exact .child ih (by rwa [h.children (hlt ih)] at hc)
  · intro hu
    induction hu with
    | root => exact .root
    | child hp hc ih => exact .child ih (by rwa [h.children (hlt hp)])

theorem Retains.isA (h : Retains a b) (hm : m.index < a.size) (group : Alias) :
    b.isA (some m) group = a.isA (some m) group := by
  unfold Arena.isA
  rw [h.type? hm]

/-- Whether a node is read where it stands is the same. -/
theorem Retains.isReferenced (h : Retains a b) (howner : ∀ m, owner = some m → m.index < a.size)
    (hgrand : ∀ m, grand = some m → m.index < a.size) :
    b.isReferenced id owner grand = a.isReferenced id owner grand := by
  have his : b.is grand .objectPattern = a.is grand .objectPattern := by
    cases grand with
    | none => rfl
    | some g => exact h.is (hgrand g rfl) _
  have hchild : b.child? grand "source" = a.child? grand "source" := by
    cases grand with
    | none => rfl
    | some g => exact h.child? (hgrand g rfl) _
  unfold Arena.isReferenced
  rw [his, hchild]
  cases owner with
  | none => rfl
  | some m =>
    obtain ⟨k, o, hk, hb⟩ := h.look (howner m rfl)
    rw [look_some, look_some, hk, hb]
    rfl

theorem postUpTo_enough (ha : a.Owned) : ∀ {fuel : Nat} {n : NodeId}, a.Suffices fuel n →
    a.postUpTo (fuel + 1) n = a.postUpTo fuel n
  | 0, _, h => absurd rfl (h.pos ha)
  | fuel + 1, n, h => by
    unfold postUpTo
    congr 1
    exact List.flatMap_congr fun c hc => postUpTo_enough ha (h.child ha hc)

theorem postUpTo_of_le (ha : a.Owned) (hr : r.index < a.size) {fuel : Nat} (h : a.size ≤ fuel) :
    a.postUpTo fuel r = a.postUpTo a.size r := by
  induction fuel, h using Nat.le_induction with
  | base => rfl
  | succ fuel h ih => exact (postUpTo_enough ha (suffices_of_le hr h)).trans ih

end Arena

namespace Tree

open Arena

variable {t₀ t t' : Tree} {r n m : NodeId} {p q : PathId} {above : List NodeId} {s : ScopeId}
  {name : String}

/-- A coherent tree stays so when nodes are made. -/
theorem Coherent.enlarges (ht : t.Coherent r) (h : t.Enlarges t') : t'.Coherent r := by
  obtain ⟨htree, hret, hwell, -⟩ := h
  generalize t'.arena = b at htree hret hwell
  subst htree
  have hlt {p : PathId} {n : NodeId} (hn : t.node p = some n) : n.index < t.arena.size := by
    obtain ⟨above, hp⟩ := ht.exists_place hn
    obtain ⟨k, hk⟩ := hp.under.get? ht.arena.owned ht.present
    exact get?_eq_some_lt hk
  have hread {p : PathId} {m : NodeId} (hm : t.node p = some m) (slot : Slot) :
      ({ t with arena := b } : Tree).readSlot (some m) slot = t.readSlot (some m) slot := by
    cases slot with
    | root => rfl
    | field name => exact hret.child? (hlt hm) name
    | entry list i =>
      show (b.items (some m) list)[i]?.join = _
      rw [hret.items (hlt hm)]
      rfl
  refine ⟨hwell, ht.root, ?_, ht.rootPath, ht.inUse, fun p hp => ?_, ht.cached, ht.unique⟩
  · exact isSome_get?_iff.2 ((isSome_get?_iff.1 ht.present).trans_le hret.size)
  · have ha := ht.anchored p hp
    have hparent : (({ t with arena := b } : Tree).path p).parentPath = (t.path p).parentPath := rfl
    unfold Anchored at ha ⊢
    rw [hparent]
    cases hq : (t.path p).parentPath with
    | none =>
      rw [hq] at ha
      exact ha
    | some q =>
      rw [hq] at ha
      obtain ⟨hlt, hs, hc, ⟨m, hqm, hpm⟩, hslot⟩ := ha
      refine ⟨hlt, hs, hc, ⟨m, hqm, hpm⟩, ?_⟩
      change ({ t with arena := b } : Tree).readSlot (t.parentNode p) (t.slot p) = t.node p
      rw [hpm] at hslot ⊢
      exact (hread hqm _).trans hslot

/-- A later state of `t₀`: paths have come, and nodes that belong to nothing that was there. -/
structure Later (r : NodeId) (t₀ t : Tree) : Prop where
  start : t₀.Coherent r
  coherent : t.Coherent r
  complete : t.arena.Complete
  retains : Retains t₀.arena t.arena
  grows : ({ t₀ with arena := t.arena } : Tree).Grows t
  names : t₀.SameNames t
  slot : ∀ p, p.index < t₀.paths.size → t.slot p = t₀.slot p

namespace Later

theorem refl (ht : t.Coherent r) (hcomplete : t.arena.Complete) : Later r t t :=
  ⟨ht, ht, hcomplete, .refl _, .refl t, .refl t, fun _ _ => rfl⟩

variable (h : Later r t₀ t)

include h

theorem uncovers (h' : t.Uncovers t' r) : Later r t₀ t' where
  start := h.start
  coherent := h'.coherent
  complete := by
    rw [h'.grows.arena]
    exact h.complete
  retains := by
    rw [h'.grows.arena]
    exact h.retains
  grows := by
    rw [h'.grows.arena]
    exact h.grows.trans h'.grows
  names := h.names.trans h'.names
  slot p hp := (h'.slot p (hp.trans_le h.grows.size)).trans (h.slot p hp)

theorem enlarges (h' : t.Enlarges t') : Later r t₀ t' := by
  have hcoherent := h.coherent.enlarges h'
  obtain ⟨htree, hret, -, hcomplete⟩ := h'
  have hsame {α : Type} (f : Tree → α) (hf : ∀ b : Arena, f { t with arena := b } = f t) :
    f t' = f t := by
    rw [htree]
    exact hf _
  refine ⟨h.start, hcoherent, hcomplete, h.retains.trans hret, ?_, ?_, fun p hp => ?_⟩
  · refine ⟨rfl, (hsame Tree.root fun _ => rfl).trans h.grows.root,
      (hsame Tree.options fun _ => rfl).trans h.grows.options,
      fun p hp => ?_, ?_, fun p hp => ?_, fun p hp => ?_,
      fun p hp => ?_⟩
    · exact (hsame Tree.rootPath fun _ => rfl).trans (h.grows.rootPath p hp)
    · exact h.grows.size.trans_eq (hsame (·.paths.size) fun _ => rfl).symm
    · exact (hsame (·.node p) fun _ => rfl).trans (h.grows.node p hp)
    · exact (hsame (·.parentPath p) fun _ => rfl).trans (h.grows.parentPath p hp)
    · exact (hsame (·.parentNode p) fun _ => rfl).trans (h.grows.parentNode p hp)
  · refine ⟨(hsame Tree.scopes fun _ => rfl).trans h.names.scopes,
      (hsame Tree.scopeOfNode fun _ => rfl).trans h.names.scopeOfNode,
      (hsame Tree.bindings fun _ => rfl).trans h.names.bindings, fun p => ?_⟩
    exact (hsame (fun t => (t.path p).scope) fun _ => rfl).trans (h.names.scope p)
  · exact (hsame (·.slot p) fun _ => rfl).trans (h.slot p hp)

theorem infer (p : PathId) (x : Option (Option NodeId × Option NodeId)) :
    Later r t₀ (t.updatePath p ({ · with inferred := x })) := by
  generalize hf : (fun d : PathData => { d with inferred := x }) = f
  have hplaces : t.SamePlaces (t.updatePath p f) := by
    subst hf
    exact t.samePlaces_updatePath p _ fun _ => rfl
  have hnames : t.SameNames (t.updatePath p f) := by
    subst hf
    exact t.sameNames_updatePath p _ fun _ => rfl
  refine ⟨h.start, hplaces.coherent h.coherent, h.complete, h.retains, h.grows.trans hplaces.grows,
    h.names.trans hnames, fun q hq => (hplaces.slot q).trans (h.slot q hq)⟩

/-! ## what is read there -/

theorem node (hp : p.index < t₀.paths.size) : t.node p = t₀.node p := h.grows.node p hp

theorem parentNode (hp : p.index < t₀.paths.size) : t.parentNode p = t₀.parentNode p :=
  h.grows.parentNode p hp

theorem parentPath (hp : p.index < t₀.paths.size) : t.parentPath p = t₀.parentPath p :=
  h.grows.parentPath p hp

theorem root_lt : r.index < t₀.arena.size := isSome_get?_iff.1 h.start.present

theorem under_iff : t.arena.Under r n above ↔ t₀.arena.Under r n above :=
  h.retains.under_root h.start.arena.owned h.root_lt

omit h in
theorem lt_of_under (hr : r.index < t₀.arena.size) (ha : t₀.arena.Owned)
    (hu : t₀.arena.Under r n above) :
    n.index < t₀.arena.size := by
  obtain ⟨k, hk⟩ := hu.get? ha (isSome_get?_iff.2 hr)
  exact get?_eq_some_lt hk

theorem exists_under (hp : t.node p = some n) :
    ∃ above, t₀.arena.Under r n above ∧ n.index < t₀.arena.size := by
  obtain ⟨above, hpl⟩ := h.coherent.exists_place hp
  have hu := h.under_iff.1 hpl.under
  exact ⟨above, hu, lt_of_under h.root_lt h.start.arena.owned hu⟩

theorem lt (hp : t.node p = some n) : n.index < t₀.arena.size := by
  obtain ⟨-, -, hlt⟩ := h.exists_under hp
  exact hlt

theorem parent_lt (hp : p.index < t₀.paths.size) (hm : t₀.parentNode p = some m) :
    m.index < t₀.arena.size := by
  cases hq : t₀.parentPath p with
  | none =>
    have hnone := (h.start.root_of_parentPath hp hq).2.2.1
    rw [hm] at hnone
    cases hnone
  | some q =>
    obtain ⟨-, m', hm', hpm, -⟩ := h.start.parent_of_parentPath hp hq
    obtain rfl := Option.some.inj (hm.symm.trans hpm)
    obtain ⟨above, hpl⟩ := h.start.exists_place hm'
    exact lt_of_under h.root_lt h.start.arena.owned hpl.under

theorem grandparentNode (hp : p.index < t₀.paths.size) :
    t.grandparentNode p = t₀.grandparentNode p := by
  unfold Tree.grandparentNode
  rw [h.parentPath hp]
  cases hq : t₀.parentPath p with
  | none => rfl
  | some q =>
    have hqp := (h.start.parent_of_parentPath hp hq).1
    exact h.parentNode (hqp.trans hp)

theorem isReferenced (hp : p.index < t₀.paths.size) : t.isReferenced p = t₀.isReferenced p := by
  unfold Tree.isReferenced
  rw [h.node hp, h.parentNode hp, h.grandparentNode hp]
  refine h.retains.isReferenced (fun m hm => h.parent_lt hp hm) fun m hm => ?_
  obtain ⟨q, hq, hm⟩ := Option.bind_eq_some_iff.1 hm
  exact h.parent_lt ((h.start.parent_of_parentPath hp hq).1.trans hp) hm

/-- The ancestry of a path of a node. -/
theorem ancestry (hp : t₀.node p = some n) : t.ancestry p = t₀.ancestry p := by
  have hlt := lt_of_node hp
  have hfresh₀ := h.start.fresh hp
  have hfresh := h.coherent.fresh ((h.node hlt).trans hp)
  have hclimbs₀ := (hfresh₀.ancestry_climbs h.start.arena.owned h.start.rooted).1
  have hclimbs := (hfresh.ancestry_climbs h.coherent.arena.owned h.coherent.rooted).1
  have hsame : t.Climbs p (t₀.ancestry p).tail := by
    generalize (t₀.ancestry p).tail = above at hclimbs₀
    clear hfresh₀ hfresh hclimbs hp
    induction hclimbs₀ with
    | top hq => exact .top ((h.parentPath hlt).trans hq)
    | step hq _ ih =>
      exact .step ((h.parentPath hlt).trans hq)
        (ih ((h.start.parent_of_parentPath hlt hq).1.trans hlt))
  exact congrArg (p :: ·) (hclimbs.unique hsame)

theorem lt_of_mem_ancestorsFrom (fuel : Nat) (hp : p.index < t₀.paths.size)
    (hq : q ∈ t₀.ancestorsFrom fuel (t₀.parentPath p)) : q.index < t₀.paths.size := by
  induction fuel generalizing p with
  | zero => cases hq
  | succ fuel ih =>
    cases hparent : t₀.parentPath p with
    | none =>
      rw [hparent] at hq
      cases hq
    | some q' =>
      have hlt := (h.start.parent_of_parentPath hp hparent).1.trans hp
      rw [hparent, ancestorsFrom] at hq
      rcases List.mem_cons.1 hq with rfl | hq
      · exact hlt
      · exact ih hlt hq

theorem lt_of_mem_ancestry (hp : p.index < t₀.paths.size) (hq : q ∈ t₀.ancestry p) :
    q.index < t₀.paths.size := by
  rcases List.mem_cons.1 hq with rfl | hq
  · exact hp
  · exact h.lt_of_mem_ancestorsFrom _ hp hq

theorem find_node (hp : t₀.node p = some n) (x : Option NodeId) :
    (t.find p fun q => t.node q == x) = t₀.find p fun q => t₀.node q == x := by
  unfold Tree.find
  rw [h.ancestry hp]
  refine List.find?_congr fun q hq => ?_
  rw [h.node (h.lt_of_mem_ancestry (lt_of_node hp) hq)]

theorem bindingOf? : t.bindingOf? s name = t₀.bindingOf? s name := by
  have hscope (c : ScopeId) : t.scope c = t₀.scope c := by
    unfold Tree.scope
    rw [h.names.scopes]
  have hbinding (b : BindingId) : t.binding? b = t₀.binding? b := by
    unfold Tree.binding?
    rw [h.names.bindings]
  have hchain : t.scopeChain s = t₀.scopeChain s :=
    scopeChainFrom_congr (fun c => by rw [hscope]) _ _
  unfold Tree.bindingOf? Tree.getBinding? Tree.ownBinding?
  simp only [hchain, hscope, hbinding]

theorem postorder : t.arena.postorder r = t₀.arena.postorder r := by
  have hlevels (fuel : Nat) (n : NodeId) (above : List NodeId) (hu : t₀.arena.Under r n above) :
      t.arena.postUpTo fuel n = t₀.arena.postUpTo fuel n := by
    induction fuel generalizing n above with
    | zero => rfl
    | succ fuel ih =>
      unfold postUpTo
      rw [h.retains.children (lt_of_under h.root_lt h.start.arena.owned hu)]
      congr 1
      exact List.flatMap_congr fun c hc => ih c _ (hu.child hc)
  unfold Arena.postorder
  rw [hlevels _ r [] .root]
  exact postUpTo_of_le h.start.arena.owned h.root_lt h.retains.size

theorem functionAround (hu : t₀.arena.Under r n above) :
    t.arena.functionAround r (n :: above) = t₀.arena.functionAround r (n :: above) := by
  unfold Arena.functionAround
  congr 1
  refine List.find?_congr fun m hm => ?_
  refine h.retains.isA ?_ .function
  rcases List.mem_cons.1 hm with rfl | hm
  · exact lt_of_under h.root_lt h.start.arena.owned hu
  · exact lt_of_below h.start.arena.owned (hu.reaches h.start.arena.owned m hm)

end Later

end Tree

end ScopedTree
