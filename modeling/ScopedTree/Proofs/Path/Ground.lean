import ScopedTree.Proofs.Path.Coherent

/-!
# What passes walk on

A pass looks up paths on its way down and relies on those that it came by. What it needs of them is
said here once.

* `Tree.LooksUp`       paths were looked up and nothing else was done;
* `Ground`             trees, the paths of nodes in them, and what looking up paths may do;
* `Ground.coherent`    coherent trees.
-/

namespace ScopedTree

open Arena

/-- Paths were looked up and nothing else was done. -/
structure Tree.LooksUp (Firm : Tree → Prop) (Grows : Tree → Tree → Prop) (t t' : Tree) : Prop where
  firm : Firm t'
  grows : Grows t t'
  names : t.SameNames t'
  control : t.SameControl t'

/-- What a pass over the tree below `r` needs of paths. -/
structure Ground (r : NodeId) where
  /-- trees that a pass can be made on -/
  Firm : Tree → Prop
  /-- a path of a node, and the nodes above -/
  Place : Tree → PathId → NodeId → List NodeId → Prop
  /-- what looking up paths may do to a tree -/
  Grows : Tree → Tree → Prop
  arena {t : Tree} : Firm t → t.arena.WellOwned
  present {t : Tree} : Firm t → (t.arena.get? r).isSome
  node {t : Tree} {p n above} : Place t p n above → t.node p = some n
  under {t : Tree} {p n above} : Place t p n above → t.arena.Under r n above
  inUse {t : Tree} {p n above} : Firm t → Place t p n above →
    (t.path p).removed = false ∧ (t.path p).stale = false
  resync {t : Tree} {p n above} : Firm t → Place t p n above → Tree.resync p t = .ok () t
  top {t : Tree} {p n} : Firm t → Place t p n [] → t.parentPath p = none ∧ t.parentNode p = none
  parent {t : Tree} {p n m above} : Firm t → Place t p n (m :: above) →
    ∃ q, t.parentPath p = some q ∧ t.parentNode p = some m ∧ Place t q m above
  refl (t : Tree) : Grows t t
  trans {t t' t'' : Tree} : Grows t t' → Grows t' t'' → Grows t t''
  sameArena {t t' : Tree} : Grows t t' → t'.arena = t.arena
  sameOptions {t t' : Tree} : Grows t t' → t'.options = t.options
  size {t t' : Tree} : Grows t t' → t.paths.size ≤ t'.paths.size
  sameNode {t t' : Tree} {p} : Grows t t' → p.index < t.paths.size → t'.node p = t.node p
  place {t t' : Tree} {p n above} : Grows t t' → Place t p n above → Place t' p n above
  firm_of_same {t t' : Tree} : t.SamePlaces t' → Firm t → Firm t'
  grows_of_same {t t' : Tree} : t.SamePlaces t' → Grows t t'
  ends_root {t : Tree} : Firm t → Ends (Tree.getRootPath t)
    (fun p t' => Tree.LooksUp Firm Grows t t' ∧ Place t' p r []) fun _ _ => False
  ends_child {t : Tree} {q m above slot} : Firm t → Place t q m above → slot ≠ .root →
    Ends (Tree.getOrCreatePath (some q) (some m) slot t)
      (fun p t' => Tree.LooksUp Firm Grows t t' ∧ p.index < t'.paths.size
        ∧ t'.node p = t.readSlot (some m) slot
        ∧ ∀ n, t.readSlot (some m) slot = some n → Place t' p n (m :: above))
      fun _ _ => False

namespace Ground

open ScopedTree.Tree

variable {r n : NodeId} {t t' t'' : Tree} {p : PathId} {above : List NodeId}

abbrev Step (G : Ground r) : Tree → Tree → Prop := LooksUp G.Firm G.Grows

variable {G : Ground r}

theorem Step.refl (ht : G.Firm t) : G.Step t t := ⟨ht, G.refl t, .refl t, .refl t⟩

theorem Step.trans (h : G.Step t t') (h' : G.Step t' t'') : G.Step t t'' :=
  ⟨h'.firm, G.trans h.grows h'.grows, h.names.trans h'.names, h.control.trans h'.control⟩

theorem exists_get? (G : Ground r) (ht : G.Firm t) (hp : G.Place t p n above) :
    ∃ o, t.arena.get? n = some o :=
  (G.under hp).get? (G.arena ht).owned (G.present ht)

theorem not_mem (G : Ground r) (ht : G.Firm t) (hp : G.Place t p n above) : n ∉ above :=
  (G.under hp).not_mem (G.arena ht).owned

theorem lt (G : Ground r) (hp : G.Place t p n above) : p.index < t.paths.size :=
  lt_of_node (G.node hp)

theorem parentNode (G : Ground r) (ht : G.Firm t) (hp : G.Place t p n above) :
    t.parentNode p = above.head? := by
  cases above with
  | nil => exact (G.top ht hp).2
  | cons m above =>
    obtain ⟨_, _, hm, _⟩ := G.parent ht hp
    exact hm

theorem assertLive (G : Ground r) (ht : G.Firm t) (hp : G.Place t p n above) :
    Tree.assertLive p t = .ok ⟨⟩ t := by
  unfold Tree.assertLive
  rw [run_bind_of_ok (G.resync ht hp), run_get_bind]
  simp [G.inUse ht hp]
  rfl

theorem ends_mapM {α β : Type} {f : α → TreeM β} {P : α → β → Tree → Prop}
    {E : TreeError → Tree → Prop} (hP : ∀ x y t t', P x y t → G.Grows t t' → P x y t') :
    ∀ (l : List α) (t : Tree), G.Firm t →
      (∀ x ∈ l, ∀ t', G.Step t t' → Ends (f x t') (fun y t'' => G.Step t' t'' ∧ P x y t'') E) →
      Ends (l.mapM f t) (fun ys t' => G.Step t t' ∧ List.Forall₂ (P · · t') l ys) E
  | [], t, ht, _ => ⟨.refl ht, .nil⟩
  | x :: l, t, ht, hf => by
    rw [List.mapM_cons, ends_bind]
    refine (hf x (List.mem_cons_self ..) t (.refl ht)).mono fun y t₁ ⟨h₁, hy⟩ => ?_
    rw [ends_bind]
    refine (ends_mapM hP l t₁ h₁.firm fun z hz t' ht' =>
      hf z (List.mem_cons_of_mem _ hz) t' (h₁.trans ht')).mono fun ys t₂ ⟨h₂, hys⟩ => ?_
    rw [ends_pure]
    exact ⟨h₁.trans h₂, .cons (hP _ _ _ _ hy h₂.grows) hys⟩

/-- Coherent trees. -/
def coherent (r : NodeId) : Ground r where
  Firm t := t.Coherent r
  Place t := t.Place r
  Grows := Tree.Grows
  arena ht := ht.arena
  present ht := ht.present
  node hp := hp.node
  under hp := hp.under
  inUse ht _ := ht.inUse _
  resync ht _ := resync_eq ht _
  top ht hp := ht.top hp
  parent ht hp := by
    obtain ⟨q, hq, -, hm, hqp⟩ := ht.parent hp
    exact ⟨q, hq, hm, hqp⟩
  refl := .refl
  trans := .trans
  sameArena hg := hg.arena
  sameOptions hg := hg.options
  size hg := hg.size
  sameNode hg hp := hg.node _ hp
  place hg hp := hp.grows hg
  firm_of_same h ht := h.coherent ht
  grows_of_same h := h.grows
  ends_root ht := (ends_getRootPath ht).mono fun _ _ ⟨h, hp⟩ =>
    ⟨⟨h.coherent, h.grows, h.names, h.control⟩, hp⟩
  ends_child ht hq hs := by
    refine (ends_getOrCreatePath ht hq.node _ hs).mono fun p t' ⟨h, _, hlt, hn⟩ =>
      ⟨⟨h.coherent, h.grows, h.names, h.control⟩, hlt, hn, fun n hread => ⟨hn.trans hread, ?_⟩⟩
    rw [h.grows.arena]
    exact hq.under.child (mem_children_of_readSlot hs hread)

theorem Step.extends (h : (coherent r).Step t t') : t.Extends t' r :=
  ⟨h.firm, h.grows, h.names, h.control⟩

end Ground

end ScopedTree
