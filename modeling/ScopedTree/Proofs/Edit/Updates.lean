import ScopedTree.Proofs.Arena.Graft
import ScopedTree.Proofs.Edit.Put
import ScopedTree.Proofs.Edit.Reached
import ScopedTree.Proofs.Path.Stands

/-!
# Edits as changes of terms

The tree under the root is read as a term. An edit at a path is a change of this term at one
position: scopes that are crawled, names that are forgotten and paths that move do not show in it.

* `Tree.term`, `Tree.at?`      the tree as a term, and the node at a position;
* `Tree.Nodal`                 crawls, invalidation and registration leave nodes alone;
* `Tree.Swaps`, `Tree.ends_replaceWith_term`   a node that takes the place of another;
* `Tree.ends_insert_term`, `Tree.ends_container_term`   nodes that are put into a list;
* `Tree.Shares`, `Tree.ends_remove_term`   an entry that goes;
* `Tree.Reached.term_edited`   **edits at paths are changes of the term at one position**.
-/

namespace ScopedTree.Tree

open Arena Relation

variable {t t' t₁ : Tree} {a b c : Arena} {root owner : Option NodeId} {p q : PathId}
  {n o x r : NodeId} {s : Slot} {w : List Slot} {α : Type}

/-! ## the tree as a term -/

/-- The tree under the root. -/
def term (t : Tree) : Term := t.root.elim .nothing t.arena.term

/-- The node at a position below the root. -/
def at? (t : Tree) (w : List Slot) : Option NodeId := t.root.bind (t.arena.at? · w)

/-- Nodes have single owners, and the root has none. -/
structure WellOwned (t : Tree) : Prop where
  arena : t.arena.WellOwned
  root : ∀ r, t.root = some r → t.arena.parentOf (some r) = none

/-! ## what does not show in nodes -/

/-- A property of the nodes and the root alone. -/
def Nodal (P : Tree → Prop) : Prop := ∀ t t', t'.arena = t.arena → t'.root = t.root → P t → P t'

namespace Nodal

variable {P : Tree → Prop} (h : Nodal P)

include h

theorem pathless : Pathless P := fun t t' hsame => h t t' hsame.arena hsame.root

theorem tableless : Tableless P where
  paths := h.pathless.charted
  scope t _ _ _ := h t _ rfl rfl
  bindings t _ _ := h t _ rfl rfl
  newScope t _ _ _ := h t _ rfl rfl

theorem crawls : Crawls P 0 where
  __ := h.tableless.names
  stack := h.pathless.stack
  next _ _ := Nat.zero_le _
  depth t _ := h t _ rfl rfl
  push t _ _ := h t _ rfl rfl
  pop t _ _ := h t _ rfl rfl
  update t _ _ _ _ := h t _ rfl rfl

theorem queueNewPath (p : PathId) (priority : Bool) : Stays P (queueNewPath p priority) :=
  stays_queueNewPath (fun t _ _ _ => h t _ rfl rfl) p priority

theorem invalidate (d : Departure) (ht : P t) : P (invalidate d t) :=
  h.crawls.invalidate (fun t _ => h t _ rfl rfl) (fun t _ _ => h t _ rfl rfl) d t ht

theorem ends_registered (p : PathId) (ht : P t) :
    Ends ((do
      registerSubtree p
      requeue p : TreeM Unit) t) (fun _ t' => P t') fun _ _ => True := by
  have hqueue : Stays P (requeue p) :=
    (h.pathless.charted.modifyPath p _).bind fun _ => h.queueNewPath p true
  exact (stays_iff.1 ((h.crawls.registerSubtree p).bind fun _ => hqueue) t ht).imp (fun _ _ h => h)
    fun _ _ _ => trivial

end Nodal

def Over (a : Arena) (root : Option NodeId) (t : Tree) : Prop := t.arena = a ∧ t.root = root

theorem Over.nodal (a : Arena) (root : Option NodeId) : Nodal (Over a root) :=
  fun _ _ harena hroot h => ⟨harena.trans h.1, hroot.trans h.2⟩

theorem run_moveComments (n x : NodeId) (f : PUnit → TreeM α) (t : Tree) :
    (moveComments (some n) (some x) >>= f) t = f ⟨⟩ { t with arena := t.arena.handComments n x } :=
    rfl

/-! ## a place that is written -/

theorem stays_edit {P : Arena → Prop} {x : ArenaM α} (h : Stays P x) :
    Stays (fun t : Tree => P t.arena) (TreeM.edit x) := by
  intro t ht
  have hx := h t.arena ht
  unfold TreeM.edit
  dsimp only
  cases hr : x t.arena with
  | ok y a =>
    rw [hr] at hx
    exact hx
  | error e a =>
    rw [hr] at hx
    exact hx

/-- The node `x` was put in place of `n`, at the place `s` of its owner; the root has none. -/
def Written (s : Slot) (n x : NodeId) (a b : Arena) : Option NodeId → Prop
  | none => b = a
  | some o => ∃ name old, s.key? = some name ∧ old.standing s = some n
    ∧ Overwrites a b o name old (old.put x s) ∧ SameComments a b

theorem ends_writeSlot_stands (ha : t.arena.WellOwned) (h : t.Stands p n owner) (x : NodeId) :
    Ends (writeSlot p (some x) t) (fun _ t' => t'.arena.WellOwned
      ∧ Written (t.slot p) n x t.arena t'.arena owner
      ∧ t'.root = owner.elim (some x) fun _ => t.root) fun _ _ => True := by
  cases owner with
  | none =>
    have hs : (t.path p).slot = .root := h.1
    unfold writeSlot
    rw [run_get_bind]
    simp only [hs]
    exact ⟨ha, rfl, rfl⟩
  | some o =>
    have hslot : (t.path p).slot ≠ .root := Sits.slot h
    have hparent : (t.path p).parent = some o := Sits.parent h
    have hheld : t.arena.slotAt (some o) (t.slot p) = some n :=
      (readSlot_eq t (some o) hslot).symm.trans (Sits.holds h)
    have hwritten {b : Arena} {name : String} {old : Value} (hkey : (t.slot p).key? = some name)
        (hover : Overwrites t.arena b o name old (old.put x (t.slot p)))
        (hcomments : SameComments t.arena b) :
        Written (t.slot p) n x t.arena b (some o) :=
      ⟨name, old, hkey, (slotAt_held hover hkey).symm.trans hheld, hover, hcomments⟩
    unfold writeSlot
    rw [run_get_bind]
    cases hs : (t.path p).slot with
    | root => exact absurd hs hslot
    | field name =>
      have hs : t.slot p = .field name := hs
      have hall := (((stays_iff.1 (stays_owned_setChild (some o) name (some x)) _ ha.owned).and
        (stays_iff.1 (stays_shaped_setChild (some o) name (some x)) _ ha.shaped)).and
        (stays_iff.1 ((SameComments.valueless t.arena).setChild (some o) name (some x)) _
          (.refl t.arena))).and
        (ends_setChild ha.owned (some o) name (some x))
      dsimp only
      rw [hparent]
      refine (ends_edit (hall.imp (fun _ _ h => h) fun _ _ _ => trivial)).mono ?_
      rintro held _ ⟨b, ⟨⟨⟨howned, hshaped⟩, hcomments⟩, o', ho, hover⟩, rfl⟩
      obtain rfl := Option.some.inj ho
      exact ⟨⟨howned, hshaped⟩, hwritten (by rw [hs]; rfl) (by rw [hs]; exact hover) hcomments, rfl⟩
    | entry list i =>
      have hs : t.slot p = .entry list i := hs
      have hall := (((stays_iff.1 (stays_owned_listSet (some o) list i (some x)) _ ha.owned).and
        (stays_iff.1 (stays_shaped_listSet (some o) list i (some x)) _ ha.shaped)).and
        (stays_iff.1 ((SameComments.valueless t.arena).listSet (some o) list i (some x)) _
          (.refl t.arena))).and
        (ends_listSet ha (some o) list i (some x))
      dsimp only
      rw [hparent]
      refine (ends_edit (hall.imp (fun _ _ h => h) fun _ _ _ => trivial)).mono ?_
      rintro held _ ⟨b, ⟨⟨⟨howned, hshaped⟩, hcomments⟩, o', items, ho, -, hover⟩, rfl⟩
      obtain rfl := Option.some.inj ho
      exact ⟨⟨howned, hshaped⟩, hwritten (by rw [hs]; rfl) (by rw [hs]; exact hover) hcomments, rfl⟩

/-! ## nodes that are replaced -/

theorem pulls_cases (ha : a.Owned) (h : Pulls x (some n) a b) (hne : x ≠ n)
    (hx : a.parentOf (some x) = none ∨ TransGen a.OwnedBy x n) :
    b = a ∧ a.parentOf (some x) = none ∨ TransGen a.OwnedBy x n ∧ ∃ q, Takes a b x q := by
  rcases h with ⟨rfl, heq | hout | hfree⟩ | ⟨-, hin, htakes⟩
  · exact absurd (Option.some.inj heq) hne
  · refine .inl ⟨rfl, hx.resolve_right fun hxn => ?_⟩
    rw [(isWithin_iff ha).2 hxn.to_reflTransGen] at hout
    cases hout
  · exact .inl ⟨rfl, hfree⟩
  · have hxn := (isWithin_iff ha).1 hin
    exact .inr ⟨(reflTransGen_iff_eq_or_transGen.1 hxn).resolve_left (Ne.symm hne), htakes⟩

theorem pulled (ha : a.Owned) (h : Pulls x (some n) a b) (hcomments : SameComments a b)
    (hne : x ≠ n) (hx : a.parentOf (some x) = none ∨ TransGen a.OwnedBy x n) :
    b.parentOf (some x) = none ∧ (∀ m, m ≠ x → b.parentOf (some m) = a.parentOf (some m))
      ∧ (∀ m, ¬ a.OwnedBy x m → (b.get? m).map Node.shown = (a.get? m).map Node.shown) := by
  rcases pulls_cases ha h hne hx with ⟨rfl, hfree⟩ | ⟨-, q, htakes⟩
  · exact ⟨hfree, fun _ _ => rfl, fun _ _ => rfl⟩
  · refine ⟨by rw [htakes.parent, if_pos rfl], fun m hm => by rw [htakes.parent, if_neg hm],
      fun m hm => ?_⟩
    refine shown_eq (htakes.content m ?_) (hcomments m)
    rintro rfl
    exact hm htakes.owned

theorem Written.size (h : Written s n x a b owner) : b.size = a.size := by
  cases owner with
  | none => rw [show b = a from h]
  | some o =>
    obtain ⟨_, _, -, -, hover, -⟩ := h
    exact hover.size

theorem Written.sameComments (h : Written s n x a b owner) : SameComments a b := by
  cases owner with
  | none => rw [show b = a from h]
  | some o =>
    obtain ⟨_, _, -, -, -, hc⟩ := h
    exact hc

section Written

variable {a₁ : Arena} (ha : a.Owned) (hpulls : Pulls x (some n) a a₁)
  (hcomments : SameComments a a₁) (ha₁ : a₁.Owned) (hwrite : Written s n x a₁ b owner)
  (hne : x ≠ n) (hx : a.parentOf (some x) = none ∨ TransGen a.OwnedBy x n)

include ha hpulls hcomments hwrite hne hx

include ha₁ in
theorem Written.owned (ho : owner = some o) : a.OwnedBy n o ∧ ¬ ReflTransGen a.OwnedBy o x := by
  subst ho
  obtain ⟨hfree, hparent, -⟩ := pulled ha hpulls hcomments hne hx
  obtain ⟨name, old, hkey, hs, hover, -⟩ := hwrite
  obtain ⟨k, -, hk, -, hv, -⟩ := hover.get?
  have hno : a.OwnedBy n o := by
    have hno : a₁.OwnedBy n o := ha₁.owner_of_field hk hv (mem_children_of_standing hs)
    exact (hparent n (Ne.symm hne)).symm.trans hno
  have hox : ¬ ReflTransGen a₁.OwnedBy o x := by
    rcases hover.comes x (mem_put hs) with hold | ⟨-, hox⟩
    · cases hfree.symm.trans (ha₁.owner_of_field hk hv hold)
    · exact hox
  refine ⟨hno, ?_⟩
  rcases pulls_cases ha hpulls hne hx with ⟨rfl, -⟩ | ⟨hxn, -⟩
  · exact hox
  · exact fun hox => ha.acyclic x ((hxn.tail hno).trans_left hox)

theorem Written.shown (m : NodeId) (hm : ¬ a.OwnedBy x m) (hmo : owner ≠ some m) :
    (b.get? m).map Node.shown = (a.get? m).map Node.shown := by
  refine Eq.trans ?_ ((pulled ha hpulls hcomments hne hx).2.2 m hm)
  cases owner with
  | none =>
    obtain rfl : b = a₁ := hwrite
    rfl
  | some o =>
    obtain ⟨name, old, -, -, hover, hc⟩ := hwrite
    exact hover.shown hc fun he => hmo (congrArg some he.symm)

include ha₁ in
theorem Written.outside (hroot : owner = none → a.parentOf (some n) = none) :
    ¬ ReflTransGen a.OwnedBy n x := fun hnx => by
  rcases pulls_cases ha hpulls hne hx with ⟨-, hfree⟩ | ⟨hxn, -⟩
  · rcases ReflTransGen.cases_head hnx with rfl | ⟨o, hno, hox⟩
    · exact hne rfl
    · cases ho : owner with
      | none => cases (hroot ho).symm.trans hno
      | some o' =>
        obtain ⟨hno', hox'⟩ := hwrite.owned ha hpulls hcomments ha₁ hne hx ho
        exact hox' (hno'.unique hno ▸ hox)
  · exact ha.acyclic x (hxn.trans_left hnx)

include ha₁ in
theorem Written.term_self (hb : b.WellOwned) (hxlt : x.index < a.size)
    (hroot : owner = none → a.parentOf (some n) = none) :
    (b.handComments n x).term x = (a.term x).mapComments (·.absorb (a.term n).comments) := by
  have halike := alike_handComments b n x
  have hbshown := hwrite.shown ha hpulls hcomments hne hx
  have hnx := hwrite.outside ha hpulls hcomments ha₁ hne hx hroot
  have hox : owner ≠ some x := fun ho => (hwrite.owned ha hpulls hcomments ha₁ hne hx ho).2 .refl
  have hxx : ¬ a.OwnedBy x x := fun h => ha.owner_ne h rfl
  obtain ⟨kx, hkx⟩ := Option.isSome_iff_exists.1 (isSome_get?_iff.2 hxlt)
  have hbx := hbshown x hxx hox
  rw [hkx] at hbx
  obtain ⟨kb, hkb, hbx⟩ := Option.map_eq_some_iff.1 hbx
  obtain ⟨hcontent, hown⟩ := Prod.mk.inj hbx
  have htold : (b.get? n).elim {} (·.comments) = (a.term n).comments :=
    ((hcomments.trans hwrite.sameComments).elim n).trans (comments_term ha n).symm
  refine term_mapComments ha (halike.wellOwned hb).owned ?_ hkx ?_ fun m hm hmx => ?_
  · exact halike.size.trans (hwrite.size.trans hpulls.size)
  · rw [get?_handComments_self hne, hkb, htold, ← hown]
    exact congrArg some (Prod.ext hcontent rfl)
  · rw [get?_handComments (fun hmn => hnx (by rwa [← hmn])) hmx]
    refine hbshown m (fun hxm => ha.acyclic m (TransGen.tail' hm hxm)) fun ho => ?_
    exact (hwrite.owned ha hpulls hcomments ha₁ hne hx ho).2 hm

include ha₁ in
theorem Written.unowned (hroot : owner = none → a.parentOf (some n) = none) :
    (b.handComments n x).parentOf (some n) = none := by
  have hparent := (pulled ha hpulls hcomments hne hx).2.1 n (Ne.symm hne)
  rw [(alike_handComments b n x).parent]
  cases owner with
  | none =>
    obtain rfl : b = a₁ := hwrite
    exact hparent.trans (hroot rfl)
  | some o =>
    obtain ⟨name, old, -, hs, hover, -⟩ := hwrite
    obtain ⟨k, -, hk, -, hv, -⟩ := hover.get?
    rw [hover.parent, if_neg (not_mem_put (ha₁.count_field_le_one hk hv n) hs hne),
      if_pos (mem_children_of_standing hs)]

include ha₁ in
/-- **A node that takes the place of another, with its comments**, as it shows above. -/
theorem Written.term_above (hb : b.WellOwned) (hxlt : x.index < a.size)
    (ho : owner = some o) (hat : a.at? r w = some o) : (b.handComments n x).term r
      = (a.term r).modifyAt (fun τ => (a.term x).mapComments (·.absorb τ.comments)) (w ++ [s]) := by
  have halike := alike_handComments b n x
  have hbshown := hwrite.shown ha hpulls hcomments hne hx
  have hroot : owner = none → a.parentOf (some n) = none :=
    fun hnone => by cases ho.symm.trans hnone
  have hself := hwrite.term_self ha hpulls hcomments ha₁ hne hx hb hxlt hroot
  have hsize : (b.handComments n x).size = a.size :=
    halike.size.trans (hwrite.size.trans hpulls.size)
  obtain ⟨hno, hox⟩ := hwrite.owned ha hpulls hcomments ha₁ hne hx ho
  have hshown₁ := (pulled ha hpulls hcomments hne hx).2.2
  have hcases := pulls_cases ha hpulls hne hx
  -- the node is not pulled out of the owner, but from below
  have hxo : ¬ a.OwnedBy x o := fun hxo => by
    rcases hcases with ⟨-, hfree⟩ | ⟨hxn, -⟩
    · cases hfree.symm.trans hxo
    · obtain ⟨q, hxq, hqn⟩ := TransGen.head'_iff.1 hxn
      obtain rfl := hxo.unique hxq
      exact ha.acyclic n (TransGen.head' hno hqn)
  subst ho
  obtain ⟨name, old, hkey, hs, hover, hc⟩ := hwrite
  obtain ⟨k₁, -, hk₁, -, hv₁, -⟩ := hover.get?
  have hk := hshown₁ o hxo
  rw [hk₁] at hk
  obtain ⟨k₀, hk₀, hk⟩ := Option.map_eq_some_iff.1 hk.symm
  have hv₀ : k₀.value? name = some old := by
    rwa [Node.value?_congr (congrArg Prod.fst hk)]
  refine term_replaced ha (halike.wellOwned hb).owned hsize hk₀ hkey hv₀ hs ?_
    (fun m hmo hmx hmn => ?_) ?_ hself hat
  · rw [get?_handComments (fun he => ha.owner_ne hno he.symm) fun he => hox (by rw [he]),
      hover.shown_self hc hk₁]
    exact congrArg some (shown_withValue hk.symm name _)
  · rw [get?_handComments (fun he => hmn (by rw [he])) hmx]
    refine hbshown m (fun hxm => hmn ?_) fun he => hmo (Option.some.inj he).symm
    rcases hcases with ⟨-, hfree⟩ | ⟨hxn, -⟩
    · cases hfree.symm.trans hxm
    · obtain ⟨q, hxq, hqn⟩ := TransGen.head'_iff.1 hxn
      exact hxm.unique hxq ▸ hqn
  · exact hcases.elim (fun h => .inr ⟨h.2, hox⟩) fun h => .inl h.1.to_reflTransGen

end Written

theorem stays_takeFrom_comments (x : NodeId) (old : Option NodeId) :
    Stays (fun t => SameComments a t.arena)
      (if some x != old then takeFrom (some x) old else pure ⟨⟩ : TreeM Unit) := by
  split
  · refine stays_get.bind fun t => ?_
    split
    · exact stays_edit ((SameComments.valueless _).take (some x))
    · exact stays_pure _
  · exact stays_pure _

theorem Moored.edited (h : Moored a root p n owner t) (ha : a.Owned)
    (hpulls : Pulls x (some n) a b) :
    Moored b root p n owner { t with arena := b } := by
  refine ⟨h.rooted.of_congr rfl rfl rfl rfl, rfl, h.root, ?_⟩
  cases owner with
  | none => exact h.stands
  | some o =>
    obtain rfl := h.arena
    exact Pulls.sits (by rwa [h.stands.node]) ha h.stands

/-- What a replacement leaves of the nodes `a` below `root`: it pulls the new node out of the old
one, writes the place and hands the comments on. -/
def Swaps (a : Arena) (root owner : Option NodeId) (n x : NodeId) (s : Slot) (t' : Tree) : Prop :=
  ∃ a₁ b, a₁.WellOwned ∧ b.WellOwned ∧ SameComments a a₁ ∧ Pulls x (some n) a a₁
    ∧ Written s n x a₁ b owner ∧ Over (b.handComments n x) (owner.elim (some x) fun _ => root) t'

theorem ends_put {a₁ : Arena} (h : Moored a₁ root p n owner t) (ha₁ : a₁.WellOwned)
    (hcomments : SameComments a a₁) (hpulls : Pulls x (some n) a a₁) (enclosing : Option ScopeId) :
    Ends ((do
      let _ ← writeSlot p (some x)
      moveComments (some n) (some x)
      modify (·.updatePath p ({ · with node := some x, scope := none, stale := false }))
      modify (invalidate { old := n, keep := some x, holder := some p, enclosing })
      registerSubtree p
      requeue p : TreeM Unit) t) (fun _ t' => Swaps a root owner n x (t.slot p)
        t') fun _ _ => True := by
  obtain rfl := h.arena
  rw [ends_bind]
  refine (ends_writeSlot_stands ha₁ h.stands x).mono fun _ t₂ hw => ?_
  rw [run_moveComments, run_modify_bind, run_modify_bind]
  generalize hc : t₂.arena.handComments n x = c
  have hover : Over c (owner.elim (some x) fun _ => root)
      (({ t₂ with arena := c } : Tree).updatePath p
      ({ · with node := some x, scope := none, stale := false })) :=
    ⟨rfl, hw.2.2.trans (by rw [h.root])⟩
  replace hover := (Over.nodal _ _).invalidate
    { old := n, keep := some x, holder := some p, enclosing } hover
  generalize invalidate _ _ = t₃ at hover ⊢
  have hend := (Over.nodal _ _).ends_registered p hover
  have hswap (t' : Tree) (hover : Over c (owner.elim (some x) fun _ => root) t') :
      Swaps a root owner n x (t.slot p) t' :=
    ⟨_, t₂.arena, ha₁, hw.1, hcomments, hpulls, hw.2.1, by rwa [hc]⟩
  exact hend.mono fun _ => hswap

/-- A replacement, as it shows in nodes. Scopes may be crawled before the place is written. -/
theorem ends_replaceNode_swaps (h : Moored a root p n owner t) (ha : a.WellOwned) (x : NodeId) :
    Ends (replaceNode p x t) (fun _ t' => ∃ s, Swaps a root owner n x s t') fun _ _ => True := by
  obtain rfl := h.arena
  unfold replaceNode
  rw [run_get_bind, h.stands.node]
  refine ends_guard (((ends_takeFrom ha x (some n)).and
    (stays_iff.1 (stays_takeFrom_comments x (some n)) t
    (.refl t.arena))).imp (fun _ t₀ h₀ => ?_) fun _ _ _ => trivial)
  obtain ⟨⟨a₁, rfl, hwell, hpulls⟩, hcomments⟩ := h₀
  have hmoored := h.edited ha.owned hpulls
  have hput {t₁ : Tree} (h₁ : Moored a₁ root p n owner t₁) (enclosing : Option ScopeId) :=
    (ends_put h₁ hwell hcomments hpulls enclosing).mono fun _ t' hswaps =>
      show ∃ s, Swaps t.arena root owner n x s t' from ⟨_, hswaps⟩
  dsimp only
  rw [run_get_bind]
  dsimp only
  cases Tree.parentPath { t with arena := a₁ } p with
  | none => exact hput hmoored none
  | some parent =>
    dsimp only
    split
    · exact hput hmoored none
    · exact ends_bind.2 ((stays_iff.1 ((Moored.crawls hwell).scopeOf parent) _ hmoored).imp
        (fun enclosing t₁ h₁ => hput h₁ enclosing) fun _ _ _ => trivial)

theorem exists_position (ha : a.Owned) (hno : a.OwnedBy n o) (hr : a.parentOf (some r) = none)
    (hw : a.at? r w = some n) : ∃ w' s, w = w' ++ [s] ∧ a.at? r w' = some o
      ∧ a.slotAt (some o) s = some n := by
  rcases List.eq_nil_or_concat' w with rfl | ⟨w', s, rfl⟩
  · obtain rfl := Option.some.inj hw
    cases hr.symm.trans hno
  · rw [at?_append] at hw
    obtain ⟨o', ho', hw⟩ := Option.bind_eq_some_iff.1 hw
    have hs : a.slotAt (some o') s = some n := by simpa [Arena.at?] using hw
    obtain rfl := (ha.owner_of_child o' n (mem_children_of_slotAt hs)).unique hno
    exact ⟨w', s, rfl, ho', hs⟩

theorem eq_nil_of_at? (ha : a.Owned) (hw : a.at? r w = some r) : w = [] := by
  cases w with
  | nil => rfl
  | cons s w =>
    obtain ⟨c, hc, hw⟩ := Option.bind_eq_some_iff.1 hw
    have hown := ha.owner_of_child r c (mem_children_of_slotAt hc)
    exact absurd (TransGen.tail' (reaches_of_at? ha hw) hown) (ha.acyclic r)

/-- What a replacement does to the tree. -/
theorem Swaps.term (ht : t.WellOwned) (hstands : t₁.Stands p n owner)
    (hroot : t₁.root = t.root) (hw : t.at? w = some n) (hne : x ≠ n) (hxlt : x.index < t.arena.size)
    (hx : t.arena.parentOf (some x) = none ∨ TransGen t.arena.OwnedBy x n)
    (h : Swaps t.arena t.root owner n x s t') :
    t'.term = t.term.modifyAt (fun τ => (t.arena.term x).mapComments (·.absorb τ.comments)) w
      ∧ t'.arena.parentOf (some n) = none := by
  obtain ⟨r, hr, hw⟩ := Option.bind_eq_some_iff.1 hw
  obtain ⟨a₁, b, hwell, hb, hcomments, hpulls, hwrite, harena', hroot'⟩ := h
  have ha := ht.arena.owned
  cases owner with
  | none =>
    obtain rfl := Option.some.inj (hr.symm.trans (hroot.symm.trans hstands.2.1))
    obtain rfl := eq_nil_of_at? ha hw
    have hfree : (none : Option NodeId) = none → t.arena.parentOf (some r) = none :=
      fun _ => ht.root r hr
    have hself := hwrite.term_self ha hpulls hcomments hwell.owned hne hx hb hxlt hfree
    refine ⟨?_, harena' ▸ hwrite.unowned ha hpulls hcomments hwell.owned hne hx hfree⟩
    unfold Tree.term
    rw [hroot', hr, harena']
    exact hself
  | some o =>
    have hno := (hwrite.owned ha hpulls hcomments hwell.owned hne hx rfl).1
    obtain ⟨w', s', rfl, hat, hs'⟩ := exists_position ha hno (ht.root r hr) hw
    have hs : t.arena.slotAt (some o) s = some n := by
      obtain ⟨name, old, hkey, hs, hover, -⟩ := hwrite
      rw [← hpulls.slotAt ha rfl hno, slotAt_held hover hkey]
      exact hs
    obtain rfl := ha.slot_unique hs hs'
    have habove := hwrite.term_above ha hpulls hcomments hwell.owned hne hx hb hxlt rfl hat
    refine ⟨?_, harena' ▸ hwrite.unowned ha hpulls hcomments hwell.owned hne hx nofun⟩
    unfold Tree.term
    rw [hroot', Option.elim_some, hr, harena']
    exact habove

theorem not_isA_expression_of_statement {ty : NodeType} :
    ty.isA .statement = true → ty.isA .expression = false := by
  cases ty <;> decide

/-- The replacement has to be adapted: an expression takes the place of a statement, or a statement
that of an expression, and the place is not one for both. -/
def coerces (t : Tree) (p : PathId) (x : NodeId) : Bool :=
  !(t.isLoopHead p || t.canSwapBody p (some x))
    && ((!t.arena.is (t.parentNode p) .exportDefaultDeclaration && t.nodeIsA p .statement
        && t.arena.isA (some x) .expression)
      || (t.nodeIsA p .expression && t.arena.isA (some x) .statement))

theorem coerces_eq {k : Node} (hx : t.arena.get? x = some k) : t.coerces p x
    = (!(t.isLoopHead p || t.canSwapBody p (some x))
      && ((!t.arena.is (t.parentNode p) .exportDefaultDeclaration && t.nodeIsA p .statement
          && k.type.isA .expression)
        || (t.nodeIsA p .expression && k.type.isA .statement))) := by
  have hisA (group : Alias) : t.arena.isA (some x) group = k.type.isA group := by
    simp [Arena.isA, Arena.type?, hx]
  unfold coerces
  rw [hisA, hisA]

theorem ends_replaceSome_swaps (hrun : assertLive p t = .ok () t₁) (h : Moored a root p n owner t₁)
    (ha : a.WellOwned) (hne : x ≠ n) (hco : t₁.coerces p x = false) :
    Ends (replaceSome p x t) (fun _ t' => x.index < a.size ∧ ∃ s, Swaps a root owner n x s t')
      fun _ _ => True := by
  obtain rfl := h.arena
  unfold replaceSome
  rw [run_bind_of_ok hrun, run_get_bind, if_neg (by simp [h.stands.node, Ne.symm hne])]
  cases hx : t₁.arena.get? x with
  | none => trivial
  | some k =>
    rw [coerces_eq hx] at hco
    have hend := (ends_replaceNode_swaps h ha x).mono fun _ t' hs =>
      And.intro (get?_eq_some_lt hx) hs
    dsimp only
    split
    · exact ends_bind.2 trivial
    · rw [if_neg fun hc => ?_, if_neg fun hc => ?_]
      · exact hend
      all_goals simp_all

/-- **A node that is put in place of another** takes its position, with the comments of both. -/
theorem ends_replaceWith_term (ht : t.WellOwned) (hrooted : t.Rooted 0) (hn : t.node p = some n)
    (hlive : assertLive p t = .ok () t₁) (hw : t.at? w = some n) (hne : x ≠ n)
    (hx : t.arena.parentOf (some x) = none ∨ TransGen t.arena.OwnedBy x n)
    (hco : t₁.coerces p x = false) :
    Ends (replaceWith p (some x) t) (fun _ t' => t'.term
        = t.term.modifyAt (fun τ => (t.arena.term x).mapComments (·.absorb τ.comments)) w
      ∧ t'.arena.parentOf (some n) = none) fun _ _ => True := by
  obtain ⟨⟨owner, hmoored⟩, -⟩ := (hrooted.ends_assertLive ht.arena hn).of_ok hlive
  refine (ends_replaceSome_swaps hlive hmoored ht.arena hne hco).mono fun _ t' h => ?_
  obtain ⟨hxlt, s, hswaps⟩ := h
  exact hswaps.term ht hmoored.stands hmoored.root hw hne hxlt hx

/-! ## nodes that come -/

theorem ends_insertEntries_over (ha : t.arena.WellOwned) (q : PathId) (m : Option NodeId)
    (list : String) (index : Nat) (nodes : List (Option NodeId)) :
    Ends (insertEntries q m list index nodes t)
      (fun _ t' => ∃ o old b, m = some o ∧ b.WellOwned ∧ SameComments t.arena b ∧ Over b t.root t'
        ∧ Overwrites t.arena b o list (.list old) (.list (old.take (min index old.length) ++ nodes
          ++ old.drop (min index old.length)))) fun _ _ => True := by
  have hall := (((stays_iff.1 (stays_owned_listInsert m list index nodes) _ ha.owned).and
    (stays_iff.1 (stays_shaped_listInsert m list index nodes) _ ha.shaped)).and
    (stays_iff.1 ((SameComments.valueless t.arena).listInsert m list index nodes) _
      (.refl t.arena))).and
    (ends_listInsert_entries ha m list index nodes)
  unfold insertEntries
  refine ends_bind.2 ((ends_edit (hall.imp (fun _ _ h => h) fun _ _ _ => trivial)).mono fun i
    t₁ h₁ => ?_)
  obtain ⟨b, ⟨⟨⟨howned, hshaped⟩, hcomments⟩, o, old, hm, rfl, hover, -⟩, rfl⟩ := h₁
  have hb : b.WellOwned := ⟨howned, hshaped⟩
  -- the rest is about paths and scopes
  have hrest : Stays (Over b t.root) (do
      shiftEntries m list (min index old.length) (· + nodes.length) none
      let paths ← (List.range nodes.length).mapM fun i =>
        getOrCreatePath (some q) m (.entry list (min index old.length + i))
      paths.forM fun p => do
        registerSubtree p
        queueNewPath p true
      return paths : TreeM (List PathId)) := by
    have hnodal := Over.nodal b t.root
    exact (hnodal.pathless.shiftEntries _ _ _ _ _).bind fun _ =>
      (Stays.mapM (fun i => hnodal.crawls.paths.entry _ _ _ _) _).bind fun paths =>
        (Stays.forM (fun p => (hnodal.crawls.registerSubtree p).bind fun _ =>
          hnodal.queueNewPath p true) paths).bind fun _ => stays_pure _
  exact (stays_iff.1 hrest { t with arena := b } ⟨rfl, rfl⟩).imp
    (fun _ t' h => ⟨o, old, b, hm, hb, hcomments, h, hover⟩) fun _ _ _ => trivial

theorem ends_insertEntries_term (ha : t.arena.WellOwned) (hat : t.at? w = some o) (q : PathId)
    {list : String} {index : Nat} {nodes : List (Option NodeId)}
    {F : List (Option Term) → List (Option Term)}
    (hF : ∀ k old, t.arena.get? o = some k → k.value? list = some (.list old) →
      (old.take (min index old.length) ++ nodes ++ old.drop (min index old.length)).map
      (·.map t.arena.term)
        = F (old.map (·.map t.arena.term))) :
    Ends (insertEntries q (some o) list index nodes t)
      (fun _ t' => t'.term = t.term.modifyAt (·.mapList list F) w) fun _ _ => True := by
  obtain ⟨r, hr, hat⟩ := Option.bind_eq_some_iff.1 hat
  refine (ends_insertEntries_over ha q (some o) list index nodes).mono fun _ t' h => ?_
  obtain ⟨o', old, b, ho, hb, hcomments, ⟨harena, hroot⟩, hover⟩ := h
  obtain rfl := Option.some.inj ho
  obtain ⟨k, -, hk, -, hv, -⟩ := hover.get?
  unfold Tree.term
  rw [hroot, hr, harena]
  exact term_inserted ha.owned hb.owned hover (hF k old hk hv) hcomments hat

theorem exists_moored (h : t.Rooted 0) (ha : t.arena.WellOwned) (hn : t.node p = some n)
    (hlive : assertLive p t = .ok () t₁) :
    (∃ owner, Moored t.arena t.root p n owner t₁) ∧ assertLive p t₁ = .ok () t₁ :=
  (h.ends_assertLive ha hn).of_ok hlive

theorem Over.term (h : Over t.arena t.root t') : t'.term = t.term := by
  unfold Tree.term
  rw [h.1, h.2]

theorem Over.at? (h : Over t.arena t.root t') (w : List Slot) : t'.at? w = t.at? w := by
  unfold Tree.at?
  rw [h.1, h.2]

theorem Moored.entry {list : String} {i : Nat} (h : Moored t.arena t.root p n owner t₁)
    (ht : t.WellOwned) (hw : t.at? (w ++ [.entry list i]) = some n) :
    ∃ o, owner = some o ∧ t.at? w = some o ∧ t₁.parentNode p = some o ∧ t₁.slot p = .entry list i
      ∧ t.arena.slotAt (some o) (.entry list i) = some n := by
  obtain ⟨r, hr, hw⟩ := Option.bind_eq_some_iff.1 hw
  have ha := ht.arena.owned
  cases owner with
  | none =>
    obtain rfl := Option.some.inj (hr.symm.trans (h.root.symm.trans h.stands.2.1))
    cases List.append_eq_nil_iff.1 (eq_nil_of_at? ha hw) |>.2
  | some o =>
    have hsits : t₁.Sits p n o := h.stands
    have hno : t.arena.OwnedBy n o := by
      have hno := hsits.owned (by rw [h.arena]; exact ha)
      rwa [h.arena] at hno
    obtain ⟨w', s, heq, hat, hs⟩ := exists_position ha hno (ht.root r hr) hw
    obtain ⟨rfl, hlast⟩ := List.append_inj' heq rfl
    obtain rfl := (List.cons.inj hlast).1
    have hholds := hsits.holds
    rw [readSlot_eq _ _ hsits.slot, h.arena] at hholds
    refine ⟨o, rfl, ?_, hsits.parent, ha.slot_unique hholds hs, hs⟩
    unfold Tree.at?
    rw [hr]
    exact hat

/-- To insert at a path that is not below a statement or label made for one is to insert there. -/
theorem run_insertWith {insertHere : PathId → List (Option NodeId) → TreeM (List PathId)}
    (hlive : assertLive p t = .ok () t₁) (hagain : assertLive p t₁ = .ok () t₁)
    (hwrap : t₁.statementWrapper? p = none) {nodes : List (Option NodeId)} (hnodes : nodes ≠ []) :
    insertWith insertHere p nodes t = insertHere p nodes t₁ := by
  have htarget (fuel : Nat) : insertionTarget (fuel + 1) p t₁ = .ok p t₁ := by
    unfold insertionTarget
    rw [run_bind_of_ok hagain, run_get_bind, hwrap]
    rfl
  unfold insertWith
  rw [run_bind_of_ok hlive, if_neg (by simpa using hnodes), run_get_bind, run_get_bind,
    run_bind_of_ok (htarget _)]

theorem ends_listField_key (t : Tree) (p : PathId) (key : String) :
    Ends (listField p key t) (fun name t' => name = key ∧ t' = t) fun _ _ => True := by
  unfold listField fieldOf
  rw [ends_bind, run_get_bind]
  cases t.nodeType? p with
  | none => trivial
  | some ty =>
    dsimp only
    cases hf : ty.field? key with
    | none => trivial
    | some f =>
      have hname : f.name = key := by
        simpa using List.find?_some (show ty.fields.find? _ = some f from hf)
      show Ends ((if f.kind == .list then pure f.name else throw _ : TreeM String) t) _ _
      split
      · exact ⟨hname, rfl⟩
      · trivial

section Insert

variable {list : String} {i : Nat} {nodes : List (Option NodeId)} (ht : t.WellOwned)
  (hrooted : t.Rooted 0) (hn : t.node p = some n) (hlive : assertLive p t = .ok () t₁)

include ht hrooted hn hlive

theorem ends_insertBeside_term (hw : t.at? (w ++ [.entry list i]) = some n) {j : Nat}
    (hj : j = i ∨ j = i + 1) : Ends (insertBeside p list j nodes t₁) (fun _ t' => t'.term
      = t.term.modifyAt (·.mapList list fun l => l.take j ++ nodes.map (·.map t.arena.term)
        ++ l.drop j) w)
      fun _ _ => True := by
  obtain ⟨⟨owner, hmoored⟩, -⟩ := exists_moored hrooted ht.arena hn hlive
  obtain ⟨o, rfl, hat, hparent, -, hs⟩ := hmoored.entry ht hw
  have hover : Over t.arena t.root t₁ := ⟨hmoored.arena, hmoored.root⟩
  have hF (k : Node) (old : List (Option NodeId)) (hk : t.arena.get? o = some k)
      (hv : k.value? list = some (.list old)) :
      (old.take (min j old.length) ++ nodes ++ old.drop (min j old.length)).map (·.map t.arena.term)
        = (old.map (·.map t.arena.term)).take j ++ nodes.map (·.map t.arena.term)
          ++ (old.map (·.map t.arena.term)).drop j := by
    have hlt : i < old.length := by
      obtain ⟨k', items, hk', hv', hi⟩ := exists_list_of_slotAt hs
      obtain rfl := Option.some.inj (hk.symm.trans hk')
      obtain rfl : old = items := by simpa using hv.symm.trans hv'
      exact (List.getElem?_eq_some_iff.1 hi).1
    rw [Nat.min_eq_left (by omega), List.map_append, List.map_append, List.map_take, List.map_drop]
  unfold insertBeside
  rw [run_get_bind, hparent]
  cases t₁.parentPath p with
  | none => trivial
  | some q =>
    refine (ends_insertEntries_term (t := t₁) (F := fun l =>
      l.take j ++ nodes.map (·.map t.arena.term)
      ++ l.drop j) (by rw [hover.1]; exact ht.arena) ((hover.at? w).trans hat) q
      (by rw [hover.1]; exact hF)).mono fun _ t' h => h.trans (by rw [hover.term])

/-- **Nodes that are inserted before or after an entry of a list** are put into the list there. -/
theorem ends_insert_term (hw : t.at? (w ++ [.entry list i]) = some n)
    (hexpr : t.nodeIsA p .expression = false) (hwrap : t₁.statementWrapper? p = none) :
    Ends (insertBefore p nodes t) (fun _ t' => t'.term = t.term.modifyAt (·.mapList list fun l =>
        l.take i ++ nodes.map (·.map t.arena.term) ++ l.drop i) w) (fun _ _ => True)
      ∧ Ends (insertAfter p nodes t) (fun _ t' => t'.term = t.term.modifyAt (·.mapList list fun l =>
        l.take (i + 1) ++ nodes.map (·.map t.arena.term) ++ l.drop (i + 1)) w) fun _ _ => True := by
  obtain ⟨⟨owner, hmoored⟩, hagain⟩ := exists_moored hrooted ht.arena hn hlive
  obtain ⟨o, rfl, -, -, hslot, -⟩ := hmoored.entry ht hw
  have hexpr₁ : t₁.nodeIsA p .expression = false := by
    unfold nodeIsA at hexpr ⊢
    rwa [hmoored.stands.node, hmoored.arena, ← hn]
  have hbeside (nodes : List (Option NodeId)) {j : Nat} (hj : j = i ∨ j = i + 1) : Ends
      (insertBeside p list j nodes t₁) (fun _ t' =>
        t'.term = t.term.modifyAt (·.mapList list fun l =>
        l.take j ++ nodes.map (·.map t.arena.term) ++ l.drop j) w) fun _ _ => True :=
    ends_insertBeside_term ht hrooted hn hlive hw hj
  cases hnodes : nodes with
  | nil =>
    -- nothing is put in
    have hnil (here : PathId → List (Option NodeId) → TreeM (List PathId)) :
        insertWith here p [] t = .ok [] t₁ := by
      unfold insertWith
      rw [run_bind_of_ok hlive]
      rfl
    have hsame (j : Nat) : t₁.term = t.term.modifyAt (·.mapList list fun l =>
        l.take j ++ ([] : List (Option NodeId)).map (·.map t.arena.term) ++ l.drop j) w := by
      rw [Term.modifyAt_id fun τ => Term.mapList_id list (fun l => by simp) τ]
      exact Over.term ⟨hmoored.arena, hmoored.root⟩
    unfold insertBefore insertAfter
    rw [hnil, hnil]
    exact ⟨hsame i, hsame (i + 1)⟩
  | cons first rest =>
    have hrun (here : PathId → List (Option NodeId) → TreeM (List PathId)) :
        insertWith here p (first :: rest) t = here p (first :: rest) t₁ :=
      run_insertWith hlive hagain hwrap (List.cons_ne_nil first rest)
    unfold insertBefore insertAfter
    rw [hrun, hrun]
    unfold insertBeforeHere insertAfterHere
    rw [run_get_bind, run_get_bind]
    simp only [hexpr₁, Bool.false_eq_true, if_false, hslot]
    exact ⟨hbeside _ (.inl rfl), hbeside _ (.inr rfl)⟩

/-- **Nodes that are put at the start or at the end of a list.** -/
theorem ends_container_term (hw : t.at? w = some n) :
    Ends (unshiftContainer p list nodes t) (fun _ t' =>
      t'.term = t.term.modifyAt (·.mapList list fun l =>
        nodes.map (·.map t.arena.term) ++ l) w) (fun _ _ => True)
      ∧ Ends (pushContainer p list nodes t) (fun _ t' =>
        t'.term = t.term.modifyAt (·.mapList list fun l =>
        l ++ nodes.map (·.map t.arena.term)) w) fun _ _ => True := by
  obtain ⟨⟨owner, hmoored⟩, -⟩ := exists_moored hrooted ht.arena hn hlive
  have hover : Over t.arena t.root t₁ := ⟨hmoored.arena, hmoored.root⟩
  have harena : t₁.arena.WellOwned := by rw [hover.1]; exact ht.arena
  have hat : t₁.at? w = some n := (hover.at? w).trans hw
  have hfield := ends_listField_key t₁ p list
  unfold unshiftContainer pushContainer
  rw [run_bind_of_ok hlive, run_bind_of_ok hlive]
  refine ⟨ends_bind.2 (hfield.mono ?_), ends_bind.2 (hfield.mono ?_)⟩
  · rintro _ _ ⟨rfl, hsame⟩
    rw [hsame, run_get_bind, hmoored.stands.node]
    refine (ends_insertEntries_term harena hat p (F := fun l => nodes.map (·.map t.arena.term) ++ l)
      fun k old _ _ => ?_).mono fun _ t' h => h.trans (by rw [hover.term])
    simp [hover.1]
  · rintro name _ ⟨hname, hsame⟩
    rw [hname, hsame, run_get_bind, run_get_bind, hmoored.stands.node]
    cases hl : t₁.arena.list (some n) list with
    | error e => exact ends_bind.2 trivial
    | ok items =>
      obtain ⟨o, k₀, ho, hk₀, hv₀⟩ := list_ok hl
      obtain rfl := Option.some.inj ho
      refine (ends_insertEntries_term harena hat p (F := fun l =>
        l ++ nodes.map (·.map t.arena.term))
        fun k old hk hv => ?_).mono fun _ t' h => h.trans (by rw [hover.term])
      -- the list is the one that was looked at
      obtain rfl := Option.some.inj (hk₀.symm.trans hk)
      obtain rfl : items = old := by simpa using hv₀.symm.trans hv
      simp [hover.1]

end Insert

/-! ## nodes that go -/

/-- Nothing changed but comments of the entry of a list and of those next to it. -/
structure Shares (items : List (Option NodeId)) (i : Nat) (a b : Arena) : Prop where
  alike : Alike a b
  content : ∀ q, (b.get? q).map Node.content = (a.get? q).map Node.content
  comments : ∀ q, ¬ Beside items i q → (b.get? q).map Node.comments = (a.get? q).map Node.comments

theorem Shares.update {items : List (Option NodeId)} {i : Nat} (h : Shares items i a b)
    {id : Option NodeId} (hid : ∀ m, id = some m → Beside items i m)
    (f : NodeComments → NodeComments) :
    Shares items i a (b.update id fun k => { k with comments := f k.comments }) := by
  refine ⟨h.alike.trans (Alike.update b id fun _ => ⟨rfl, rfl⟩), fun q => ?_, fun q hq => ?_⟩
  · exact (content_update_of_eq (f := fun k => { k with comments := f k.comments })
      (fun _ => rfl) id q).trans (h.content q)
  · cases id with
    | none => exact h.comments q hq
    | some m =>
      rw [get?_update, if_neg]
      · exact h.comments q hq
      · rintro rfl
        exact hq (hid q rfl)

theorem ends_shareComments {list : String} {i : Nat} {items : List (Option NodeId)} {k : Node}
    (hs : t.slot p = .entry list i) (hn : t.node p = some n) (hparent : t.parentNode p = some o)
    (hk : t.arena.get? o = some k) (hv : k.value? list = some (.list items))
    (hi : items[i]? = some (some n)) :
    Ends (shareComments p t) (fun _ t' => ∃ b, t' = { t with arena := b }
      ∧ Shares items i t.arena b)
      fun _ _ => True := by
  have hself : Shares items i t.arena t.arena := ⟨.refl _, fun _ => rfl, fun _ _ => rfl⟩
  unfold shareComments
  rw [run_get_bind, hs, hn, hparent]
  dsimp only
  split
  · exact ⟨t.arena, rfl, hself⟩
  · generalize (t.arena.look (some n)).elim {} (·.comments) = comments
    have hentry (m : NodeId) (hm : some n = some m) : Beside items i m :=
      ⟨i, Option.some.inj hm ▸ hi, .inl rfl⟩
    have hown := hself.update hentry fun _ => {}
    rw [run_modify_bind]
    refine ends_bind.2 ?_
    cases hl : t.arena.list (some o) list with
    | error e => trivial
    | ok siblings =>
      obtain ⟨o', k', ho, hk', hv'⟩ := list_ok hl
      obtain rfl := Option.some.inj ho
      obtain rfl := Option.some.inj (hk.symm.trans hk')
      obtain rfl : items = siblings := by simpa using hv.symm.trans hv'
      -- the neighbours are entries of the list, or there are none
      have hbefore (x : Option NodeId) (hx : (if i = 0 then none else items[i - 1]?) = some x)
          (m : NodeId) (hm : x = some m) : Beside items i m := by
        subst hm
        split at hx
        · cases hx
        · exact ⟨i - 1, hx, .inr (.inl (by omega))⟩
      have hafter (x : Option NodeId) (hx : items[i + 1]? = some x) (m : NodeId) (hm : x = some m) :
          Beside items i m := ⟨i + 1, hm ▸ hx, .inr (.inr rfl)⟩
      rw [TreeM.ofShape, ends_pure]
      generalize (if i = 0 then none else items[i - 1]?) = before at hbefore ⊢
      generalize items[i + 1]? = after at hafter ⊢
      have hboth {x y : Option NodeId} (hx : ∀ m, x = some m → Beside items i m)
          (hy : ∀ m, y = some m → Beside items i m) :=
        (hown.update hx fun c => { c with trailing := c.trailing ++ comments.leading }).update hy
          fun c => { c with leading := c.leading ++ comments.trailing }
      cases before with
      | none =>
        cases after with
        | none => exact ⟨_, rfl, hown⟩
        | some y => exact ⟨_, rfl, hboth (hafter y rfl) (hafter y rfl)⟩
      | some x =>
        cases after with
        | none => exact ⟨_, rfl, hboth (hbefore x rfl) (hbefore x rfl)⟩
        | some y => exact ⟨_, rfl, hboth (hbefore x rfl) (hafter y rfl)⟩

theorem ends_removeFromOwner_over {list : String} {i : Nat}
    {items : List (Option NodeId)} {k : Node} (ha : t.arena.WellOwned)
    (hs : t.slot p = .entry list i) (hparent : t.parentNode p = some o)
    (hk : t.arena.get? o = some k) (hv : k.value? list = some (.list items))
    (hi : items[i]? = some (some n)) :
    Ends (removeFromOwner p t) (fun _ t' => ∃ b, b.Owned ∧ SameComments t.arena b ∧ Over b t.root t'
      ∧ Overwrites t.arena b o list (.list items) (.list (items.eraseIdx i))) fun _ _ => True := by
  have hall := ((stays_iff.1 (stays_owned_listRemove (some o) list i) _ ha.owned).and
    (stays_iff.1 ((SameComments.valueless t.arena).listRemove (some o) list i) _
      (.refl t.arena))).and
    (ends_listRemove ha (some o) list i)
  unfold removeFromOwner
  rw [run_get_bind, hs, hparent]
  refine ends_bind.2 ((ends_edit (hall.imp (fun _ _ h => h) fun _ _ _ => trivial)).mono fun _
    t₁ h₁ => ?_)
  obtain ⟨b, ⟨⟨hb, hcomments⟩, o', k', old, ho, hk', hv', rfl, hcases⟩, rfl⟩ := h₁
  obtain rfl := Option.some.inj ho
  obtain rfl := Option.some.inj (hk.symm.trans hk')
  obtain rfl : items = old := by simpa using hv.symm.trans hv'
  obtain ⟨hnone, -⟩ | hover := hcases
  · cases hi.symm.trans hnone
  · have hshift := (Over.nodal b t.root).pathless.shiftEntries
    exact (stays_iff.1 (hshift _ _ _ _ _) { t with arena := b } ⟨rfl, rfl⟩).imp
      (fun _ t' h => ⟨b, hb, hcomments, h, hover⟩) fun _ _ _ => trivial

theorem ends_removePlain_over {list : String} {i : Nat} {items : List (Option NodeId)} {k : Node}
    (ha : t.arena.WellOwned) (hn : t.node p = some n) (hs : t.slot p = .entry list i)
    (hparent : t.parentNode p = some o) (hk : t.arena.get? o = some k)
    (hv : k.value? list = some (.list items)) (hi : items[i]? = some (some n)) :
    Ends (removePlain p t) (fun _ t' => ∃ a b, Shares items i t.arena a ∧ b.Owned ∧ SameComments a b
      ∧ Over b t.root t' ∧ Overwrites a b o list (.list items) (.list (items.eraseIdx i)))
      fun _ _ => True := by
  unfold removePlain
  rw [run_get_bind, hn]
  refine ends_bind.2 ((ends_shareComments hs hn hparent hk hv hi).mono fun _ t₁ h₁ => ?_)
  obtain ⟨a, rfl, hshares⟩ := h₁
  have hcontent := hshares.content o
  rw [hk] at hcontent
  obtain ⟨k', hk', hcontent⟩ := Option.map_eq_some_iff.1 hcontent
  have hv' : k'.value? list = some (.list items) := by rwa [Node.value?_congr hcontent]
  have hgone := ends_removeFromOwner_over (t := { t with arena := a })
    (hshares.alike.wellOwned ha) hs hparent hk' hv' hi
  rw [run_get_bind]
  refine ends_bind.2 (hgone.mono fun _ t₂ h₂ => ?_)
  obtain ⟨b, hb, hcomments, hover, hwrites⟩ := h₂
  dsimp only
  rw [run_modify_bind]
  have hforgotten := (Over.nodal _ _).invalidate
    ⟨n, none, none, (parentPath { t with arena := a } p).bind (existingScope { t with arena := a })⟩
    hover
  generalize invalidate _ _ = t₃ at hforgotten ⊢
  exact ⟨a, b, hshares, hb, hcomments, hforgotten, hwrites⟩

/-- The term without an entry of a list, the neighbours of which may have been given comments. -/
theorem Shares.term {list : String} {i : Nat} {items : List (Option NodeId)} {k : Node}
    (hshares : Shares items i t.arena a) (ha : t.arena.Owned) (hk : t.arena.get? o = some k)
    (hv : k.value? list = some (.list items))
    (hover : Overwrites a b o list (.list items) (.list (items.eraseIdx i)))
    (hcomments : SameComments a b) (hb : b.Owned) (hat : t.arena.at? r w = some o) :
    ∃ g : Nat → NodeComments → NodeComments, (∀ j, j + 1 ≠ i → j ≠ i + 1 → g j = id)
      ∧ b.term r = (t.arena.term r).modifyAt (·.mapList list fun l =>
        (l.mapIdx fun j τ => τ.map (Term.mapComments (g j))).eraseIdx i) w := by
  have hentry {j : Nat} {d : NodeId} (hd : items[j]? = some (some d)) : t.arena.OwnedBy d o :=
    ha.owner_of_field hk hv (mem_children_list.2 (List.mem_of_getElem? hd))
  have hfar : ¬ Beside items i o := fun ⟨_, hj, _⟩ => ha.owner_ne (hentry hj) rfl
  refine term_dropped ha hb (hover.size.trans hshares.alike.size) hk hv ?_ (fun m hm => ?_)
    (fun m hm => (hcomments m).trans (hshares.comments m hm)) hat
  · have hshown := shown_eq (hshares.content o) (hshares.comments o hfar)
    rw [hk] at hshown
    obtain ⟨k', hk', hshown⟩ := Option.map_eq_some_iff.1 hshown
    rw [hover.shown_self hcomments hk']
    exact congrArg some (shown_withValue hshown list _)
  · exact (hover.content_ne hm).trans (hshares.content m)

/-- To remove at a path that is found live, and that nothing else goes with, is to remove just the
node there. -/
theorem run_remove (hlive : assertLive p t = .ok () t₁) (hplain : t₁.removal p = .plain) :
    remove p t = removePlain p t₁ := by
  unfold remove
  rw [run_get_bind, removeUpTo, run_bind_of_ok hlive, run_get_bind, hplain]

/-- **An entry that is removed is dropped from its list.** Its comments may pass to those next to
it. -/
theorem ends_remove_term {list : String} {i : Nat} (ht : t.WellOwned) (hrooted : t.Rooted 0)
    (hn : t.node p = some n) (hlive : assertLive p t = .ok () t₁)
    (hw : t.at? (w ++ [.entry list i]) = some n) (hplain : t₁.removal p = .plain) :
    Ends (remove p t) (fun _ t' => (∃ g : Nat → NodeComments → NodeComments,
        (∀ j, j + 1 ≠ i → j ≠ i + 1 → g j = id) ∧ t'.term = t.term.modifyAt (·.mapList list fun l =>
          (l.mapIdx fun j τ => τ.map (Term.mapComments (g j))).eraseIdx i) w)
      ∧ t'.arena.parentOf (some n) = none) fun _ _ => True := by
  obtain ⟨⟨owner, hmoored⟩, -⟩ := exists_moored hrooted ht.arena hn hlive
  obtain ⟨o, rfl, hat, hparent, hslot, hs⟩ := hmoored.entry ht hw
  obtain ⟨r, hr, hat⟩ := Option.bind_eq_some_iff.1 hat
  have ha := ht.arena.owned
  obtain ⟨k, items, hk, hv, hi⟩ := exists_list_of_slotAt hs
  rw [run_remove hlive hplain]
  have hwell : t₁.arena.WellOwned := by rw [hmoored.arena]; exact ht.arena
  have hend := ends_removePlain_over hwell hmoored.stands.node hslot hparent
    (by rwa [hmoored.arena]) hv hi
  rw [hmoored.arena, hmoored.root] at hend
  refine hend.mono fun _ t' h => ?_
  obtain ⟨a, b, hshares, hb, hcomments, ⟨harena', hroot'⟩, hover⟩ := h
  have hdropped := hshares.term ha hk hv hover hcomments hb hat
  have hgone := hover.parentOf_erased (hshares.alike.wellOwned ht.arena).owned hi
  unfold Tree.term
  rw [hroot', hr, harena']
  exact ⟨hdropped, hgone⟩

/-! ## all edits -/

/-- **Edits at paths are changes of the term at one position.** In a tree in use the nodes of which
have single owners, let `w` be the position of the node at a path that is found live. A node that is
free, or is below it, and need not be adapted, takes its place with the comments of both. Nodes that
are put into a list of it, or into the list that it is an entry of, are spliced in right there. Such
an entry that is removed, with nothing else to go, is dropped from its list; comments of those next
to it may change. Nothing else changes, and the node that went has no owner. -/
theorem Reached.term_edited (h : t.Reached) (ht : t.WellOwned) (hn : t.node p = some n)
    (hlive : assertLive p t = .ok () t₁) (hw : t.at? w = some n) :
    (∀ x t', x ≠ n → t.arena.parentOf (some x) = none ∨ TransGen t.arena.OwnedBy x n →
        t₁.coerces p x = false → replaceWith p (some x) t = .ok () t' →
      t'.term = t.term.modifyAt (fun τ => (t.arena.term x).mapComments (·.absorb τ.comments)) w
        ∧ t'.arena.parentOf (some n) = none)
    ∧ (∀ list nodes ps t', unshiftContainer p list nodes t = .ok ps t' →
      t'.term = t.term.modifyAt (·.mapList list fun l => nodes.map (·.map t.arena.term) ++ l) w)
    ∧ (∀ list nodes ps t', pushContainer p list nodes t = .ok ps t' →
      t'.term = t.term.modifyAt (·.mapList list fun l => l ++ nodes.map (·.map t.arena.term)) w)
    ∧ ∀ v list i, w = v ++ [.entry list i] →
      (t.nodeIsA p .expression = false → t₁.statementWrapper? p = none →
        (∀ nodes ps t', insertBefore p nodes t = .ok ps t' → t'.term = t.term.modifyAt
          (·.mapList list fun l => l.take i ++ nodes.map (·.map t.arena.term) ++ l.drop i) v)
        ∧ ∀ nodes ps t', insertAfter p nodes t = .ok ps t' → t'.term = t.term.modifyAt
          (·.mapList list fun l => l.take (i + 1) ++ nodes.map (·.map t.arena.term)
            ++ l.drop (i + 1)) v)
      ∧ ∀ t', t₁.removal p = .plain → remove p t = .ok () t' →
        (∃ g : Nat → NodeComments → NodeComments, (∀ j, j + 1 ≠ i → j ≠ i + 1 → g j = id)
          ∧ t'.term = t.term.modifyAt (·.mapList list fun l =>
            (l.mapIdx fun j τ => τ.map (Term.mapComments (g j))).eraseIdx i) v)
        ∧ t'.arena.parentOf (some n) = none := by
  have hrooted := h.rooted
  refine ⟨fun x t' hne hx hco hrun => ?replaced, fun list nodes ps t' hrun => ?unshifted,
    fun list nodes ps t' hrun => ?pushed, fun v list i hv =>
      ⟨fun hexpr hwrap => ⟨fun nodes ps t' hrun =>
      ?before, fun nodes ps t' hrun => ?after⟩, fun t' hplain hrun => ?removed⟩⟩
  case replaced => exact (ends_replaceWith_term ht hrooted hn hlive hw hne hx hco).of_ok hrun
  case unshifted => exact (ends_container_term ht hrooted hn hlive hw).1.of_ok hrun
  case pushed => exact (ends_container_term ht hrooted hn hlive hw).2.of_ok hrun
  all_goals subst hv
  case before => exact (ends_insert_term ht hrooted hn hlive hw hexpr hwrap).1.of_ok hrun
  case after => exact (ends_insert_term ht hrooted hn hlive hw hexpr hwrap).2.of_ok hrun
  case removed => exact (ends_remove_term ht hrooted hn hlive hw hplain).of_ok hrun

/-- Two statements of a program, and one that is not part of it. -/
def besideProgram : Arena := Arena.runAll [
  .alloc .debuggerStatement [],
  .alloc .emptyStatement [],
  .alloc .program [.str "module", .list [], .list [some ⟨0⟩, some ⟨1⟩]],
  .alloc .debuggerStatement []]

def lookedUp : Tree :=
  { final ((PathCall.entries ⟨0⟩ "body").run (final (PathCall.root.run
      (ofArena besideProgram (some ⟨2⟩) { noScope := true })))) with arena := besideProgram }

theorem reached_lookedUp : lookedUp.Reached :=
  .arena _ (.call _ trivial (.call _ trivial (.start _ _ _)))

/-- The second statement is replaced, it gets a neighbour, and it is removed. -/
theorem term_edited_lookedUp : lookedUp.at? [.entry "body" 1] = some ⟨1⟩
    ∧ (∃ t', replaceWith ⟨2⟩ (some ⟨3⟩) lookedUp = .ok () t' ∧ t'.term = lookedUp.term.modifyAt
      (fun τ => (lookedUp.arena.term ⟨3⟩).mapComments (·.absorb τ.comments)) [.entry "body" 1])
    ∧ (∃ ps t', insertBefore ⟨2⟩ [some ⟨3⟩] lookedUp = .ok ps t' ∧ t'.term = lookedUp.term.modifyAt
      (·.mapList "body" fun l => l.take 1 ++ [some (lookedUp.arena.term ⟨3⟩)] ++ l.drop 1) [])
    ∧ (∃ t', remove ⟨2⟩ lookedUp = .ok () t' ∧ t'.arena.parentOf (some ⟨1⟩) = none)
    ∧ ∃ ps t', pushContainer ⟨0⟩ "body" [some ⟨3⟩] lookedUp = .ok ps t'
    ∧ t'.term = lookedUp.term.modifyAt
      (·.mapList "body" fun l => l ++ [some (lookedUp.arena.term ⟨3⟩)]) [] := by
  have ht : lookedUp.WellOwned := by
    refine ⟨Arena.wellOwned_runAll _, fun r hr => ?_⟩
    obtain rfl : ⟨2⟩ = r :=
      Option.some.inj ((by decide +kernel : some ⟨2⟩ = lookedUp.root).trans hr)
    decide +kernel
  have hok : passes (assertLive ⟨2⟩ lookedUp) (fun _ t => !t.coerces ⟨2⟩ ⟨3⟩
      && (t.statementWrapper? ⟨2⟩).isNone && (t.removal ⟨2⟩).ctorIdx == 3)
      = true := by decide +kernel
  obtain ⟨_, t₁, hlive, hok⟩ := ok_of_passes hok
  simp only [Bool.and_eq_true, Bool.not_eq_true', beq_iff_eq, Option.isNone_iff_eq_none] at hok
  obtain ⟨⟨hco, hwrap⟩, hplain⟩ := hok
  have hplain : t₁.removal ⟨2⟩ = .plain := by
    cases hr : t₁.removal ⟨2⟩ with
    | plain => rfl
    | _ =>
      rw [hr] at hplain
      cases hplain
  have hw : lookedUp.at? [.entry "body" 1] = some ⟨1⟩ := by decide +kernel
  obtain ⟨hreplaced, -, -, hentry⟩ :=
    reached_lookedUp.term_edited ht (p := ⟨2⟩) (by decide +kernel) hlive hw
  obtain ⟨hinserted, hremoved⟩ := hentry [] "body" 1 rfl
  obtain ⟨_, t₂, hreplace⟩ := exists_ok_of_passes (r := replaceWith ⟨2⟩ (some ⟨3⟩) lookedUp)
    (by decide +kernel)
  obtain ⟨ps, t₃, hinsert⟩ := exists_ok_of_passes (r := insertBefore ⟨2⟩ [some ⟨3⟩] lookedUp)
    (by decide +kernel)
  obtain ⟨_, t₄, hremove⟩ := exists_ok_of_passes (r := remove ⟨2⟩ lookedUp)
    (by decide +kernel)
  obtain ⟨ps', t₅, hpush⟩ := exists_ok_of_passes (r := pushContainer ⟨0⟩ "body" [some ⟨3⟩] lookedUp)
    (by decide +kernel)
  obtain ⟨_, t₆, hlive₀⟩ := exists_ok_of_passes (r := assertLive ⟨0⟩ lookedUp)
    (by decide +kernel)
  obtain ⟨-, -, hpushed, -⟩ := reached_lookedUp.term_edited ht (p := ⟨0⟩) (n := ⟨2⟩) (w := [])
    (by decide +kernel) hlive₀ (by decide +kernel)
  exact ⟨hw, ⟨t₂, hreplace,
    (hreplaced ⟨3⟩ t₂ (by decide) (.inl (by decide +kernel)) hco hreplace).1⟩,
    ⟨ps, t₃, hinsert, (hinserted (by decide +kernel) hwrap).1 _ _ _ hinsert⟩,
    ⟨t₄, hremove, (hremoved t₄ hplain hremove).2⟩, ps', t₅, hpush, hpushed _ _ _ _ hpush⟩

end ScopedTree.Tree
