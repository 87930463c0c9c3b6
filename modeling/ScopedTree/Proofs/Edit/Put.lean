import ScopedTree.Edit.Slot
import ScopedTree.Proofs.Arena.Reshape
import ScopedTree.Proofs.Edit.Forget
import ScopedTree.Proofs.Pass.Queued
import ScopedTree.Proofs.Path.Seats

/-!
# Nodes put at paths

To put a node in place of another is to pull it out of there, to overwrite one place, to forget what
left and to crawl what came.

* `Tree.Placed`              a node was put at the place of a path;
* `Tree.Pulls`               a node that comes from the subtree it replaces is taken out of it;
* `Tree.Marks`               paths went out of use;
* `Tree.Built`, `Tree.Made`  nodes were made, and a node was built.
-/

namespace ScopedTree.Tree

open Arena Relation

variable {t t' t'' : Tree} {p q : PathId} {x n m o r : NodeId} {α : Type}

theorem readSlot_eq (t : Tree) (owner : Option NodeId) {slot : Slot} (hs : slot ≠ .root) :
    t.readSlot owner slot = t.arena.slotAt owner slot := by
  cases slot with
  | root => exact absurd rfl hs
  | field name => rfl
  | entry list i => rfl

theorem ends_edit {x : ArenaM α} {Q : α → Arena → Prop} {E : ShapeError → Arena → Prop}
    (h : Ends (x t.arena) Q E) : Ends (TreeM.edit x t)
      (fun y t' => ∃ a, Q y a ∧ t' = { t with arena := a }) fun _ _ => True := by
  unfold TreeM.edit
  dsimp only
  cases hx : x t.arena with
  | ok y a =>
    rw [hx] at h
    exact ⟨a, h, rfl⟩
  | error e a => trivial

theorem ends_guard {ε σ β : Type} {c : Prop} [Decidable c] {x : EStateM ε σ PUnit}
    {next : PUnit → EStateM ε σ β} {s : σ} {Q : β → σ → Prop} {E : ε → σ → Prop}
    (h : Ends ((if c then x else pure ⟨⟩) s) (fun y s' => Ends (next y s') Q E) E) :
    Ends ((if c then x >>= next else next ⟨⟩) s) Q E := by
  split
  · next hc =>
    rw [if_pos hc] at h
    exact ends_bind.2 h
  · next hc =>
    rw [if_neg hc] at h
    exact h

/-! ## what goes on -/

theorem Sits.owner_lt (h : t.Sits p n o) : o.index < t.arena.size := by
  obtain ⟨_, ho, -⟩ := get?_of_mem_children h.mem
  exact get?_eq_some_lt ho

/-! ## a node that is put at a path -/

/-- The node `x` was put at the place of `p`. -/
structure Placed (p : PathId) (x : NodeId) (t t' : Tree) : Prop where
  owned : t'.arena.WellOwned
  there : t.slot p = .root ∧ t'.root = some x ∧ Alike t.arena t'.arena
    ∨ t.slot p ≠ .root ∧ t'.root = t.root ∧ ∃ o, t.parentNode p = some o
      ∧ Puts t.arena t'.arena o (t.slot p) x
  size : t'.paths.size = t.paths.size
  rootPath : t'.rootPath = t.rootPath
  lists : ∀ m, t'.cachedPaths m = t.cachedPaths m
  self : (t'.path p).place = (some x, t.parentNode p, t.slot p, (t.path p).removed)
  other : ∀ q, q ≠ p → (t'.path q).place = (t.path q).place

namespace Placed

variable (h : Placed p x t t')

include h

theorem node_self : t'.node p = some x := congrArg (·.1) h.self

theorem parent_self : t'.parentNode p = t.parentNode p := congrArg (·.2.1) h.self

theorem slot_self : t'.slot p = t.slot p := congrArg (·.2.2.1) h.self

theorem sits_self (hs : t.slot p ≠ .root) (ho : t.parentNode p = some o) : t'.Sits p x o := by
  obtain ⟨hroot, -⟩ | ⟨-, -, o', ho', hputs⟩ := h.there
  · exact absurd hroot hs
  obtain rfl := Option.some.inj (ho.symm.trans ho')
  refine ⟨by rwa [h.slot_self], h.node_self, h.parent_self.trans ho, ?_⟩
  rw [h.slot_self, readSlot_eq _ _ hs, hputs.read, if_pos ⟨rfl, rfl⟩]

end Placed

theorem ends_writeSlot (ha : t.arena.WellOwned) (p : PathId) (x : NodeId) :
    Ends (writeSlot p (some x) t) (fun _ t' => t.slot p = .root ∧ t' = { t with root := some x }
      ∨ t.slot p ≠ .root ∧ ∃ o a, t.parentNode p = some o ∧ t' = { t with arena := a } ∧ a.WellOwned
        ∧ Puts t.arena a o (t.slot p) x) fun _ _ => True := by
  unfold writeSlot
  rw [run_get_bind]
  cases hs : (t.path p).slot with
  | root => exact .inl ⟨hs, rfl⟩
  | field name =>
    have hs : t.slot p = .field name := hs
    refine (ends_edit (ends_putChild ha (t.path p).parent name x)).mono
      fun _ t' ⟨a, hput, ht'⟩ => ?_
    obtain ⟨hwell, o, ho, hputs⟩ := hput
    rw [hs]
    exact .inr ⟨Slot.noConfusion, o, a, ho, ht', hwell, hputs⟩
  | entry list i =>
    have hs : t.slot p = .entry list i := hs
    refine (ends_edit (ends_putEntry ha (t.path p).parent list i x)).mono
      fun _ t' ⟨a, hput, ht'⟩ => ?_
    obtain ⟨hwell, o, ho, hputs⟩ := hput
    rw [hs]
    exact .inr ⟨Slot.noConfusion, o, a, ho, ht', hwell, hputs⟩

theorem placed_of_written (ha : t.arena.WellOwned) (hlt : p.index < t.paths.size)
    (h : t.slot p = .root ∧ t' = { t with root := some x }
      ∨ t.slot p ≠ .root ∧ ∃ o a, t.parentNode p = some o ∧ t' = { t with arena := a } ∧ a.WellOwned
        ∧ Puts t.arena a o (t.slot p) x) {a : Arena} (hlike : Alike t'.arena a)
        {f : PathData → PathData}
    (hf : ∀ d, (f d).place = (some x, d.parent, d.slot, d.removed)) :
    Placed p x t ({ t' with arena := a }.updatePath p f) := by
  rcases h with ⟨hs, rfl⟩ | ⟨hs, o, b, ho, rfl, hwell, hputs⟩
  · exact ⟨hlike.wellOwned ha, .inl ⟨hs, rfl, hlike⟩, size_updatePath .., rfl, fun _ => rfl,
      (congrArg PathData.place (path_updatePath_self _ f hlt)).trans (hf _),
      fun q hq => congrArg PathData.place (path_updatePath_ne _ f hq)⟩
  · exact ⟨hlike.wellOwned hwell, .inr ⟨hs, rfl, o, ho, hlike.puts hputs⟩, size_updatePath .., rfl,
      fun _ => rfl, (congrArg PathData.place (path_updatePath_self _ f hlt)).trans (hf _),
      fun q hq => congrArg PathData.place (path_updatePath_ne _ f hq)⟩

/-! ## a node that comes from the subtree it replaces -/

/-- The node `x` was pulled out of the subtree `old`, if it is there and is not all of it. -/
def Pulls (x : NodeId) (old : Option NodeId) (a b : Arena) : Prop :=
  b = a ∧ (some x = old ∨ a.isWithin (some x) old = false ∨ a.parentOf (some x) = none)
    ∨ some x ≠ old ∧ a.isWithin (some x) old = true ∧ ∃ q, Takes a b x q

theorem ends_takeFrom (ha : t.arena.WellOwned) (x : NodeId) (old : Option NodeId) :
    Ends ((if some x != old then takeFrom (some x) old else pure ⟨⟩) t)
      (fun _ t' => ∃ a, t' = { t with arena := a } ∧ a.WellOwned ∧ Pulls x old t.arena a)
      fun _ _ => True := by
  by_cases hx : some x = old
  · rw [if_neg (by simpa using hx)]
    exact ⟨t.arena, rfl, ha, .inl ⟨rfl, .inl hx⟩⟩
  rw [if_pos (by simpa using hx)]
  unfold takeFrom
  rw [run_get_bind]
  by_cases hin : t.arena.isWithin (some x) old = true
  · rw [if_pos hin]
    have howned := stays_iff.1 (stays_owned_take (some x)) t.arena ha.owned
    have hshaped := stays_iff.1 (stays_shaped_take (some x)) t.arena ha.shaped
    have htake := ends_take t.arena (some x)
    have hall : Ends (Arena.take (some x) t.arena)
        (fun _ a => a.WellOwned ∧ Pulls x old t.arena a) fun _ _ => True := by
      cases hr : Arena.take (some x) t.arena with
      | error e a => trivial
      | ok y a =>
        rw [hr] at howned hshaped htake
        refine ⟨⟨howned, hshaped⟩, ?_⟩
        obtain ⟨c, hc, ⟨hfree, rfl⟩ | ⟨q, htakes⟩⟩ := htake
        · obtain rfl := Option.some.inj hc
          exact .inl ⟨rfl, .inr (.inr hfree)⟩
        · obtain rfl := Option.some.inj hc
          exact .inr ⟨hx, hin, q, htakes⟩
    exact (ends_edit hall).mono fun _ t' ⟨a, ⟨hwell, hpulls⟩, ht'⟩ => ⟨a, ht', hwell, hpulls⟩
  · rw [if_neg hin]
    exact ⟨t.arena, rfl, ha, .inl ⟨rfl, .inr (.inl (by simpa using hin))⟩⟩

/-! ## what is forgotten -/

theorem lt_of_removed (h : (t.path p).removed = true) : p.index < t.paths.size := by
  by_contra hge
  rw [path_of_size_le (Nat.le_of_not_lt hge)] at h
  cases h

/-- Paths may be marked as removed. -/
structure Marks (gone : PathId → Prop) (t t' : Tree) : Prop where
  arena : t'.arena = t.arena
  root : t'.root = t.root
  rootPath : t'.rootPath = t.rootPath
  lists : t'.childPaths = t.childPaths
  size : t'.paths.size = t.paths.size
  place : ∀ p, t'.node p = t.node p ∧ t'.parentNode p = t.parentNode p ∧ t'.slot p = t.slot p
  removed : ∀ p, (t'.path p).removed = true → (t.path p).removed = true ∨ gone p
  still : ∀ p, (t.path p).removed = true → (t'.path p).removed = true

namespace Marks

variable {gone : PathId → Prop}

@[refl] theorem refl (gone : PathId → Prop) (t : Tree) : Marks gone t t :=
  ⟨rfl, rfl, rfl, rfl, rfl, fun _ => ⟨rfl, rfl, rfl⟩, fun _ => .inl, fun _ => id⟩

theorem trans (h : Marks gone t t') (h' : Marks gone t' t'') : Marks gone t t'' where
  arena := h'.arena.trans h.arena
  root := h'.root.trans h.root
  rootPath := h'.rootPath.trans h.rootPath
  lists := h'.lists.trans h.lists
  size := h'.size.trans h.size
  place p := ⟨(h'.place p).1.trans (h.place p).1, (h'.place p).2.1.trans (h.place p).2.1,
    (h'.place p).2.2.trans (h.place p).2.2⟩
  removed p hp := (h'.removed p hp).elim (h.removed p) .inr
  still p hp := h'.still p (h.still p hp)

theorem markRemoved (t : Tree) (hp : gone p) : Marks gone t (t.markRemoved p) where
  arena := rfl
  root := rfl
  rootPath := rfl
  lists := rfl
  size := size_updatePath ..
  place q := by
    have h := t.path_updatePath_congr p q ({ · with removed := true, shouldSkip := true })
      (fun d => (d.node, d.parent, d.slot)) fun _ => rfl
    exact ⟨congrArg (·.1) h, congrArg (·.2.1) h, congrArg (·.2.2) h⟩
  removed q hq := by
    by_cases hqp : q = p
    · exact .inr (hqp ▸ hp)
    · rw [Tree.markRemoved, path_updatePath_ne _ _ hqp] at hq
      exact .inl hq
  still q hq := by
    by_cases hqp : q = p
    · subst hqp
      rw [Tree.markRemoved, path_updatePath_self _ _ (lt_of_removed hq)]
    · rwa [Tree.markRemoved, path_updatePath_ne _ _ hqp]

theorem cachedPaths (h : Marks gone t t') (m : Option NodeId) :
    t'.cachedPaths m = t.cachedPaths m := by
  unfold Tree.cachedPaths
  rw [h.lists]

theorem filed (h : Marks gone t t') (hf : t.Filed) : t'.Filed where
  present r hr := by
    rw [h.arena]
    exact hf.present r (h.root ▸ hr)
  held p n hn := by
    rw [h.arena]
    exact hf.held p n ((h.place p).1.symm.trans hn)
  root p hp hs := by
    rw [h.rootPath, h.root, (h.place p).1]
    exact hf.root p (h.size ▸ hp) ((h.place p).2.2.symm.trans hs)
  listed m p hp := by
    rw [h.size, (h.place p).2.2]
    exact hf.listed m p (h.cachedPaths m ▸ hp)
  nodup m := by
    rw [h.cachedPaths]
    exact hf.nodup m
  once m m' p hp hp' := hf.once m m' p (h.cachedPaths m ▸ hp) (h.cachedPaths m' ▸ hp')

end Marks

theorem marks_markRemovedBelow (d : Departure) (nodes : List NodeId) (t : Tree) :
    Marks (fun q => some q ≠ d.holder ∧ ∃ m ∈ nodes, q ∈ t.cachedPaths (some m)) t
      (markRemovedBelow d nodes t) := by
  unfold markRemovedBelow
  generalize hgone : (fun q => some q ≠ d.holder ∧ ∃ m ∈ nodes, q ∈ t.cachedPaths (some m)) = gone
  have hinner (l : List PathId) (hl : ∀ q ∈ l, some q ≠ d.holder → gone q) (u : Tree)
      (hu : Marks gone t u) : Marks gone t (l.foldl (fun (t : Tree) (p : PathId) =>
        if some p != d.holder && !(t.path p).removed && d.inOld t.arena (t.node p) then
          t.markRemoved p else t) u) := by
    induction l generalizing u with
    | nil => exact hu
    | cons q l ih =>
      refine ih (fun k hk => hl k (List.mem_cons_of_mem _ hk)) _ ?_
      dsimp only
      split
      · next hmark =>
        refine hu.trans (.markRemoved u (hl q (List.mem_cons_self ..) ?_))
        simp only [Bool.and_eq_true, bne_iff_ne] at hmark
        exact hmark.1.1
      · exact hu
  have houter (l : List NodeId) (hl : ∀ m ∈ l, m ∈ nodes) (u : Tree) (hu : Marks gone t u) :
      Marks gone t (l.foldl (fun (t : Tree) (id : NodeId) =>
        (t.cachedPaths (some id)).foldl (fun (t : Tree) (p : PathId) =>
          if some p != d.holder && !(t.path p).removed && d.inOld t.arena (t.node p) then
            t.markRemoved p else t) t) u) := by
    induction l generalizing u with
    | nil => exact hu
    | cons m l ih =>
      refine ih (fun k hk => hl k (List.mem_cons_of_mem _ hk)) _
        (hinner _ (fun q hq hholder => ?_) u hu)
      rw [hu.cachedPaths] at hq
      rw [← hgone]
      exact ⟨hholder, m, hl m (List.mem_cons_self ..), hq⟩
  exact houter nodes (fun _ h => h) t (.refl gone t)

theorem marks_cleared (d : Departure) (t : Tree) :
    Marks (fun q => some q ≠ d.holder ∧ ∃ m ∈ t.arena.preorder (some d.old),
      q ∈ t.cachedPaths (some m)) t (d.cleared t) := by
  obtain ⟨scopes, hcleared⟩ := exists_cleared d t
  have h := marks_markRemovedBelow d (t.arena.preorder (some d.old)) t
  rw [hcleared]
  exact ⟨h.arena, h.root, h.rootPath, h.lists, h.size, h.place, h.removed, h.still⟩

theorem retraces_cleared (hf : t.Filed) (ha : t.arena.WellOwned) (d : Departure) :
    (d.cleared t).Retraces (invalidate d t) := by
  have hmarks := marks_cleared d t
  have hsettled : (d.cleared t).Retraces (d.settled t) :=
    (Retraces.crawls (by rw [hmarks.arena]; exact ha)).settled d t (.refl (hmarks.filed hf))
  rw [invalidate_eq]
  generalize d.settled t = u at hsettled ⊢
  exact hsettled.of_congr rfl rfl rfl rfl (fun _ => rfl) rfl fun _ => rfl

/-! ## writes to nodes -/

theorem Filed.edited (h : t.Filed) {a : Arena} (ha : t.arena.size ≤ a.size) :
    ({ t with arena := a } : Tree).Filed :=
  ⟨fun r hr => (h.present r hr).trans_le ha, fun p n hn => (h.held p n hn).trans_le ha, h.root,
    h.listed, h.nodup, h.once⟩

theorem Pulls.size {old : Option NodeId} {a b : Arena} (h : Pulls x old a b) : b.size = a.size := by
  obtain ⟨rfl, -⟩ | ⟨-, -, q, htakes⟩ := h
  · rfl
  · exact htakes.size

theorem Pulls.slotAt {a b : Arena} {old : Option NodeId} (h : Pulls x old a b) (ha : a.Owned)
    (hold : old = some r) (ho : a.OwnedBy r o) (s : Slot) :
    b.slotAt (some o) s = a.slotAt (some o) s := by
  subst hold
  obtain ⟨rfl, -⟩ | ⟨hne, hin, q, htakes⟩ := h
  · rfl
  · refine slotAt_of_content (htakes.content o ?_) s
    rintro rfl
    rcases ReflTransGen.cases_head ((isWithin_iff ha).1 hin) with rfl | ⟨q, hq, hreach⟩
    · exact hne rfl
    · obtain rfl := htakes.owned.unique hq
      exact ha.acyclic r (.head' ho hreach)

/-- A path that sits at its place goes on to sit there while `x` is pulled out. -/
theorem Pulls.sits {a : Arena} (hpulls : Pulls x (t.node p) t.arena a) (ha : t.arena.Owned)
    (hs : t.Sits p r o) : ({ t with arena := a } : Tree).Sits p r o := by
  refine ⟨hs.slot, hs.node, hs.parent, (readSlot_eq _ _ hs.slot).trans ?_⟩
  have hold := hs.holds
  rw [readSlot_eq _ _ hs.slot] at hold
  show a.slotAt (some o) (t.slot p) = _
  rw [hpulls.slotAt ha hs.node (hs.owned ha), hold]

/-! ## building -/

/-- Nodes were made, and took over nothing but nodes among `X`. -/
structure Built (X : NodeId → Prop) (t t' : Tree) : Prop where
  eq : t' = { t with arena := t'.arena }
  owned : t'.arena.WellOwned
  builds : Builds X t.arena t'.arena

namespace Built

variable {X : NodeId → Prop}

theorem path (h : Built X t t') (p : PathId) : t'.path p = t.path p := by
  rw [h.eq]
  rfl

theorem root (h : Built X t t') : t'.root = t.root := by
  rw [h.eq]

theorem sits (h : Built X t t') (hs : t.Sits p n o) : t'.Sits p n o := by
  have hp := h.path p
  refine ⟨(congrArg PathData.slot hp).trans_ne hs.slot, (congrArg PathData.node hp).trans hs.node,
    (congrArg PathData.parent hp).trans hs.parent, ?_⟩
  have hslot : t'.slot p = t.slot p := congrArg PathData.slot hp
  have hold := hs.holds
  rw [readSlot_eq _ _ hs.slot] at hold
  rw [hslot, readSlot_eq _ _ hs.slot, h.builds.slotAt o _ hs.owner_lt, hold]

end Built

/-- A node was built from some of its fields. -/
structure Made (ty : NodeType) (fields : List (String × Value)) (n : NodeId)
    (t t' : Tree) : Prop where
  built : Built (fun c => ∃ x ∈ fields, c ∈ x.2.children) t t'
  index : n.index = t.arena.size
  size : t'.arena.size = t.arena.size + 1
  free : t'.arena.parentOf (some n) = none
  type : t'.arena.type? (some n) = some ty
  children : ∀ c ∈ t'.arena.children (some n), ∃ x ∈ fields, c ∈ x.2.children
  loose : ∀ c ∈ t'.arena.children (some n), t.arena.parentOf (some c) = none
  given : (fields.map (·.1)).Nodup → ∀ x ∈ fields, ∀ c ∈ x.2.children,
    c ∈ t'.arena.children (some n)

theorem ends_made (ha : t.arena.WellOwned) (ty : NodeType) (fields : List (String × Value)) :
    Ends (TreeM.edit (build ty fields) t) (fun n t' => Made ty fields n t t') fun _ _ => True := by
  have howned : Stays Arena.Owned (build ty fields) :=
    (stays_ask _).bind fun values => stays_owned_alloc ty values
  have hshaped : Stays Arena.Shaped (build ty fields) :=
    (stays_ask _).bind fun values => stays_shaped_alloc ty values
  have hwell := stays_iff.1 howned t.arena ha.owned
  have hshape := stays_iff.1 hshaped t.arena ha.shaped
  have hbuild := ends_build t.arena ty fields
  have hall : Ends (build ty fields t.arena) (fun n a => a.WellOwned ∧ ∃ cs, Makes t.arena a n ty cs
      ∧ (∀ c ∈ cs, ∃ x ∈ fields, c ∈ x.2.children)
      ∧ ((fields.map (·.1)).Nodup → ∀ x ∈ fields, ∀ c ∈ x.2.children, c ∈ cs)) fun _ _ => True := by
    cases hr : build ty fields t.arena with
    | error e a => trivial
    | ok n a =>
      rw [hr] at hwell hshape hbuild
      exact ⟨⟨hwell, hshape⟩, hbuild⟩
  refine (ends_edit hall).mono fun n t' ⟨a, ⟨hwell, cs, hmakes, hcs, hgiven⟩, ht'⟩ => ?_
  subst ht'
  have hchildren : a.children (some n) = cs := hmakes.children
  refine ⟨⟨rfl, hwell, (builds_makes hmakes).mono hcs⟩, congrArg NodeId.index hmakes.fresh,
    hmakes.size, hmakes.unowned_new, hmakes.type, fun c hc => hcs c (hchildren ▸ hc),
    fun c hc => (hmakes.unowned c (hchildren ▸ hc)).2, fun hnd x hx c hc => ?_⟩
  show c ∈ a.children (some n)
  rw [hchildren]
  exact hgiven hnd x hx c hc

end ScopedTree.Tree
