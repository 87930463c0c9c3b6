import ScopedTree.Proofs.Arena.Postorder
import ScopedTree.Proofs.Path.Fresh
import ScopedTree.Path.Ancestry

/-!
# Branches below a common ancestor

The ancestries of paths that were just looked up branch off from each other at one path, and the
order of the branches is that in which their nodes are visited.

* `Tree.Branch`             the path below an ancestor, on the way to a path;
* `Tree.Fresh.branch`       below each ancestor there is one;
* `Tree.Fresh.fork`         of two paths one is above the other, or their ways part at a common
  ancestor;
* `Tree.Fresh.mem_ancestry_iff`   to be above is to contain the node;
* `Tree.Serves.comesBefore_iff`   branches come in the order in which their nodes are visited.
-/

namespace ScopedTree.Tree

open Arena Relation

variable {t : Tree} {k : Nat} {p q e c c' : PathId} {a b m m' n o : NodeId} {s s' : Slot}

/-- The path `c` of `m` stands below the path `e` of `o`, and the way up from `p`, the path of `n`,
leads over both. -/
structure Branch (t : Tree) (p : PathId) (n : NodeId) (e : PathId) (o : NodeId) (c : PathId)
    (m : NodeId) :
    Prop where
  owner : t.Fresh e o
  fresh : t.Fresh c m
  serves : ∃ s, t.Serves e o s c m
  within : ReflTransGen t.arena.OwnedBy n m
  ancestry : ∃ l, t.ancestry p = l ++ c :: t.ancestry e

namespace Fresh

theorem self_mem_ancestry (t : Tree) (p : PathId) : p ∈ t.ancestry p := List.mem_cons_self ..

/-- **Below each ancestor of a path there is a branch to it.** -/
theorem branch (ha : t.arena.Owned) (hrooted : t.Rooted k) (hp : t.Fresh p n)
    (he : e ∈ t.ancestry p) :
    e = p ∨ ∃ o c m, t.Branch p n e o c m := by
  induction hp with
  | top hp hr hn =>
    rw [(Fresh.top hp hr hn).ancestry_top ha hrooted hp] at he
    exact .inl (List.mem_singleton.1 he)
  | @child q p o n s hq h ih =>
    have hancestry := hq.ancestry_child ha hrooted h
    rw [hancestry] at he
    rcases List.mem_cons.1 he with rfl | he
    · exact .inl rfl
    · rcases ih he with rfl | ⟨o', c, m, hbranch⟩
      · exact .inr ⟨o, p, n, hq, hq.child h, ⟨s, h⟩, .refl, [], hancestry⟩
      · obtain ⟨l, hl⟩ := hbranch.ancestry
        exact .inr ⟨o', c, m, { hbranch with
          within := .head (h.owned ha) hbranch.within
          ancestry := ⟨p :: l, by rw [hancestry, hl, List.cons_append]⟩ }⟩

/-- What is above a path is fresh, and the way up from it is part of the way up from the path. -/
theorem of_mem_ancestry (ha : t.arena.Owned) (hrooted : t.Rooted k) (hp : t.Fresh p n)
    (he : e ∈ t.ancestry p) :
    ∃ o l, t.Fresh e o ∧ ReflTransGen t.arena.OwnedBy n o ∧ t.ancestry p = l ++ t.ancestry e := by
  rcases hp.branch ha hrooted he with rfl | ⟨o, c, m, hbranch⟩
  · exact ⟨n, [], hp, .refl, rfl⟩
  · obtain ⟨l, hl⟩ := hbranch.ancestry
    obtain ⟨s, hs⟩ := hbranch.serves
    exact ⟨o, l ++ [c], hbranch.owner, hbranch.within.tail (hs.owned ha), by
      rw [hl, List.append_assoc]; rfl⟩

/-- One path is above another exactly if its node contains that of the other. -/
theorem mem_ancestry_iff (ha : t.arena.Owned) (hrooted : t.Rooted k) (hp : t.Fresh p a)
    (hq : t.Fresh q b) :
    q ∈ t.ancestry p ↔ ReflTransGen t.arena.OwnedBy a b := by
  constructor
  · intro hmem
    obtain ⟨o, -, hq', hwithin, -⟩ := hp.of_mem_ancestry ha hrooted hmem
    obtain rfl : b = o := Option.some.inj (hq.node.symm.trans hq'.node)
    exact hwithin
  · intro hwithin
    induction hp with
    | @top p r hp hr hn =>
      rcases ReflTransGen.cases_head hwithin with rfl | ⟨o, hro, hob⟩
      · rw [hq.unique ha (.top hp hr hn)]
        exact self_mem_ancestry t p
      · -- the root would be below itself
        obtain ⟨above, hu⟩ := hq.under hr
        exact absurd (TransGen.head' hro (hob.trans (hu.reaches_root ha))) (ha.acyclic r)
    | @child q' p o n s hq' h ih =>
      rcases ReflTransGen.cases_head hwithin with rfl | ⟨o', ho', hob⟩
      · rw [hq.unique ha (hq'.child h)]
        exact self_mem_ancestry t p
      · obtain rfl := ho'.unique (h.owned ha)
        rw [hq'.ancestry_child ha hrooted h]
        exact List.mem_cons_of_mem _ (ih hob)

theorem branch_unique (ha : t.arena.Owned) (hrooted : t.Rooted k) (hp : t.Fresh p n)
    (he : t.Fresh e o) (h : t.Serves e o s c m) (h' : t.Serves e o s' c' m') (hc : c ∈ t.ancestry p)
    (hc' : c' ∈ t.ancestry p) :
    c = c' := by
  have hwithin := (hp.mem_ancestry_iff ha hrooted (he.child h)).1 hc
  have hwithin' := (hp.mem_ancestry_iff ha hrooted (he.child h')).1 hc'
  obtain rfl := ha.branch_unique (h.owned ha) (h'.owned ha) hwithin hwithin'
  exact (he.child h).unique ha (he.child h')

/-- **Of two paths one is above the other, or their ways part** at a common ancestor. -/
theorem fork (ha : t.arena.Owned) (hrooted : t.Rooted k) (hp : t.Fresh p a) (hq : t.Fresh q b) :
    p ∈ t.ancestry q ∨ q ∈ t.ancestry p
      ∨ ∃ e o c m c' m', t.Branch p a e o c m ∧ t.Branch q b e o c' m' ∧ c ≠ c' := by
  induction hp with
  | @top p r hp hr hn =>
    obtain ⟨above, hu⟩ := hq.under hr
    exact .inl ((hq.mem_ancestry_iff ha hrooted (.top hp hr hn)).2 (hu.reaches_root ha))
  | @child q₀ p o n s hq₀ h ih =>
    have hancestry := hq₀.ancestry_child ha hrooted h
    have hself : t.Branch p n q₀ o p n := ⟨hq₀, hq₀.child h, ⟨s, h⟩, .refl, [], hancestry⟩
    rcases ih with hmem | hmem | ⟨e, o', c, m, c', m', hbranch, hbranch', hne⟩
    · rcases hq.branch ha hrooted hmem with rfl | ⟨o', c', m', hbranch'⟩
      · exact .inr (.inl (hancestry ▸ List.mem_cons_of_mem _ hmem))
      · obtain rfl : o' = o := Option.some.inj (hbranch'.owner.node.symm.trans hq₀.node)
        by_cases hpc : p = c'
        · obtain ⟨l, hl⟩ := hbranch'.ancestry
          exact .inl (by rw [hl, hpc]; exact List.mem_append_right _ (List.mem_cons_self ..))
        · exact .inr (.inr ⟨q₀, o', p, n, c', m', hself, hbranch', hpc⟩)
    · exact .inr (.inl (hancestry ▸ List.mem_cons_of_mem _ hmem))
    · obtain ⟨l, hl⟩ := hbranch.ancestry
      exact .inr (.inr ⟨e, o', c, m, c', m', { hbranch with
        within := .head (h.owned ha) hbranch.within
        ancestry := ⟨p :: l, by rw [hancestry, hl, List.cons_append]⟩ }, hbranch', hne⟩)

end Fresh

namespace Branch

theorem mem_ancestry (h : t.Branch p n e o c m) : c ∈ t.ancestry p := by
  obtain ⟨l, hl⟩ := h.ancestry
  rw [hl]
  exact List.mem_append_right _ (List.mem_cons_self ..)

theorem nodes_ne (ha : t.arena.Owned) (h : t.Branch p a e o c m) (h' : t.Branch q b e o c' m')
    (hne : c ≠ c') :
    m ≠ m' := by
  rintro rfl
  exact hne (h.fresh.unique ha h'.fresh)

/-- **Ways that part have nothing in common** below the ancestor at which they do. -/
theorem common (ha : t.arena.Owned) (hrooted : t.Rooted k) (h : t.Branch p a e o c m)
    (h' : t.Branch q b e o c' m') (hne : c ≠ c') (hp : t.Fresh p a) (hq : t.Fresh q b) {x : PathId}
    (hxp : x ∈ t.ancestry p) (hxq : x ∈ t.ancestry q) : x ∈ t.ancestry e := by
  have hright : Relator.RightUnique t.arena.OwnedBy := fun _ _ _ h h' => h.unique h'
  obtain ⟨s, hs⟩ := h.serves
  obtain ⟨s', hs'⟩ := h'.serves
  obtain ⟨n, -, hx, han, -⟩ := hp.of_mem_ancestry ha hrooted hxp
  have hbn := (hq.mem_ancestry_iff ha hrooted hx).1 hxq
  have hoff : ¬ ReflTransGen t.arena.OwnedBy n m := fun hnm =>
    h.nodes_ne ha h' hne (ha.branch_unique (hs.owned ha) (hs'.owned ha) (hbn.trans hnm) h'.within)
  refine (h.owner.mem_ancestry_iff ha hrooted hx).2 ?_
  rcases ReflTransGen.total_of_right_unique hright h.within han with hmn | hnm
  · rcases ReflTransGen.cases_head hmn with rfl | ⟨o', ho', hon⟩
    · exact absurd .refl hoff
    · rwa [(hs.owned ha).unique ho']
  · exact absurd hnm hoff

end Branch

/-! ## the order of branches -/

theorem Serves.exists_field (h : t.Serves q o s c m) : ∃ x i v, t.arena.get? o = some x
    ∧ s.key?.bind x.type.fieldPosition? = some i ∧ x.values[i]? = some v
    ∧ v.standing s = some m := by
  obtain ⟨x, name, i, v, hx, hkey, hi, hv, hm⟩ :=
    exists_of_slotAt ((readSlot_eq t _ h.inner).symm.trans h.holds)
  exact ⟨x, i, v, hx, by rw [hkey]; exact hi, hv, hm⟩

theorem key_unique {ty : NodeType} {i : Nat} (hi : s.key?.bind ty.fieldPosition? = some i)
    (hj : s'.key?.bind ty.fieldPosition? = some i) : s.key? = s'.key? := by
  obtain ⟨name, hkey, hi⟩ := Option.bind_eq_some_iff.1 hi
  obtain ⟨name', hkey', hj⟩ := Option.bind_eq_some_iff.1 hj
  rw [hkey, hkey', Node.fieldPosition?_inj hi hj]

theorem Serves.comesBefore_eq (h : t.Serves q o s c m) (h' : t.Serves q o s' c' m')
    {x : Node} {i j : Nat} (hx : t.arena.get? o = some x)
    (hi : s.key?.bind x.type.fieldPosition? = some i)
    (hj : s'.key?.bind x.type.fieldPosition? = some j) :
    t.comesBefore c c' = if i = j then positionBefore s.index? s'.index? else decide (i < j) := by
  have htype : t.arena.type? (t.parentNode c) = some x.type := by
    rw [h.parent, type?, look_some, hx]
    rfl
  unfold comesBefore
  simp only [htype, h.slot, h'.slot, hi, hj, beq_iff_eq, Option.some.injEq]
  rfl

theorem entries_of_standing {v : Value} (hs : s.key? = s'.key?) (h : v.standing s = some m)
    (h' : v.standing s' = some m') (hne : m ≠ m') : ∃ items i j, v = .list items ∧ s.index? = some i
      ∧ s'.index? = some j ∧ items[i]? = some (some m) ∧ items[j]? = some (some m') ∧ i ≠ j := by
  cases v with
  | node child =>
    cases s <;> cases s' <;> simp_all [Value.standing]
  | list items =>
    cases s with
    | entry list i =>
      cases s' with
      | entry list' j =>
        have hi : items[i]? = some (some m) := Option.join_eq_some_iff.1 h
        have hj : items[j]? = some (some m') := Option.join_eq_some_iff.1 h'
        refine ⟨items, i, j, rfl, rfl, rfl, hi, hj, ?_⟩
        rintro rfl
        exact hne (Option.some.inj (Option.some.inj (hi.symm.trans hj)))
      | _ => cases h'
    | _ => cases h
  | _ => cases s <;> cases h

theorem Serves.precedes (h : t.Serves q o s c m) (h' : t.Serves q o s' c' m') (hne : m ≠ m')
    (hbefore : t.comesBefore c c' = true) : [m, m'].Sublist (t.arena.children (some o)) := by
  obtain ⟨x, i, v, hx, hi, hv, hm⟩ := h.exists_field
  obtain ⟨x', j, v', hx', hj, hv', hm'⟩ := h'.exists_field
  obtain rfl := Option.some.inj (hx.symm.trans hx')
  rw [h.comesBefore_eq h' hx hi hj] at hbefore
  split at hbefore
  · next hij =>
    subst hij
    obtain rfl := Option.some.inj (hv.symm.trans hv')
    obtain ⟨items, i, j, rfl, hs, hs', hm, hm', -⟩ :=
      entries_of_standing (key_unique hi hj) hm hm' hne
    rw [hs, hs'] at hbefore
    exact precedes_of_entries hx hv hm hm' (of_decide_eq_true hbefore)
  · exact precedes_of_fields hx hv hv' (mem_children_of_standing hm) (mem_children_of_standing hm')
      (of_decide_eq_true hbefore)

theorem Serves.comesBefore_total (h : t.Serves q o s c m) (h' : t.Serves q o s' c' m')
    (hne : m ≠ m') :
    t.comesBefore c c' = true ∨ t.comesBefore c' c = true := by
  obtain ⟨x, i, v, hx, hi, hv, hm⟩ := h.exists_field
  obtain ⟨x', j, v', hx', hj, hv', hm'⟩ := h'.exists_field
  obtain rfl := Option.some.inj (hx.symm.trans hx')
  rw [h.comesBefore_eq h' hx hi hj, h'.comesBefore_eq h hx hj hi]
  by_cases hij : i = j
  · subst hij
    obtain rfl := Option.some.inj (hv.symm.trans hv')
    obtain ⟨items, i, j, rfl, hs, hs', -, -, hij⟩ :=
      entries_of_standing (key_unique hi hj) hm hm' hne
    rw [if_pos rfl, if_pos rfl, hs, hs']
    exact (Nat.lt_or_gt_of_ne hij).imp decide_eq_true decide_eq_true
  · rw [if_neg hij, if_neg (Ne.symm hij)]
    exact (Nat.lt_or_gt_of_ne hij).imp decide_eq_true decide_eq_true

/-- **Branches come in the order in which their nodes are visited.** -/
theorem Serves.comesBefore_iff (ha : t.arena.Owned) (h : t.Serves q o s c m)
    (h' : t.Serves q o s' c' m') (hne : m ≠ m') :
    t.comesBefore c c' = true ↔ [m, m'].Sublist (t.arena.children (some o)) := by
  refine ⟨h.precedes h' hne, fun hsub => ?_⟩
  rcases h.comesBefore_total h' hne with hbefore | hbefore
  · exact hbefore
  · exact absurd (h'.precedes h (Ne.symm hne) hbefore) (pair_asymm (ha.nodup_children o) hsub)

end ScopedTree.Tree
