import ScopedTree.Path.Relatives
import ScopedTree.Proofs.Path.Ground

/-!
# Following keys

From a path to the paths of its children, by the name of a field.

* `Tree.ends_follow`    the path of the child in a slot;
* `Tree.ends_followParts`   looking for a path makes paths, whatever the keys;
* `Tree.entries_of`, `Tree.ends_entries`   the paths of the entries of a list;
* `Tree.Below`          a path made for a place below another.
-/

namespace ScopedTree.Tree

open Arena

variable {t t' : Tree} {r n m : NodeId} {p q : PathId} {o : Node} {key : String}
  {above : List NodeId}

/-- `q` stands below `p` and holds `node`. -/
structure Below (t : Tree) (p q : PathId) (node : Option NodeId) : Prop where
  lt : q.index < t.paths.size
  parentPath : t.parentPath q = some p
  node : t.node q = node

theorem Below.grows {node : Option NodeId} (h : t.Below p q node) (hg : t.Grows t') :
    t'.Below p q node :=
  ⟨h.lt.trans_le hg.size, (hg.parentPath q h.lt).trans h.parentPath, (hg.node q h.lt).trans h.node⟩

theorem field?_name {ty : NodeType} {f : Field} (h : ty.field? key = some f) : f.name = key := by
  simpa using List.find?_some h

theorem mem_fields_of_field? {ty : NodeType} {f : Field} (h : ty.field? key = some f) :
    f ∈ ty.fields := List.mem_of_find?_eq_some h

theorem ends_fieldOf (ho : t.arena.get? n = some o) (hp : t.node p = some n) :
    Ends (fieldOf p key t) (fun x t' => x.1 = o.type ∧ o.type.field? key = some x.2 ∧ t' = t)
      fun e _ => (∃ err, e = .shape err) ∧ o.type.field? key = none := by
  have hty : t.nodeType? p = some o.type := by
    unfold nodeType? type?
    rw [hp, look_some, ho]
    rfl
  unfold fieldOf
  rw [ends_bind, ends_get, hty]
  cases hf : o.type.field? key with
  | none =>
    simp only [hf, ends_throw]
    exact ⟨⟨_, rfl⟩, trivial⟩
  | some f =>
    simp only [hf, ends_pure]
    exact ⟨trivial, trivial, trivial⟩

/-- The path of the child in a slot. -/
theorem ends_follow (ht : t.Coherent r) (ho : t.arena.get? n = some o) (hp : t.node p = some n)
    (hkey : '.' ∉ key.toList) :
    Ends (follow p key t)
      (fun q t' => t.Extends t' r ∧ t'.Below p q (t.arena.child? (some n) key))
      fun e _ => (∃ err, e = .shape err) ∧
        ∀ f, o.type.field? key = some f → f.kind ≠ .node ∧ f.kind ≠ .optNode := by
  unfold follow
  rw [run_bind_of_ok (resync_eq ht p), parts_of_not_mem hkey, followParts, ends_bind]
  refine (ends_fieldOf ho hp).imp ?_ ?_
  · rintro ⟨ty, f⟩ t' ⟨rfl, hf, rfl⟩
    have hname := field?_name hf
    rw [ends_bind, ends_get]
    simp only [hp]
    have hchild : Ends ((getOrCreatePath (some p) (some n) (.field key) >>=
          fun q => followParts q []) t')
        (fun q t'' => t'.Extends t'' r ∧ t''.Below p q (t'.arena.child? (some n) key))
        fun e _ => (∃ err, e = .shape err) ∧
          ∀ f, o.type.field? key = some f → f.kind ≠ .node ∧ f.kind ≠ .optNode := by
      rw [ends_bind]
      exact (ends_getOrCreatePath ht hp _ (by simp)).imp
        (fun q t'' ⟨hext, hpar, hlt, hq⟩ => ⟨hext, hlt, hpar, hq⟩) fun _ _ h => h.elim
    cases hk : f.kind with
    | node =>
      rw [hname]
      exact hchild
    | optNode =>
      rw [hname]
      exact hchild
    | _ =>
      refine ⟨⟨_, rfl⟩, fun f' hf' => ?_⟩
      obtain rfl := Option.some.inj (hf.symm.trans hf')
      simp [hk]
  · rintro e t' ⟨he, hf⟩
    exact ⟨he, fun f hf' => by simp [hf] at hf'⟩

theorem fieldOf_same (t : Tree) (p : PathId) (key : String) :
    Ends (fieldOf p key t) (fun x t' => t' = t ∧ (∃ n, t.node p = some n) ∧ x.2.name = key)
      fun _ t' => t' = t := by
  unfold fieldOf
  rw [run_get_bind]
  cases hty : t.nodeType? p with
  | none => exact rfl
  | some ty =>
    have hn : ∃ n, t.node p = some n := by
      cases hn : t.node p with
      | some n => exact ⟨n, rfl⟩
      | none =>
        unfold nodeType? at hty
        rw [hn] at hty
        cases hty
    cases hf : ty.field? key with
    | none =>
      simp only [hf]
      exact rfl
    | some f =>
      simp only [hf]
      exact ⟨rfl, hn, field?_name hf⟩

/-- To look for a path is to make paths, also where it fails. -/
theorem ends_followParts : ∀ (parts : List String) (t : Tree) (p : PathId), t.Coherent r →
    Ends (followParts p parts t) (fun _ t' => t.Extends t' r) fun _ t' => t.Extends t' r
  | [], t, _, ht => Extends.refl ht
  | part :: rest, t, p, ht => by
    have hstep (slot : Slot) (hs : slot ≠ .root) (l : List String) (hl : l.length ≤ rest.length)
        (hn : ∃ n, t.node p = some n) :
        Ends ((getOrCreatePath (some p) (t.node p) slot >>= fun q => followParts q l) t)
          (fun _ t' => t.Extends t' r) fun _ t' => t.Extends t' r := by
      obtain ⟨n, hn⟩ := hn
      rw [hn]
      refine ends_bind.2 ((ends_getOrCreatePath ht hn slot hs).imp ?_ fun _ _ h => h.elim)
      rintro q t' ⟨hext, _⟩
      exact (ends_followParts l t' q hext.coherent).imp (fun _ _ h => hext.trans h)
        fun _ _ h => hext.trans h
    unfold followParts
    refine ends_bind.2 ((fieldOf_same t p part).imp ?_ ?_)
    · rintro ⟨ty, f⟩ t' ⟨ht', hn, -⟩
      rw [ht']
      dsimp only
      rw [ends_bind, ends_get]
      cases f.kind with
      | node => exact hstep _ (by simp) rest (Nat.le_refl _) hn
      | optNode => exact hstep _ (by simp) rest (Nat.le_refl _) hn
      | list =>
        cases rest with
        | nil => exact Extends.refl ht
        | cons index rest =>
          cases hi : readIndex? index with
          | some i =>
            simp only [hi]
            exact hstep _ (by simp) rest (by simp) hn
          | none =>
            simp only [hi]
            exact Extends.refl ht
      | _ => exact Extends.refl ht
    · rintro e t' ht'
      rw [ht']
      exact Extends.refl ht
termination_by parts => parts.length
decreasing_by simp; omega

theorem extends_follow (ht : t.Coherent r) (p : PathId) (key : String) :
    t.Extends (final (follow p key t)) r := by
  have hparts := ends_followParts (parts '.' key) t p ht
  unfold follow
  rw [run_bind_of_ok (resync_eq ht p)]
  cases hrun : followParts p (parts '.' key) t with
  | ok q t' => exact hparts.of_ok hrun
  | error e t' => exact hparts.of_error hrun

theorem splitKey_eq_none (hkey : '.' ∉ key.toList) : splitKey key = none := by
  unfold splitKey
  rw [parts_of_not_mem hkey]
  rfl

/-- **The paths of the entries of a list**, when the path of a place is found with the property `P`
of the path and what it holds. -/
theorem entries_of {G : Ground r} {P : Tree → PathId → Option NodeId → Prop} (ht : G.Firm t)
    (hp : G.Place t p n above) (ho : t.arena.get? n = some o) (hkey : '.' ∉ key.toList)
    (hP : ∀ t t' q node, P t q node → G.Grows t t' → P t' q node)
    (hmake : ∀ i t', G.Step t t' → Ends (getOrCreatePath (some p) (some n) (.entry key i) t')
      (fun q t'' => G.Step t' t'' ∧ P t'' q (t'.readSlot (some n) (.entry key i)))
      fun _ _ => False) :
    Ends (entries p key t)
      (fun qs t' => G.Step t t'
        ∧ List.Forall₂ (fun item q => P t' q item) (t.arena.items (some n) key) qs)
      fun e _ => (∃ err, e = .shape err) ∧ ∀ f, o.type.field? key = some f → f.kind ≠ .list := by
  have hpn := G.node hp
  unfold entries
  rw [run_bind_of_ok (G.resync ht hp), splitKey_eq_none hkey]
  simp only [pure_bind]
  rw [ends_bind]
  refine (ends_fieldOf ho hpn).imp ?_ ?_
  · rintro ⟨ty, f⟩ t' ⟨rfl, hf, rfl⟩
    have hname := field?_name hf
    by_cases hk : f.kind = .list
    · obtain ⟨v, hv, hfit⟩ := ((G.arena ht).shaped n o ho).value?_of_mem (mem_fields_of_field? hf)
      obtain ⟨items, rfl⟩ : ∃ items, v = .list items := by
        rw [hk] at hfit
        cases v <;> simp_all [Value.fits]
      have hitems : t'.arena.items (some n) key = items := by
        rw [hname] at hv
        simp [Arena.items, ho, Node.items, hv]
      have hlist : t'.arena.list (some n) key = .ok items := by
        rw [hname] at hv
        have hnode : t'.arena.node (some n) = .ok o := node_ok.2 ho
        simp [Arena.list, hnode, bind, Except.bind, Node.list, Node.field, hv]
      have hread : ∀ i, t'.readSlot (some n) (.entry key i) = items[i]?.join := by
        intro i
        rw [← hitems]
        rfl
      simp only [hk, bne_self_eq_false, Bool.false_eq_true, if_false]
      rw [ends_bind, ends_get, hpn, ends_bind, ends_get, hname, hlist,
        show (TreeM.ofShape (.ok items) : TreeM _) = pure items from rfl, pure_bind, hitems]
      refine (G.ends_mapM (P := fun i q t'' => P t'' q items[i]?.join)
        (fun i q t₁ t₂ hq hg => hP t₁ t₂ q _ hq hg) _ t' ht fun i _ t'' ht'' => ?_).mono ?_
      · have hsame : t''.readSlot (some n) (.entry key i) = items[i]?.join := by
          rw [← hread i]
          unfold readSlot
          rw [G.sameArena ht''.grows]
        refine (hmake i t'' ht'').imp ?_ fun _ _ h => h.elim
        rintro q t₃ ⟨hstep, hq⟩
        exact ⟨hstep, hsame ▸ hq⟩
      · rintro qs t'' ⟨hstep, hqs⟩
        refine ⟨hstep, ?_⟩
        have hall : (List.range items.length).map (fun i => items[i]?.join) = items := by
          refine List.ext_getElem (by simp) fun i hi hi' => ?_
          simp [List.getElem?_eq_getElem hi']
        rw [← hall, List.forall₂_map_left_iff]
        exact hqs
    · simp only [bne_iff_ne, ne_eq, hk, not_false_eq_true, if_true]
      refine ⟨⟨_, rfl⟩, fun f' hf' => ?_⟩
      obtain rfl := Option.some.inj (hf.symm.trans hf')
      exact hk
  · rintro e t' ⟨he, hf⟩
    exact ⟨he, fun f hf' => by simp [hf] at hf'⟩

theorem entries_ground {G : Ground r} (ht : G.Firm t) (hp : G.Place t p n above)
    (ho : t.arena.get? n = some o) (hkey : '.' ∉ key.toList) :
    Ends (entries p key t)
      (fun qs t' => G.Step t t' ∧ List.Forall₂ (fun item q => q.index < t'.paths.size
        ∧ t'.node q = item) (t.arena.items (some n) key) qs)
      fun e _ => (∃ err, e = .shape err) ∧ ∀ f, o.type.field? key = some f → f.kind ≠ .list := by
  refine entries_of ht hp ho hkey (P := fun t q item => q.index < t.paths.size ∧ t.node q = item)
    (fun t t' q item h hg => ⟨h.1.trans_le (G.size hg), (G.sameNode hg h.1).trans h.2⟩)
    fun i t' h => ?_
  exact (G.ends_child h.firm (G.place h.grows hp) (by simp)).mono
    fun q t'' ⟨hstep, hlt, hq, _⟩ => ⟨hstep, hlt, hq⟩

/-- In a coherent tree they stand below the path of the list. -/
theorem ends_entries (ht : t.Coherent r) (ho : t.arena.get? n = some o) (hp : t.node p = some n)
    (hkey : '.' ∉ key.toList) :
    Ends (entries p key t)
      (fun qs t' => t.Extends t' r
        ∧ List.Forall₂ (fun item q => t'.Below p q item) (t.arena.items (some n) key) qs)
      fun e _ => (∃ err, e = .shape err) ∧ ∀ f, o.type.field? key = some f → f.kind ≠ .list := by
  obtain ⟨above, hplace⟩ := ht.exists_place hp
  refine (entries_of (G := .coherent r) (P := fun t q item => t.Below p q item) ht hplace ho hkey
    (fun _ _ _ _ h hg => h.grows hg) fun i t' h => ?_).imp (fun _ _ h => ⟨h.1.extends, h.2⟩)
      fun _ _ h => h
  exact (ends_getOrCreatePath h.firm (hplace.grows h.grows).node (.entry key i) (by simp)).mono
    fun q t'' ⟨hext, hpar, hlt, hq⟩ =>
      ⟨⟨hext.coherent, hext.grows, hext.names, hext.control⟩, hlt, hpar, hq⟩

end ScopedTree.Tree
