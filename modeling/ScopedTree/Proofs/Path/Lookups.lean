import ScopedTree.Proofs.Constant.Memos
import ScopedTree.Proofs.Path.Order

/-!
# Looking up in coherent trees

In a coherent tree the paths of nodes are as they would be looked up. To look up more of them
changes neither where the others stand nor the types that are noted on them.

* `Tree.Coherent.rooted`, `Tree.Coherent.fresh`   the paths are as they would be looked up;
* `Tree.Uncovers`                   more paths are known, and nothing else changed;
* `Tree.ends_getOrCreatePath_uncovers`, `Tree.uncovers_follow`   this is all that looking up does;
* `Tree.ends_follow_child`, `Tree.ends_follow_entry`   the path of a child, or of an entry.
-/

namespace ScopedTree.Tree

open Arena

variable {t t' t'' : Tree} {r n m : NodeId} {p q : PathId} {o : Node} {key : String} {slot : Slot}

/-! ## the paths there are -/

theorem Coherent.slot_root_iff (ht : t.Coherent r) (hp : p.index < t.paths.size) :
    t.slot p = .root ↔ t.parentPath p = none := by
  cases hq : t.parentPath p with
  | none => exact iff_of_true (ht.root_of_parentPath hp hq).2.1 rfl
  | some q =>
    have ha := ht.anchored p hp
    unfold Anchored at ha
    rw [show (t.path p).parentPath = some q from hq] at ha
    exact iff_of_false ha.2.1 (Option.some_ne_none q)

theorem Coherent.rooted (ht : t.Coherent r) : t.Rooted 0 where
  size := Nat.zero_le _
  top p hp := by
    obtain ⟨hlt, hq⟩ := ht.rootPath p hp
    obtain ⟨-, hs, -, hn⟩ := ht.root_of_parentPath hlt hq
    exact ⟨hlt, hs, hn.trans ht.root.symm⟩
  crown p hp := (ht.rootPath p hp).2
  only p hlt hs := (ht.root_of_parentPath hlt ((ht.slot_root_iff hlt).1 hs)).1
  below p hlt hs := fun hq => hs ((ht.slot_root_iff hlt).2 hq)
  listed m p hp := by
    cases m with
    | none => cases hp
    | some m =>
      obtain ⟨hlt, hm⟩ := ht.cached m p hp
      refine ⟨hlt, fun hs => ?_⟩
      have hnone := (ht.root_of_parentPath hlt ((ht.slot_root_iff hlt).1 hs)).2.2.1
      cases hm.symm.trans hnone

theorem Coherent.serves (ht : t.Coherent r) (hq : t.parentPath p = some q)
    (hn : t.node p = some n) :
    ∃ m, t.Serves q m (t.slot p) p n := by
  have hlt := lt_of_node hn
  have ha := ht.anchored p hlt
  unfold Anchored at ha
  rw [show (t.path p).parentPath = some q from hq] at ha
  obtain ⟨-, hs, hc, ⟨m, hqm, hpm⟩, hread⟩ := ha
  rw [hpm] at hc hread
  refine ⟨m, hqm, hs, hread.trans hn, ?_, hq, hpm, rfl, (ht.inUse p).2⟩
  have hserves : (!(t.path p).removed && t.node p == some n) = true := by simp [(ht.inUse p).1, hn]
  unfold Answers
  cases hfind : (t.cachedPaths (some m)).find? fun q => !(t.path q).removed
    && t.node q == some n with
  | none => exact absurd hserves (List.find?_eq_none.1 hfind p hc)
  | some p' =>
    have hp' := List.find?_some hfind
    rw [Bool.and_eq_true, beq_iff_eq] at hp'
    rw [ht.unique p' p n hp'.2 hn]

/-- The path of a node is fresh. -/
theorem Coherent.fresh (ht : t.Coherent r) : ∀ {p : PathId} {n : NodeId}, t.node p = some n →
    t.Fresh p n := by
  have hall : ∀ (i : Nat) (p : PathId), p.index = i → ∀ n, t.node p = some n → t.Fresh p n := by
    intro i
    induction i using Nat.strongRecOn with
    | ind i ih =>
      rintro p rfl n hn
      have hlt := lt_of_node hn
      cases hq : t.parentPath p with
      | none =>
        obtain ⟨hp, -, -, hr⟩ := ht.root_of_parentPath hlt hq
        obtain rfl := Option.some.inj (hn.symm.trans hr)
        exact .top hp ht.root hn
      | some q =>
        obtain ⟨m, hserves⟩ := ht.serves hq hn
        have hqp := (ht.parent_of_parentPath hlt hq).1
        exact .child (ih q.index hqp q rfl m hserves.owner) hserves
  exact fun {p n} hn => hall _ p rfl n hn

/-! ## looking up -/

/-- More paths are known, the others stand where they stood, and nothing else changed. -/
structure Uncovers (t t' : Tree) (r : NodeId) : Prop extends t.Extends t' r where
  slot : ∀ p, p.index < t.paths.size → t'.slot p = t.slot p
  inferred : ∀ p, (t'.path p).inferred = (t.path p).inferred

theorem Uncovers.refl (ht : t.Coherent r) : t.Uncovers t r :=
  ⟨.refl ht, fun _ _ => rfl, fun _ => rfl⟩

theorem Uncovers.trans (h : t.Uncovers t' r) (h' : t'.Uncovers t'' r) : t.Uncovers t'' r :=
  ⟨h.toExtends.trans h'.toExtends, fun p hp => (h'.slot p (hp.trans_le h.grows.size)).trans
    (h.slot p hp),
    fun p => (h'.inferred p).trans (h.inferred p)⟩

theorem Coherent.slot_of_servesSlot (ht : t.Coherent r) (hs : slot ≠ .root)
    (hc : p ∈ t.cachedPaths (some m)) (h : t.servesSlot slot (t.readSlot (some m) slot) p = true) :
    t.slot p = slot := by
  obtain ⟨hlt, hm⟩ := ht.cached m p hc
  have hinner : t.slot p ≠ .root := (ht.rooted.listed (some m) p hc).2
  unfold servesSlot at h
  cases hn : t.readSlot (some m) slot with
  | none =>
    rw [hn] at h
    have h : (t.path p).node = none ∧ (t.path p).slot = slot := by simpa [(ht.inUse p).1] using h
    exact h.2
  | some n =>
    rw [hn] at h
    have hp : (t.path p).node = some n := by simpa [(ht.inUse p).1] using h
    cases hq : t.parentPath p with
    | none => exact absurd ((ht.slot_root_iff hlt).2 hq) hinner
    | some q =>
      obtain ⟨m', hserves⟩ := ht.serves hq hp
      obtain rfl := Option.some.inj (hserves.parent.symm.trans hm)
      exact (place_unique ht.arena.owned hinner hs hserves.holds hn).2

/-- The path of a place below a path. -/
theorem ends_getOrCreatePath_uncovers (ht : t.Coherent r) (hq : t.node q = some m)
    (hs : slot ≠ .root) :
    Ends (getOrCreatePath (some q) (some m) slot t)
      (fun p t' => t.Uncovers t' r ∧ t'.Below q p (t.readSlot (some m) slot) ∧ t'.slot p = slot)
      fun _ _ => False := by
  have hmarks : Ends (getOrCreatePath (some q) (some m) slot t) (fun p t' =>
      (∀ p', p'.index < t.paths.size → t'.slot p' = t.slot p')
        ∧ (∀ p', (t'.path p').inferred = (t.path p').inferred)
        ∧ t'.slot p = slot) fun _ _ => False := by
    unfold getOrCreatePath
    rw [if_neg (by simp), ends_bind, ends_get]
    cases hf : (t.cachedPaths (some m)).find? (t.servesSlot slot (t.readSlot (some m) slot)) with
    | some p =>
      simp only [ends_bind, ends_modify, ends_pure]
      have hc := List.mem_of_find?_eq_some hf
      have hslot := ht.slot_of_servesSlot hs hc (List.find?_some hf)
      have hpath {p' : PathId} (hp' : p' = p) : p'.index < t.paths.size :=
        hp' ▸ (ht.cached m p hc).1
      refine ⟨fun p' _ => ?_, fun p' => t.path_updatePath_congr p p' _ PathData.inferred
        fun _ => rfl, ?_⟩
      · unfold Tree.slot
        rw [path_updatePath]
        split
        · next hp' => rw [hp'.1]; exact hslot.symm
        · rfl
      · unfold Tree.slot
        rw [path_updatePath_self _ _ (hpath rfl)]
    | none =>
      simp only [allocPath, ends_bind, ends_modifyGet, ends_modify, ends_pure]
      have hnew (p' : PathId) := t.path_withPath
        { node := t.readSlot (some m) slot, parentPath := some q, parent := some m, slot } p'
      refine ⟨fun p' hp' => ?_, fun p' => ?_, ?_⟩
      · exact congrArg PathData.slot (t.path_withPath_of_lt _ hp')
      · refine (congrArg PathData.inferred (hnew p')).trans ?_
        split
        · next hp' =>
          rw [hp', path_of_size_le (p := ⟨t.paths.size⟩) (Nat.le_refl t.paths.size)]
        · rfl
      · exact (congrArg PathData.slot (hnew ⟨t.paths.size⟩)).trans (by rw [if_pos rfl])
  refine ((ends_getOrCreatePath ht hq slot hs).and hmarks).imp ?_ fun _ _ h => h.1
  rintro p t' ⟨⟨hext, hpar, hlt, hn⟩, hslot, hinferred, hp⟩
  exact ⟨⟨hext, hslot, hinferred⟩, ⟨hlt, hpar, hn⟩, hp⟩

theorem uncovers_followParts : ∀ (parts : List String) (t : Tree) (p : PathId), t.Coherent r →
    t.Uncovers (final (followParts p parts t)) r
  | [], t, _, ht => Uncovers.refl ht
  | part :: rest, t, p, ht => by
    have hstep (slot : Slot) (hs : slot ≠ .root) (l : List String) (hl : l.length ≤ rest.length)
        (hn : ∃ n, t.node p = some n) : t.Uncovers
          (final ((getOrCreatePath (some p) (t.node p) slot >>= fun q => followParts q l) t))
          r := by
      obtain ⟨n, hn⟩ := hn
      rw [hn]
      obtain ⟨q, t', hrun, huncovers, -⟩ := (ends_getOrCreatePath_uncovers ht hn hs).exists_ok
      rw [run_bind_of_ok hrun]
      exact huncovers.trans (uncovers_followParts l t' q huncovers.coherent)
    have hfield := fieldOf_same t p part
    unfold followParts
    cases hrun : fieldOf p part t with
    | error e t' =>
      rw [run_bind_of_error hrun]
      have ht' : t' = t := hfield.of_error hrun
      rw [ht']
      exact Uncovers.refl ht
    | ok x t' =>
      rw [run_bind_of_ok hrun]
      obtain ⟨ht', hn, -⟩ := hfield.of_ok hrun
      obtain ⟨ty, f⟩ := x
      rw [ht']
      dsimp only
      rw [run_get_bind]
      cases f.kind with
      | node => exact hstep _ (by simp) rest (Nat.le_refl _) hn
      | optNode => exact hstep _ (by simp) rest (Nat.le_refl _) hn
      | list =>
        cases rest with
        | nil => exact Uncovers.refl ht
        | cons index rest =>
          cases hi : readIndex? index with
          | some i =>
            simp only [hi]
            exact hstep _ (by simp) rest (by simp) hn
          | none =>
            simp only [hi]
            exact Uncovers.refl ht
      | _ => exact Uncovers.refl ht
termination_by parts => parts.length
decreasing_by simp; omega

theorem uncovers_follow (ht : t.Coherent r) (p : PathId) (key : String) :
    t.Uncovers (final (follow p key t)) r := by
  unfold follow
  rw [run_bind_of_ok (resync_eq ht p)]
  exact uncovers_followParts _ t p ht

theorem run_fieldOf (ho : t.arena.get? n = some o) (hp : t.node p = some n) {f : Field}
    (hf : o.type.field? key = some f) : fieldOf p key t = .ok (o.type, f) t := by
  unfold fieldOf nodeType? type?
  rw [run_get_bind, hp, look_some, ho]
  dsimp only [Option.map_some]
  rw [hf]
  rfl

/-- The path of a child. -/
theorem ends_follow_child (ht : t.Coherent r) (ho : t.arena.get? n = some o)
    (hp : t.node p = some n) (hkey : o.type.hasChild key = true) (hdot : '.' ∉ key.toList) :
    Ends (follow p key t)
      (fun q t' => t.Uncovers t' r ∧ t'.Below p q (t.arena.child? (some n) key)
        ∧ t'.slot q = .field key)
      fun _ _ => False := by
  obtain ⟨f, hf, hkind⟩ := (Option.any_eq_true _ _).1 hkey
  have hrun : follow p key t = getOrCreatePath (some p) (some n) (.field key) t := by
    unfold follow
    rw [run_bind_of_ok (resync_eq ht p), parts_of_not_mem hdot, followParts,
      run_bind_of_ok (run_fieldOf ho hp hf)]
    dsimp only
    rw [run_get_bind, hp, field?_name hf]
    cases hk : f.kind with
    | node => exact congrFun (bind_pure _) t
    | optNode => exact congrFun (bind_pure _) t
    | _ => simp [hk] at hkind
  rw [hrun]
  exact ends_getOrCreatePath_uncovers ht hp (by simp)

/-- The path of an entry. -/
theorem ends_follow_entry (ht : t.Coherent r) (ho : t.arena.get? n = some o)
    (hp : t.node p = some n) (hkey : o.type.hasList key = true) (hdot : '.' ∉ key.toList) {i : Nat}
    (hi : i < UInt64.size) :
    Ends (follow p (key ++ "." ++ toString i) t)
      (fun q t' => t.Uncovers t' r ∧ t'.Below p q (t.arena.items (some n) key)[i]?.join
        ∧ t'.slot q = .entry key i)
      fun _ _ => False := by
  obtain ⟨f, hf, hkind⟩ := (Option.any_eq_true _ _).1 hkey
  have hparts : parts '.' (key ++ "." ++ toString i) = [key, toString i] := by
    have hdots : ∀ text ∈ [key, toString i], '.' ∉ text.toList :=
      List.forall_mem_cons.2 ⟨hdot, List.forall_mem_singleton.2 (not_mem_toString i)⟩
    have h := parts_intercalate (c := '.') (show ".".toList = ['.'] from rfl)
      (List.cons_ne_nil _ _) hdots
    rwa [String.intercalate_cons_cons, String.intercalate_singleton] at h
  have hrun : follow p (key ++ "." ++ toString i) t = getOrCreatePath (some p) (some n)
      (.entry key i) t := by
    unfold follow
    rw [run_bind_of_ok (resync_eq ht p), hparts, followParts, run_bind_of_ok (run_fieldOf ho hp hf)]
    dsimp only
    rw [run_get_bind, hp, field?_name hf, beq_iff_eq.1 hkind, readIndex?_toString hi]
    exact congrFun (bind_pure _) t
  rw [hrun]
  exact ends_getOrCreatePath_uncovers ht hp (by simp)

end ScopedTree.Tree
