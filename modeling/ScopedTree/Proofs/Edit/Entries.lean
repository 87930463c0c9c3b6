import ScopedTree.Proofs.Edit.Slots
import ScopedTree.Proofs.Edit.Put

/-!
# Nodes put into lists

Entries of a list move along when others come or go, and their paths with them.

* `Slot.shift`              where an entry stands once the list moved along;
* `Tree.Shifted`            what moving the paths of a list does;
* `Tree.slotAt_inserted`, `Tree.slotAt_erased`   what the places of the list hold then;
* `Tree.Crawls.entered`     what crawls keep is kept when new entries are registered and queued.
-/

namespace ScopedTree

/-- The place moved along with the entries of a list. -/
def Slot.shift (list : String) (start : Nat) (move : Nat → Nat) : Slot → Slot
  | .entry l i => if l = list ∧ start ≤ i then .entry l (move i) else .entry l i
  | s => s

namespace Tree

open Arena Relation

variable {t t' t'' : Tree} {p q : PathId} {x n m o r : NodeId} {owner : Option NodeId}
  {list : String} {start : Nat} {move : Nat → Nat} {except : Option PathId}

/-! ## paths that move -/

def moved (list : String) (start : Nat) (move : Nat → Nat) (d : PathData) : PathData :=
  match d.slot with
  | .entry l i =>
    if !d.removed && l == list && start ≤ i then { d with slot := .entry l (move i) } else d
  | _ => d

theorem moved_same (list : String) (start : Nat) (move : Nat → Nat) (d : PathData) :
    ((moved list start move d).node, (moved list start move d).parent,
      (moved list start move d).removed) = (d.node, d.parent, d.removed) := by
  unfold moved
  split
  · split <;> rfl
  · rfl

theorem slot_moved_of_live (list : String) (start : Nat) (move : Nat → Nat) {d : PathData}
    (hd : d.removed = false) : (moved list start move d).slot = d.slot.shift list start move := by
  unfold moved Slot.shift
  cases hs : d.slot with
  | root => simp [hs]
  | field name => simp [hs]
  | entry l i =>
    by_cases hl : l = list <;> by_cases hi : start ≤ i <;> simp [hl, hi, hd, hs]

theorem moved_of_removed (list : String) (start : Nat) (move : Nat → Nat) {d : PathData}
    (hd : d.removed = true) : moved list start move d = d := by
  unfold moved
  split
  · rw [hd]
    rfl
  · rfl

theorem slot_moved (list : String) (start : Nat) (move : Nat → Nat) (d : PathData) :
    (moved list start move d).slot = .root ↔ d.slot = .root := by
  unfold moved
  split
  · next l i hs =>
    split
    · simp [hs]
    · exact Iff.rfl
  · exact Iff.rfl

/-- The paths listed under `owner` moved along, all but one. -/
structure Shifted (owner : Option NodeId) (f : PathData → PathData) (except : Option PathId)
    (t t' : Tree) : Prop where
  arena : t'.arena = t.arena
  root : t'.root = t.root
  rootPath : t'.rootPath = t.rootPath
  lists : t'.childPaths = t.childPaths
  size : t'.paths.size = t.paths.size
  path : ∀ q, t'.path q = if q ∈ t.cachedPaths owner ∧ some q ≠ except then f (t.path q)
    else t.path q

theorem shifted_foldl {f : PathData → PathData} (hf : f {} = {}) (except : Option PathId) :
    ∀ (l : List PathId) (t : Tree), l.Nodup →
      let t' := l.foldl (fun t p => if some p == except then t else t.updatePath p f) t
      t'.paths.size = t.paths.size ∧ t'.arena = t.arena ∧ t'.root = t.root
      ∧ t'.rootPath = t.rootPath
        ∧ t'.childPaths = t.childPaths
        ∧ ∀ q, t'.path q = if q ∈ l ∧ some q ≠ except then f (t.path q) else t.path q
  | [], t, _ => ⟨rfl, rfl, rfl, rfl, rfl, fun q => by simp⟩
  | p :: l, t, hl => by
    obtain ⟨hp, hl⟩ := List.nodup_cons.1 hl
    have hself (q : PathId) : (t.updatePath p f).path q = if q = p then f (t.path p)
        else t.path q := by
      rw [path_updatePath]
      by_cases hq : q = p
      · subst hq
        by_cases hlt : q.index < t.paths.size
        · simp [hlt]
        · rw [if_neg fun h => hlt h.2, path_of_size_le (Nat.le_of_not_lt hlt), hf, if_pos rfl]
      · rw [if_neg fun h => hq h.1, if_neg hq]
    by_cases hexcept : some p = except
    · have ih := shifted_foldl hf except l t hl
      simp only [List.foldl_cons, hexcept, beq_self_eq_true, if_true]
      refine ⟨ih.1, ih.2.1, ih.2.2.1, ih.2.2.2.1, ih.2.2.2.2.1, fun q => ?_⟩
      rw [ih.2.2.2.2.2]
      by_cases hq : q = p
      · subst hq
        simp [hp, hexcept]
      · simp [hq]
    · have ih := shifted_foldl hf except l (t.updatePath p f) hl
      simp only [List.foldl_cons, beq_eq_false_iff_ne.2 hexcept, Bool.false_eq_true, if_false]
      refine ⟨ih.1.trans (size_updatePath ..), ih.2.1, ih.2.2.1, ih.2.2.2.1, ih.2.2.2.2.1,
        fun q => ?_⟩
      rw [ih.2.2.2.2.2, hself]
      by_cases hq : q = p
      · subst hq
        simp [hp, hexcept]
      · simp [hq]

theorem ends_shiftEntries (hf : t.Filed) (owner : Option NodeId) (list : String) (start : Nat)
    (move : Nat → Nat) (except : Option PathId) :
    Ends (shiftEntries owner list start move except t)
      (fun _ t' => Shifted owner (moved list start move) except t t') fun _ _ => True := by
  unfold shiftEntries
  rw [ends_modify]
  obtain ⟨hsize, harena, hroot, hrootPath, hlists, hpath⟩ :=
    shifted_foldl (f := moved list start move) rfl except (t.cachedPaths owner) t (hf.nodup owner)
  exact ⟨harena, hroot, hrootPath, hlists, hsize, hpath⟩

namespace Shifted

variable (h : Shifted owner (moved list start move) except t t')

include h

theorem place (q : PathId) : t'.node q = t.node q ∧ t'.parentNode q = t.parentNode q
    ∧ (t'.path q).removed = (t.path q).removed ∧ (t'.slot q = .root ↔ t.slot q = .root) := by
  have hsame := moved_same list start move (t.path q)
  unfold Tree.node Tree.parentNode Tree.slot
  rw [h.path]
  split
  · exact ⟨congrArg (·.1) hsame, congrArg (·.2.1) hsame, congrArg (·.2.2) hsame, slot_moved ..⟩
  · exact ⟨rfl, rfl, rfl, Iff.rfl⟩

theorem slot_along (hq : q ∈ t.cachedPaths owner) (hne : some q ≠ except)
    (hr : (t.path q).removed = false) :
    t'.slot q = (t.slot q).shift list start move := by
  unfold Tree.slot
  rw [h.path, if_pos ⟨hq, hne⟩]
  exact slot_moved_of_live list start move hr

theorem slot_same (hq : q ∈ t.cachedPaths owner → (t.path q).removed = true) :
    t'.slot q = t.slot q := by
  unfold Tree.slot
  rw [h.path]
  split
  · next hmem => exact congrArg PathData.slot (moved_of_removed list start move (hq hmem.1))
  · rfl

theorem cachedPaths (m : Option NodeId) : t'.cachedPaths m = t.cachedPaths m := by
  unfold Tree.cachedPaths
  rw [h.lists]

theorem filed (hf : t.Filed) : t'.Filed where
  present r hr := by
    rw [h.arena]
    exact hf.present r (h.root ▸ hr)
  held p n hn := by
    rw [h.arena]
    exact hf.held p n ((h.place p).1.symm.trans hn)
  root p hp hs := by
    rw [h.rootPath, h.root, (h.place p).1]
    exact hf.root p (h.size ▸ hp) ((h.place p).2.2.2.1 hs)
  listed m p hp := by
    rw [h.cachedPaths] at hp
    rw [h.size]
    exact ⟨(hf.listed m p hp).1, fun hr => (hf.listed m p hp).2 ((h.place p).2.2.2.1 hr)⟩
  nodup m := by
    rw [h.cachedPaths]
    exact hf.nodup m
  once m m' p hp hp' := hf.once m m' p (h.cachedPaths m ▸ hp) (h.cachedPaths m' ▸ hp')

end Shifted

theorem getElem?_inserted {old : List (Option NodeId)} (new : List (Option NodeId)) {i : Nat}
    (j : Nat) (hi : i ≤ old.length) :
    (old.take i ++ new ++ old.drop i)[if i ≤ j then j + new.length else j]? = old[j]? := by
  by_cases hij : i ≤ j
  · rw [if_pos hij, List.getElem?_append_right (by simp; omega), List.getElem?_drop]
    congr 1
    simp
    omega
  · rw [if_neg hij, List.append_assoc, List.getElem?_append_left (by simp; omega),
      List.getElem?_take_of_lt (by omega)]

/-- Where the entries of the list stand then. -/
theorem slotAt_inserted {a b : Arena} {old new : List (Option NodeId)} {i : Nat}
    (hi : i ≤ old.length) (hwrite : Overwrites a b m list (.list old)
      (.list (old.take i ++ new ++ old.drop i))) (s : Slot) :
    b.slotAt (some m) (s.shift list i (· + new.length)) = a.slotAt (some m) s := by
  cases s with
  | root => rfl
  | field name =>
    show b.slotAt (some m) (.field name) = _
    rw [slotAt_overwritten hwrite]
    split
    · next hname =>
      rw [slotAt_held hwrite hname]
      rfl
    · rfl
  | entry l j =>
    by_cases hl : l = list
    · subst hl
      have hread (k : Nat) : b.slotAt (some m) (.entry l k)
          = (old.take i ++ new ++ old.drop i)[k]?.join :=
        (slotAt_overwritten hwrite _).trans (if_pos rfl)
      rw [slotAt_held hwrite rfl]
      have hget := getElem?_inserted new j hi
      by_cases hij : i ≤ j
      · rw [if_pos hij] at hget
        rw [Slot.shift, if_pos ⟨rfl, hij⟩, hread, hget]
        rfl
      · rw [if_neg hij] at hget
        rw [Slot.shift, if_neg fun h => hij h.2, hread, hget]
        rfl
    · rw [Slot.shift, if_neg fun h => hl h.1, slotAt_overwritten hwrite]
      exact if_neg fun h => hl (Option.some.inj h)

/-- Where the entries of a list stand once one was taken out. -/
theorem slotAt_erased {a b : Arena} {items : List (Option NodeId)} {i : Nat}
    (hwrite : Overwrites a b m list (.list items) (.list (items.eraseIdx i))) {s : Slot}
    (hs : s ≠ .entry list i) :
    b.slotAt (some m) (s.shift list (i + 1) (· - 1)) = a.slotAt (some m) s := by
  cases s with
  | root => rfl
  | field name =>
    show b.slotAt (some m) (.field name) = _
    rw [slotAt_overwritten hwrite]
    split
    · next hname =>
      rw [slotAt_held hwrite hname]
      rfl
    · rfl
  | entry l j =>
    by_cases hl : l = list
    · subst hl
      have hread (k : Nat) : b.slotAt (some m) (.entry l k) = (items.eraseIdx i)[k]?.join :=
        (slotAt_overwritten hwrite _).trans (if_pos rfl)
      have hij : j ≠ i := fun hij => hs (by rw [hij])
      rw [slotAt_held hwrite rfl]
      show _ = items[j]?.join
      by_cases hlt : i + 1 ≤ j
      · rw [Slot.shift, if_pos ⟨rfl, hlt⟩, hread, List.getElem?_eraseIdx, if_neg (by omega)]
        congr 2
        omega
      · rw [Slot.shift, if_neg fun h => hlt h.2, hread, List.getElem?_eraseIdx, if_pos (by omega)]
    · rw [Slot.shift, if_neg fun h => hl h.1, slotAt_overwritten hwrite]
      exact if_neg fun h => hl (Option.some.inj h)

/-! ## nodes that come -/

theorem ends_listInsert_owned {a : Arena} (ha : a.WellOwned) (parent : Option NodeId)
    (field : String) (index : Nat) (items : List (Option NodeId)) :
    Ends (listInsert parent field index items a) (fun i b => b.WellOwned ∧ ∃ m old, parent = some m
      ∧ i = min index old.length ∧ Overwrites a b m field (.list old)
      (.list (old.take i ++ items ++ old.drop i)))
      fun _ _ => True := by
  have howned := stays_iff.1 (stays_owned_listInsert parent field index items) a ha.owned
  have hshaped := stays_iff.1 (stays_shaped_listInsert parent field index items) a ha.shaped
  have hends := ends_listInsert_entries ha parent field index items
  cases hr : listInsert parent field index items a with
  | error e b => trivial
  | ok i b =>
    rw [hr] at howned hshaped hends
    obtain ⟨m, old, hm, hi, hwrite, -⟩ := hends
    exact ⟨⟨howned, hshaped⟩, m, old, hm, hi, hwrite⟩

/-- What crawls keep is kept when the paths of new entries are looked up, registered and queued. -/
theorem Crawls.entered {P : Tree → Prop} {k : Nat} (h : Crawls P k)
    (hqueue : ∀ t p priority id, P t → P (queueOn t p priority id)) (parentPath : PathId)
    (owner : Option NodeId) (list : String) (i count : Nat) : Stays P (do
      let paths ← (List.range count).mapM fun j =>
        getOrCreatePath (some parentPath) owner (.entry list (i + j))
      paths.forM fun p => do
        Tree.registerSubtree p
        Tree.queueNewPath p true
      return paths) :=
  (Stays.mapM (fun _ => h.paths.entry _ _ _ _) _).bind fun _ =>
    (Stays.forM (fun p => (h.registerSubtree p).bind fun _ => stays_queueNewPath hqueue p true)
      _).bind
      fun _ => stays_pure _

end Tree

end ScopedTree
