import ScopedTree.Proofs.Arena.Subtree
import ScopedTree.Proofs.Edit.Put

/-!
# Paths that are marked

When a subtree leaves, the paths in use that are listed under its nodes and hold one of them are
marked as removed, and no others.

* `Departure.marks`              what is marked besides what is marked already;
* `Tree.path_markRemovedBelow`, `Tree.path_invalidate`   the paths after that;
* `Tree.exists_invalidated`      where there are no scopes nothing else is forgotten.
-/

namespace ScopedTree

open Arena

/-- Whether a path in use goes with the subtree that leaves. -/
def Departure.marks (d : Departure) (t : Tree) (p : PathId) : Bool :=
  some p != d.holder && !(t.path p).removed && d.inOld t.arena (t.node p)

def PathData.gone (d : PathData) : PathData := { d with removed := true, shouldSkip := true }

namespace Tree

variable {t t' : Tree} {d : Departure} {p q : PathId} {n : NodeId}

/-- Some of the paths in a list were marked, and each of them needs it once. -/
structure Marking (d : Departure) (t : Tree) (done : PathId → Prop) (t' : Tree) : Prop where
  eq : t' = { t with paths := t'.paths }
  size : t'.paths.size = t.paths.size
  marked : ∀ q, done q → d.marks t q = true → t'.path q = (t.path q).gone
  kept : ∀ q, ¬ (done q ∧ d.marks t q = true) → t'.path q = t.path q

namespace Marking

variable {done done' : PathId → Prop}

theorem start (d : Departure) (t : Tree) : Marking d t (fun _ => False) t :=
  ⟨rfl, rfl, fun _ h => h.elim, fun _ _ => rfl⟩

theorem arena (h : Marking d t done t') : t'.arena = t.arena := by rw [h.eq]

theorem cachedPaths (h : Marking d t done t') (m : NodeId) :
    t'.cachedPaths (some m) = t.cachedPaths (some m) := by
  rw [h.eq]
  rfl

theorem congr (h : Marking d t done t') (hdone : ∀ q, done q ↔ done' q) : Marking d t done' t' :=
  ⟨h.eq, h.size, fun q hq => h.marked q ((hdone q).2 hq),
    fun q hq => h.kept q fun hd => hq ⟨(hdone q).1 hd.1, hd.2⟩⟩

theorem step (h : Marking d t done t') (p : PathId) : Marking d t (fun q => done q ∨ q = p)
    (if d.marks t' p then t'.markRemoved p else t') := by
  by_cases hp : done p ∧ d.marks t p = true
  · -- it is marked already
    have hno : d.marks t' p = false := by
      unfold Departure.marks
      rw [h.marked p hp.1 hp.2]
      simp [PathData.gone]
    rw [hno, if_neg Bool.false_ne_true]
    refine h.congr fun q => ⟨.inl, fun hq => hq.elim id fun hqp => hqp ▸ hp.1⟩
  · have hsame : d.marks t' p = d.marks t p := by
      unfold Departure.marks Tree.node
      rw [h.kept p hp, h.arena]
    rw [hsame]
    split
    · next hmarks =>
      have hlt : p.index < t'.paths.size := by
        rw [h.size]
        by_contra hge
        unfold Departure.marks Tree.node at hmarks
        rw [path_of_size_le (Nat.le_of_not_lt hge)] at hmarks
        simp [Departure.inOld] at hmarks
      have heq : t'.markRemoved p = { t with paths := (t'.markRemoved p).paths } :=
        congrArg (fun u : Tree => u.markRemoved p) h.eq
      refine ⟨heq, (size_updatePath ..).trans h.size, fun q hq hm => ?_, fun q hq => ?_⟩
      · by_cases hqp : q = p
        · subst hqp
          exact (path_updatePath_self _ _ hlt).trans (by rw [h.kept q hp]; rfl)
        · exact (path_updatePath_ne _ _ hqp).trans (h.marked q (hq.resolve_right hqp) hm)
      · have hqp : q ≠ p := by
          rintro rfl
          exact hq ⟨.inr rfl, hmarks⟩
        exact (path_updatePath_ne _ _ hqp).trans (h.kept q fun hd => hq ⟨.inl hd.1, hd.2⟩)
    · next hmarks =>
      refine ⟨h.eq, h.size, fun q hq hm => ?_, fun q hq => h.kept q fun hd => hq ⟨.inl hd.1, hd.2⟩⟩
      rcases hq with hq | rfl
      · exact h.marked q hq hm
      · exact absurd hm hmarks

theorem foldl (l : List PathId) : ∀ {t' : Tree} {done : PathId → Prop}, Marking d t done t' →
    Marking d t (fun q => done q ∨ q ∈ l)
      (l.foldl (fun t p => if d.marks t p then t.markRemoved p else t) t') := by
  induction l with
  | nil => exact fun h => h.congr fun q => by simp
  | cons p l ih => exact fun h => (ih (h.step p)).congr fun q => by simp [or_assoc]

end Marking

theorem marking_markRemovedBelow (d : Departure) (nodes : List NodeId) (t : Tree) :
    Marking d t (fun q => ∃ m ∈ nodes, q ∈ t.cachedPaths (some m))
    (markRemovedBelow d nodes t) := by
  have hall (l : List NodeId) : ∀ {t' : Tree} {done : PathId → Prop}, Marking d t done t' →
      Marking d t (fun q => done q ∨ ∃ m ∈ l, q ∈ t.cachedPaths (some m)) (l.foldl (fun t id =>
        (t.cachedPaths (some id)).foldl (fun t p => if d.marks t p then t.markRemoved p
          else t) t) t') := by
    induction l with
    | nil => exact fun h => h.congr fun q => by simp
    | cons m l ih =>
      intro t' done h
      rw [List.foldl_cons, h.cachedPaths m]
      exact (ih (h.foldl _)).congr fun q => by simp [or_assoc]
  exact (hall nodes (.start d t)).congr fun q => by simp

/-- The paths once those in a subtree were marked. -/
theorem path_markRemovedBelow (d : Departure) (nodes : List NodeId) (t : Tree) (q : PathId) :
    (markRemovedBelow d nodes t).path q
      = if (∃ m ∈ nodes, q ∈ t.cachedPaths (some m)) ∧ d.marks t q = true then (t.path q).gone
      else t.path q := by
  have h := marking_markRemovedBelow d nodes t
  split
  · next hq => exact h.marked q hq.1 hq.2
  · next hq => exact h.kept q hq

/-- **The paths once a subtree was forgotten**: of those in use, the ones that are listed below a
node of the subtree and hold a node of it go out of use. -/
theorem path_invalidate (d : Departure) (t : Tree) (q : PathId) : (invalidate d t).path q
    = if (∃ m ∈ t.arena.preorder (some d.old), q ∈ t.cachedPaths (some m))
    ∧ d.marks t q = true then (t.path q).gone
      else t.path q := by
  have hcleared : (d.cleared t).path q = (markRemovedBelow d (t.arena.preorder (some d.old)) t).path
      q := by
    obtain ⟨scopes, heq⟩ := exists_cleared d t
    rw [heq]
    rfl
  have hsettled : (invalidate d t).path q = (d.settled t).path q := by
    rw [invalidate_eq]
    rfl
  rw [hsettled, (samePaths_settled d t).path, hcleared, path_markRemovedBelow]

/-- **Where there are no scopes** paths are marked when a subtree leaves, and that is all. -/
theorem exists_invalidated (d : Departure) (hscopes : ∀ i, t.scopeOfNode.get? i = none)
    (hbindings : t.bindings.size = 0) : ∃ paths scopes scopeOfNode,
      invalidate d t = { t with paths, scopes, scopeOfNode } ∧ paths.size = t.paths.size
        ∧ (∀ i, scopeOfNode.get? i = none)
        ∧ ∀ q, ({ t with paths, scopes, scopeOfNode } : Tree).path q
          = if (∃ m ∈ t.arena.preorder (some d.old), q ∈ t.cachedPaths (some m))
          ∧ d.marks t q = true
            then (t.path q).gone else t.path q := by
  have hmarking := marking_markRemovedBelow d (t.arena.preorder (some d.old)) t
  obtain ⟨scopes, hcleared⟩ := exists_cleared d t
  have hsettled : d.settled t = d.cleared t := by
    have haffected : d.affected t = [] := by
      unfold Departure.affected affectedBindings
      rw [(cleared_eq d t).bindings]
      simp [hbindings]
    unfold Departure.settled
    rw [haffected]
    rfl
  refine ⟨_, scopes, t.scopeOfNode.filter fun s => !(d.gone t).contains s, ?_, hmarking.size,
    fun i => ?_,
    path_markRemovedBelow d _ t⟩
  · rw [invalidate_eq, hsettled, hcleared]
    generalize markRemovedBelow d (t.arena.preorder (some d.old)) t = marked at hmarking ⊢
    rw [hmarking.eq]
  · rw [IndexTable.get?_filter, hscopes]
    rfl

end Tree

end ScopedTree
