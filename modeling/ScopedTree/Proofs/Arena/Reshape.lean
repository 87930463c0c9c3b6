import ScopedTree.Arena.Walk
import ScopedTree.Proofs.Arena.Slots

/-!
# Writes that leave the old nodes alone

Flags and what is attached to nodes do not show in the places of a tree, and nodes that are made
take over nothing but nodes they are given.

* `Arena.Alike`         arenas that differ in what is attached to nodes;
* `Arena.Alike.puts`    a node that was put at a place stands there still;
* `Arena.Builds`        nodes were made, and took over given nodes only.
-/

namespace ScopedTree.Arena

open Relation

variable {a b c : Arena} {m n o p q x : NodeId} {d : Option NodeId} {s : Slot}
  {S S' S'' X X' : NodeId → Prop} {field : String} {old new : Value}

/-- The nodes stand in the same places. -/
structure Alike (a b : Arena) : Prop where
  size : b.size = a.size
  children : ∀ q, b.children (some q) = a.children (some q)
  parent : ∀ q, b.parentOf (some q) = a.parentOf (some q)
  slotAt : ∀ q s, b.slotAt (some q) s = a.slotAt (some q) s
  type? : ∀ q, b.type? (some q) = a.type? (some q)
  filled : ∀ q, a.Filled q → b.Filled q
  shaped : a.Shaped → b.Shaped

namespace Alike

@[refl] theorem refl (a : Arena) : Alike a a :=
  ⟨rfl, fun _ => rfl, fun _ => rfl, fun _ _ => rfl, fun _ => rfl, fun _ h => h, id⟩

theorem trans (h : Alike a b) (h' : Alike b c) : Alike a c where
  size := h'.size.trans h.size
  children q := (h'.children q).trans (h.children q)
  parent q := (h'.parent q).trans (h.parent q)
  slotAt q s := (h'.slotAt q s).trans (h.slotAt q s)
  type? q := (h'.type? q).trans (h.type? q)
  filled q hq := h'.filled q (h.filled q hq)
  shaped hs := h'.shaped (h.shaped hs)

theorem wellOwned (h : Alike a b) (ha : a.WellOwned) : b.WellOwned :=
  ⟨ha.owned.of_eq h.children h.parent, h.shaped ha.shaped⟩

theorem update (a : Arena) (id : Option NodeId) {f : Node → Node}
    (hf : ∀ n, (f n).content = n.content ∧ (f n).parent = n.parent) : Alike a (a.update id f) := by
  have hcontent (q : NodeId) := content_update_of_eq (a := a) (fun n => (hf n).1) id q
  exact ⟨size_update .., fun q => children_of_content (hcontent q),
    fun q => parentOf_update_of_eq (fun n => (hf n).2) id, fun q => slotAt_of_content (hcontent q),
    fun q => type?_of_content (hcontent q), fun q hq => hq.of_content (hcontent q),
    fun hs => hs.update fun n _ hn => hn.congr (hf n).1.symm⟩

theorem flag (ha : a.WellOwned) {k : Node} {f : Field} (hk : a.get? m = some k)
    (hf : f ∈ k.type.fields) (hbool : f.kind = .bool) (flag : Bool) :
    Alike a (a.update (some m) (·.withValue f.name (.bool flag))) := by
  obtain ⟨v, hv, hfit⟩ := (ha.shaped m k hk).value?_of_mem hf
  rw [hbool] at hfit
  obtain ⟨old, rfl⟩ : ∃ old, v = .bool old := by
    cases v with
    | bool old => exact ⟨old, rfl⟩
    | _ => cases hfit
  have hreq : ∀ g ∈ k.type.fields, g.kind = .node → g.name = f.name →
      ∃ c, Value.bool flag = .node (some c) := by
    intro g hg hkind hname
    rw [List.inj_on_of_nodup_map k.type.nodup_fields hg hf hname, hbool] at hkind
    cases hkind
  have hnone (x : Bool) (c : NodeId) : c ∉ (Value.bool x).children := by
    simp [Value.children, Value.handles]
  have hover : Overwrites a (a.update (some m) (·.withValue f.name (.bool flag))) m
      f.name (.bool old) (.bool flag) :=
    overwrites_setParents hk hv hreq [] [] (by simp) (by simp) (fun c hc => absurd hc (hnone _ c))
      (fun c hc => absurd hc (hnone _ c)) (by simp) fun c hc => absurd hc (hnone _ c)
  have hstanding (x : Bool) (s : Slot) : (Value.bool x).standing s = none := by
    cases s <;> rfl
  refine ⟨hover.size, fun q => ?_, fun q => ?_, fun q s => ?_, hover.type?, fun q => hover.filled,
    fun hs => hs.update fun n hn hshaped => ?_⟩
  · by_cases hq : q = m
    · subst hq
      obtain ⟨i, hi, hiv⟩ := Option.bind_eq_some_iff.1 hv
      obtain ⟨hlt, hget⟩ := List.getElem?_eq_some_iff.1 hiv
      have hw : k.withValue f.name (.bool flag)
          = { k with values := k.values.set i (.bool flag) } := by
        rw [Node.withValue, hi]
      rw [children_some, children_some, get?_update, if_pos rfl, hk, Option.map_some, hw]
      show Node.children _ = Node.children k
      rw [Node.children_eq, Node.children_eq, List.flatMap_def, List.flatMap_def]
      refine congrArg List.flatten (List.ext_getElem (by simp) fun j hj hj' => ?_)
      rw [List.getElem_map, List.getElem_map]
      by_cases hij : i = j
      · subst hij
        simp [hget, Value.children, Value.handles]
      · rw [List.getElem_set_ne hij]
    · exact children_of_content (hover.content_ne hq)
  · rw [hover.parent, if_neg (hnone _ q), if_neg (hnone _ q)]
  · by_cases hq : q = m
    · subst hq
      rw [slotAt_overwritten hover]
      split
      · next hkey => rw [slotAt_held hover hkey, hstanding, hstanding]
      · rfl
    · exact slotAt_of_content (hover.content_ne hq) s
  · obtain rfl : k = n := Option.some.inj (hk.symm.trans hn)
    refine hshaped.withValue hv fun kind hfit => ?_
    cases kind <;> simp_all [Value.fits]

theorem puts (h : Alike b c) (hp : Puts a b o s x) : Puts a c o s x where
  size := h.size.trans hp.size
  free := hp.free
  owned := (h.parent x).trans hp.owned
  parent k hk := (h.parent k).trans (hp.parent k hk)
  read m s' := (h.slotAt m s').trans (hp.read m s')
  type? q := (h.type? q).trans (hp.type? q)
  filled q hq := h.filled q (hp.filled q hq)
  edge q k hk := by
    rw [h.children] at hk
    exact hp.edge q k hk

end Alike

/-- Nodes were made. They took over nothing but nodes among `X`. -/
structure Builds (X : NodeId → Prop) (a b : Arena) : Prop where
  size : a.size ≤ b.size
  slotAt : ∀ q s, q.index < a.size → b.slotAt (some q) s = a.slotAt (some q) s
  children : ∀ q, q.index < a.size → b.children (some q) = a.children (some q)
  type? : ∀ q, q.index < a.size → b.type? (some q) = a.type? (some q)
  filled : ∀ q, a.Filled q ∨ a.size ≤ q.index ∧ q.index < b.size → b.Filled q
  news : ∀ q k, a.size ≤ q.index → k ∈ b.children (some q) → a.size ≤ k.index ∨ X k
  parent : ∀ k q, b.OwnedBy k q → a.OwnedBy k q ∨ a.size ≤ q.index
  left : ∀ k, k.index < a.size → ¬ X k → b.parentOf (some k) = a.parentOf (some k)
  hung : ∀ k q, a.OwnedBy k q → ∃ q', b.OwnedBy k q'

namespace Builds

theorem mono (h : Builds X a b) (hX : ∀ n, X n → X' n) : Builds X' a b where
  size := h.size
  slotAt := h.slotAt
  children := h.children
  type? := h.type?
  filled := h.filled
  news q k hq hk := (h.news q k hq hk).imp_right (hX k)
  parent := h.parent
  left k hk hin := h.left k hk fun h => hin (hX k h)
  hung := h.hung

end Builds

theorem builds_makes {ty : NodeType} {cs : List NodeId} (h : Makes a b n ty cs) :
    Builds (· ∈ cs) a b where
  size := by
    rw [h.size]
    exact Nat.le_succ _
  slotAt q s hq := slotAt_of_content (h.content q (h.ne hq)) s
  children q hq := h.children_old hq
  type? q hq := h.type_old hq
  filled q hq := by
    rcases hq with hq | ⟨hge, hlt⟩
    · exact h.filled_old hq
    · obtain rfl : q = n := by
        rw [h.size] at hlt
        rw [h.fresh]
        exact congrArg NodeId.mk (Nat.le_antisymm (Nat.le_of_lt_succ hlt) hge)
      exact h.filled
  news q k hq hk := by
    by_cases hn : q = n
    · subst hn
      rw [h.children] at hk
      exact .inr hk
    · obtain ⟨m, hm, -⟩ := get?_of_mem_children hk
      have hlt := get?_eq_some_lt hm
      rw [h.size] at hlt
      refine absurd ?_ hn
      rw [h.fresh]
      exact congrArg NodeId.mk (Nat.le_antisymm (Nat.le_of_lt_succ hlt) hq)
  parent k q hq := by
    rw [OwnedBy, h.parent] at hq
    split at hq
    · rw [← Option.some.inj hq, h.fresh]
      exact .inr le_rfl
    · exact .inl hq
  left k _ hin := by rw [h.parent, if_neg hin]
  hung k q hq := by
    by_cases hk : k ∈ cs
    · exact ⟨n, (h.parent k).trans (if_pos hk)⟩
    · exact ⟨q, ((h.parent k).trans (if_neg hk)).trans hq⟩

end ScopedTree.Arena
