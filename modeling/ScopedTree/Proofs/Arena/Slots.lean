import ScopedTree.Proofs.Arena.Region
import ScopedTree.Tree.State

/-!
# Places

To write a place is to overwrite one field of its owner. All other places hold what they held.

* `Arena.slotAt`      the node at a place;
* `Arena.Puts`        a node was put at a place;
* `Arena.ends_putChild`, `Arena.ends_putEntry`   the writes that do so.
-/

namespace ScopedTree

def Value.standing (v : Value) : Slot → Option NodeId
  | .root => none
  | .field _ =>
    match v with
    | .node c => c
    | _ => none
  | .entry _ i =>
    match v with
    | .list l => l[i]?.join
    | _ => none

namespace Arena

open Relation

variable {a b b' : Arena} {c m n o p q x : NodeId} {d held : Option NodeId}
  {slot s : Slot} {owner : Option NodeId} {field : String} {old new : Value}

/-- The node at a place below `owner`. -/
def slotAt (a : Arena) (owner : Option NodeId) : Slot → Option NodeId
  | .root => none
  | .field name => a.child? owner name
  | .entry list index => (a.items owner list)[index]?.join

theorem slotAt_eq {n : Node} (hn : a.get? o = some n) (s : Slot) :
    a.slotAt (some o) s = (s.key?.bind n.value?).bind (·.standing s) := by
  cases s with
  | root => rfl
  | field name =>
    show (a.look (some o)).bind (·.child? name) = (n.value? name).bind _
    rw [look_some, hn, Option.bind_some, Node.child?]
    cases n.value? name with
    | none => rfl
    | some v => cases v <;> rfl
  | entry list i =>
    show ((a.look (some o)).elim [] (·.items list))[i]?.join = (n.value? list).bind _
    rw [look_some, hn, Option.elim_some, Node.items]
    cases n.value? list with
    | none => rfl
    | some v => cases v <;> rfl

theorem slotAt_of_content (h : (b.get? q).map Node.content = (a.get? q).map Node.content)
    (s : Slot) :
    b.slotAt (some q) s = a.slotAt (some q) s := by
  cases hb : b.get? q with
  | none =>
    rw [hb] at h
    have ha := Option.map_eq_none_iff.1 h.symm
    cases s <;> simp [slotAt, child?, items, look, ha, hb]
  | some n =>
    rw [hb] at h
    obtain ⟨m, ha, hc⟩ := Option.map_eq_some_iff.1 h.symm
    rw [slotAt_eq hb, slotAt_eq ha, funext (Node.value?_congr hc)]

theorem mem_children_of_slotAt (h : a.slotAt (some o) s = some c) : c ∈ a.children (some o) := by
  cases ho : a.get? o with
  | none => cases s <;> simp [slotAt, child?, items, look, ho] at h
  | some k =>
    rw [slotAt_eq ho] at h
    obtain ⟨v, hv, hs⟩ := Option.bind_eq_some_iff.1 h
    obtain ⟨g, -, hv⟩ := Option.bind_eq_some_iff.1 hv
    have hc : c ∈ v.children := by
      cases s with
      | root => cases hs
      | field name =>
        cases v <;> simp_all [Value.standing, mem_children_node]
      | entry list i =>
        cases v with
        | list l => exact mem_children_list.2 (List.mem_of_getElem? (Option.join_eq_some_iff.1 hs))
        | _ => cases hs
    rw [children_some, ho]
    show c ∈ k.children
    have hpos := List.count_pos_iff.2 hc
    have hle := k.count_children_le hv c
    exact List.count_pos_iff.1 (by omega)

/-- The node `x` was put at the place `s` of `o`. -/
structure Puts (a b : Arena) (o : NodeId) (s : Slot) (x : NodeId) : Prop where
  size : b.size = a.size
  free : a.slotAt (some o) s = some x
    ∨ a.parentOf (some x) = none ∧ ¬ ReflTransGen a.OwnedBy o x
  owned : b.OwnedBy x o
  parent : ∀ c, c ≠ x → b.parentOf (some c)
    = if a.slotAt (some o) s = some c then none else a.parentOf (some c)
  read : ∀ m s', b.slotAt (some m) s' = if m = o ∧ s' = s then some x else a.slotAt (some m) s'
  type? : ∀ q, b.type? (some q) = a.type? (some q)
  filled : ∀ q, a.Filled q → b.Filled q
  edge : ∀ q c, c ∈ b.children (some q) → c ∈ a.children (some q) ∨ q = o ∧ c = x

theorem slotAt_held (h : Overwrites a b o field old new) (hs : s.key? = some field) :
    a.slotAt (some o) s = old.standing s := by
  obtain ⟨n, _, hn, _, hv, _, _⟩ := h.get?
  rw [slotAt_eq hn, hs, Option.bind_some, hv, Option.bind_some]

theorem slotAt_overwritten (h : Overwrites a b o field old new) (s : Slot) :
    b.slotAt (some o) s = if s.key? = some field then new.standing s else a.slotAt (some o) s := by
  obtain ⟨n, m, hn, hm, hv, hc, -⟩ := h.get?
  rw [slotAt_eq hm, slotAt_eq hn]
  cases hk : s.key? with
  | none => rfl
  | some g =>
    rw [Option.bind_some, Option.bind_some, Node.value?_congr hc, Node.value?_withValue hv]
    by_cases hg : g = field
    · rw [if_pos hg, if_pos (congrArg some hg), Option.bind_some]
    · rw [if_neg hg, if_neg fun he => hg (Option.some.inj he)]

/-- Only places in the field that was written can read otherwise. -/
theorem slotAt_written (h : Overwrites a b o field old new) (hs : s.key? = some field)
    (hnew : ∀ s', s'.key? = some field →
      new.standing s' = if s' = s then some x else old.standing s') (m : NodeId) (s' : Slot) :
    b.slotAt (some m) s' = if m = o ∧ s' = s then some x else a.slotAt (some m) s' := by
  by_cases hm : m = o
  · subst hm
    simp only [slotAt_overwritten h, true_and]
    by_cases hk : s'.key? = some field
    · rw [if_pos hk, hnew s' hk, slotAt_held h hk]
    · rw [if_neg hk, if_neg fun he : s' = s => hk (he ▸ hs)]
  · rw [slotAt_of_content (h.content_ne hm), if_neg fun hs => hm hs.1]

theorem ends_putChild (ha : a.WellOwned) (owner : Option NodeId) (field : String) (x : NodeId) :
    Ends (setChild owner field (some x) a)
      (fun _ b => b.WellOwned ∧ ∃ o, owner = some o ∧ Puts a b o (.field field) x)
      fun _ b => b = a := by
  have hkeeps := stays_iff.1 (stays_owned_setChild owner field (some x)) a ha.owned
  have hshapes := stays_iff.1 (stays_shaped_setChild owner field (some x)) a ha.shaped
  have hends := ends_setChild ha.owned owner field (some x)
  cases hr : setChild owner field (some x) a with
  | error e b =>
    rw [hr] at hends
    exact hends
  | ok held b =>
    rw [hr] at hkeeps hshapes hends
    obtain ⟨o, rfl, h⟩ := hends
    have hheld : a.slotAt (some o) (.field field) = held := slotAt_held h rfl
    have hnew : ∀ c, c ∈ (Value.node (some x)).children ↔ c = x := fun c => by
      rw [mem_children_node, Option.some.injEq, eq_comm]
    refine ⟨⟨hkeeps, hshapes⟩, o, rfl, h.size, ?_, ?_, fun c hc => ?_,
      slotAt_written h rfl fun s' hs' => ?_, h.type?, fun q => h.filled, fun q c hc => ?_⟩
    · rw [hheld]
      exact (h.comes x ((hnew x).2 rfl)).imp_left mem_children_node.1
    · show b.parentOf (some x) = some o
      rw [h.parent, if_pos ((hnew x).2 rfl)]
    · rw [h.parent, if_neg fun hm => hc ((hnew c).1 hm), hheld]
      simp only [mem_children_node]
    · cases s' with
      | root => cases hs'
      | field g =>
        obtain rfl := Option.some.inj hs'
        rw [if_pos rfl]
        rfl
      | entry g i => rfl
    · exact (h.mem_children hc).imp_right fun hc => ⟨hc.1, (hnew c).1 hc.2⟩

theorem ends_putEntry (ha : a.WellOwned) (owner : Option NodeId) (field : String) (i : Nat)
    (x : NodeId) : Ends (listSet owner field i (some x) a)
      (fun _ b => b.WellOwned ∧ ∃ o, owner = some o ∧ Puts a b o (.entry field i) x)
      fun _ b => b = a := by
  have hkeeps := stays_iff.1 (stays_owned_listSet owner field i (some x)) a ha.owned
  have hshapes := stays_iff.1 (stays_shaped_listSet owner field i (some x)) a ha.shaped
  have hends := ends_listSet ha owner field i (some x)
  cases hr : listSet owner field i (some x) a with
  | error e b =>
    rw [hr] at hends
    exact hends
  | ok held b =>
    rw [hr] at hkeeps hshapes hends
    obtain ⟨o, items, rfl, hi, h⟩ := hends
    have hlt : i < items.length := (List.getElem?_eq_some_iff.1 hi).1
    have hheld : a.slotAt (some o) (.entry field i) = held := by
      rw [slotAt_held h rfl]
      simp [Value.standing, hi]
    obtain ⟨n, m, hn, hm, hv, hcm, -⟩ := h.get?
    have hvm : m.value? field = some (.list (items.set i (some x))) := by
      rw [Node.value?_congr hcm, Node.value?_withValue hv, if_pos rfl]
    have hmem (c : NodeId) (hc : c ≠ x) : c ∈ (Value.list (items.set i (some x))).children
        ↔ some c ∈ items ∧ held ≠ some c :=
      mem_children_list.trans (mem_set_iff hi
        (count_children_list items c ▸ ha.owned.count_field_le_one hn hv c)
        fun he => hc (Option.some.inj he))
    have hx : x ∈ (Value.list (items.set i (some x))).children :=
      mem_children_list.2 (List.mem_set hlt _)
    refine ⟨⟨hkeeps, hshapes⟩, o, rfl, h.size, ?_, ?_, fun c hc => ?_,
      slotAt_written h rfl fun s' hs' => ?_, h.type?, fun q => h.filled, fun q c hc => ?_⟩
    · rw [hheld]
      refine (h.comes x hx).imp_left fun hold => ?_
      -- what stands elsewhere in the list cannot be put at a second place of it
      have hle := hkeeps.count_field_le_one hm hvm x
      rw [count_children_list] at hle
      have hpos := List.count_pos_iff.2 (mem_children_list.1 hold)
      have hcount := count_set hi (some x) (some x)
      rw [if_pos rfl] at hcount
      by_contra hno
      rw [if_neg (Ne.symm hno)] at hcount
      omega
    · show b.parentOf (some x) = some o
      rw [h.parent, if_pos hx]
    · rw [h.parent, hheld]
      by_cases hh : held = some c
      · rw [if_neg fun hm => ((hmem c hc).1 hm).2 hh, if_pos hh,
          if_pos (mem_children_list.2 (hh ▸ List.mem_of_getElem? hi))]
      · rw [if_neg hh]
        by_cases hin : some c ∈ items
        · rw [if_pos ((hmem c hc).2 ⟨hin, hh⟩)]
          exact (ha.owned.owner_of_field hn hv (mem_children_list.2 hin)).symm
        · rw [if_neg fun hm => hin ((hmem c hc).1 hm).1, if_neg fun hm =>
            hin (mem_children_list.1 hm)]
    · cases s' with
      | root => cases hs'
      | field g => rfl
      | entry g j =>
        obtain rfl := Option.some.inj hs'
        by_cases hj : j = i
        · subst hj
          simp [Value.standing, List.getElem?_set_self hlt]
        · simp [Value.standing, hj, List.getElem?_set_ne (Ne.symm hj)]
    · rcases h.mem_children hc with hold | ⟨rfl, hc⟩
      · exact .inl hold
      · by_cases hcx : c = x
        · exact .inr ⟨rfl, hcx⟩
        · have hold := ((hmem c hcx).1 hc).1
          exact .inl (ha.owned.mem_children
            (ha.owned.owner_of_field hn hv (mem_children_list.2 hold)))

end Arena

end ScopedTree
