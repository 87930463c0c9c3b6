import Mathlib.Data.List.Pairwise
import ScopedTree.Proofs.Arena.Term

/-!
# One list that changes

Entries come to the list of one node and go from it, and new nodes are made. All else that nodes
hold stays.

* `Arena.Lists`        a node holds entries in a list;
* `Arena.Relists`      only what is in one list changed;
* `Arena.Grows`        new nodes were made;
* `Arena.Loose`        nodes that may be put into the tree below a root;
* `Arena.exists_listInsert`, …   writes that succeed.
-/

namespace ScopedTree.Arena

open Relation

variable {a b c : Arena} {m n o r x y z : NodeId} {list : String}
  {items old new : List (Option NodeId)} {i : Nat}

/-! ## lists -/

/-- The node holds the entries in its list. -/
def Lists (a : Arena) (m : NodeId) (list : String) (items : List (Option NodeId)) : Prop :=
  ∃ k, a.get? m = some k ∧ k.value? list = some (.list items)

namespace Lists

variable (h : a.Lists m list items)

include h

theorem items_eq : a.items (some m) list = items := by
  obtain ⟨k, hk, hv⟩ := h
  simp [Arena.items, hk, Node.items, hv]

theorem unique (h' : a.Lists m list new) : items = new := h.items_eq.symm.trans h'.items_eq

theorem list_eq : a.list (some m) list = .ok items := by
  obtain ⟨k, hk, hv⟩ := h
  have hnode : a.node (some m) = .ok k := node_ok.2 hk
  simp [Arena.list, hnode, Node.list, Node.field, hv, bind, Except.bind]

theorem slotAt_eq : a.slotAt (some m) (.entry list i) = items[i]?.join := by
  show (a.items (some m) list)[i]?.join = _
  rw [h.items_eq]

theorem owned (ha : a.Owned) (hx : some x ∈ items) : a.OwnedBy x m := by
  obtain ⟨k, hk, hv⟩ := h
  exact ha.owner_of_field hk hv (mem_children_list.2 hx)

theorem count_le_one (ha : a.Owned) (x : NodeId) : items.count (some x) ≤ 1 := by
  obtain ⟨k, hk, hv⟩ := h
  rw [← count_children_list]
  exact ha.count_field_le_one hk hv x

end Lists

theorem Owned.not_above (ha : a.Owned) (ho : a.OwnedBy o m) : ¬ ReflTransGen a.OwnedBy m o :=
  fun h => ha.acyclic o (.head' ho h)

/-- Other children of a node do not hang under `o` if the node does not, nor does what has no owner.
-/
theorem not_within (hm : ¬ ReflTransGen a.OwnedBy m o)
    (hy : a.OwnedBy y m ∨ a.parentOf (some y) = none) (hne : y ≠ o) :
    ¬ ReflTransGen a.OwnedBy y o := fun h => by
  rcases ReflTransGen.cases_head h with he | ⟨k, hk, hko⟩
  · exact hne he
  · rcases hy with hy | hy
    · obtain rfl := hk.unique hy
      exact hm hko
    · cases hy.symm.trans hk

theorem Owned.not_above_sibling (ha : a.Owned) (ho : a.OwnedBy o m) (hy : a.OwnedBy y m)
    (hne : y ≠ o) (hz : ReflTransGen a.OwnedBy z o) : ¬ ReflTransGen a.OwnedBy z y := fun hzy => by
  have hright : Relator.RightUnique a.OwnedBy := fun _ _ _ h h' => h.unique h'
  rcases ReflTransGen.total_of_right_unique hright hz hzy with hoy | hyo
  · exact not_within (ha.not_above hy) (.inl ho) hne.symm hoy
  · exact not_within (ha.not_above ho) (.inl hy) hne hyo

theorem disjoint_fieldChildren (ha : a.WellOwned) {k : Node} (hk : a.get? m = some k) {f g : Field}
    (hf : f ∈ k.type.childFields) (hg : g ∈ k.type.childFields) (hfg : f ≠ g)
    (hx : x ∈ k.fieldChildren f.name) :
    x ∉ k.fieldChildren g.name := fun hx' => by
  have hnodup := ha.owned.nodup_children m
  rw [children_some, hk, Option.elim_some, (ha.shaped m k hk).children_eq,
    List.nodup_flatMap] at hnodup
  have hsymm : Std.Symm (Function.onFun List.Disjoint fun f : Field => k.fieldChildren f.name) :=
    ⟨fun _ _ h => h.symm⟩
  exact hnodup.2.forall hf hg hfg hx hx'

/-! ## what stays -/

/-- New nodes may have been made, and the list of one node may have changed. -/
structure Relists (m : NodeId) (list : String) (a b : Arena) : Prop where
  owned : b.WellOwned
  size : a.size ≤ b.size
  content : ∀ q, q ≠ m → q.index < a.size → (b.get? q).map Node.content
    = (a.get? q).map Node.content
  type? : b.type? (some m) = a.type? (some m)
  fields : ∀ f, f ≠ list → (b.get? m).bind (·.value? f) = (a.get? m).bind (·.value? f)

namespace Relists

theorem refl (ha : a.WellOwned) : Relists m list a a :=
  ⟨ha, le_rfl, fun _ _ _ => rfl, rfl, fun _ _ => rfl⟩

theorem trans (h : Relists m list a b) (h' : Relists m list b c) : Relists m list a c where
  owned := h'.owned
  size := h.size.trans h'.size
  content q hq hlt := (h'.content q hq (hlt.trans_le h.size)).trans (h.content q hq hlt)
  type? := h'.type?.trans h.type?
  fields f hf := (h'.fields f hf).trans (h.fields f hf)

theorem of_content (hb : b.WellOwned) (hsize : a.size ≤ b.size) (hm : m.index < a.size)
    (h : ∀ q, q.index < a.size → (b.get? q).map Node.content = (a.get? q).map Node.content) :
    Relists m list a b where
  owned := hb
  size := hsize
  content q _ hq := h q hq
  type? := type?_of_content (h m hm)
  fields f _ := by
    obtain ⟨k, hk⟩ := Option.isSome_iff_exists.1 (isSome_get?_iff.2 hm)
    have hm := h m hm
    rw [hk] at hm
    obtain ⟨k', hk', hm⟩ := Option.map_eq_some_iff.1 hm
    rw [hk', hk, Option.bind_some, Option.bind_some, Node.value?_congr hm]

theorem of_overwrites (hb : b.WellOwned) (h : Overwrites a b m list (.list old) (.list new)) :
    Relists m list a b ∧ a.Lists m list old ∧ b.Lists m list new := by
  obtain ⟨k, k', hk, hk', hv, hc, -⟩ := h.get?
  refine ⟨⟨hb, h.size.ge, fun q hq _ => h.content_ne hq, h.type? m, fun f hf => ?_⟩, ⟨k, hk, hv⟩,
    k', hk', ?_⟩
  · rw [hk', hk, Option.bind_some, Option.bind_some, Node.value?_congr hc,
      Node.value?_withValue hv, if_neg hf]
  · rw [Node.value?_congr hc, Node.value?_withValue hv, if_pos rfl]

variable (h : Relists m list a b)

include h

theorem children (hx : x ≠ m) (hlt : x.index < a.size) :
    b.children (some x) = a.children (some x) :=
  children_of_content (h.content x hx hlt)

theorem ownedBy_iff (ha : a.Owned) (hx : x ≠ m) (hlt : x.index < a.size) :
    b.OwnedBy z x ↔ a.OwnedBy z x := by
  rw [← ha.mem_children_iff, ← h.owned.owned.mem_children_iff, h.children hx hlt]

theorem type?_eq (hx : x.index < a.size) : b.type? (some x) = a.type? (some x) := by
  by_cases hxm : x = m
  · rw [hxm, h.type?]
  · exact type?_of_content (h.content x hxm hx)

theorem fieldChildren_eq {k k' : Node} (hk : a.get? x = some k) (hk' : b.get? x = some k')
    {f : String} (hf : x = m → f ≠ list) :
    k'.type = k.type ∧ k'.fieldChildren f = k.fieldChildren f := by
  have hlt : x.index < a.size := isSome_get?_iff.1 (by rw [hk]; rfl)
  have hty : (b.get? x).map (·.type) = (a.get? x).map (·.type) := h.type?_eq hlt
  rw [hk, hk'] at hty
  refine ⟨Option.some.inj hty, ?_⟩
  by_cases hx : x = m
  · have hfield := h.fields f (hf hx)
    rw [← hx, hk, hk'] at hfield
    rw [Node.fieldChildren, Node.fieldChildren, show k'.value? f = k.value? f from hfield]
  · have hcontent := h.content x hx hlt
    rw [hk, hk'] at hcontent
    rw [Node.fieldChildren, Node.fieldChildren, Node.value?_congr (Option.some.inj hcontent)]

theorem within_iff (ha : a.Owned) (hlt : x.index < a.size) (hx : ¬ ReflTransGen a.OwnedBy m x) :
    ReflTransGen b.OwnedBy z x ↔ ReflTransGen a.OwnedBy z x := by
  constructor
  · intro hz
    induction hz using ReflTransGen.head_induction_on with
    | refl => exact .refl
    | @head z w hzw _ ih =>
      have hw : w ≠ m := fun hw => hx (hw ▸ ih)
      have hwlt : w.index < a.size := by
        rcases ReflTransGen.cases_head ih with rfl | ⟨v, hv, -⟩
        · exact hlt
        · exact hv.lt
      exact .head ((h.ownedBy_iff ha hw hwlt).1 hzw) ih
  · intro hz
    induction hz using ReflTransGen.head_induction_on with
    | refl => exact .refl
    | @head z w hzw hwx ih =>
      have hw : w ≠ m := fun hw => hx (hw ▸ hwx)
      exact .head ((h.ownedBy_iff ha hw (ha.owner_lt hzw)).2 hzw) ih

theorem above (ha : a.Owned) (hm : ReflTransGen a.OwnedBy m x) : ReflTransGen b.OwnedBy m x := by
  induction hm with
  | refl => exact .refl
  | @tail w v hmw hwv ih =>
    refine ih.tail ?_
    refine (h.ownedBy_iff ha (fun hv => ?_) (ha.owner_lt hwv)).2 hwv
    exact ha.acyclic m (TransGen.tail' hmw (hv ▸ hwv))

theorem ownedBy_or (ha : a.WellOwned) (hl : a.Lists m list items) (hz : a.OwnedBy z x) :
    b.OwnedBy z x ∨ x = m ∧ some z ∈ items := by
  by_cases hx : x = m
  · subst hx
    obtain ⟨k, hk, hv⟩ := hl
    obtain ⟨k', hk'⟩ := Option.isSome_iff_exists.1
      (isSome_get?_iff.2 ((isSome_get?_iff.1 (by rw [hk]; rfl)).trans_le h.size))
    have hchild := ha.owned.mem_children hz
    rw [children_some, hk, Option.elim_some, (ha.shaped x k hk).children_eq] at hchild
    obtain ⟨f, -, hzf⟩ := List.mem_flatMap.1 hchild
    by_cases hfl : f.name = list
    · refine .inr ⟨rfl, ?_⟩
      rw [Node.fieldChildren, hfl, hv] at hzf
      exact mem_children_list.1 hzf
    · refine .inl (h.owned.owned.owner_of_child x z ?_)
      obtain ⟨-, hfield⟩ := h.fieldChildren_eq hk hk' fun _ => hfl
      rw [children_some, hk']
      exact (k'.fieldChildren_sublist f.name).mem (hfield ▸ hzf)
  · exact .inl ((h.ownedBy_iff ha.owned hx (ha.owned.owner_lt hz)).2 hz)

theorem not_above (ha : a.Owned) (hlt : x.index < a.size) (hm : ¬ ReflTransGen a.OwnedBy m x) :
    ¬ ReflTransGen b.OwnedBy m x := fun hb => hm ((h.within_iff ha hlt hm).1 hb)

end Relists

/-! ## nodes that are made -/

/-- New nodes were made. They took over none of those that are to stay `free`. -/
structure Grows (free : NodeId → Prop) (a b : Arena) : Prop where
  owned : b.WellOwned
  size : a.size ≤ b.size
  content : ∀ q, q.index < a.size → (b.get? q).map Node.content = (a.get? q).map Node.content
  free : ∀ y, free y → a.parentOf (some y) = none → b.parentOf (some y) = none

namespace Grows

variable {free : NodeId → Prop}

@[refl] theorem refl (ha : a.WellOwned) : Grows free a a :=
  ⟨ha, le_rfl, fun _ _ => rfl, fun _ _ h => h⟩

theorem trans (h : Grows free a b) (h' : Grows free b c) : Grows free a c where
  owned := h'.owned
  size := h.size.trans h'.size
  content q hq := (h'.content q (hq.trans_le h.size)).trans (h.content q hq)
  free y hy hfree := h'.free y hy (h.free y hy hfree)

theorem of_makes {ty : NodeType} {cs : List NodeId} (hb : b.WellOwned) (h : Makes a b n ty cs)
    (hcs : ∀ c ∈ cs, ¬ free c) : Grows free a b where
  owned := hb
  size := h.size ▸ Nat.le_succ _
  content q hq := h.content q (h.ne hq)
  free y hy hfree := by
    rw [h.parent, if_neg fun hmem => hcs y hmem hy]
    exact hfree

variable (h : Grows free a b)

include h

theorem relists (hm : m.index < a.size) : Relists m list a b :=
  .of_content h.owned h.size hm h.content

theorem lists (hl : a.Lists m list items) : b.Lists m list items := by
  obtain ⟨k, hk, hv⟩ := hl
  have hm := h.content m (isSome_get?_iff.1 (by rw [hk]; rfl))
  rw [hk] at hm
  obtain ⟨k', hk', hm⟩ := Option.map_eq_some_iff.1 hm
  exact ⟨k', hk', (Node.value?_congr hm list).trans hv⟩

theorem ownedBy (ha : a.Owned) (hx : a.OwnedBy x m) : b.OwnedBy x m := by
  refine h.owned.owned.owner_of_child m x ?_
  rw [children_of_content (h.content m (ha.owner_lt hx))]
  exact ha.mem_children hx

end Grows

/-! ## levels -/

/-- Less than so many levels hang under a node. -/
def Shallow (a : Arena) : Nat → NodeId → Prop
  | 0, _ => False
  | levels + 1, n => ∀ c ∈ a.children (some n), a.Shallow levels c

instance decidableShallow (a : Arena) : ∀ (levels : Nat) (n : NodeId),
    Decidable (a.Shallow levels n)
  | 0, _ => inferInstanceAs (Decidable False)
  | levels + 1, n =>
    have := a.decidableShallow levels
    inferInstanceAs (Decidable (∀ c ∈ a.children (some n), a.Shallow levels c))

theorem Relists.shallow (h : Relists m list a b) (ha : a.Owned) : ∀ {k : Nat}
    {x : NodeId}, x.index < a.size → ¬ ReflTransGen a.OwnedBy m x → a.Shallow k x → b.Shallow k x
  | 0, _, _, _, hs => hs.elim
  | k + 1, x, hlt, hx, hs => fun c hc => by
    have hxm : x ≠ m := by
      rintro rfl
      exact hx .refl
    rw [h.children hxm hlt] at hc
    have hcx := ha.owner_of_child x c hc
    exact h.shallow ha hcx.lt (fun hm => hx (hm.tail hcx)) (hs c hc)

/-! ## nodes that may be put into the tree -/

/-- The nodes are in no tree, nor is one of them the root of the tree in question. -/
structure Loose (r : NodeId) (a : Arena) (xs : List NodeId) : Prop where
  nodup : xs.Nodup
  present : ∀ x ∈ xs, x.index < a.size
  unowned : ∀ x ∈ xs, a.parentOf (some x) = none
  ne_root : ∀ x ∈ xs, x ≠ r

theorem Loose.nil (r : NodeId) (a : Arena) : Loose r a [] := ⟨.nil, by simp, by simp, by simp⟩

theorem Loose.not_within {xs : List NodeId} (h : Loose r a xs) (hr : a.parentOf (some r) = none)
    (hx : x ∈ xs) (hm : ReflTransGen a.OwnedBy m r) : ¬ ReflTransGen a.OwnedBy m x := fun hmx => by
  have hright : Relator.RightUnique a.OwnedBy := fun _ _ _ h h' => h.unique h'
  rcases ReflTransGen.total_of_right_unique hright hm hmx with hrx | hxr
  · rcases ReflTransGen.cases_head hrx with he | ⟨w, hw, -⟩
    · exact h.ne_root x hx he.symm
    · cases hr.symm.trans hw
  · rcases ReflTransGen.cases_head hxr with he | ⟨w, hw, -⟩
    · exact h.ne_root x hx he
    · cases (h.unowned x hx).symm.trans hw

theorem Loose.sublist {xs ys : List NodeId} (h : Loose r a xs)
    (hys : ys.Sublist xs) : Loose r a ys :=
  ⟨h.nodup.sublist hys, fun x hx => h.present x (hys.mem hx), fun x hx => h.unowned x (hys.mem hx),
    fun x hx => h.ne_root x (hys.mem hx)⟩

theorem run_ask_bind {α β : Type} {f : Arena → Except ShapeError α} {g : α → ArenaM β} {y : α}
    (h : f a = .ok y) :
    (ask f >>= g) a = g y a := by
  have hask : ask f a = .ok y a := by
    unfold ask
    rw [run_get_bind, h]
    rfl
  exact run_bind_of_ok hask

theorem wellOwned_of_ok {α : Type} {w : ArenaM α} {y : α} (ha : a.WellOwned)
    (howned : Stays Owned w) (hshaped : Stays Shaped w) (hrun : w a = .ok y b) : b.WellOwned :=
  ⟨(stays_iff.1 howned a ha.owned).of_ok hrun, (stays_iff.1 hshaped a ha.shaped).of_ok hrun⟩

section Writes

variable (ha : a.WellOwned) (hr : a.parentOf (some r) = none) (hm : ReflTransGen a.OwnedBy m r)

include ha hr hm

theorem Loose.attachable {xs : List NodeId} (h : Loose r a xs) (hx : x ∈ xs) :
    a.checkAttachable (some m) (some x) = .ok () :=
  (checkAttachable_iff ha.owned).2 ⟨h.present x hx, h.unowned x hx, h.not_within hr hx hm⟩

theorem Loose.checkInserted {xs : List NodeId} (h : Loose r a xs) :
    a.checkInserted (some m) [] (xs.map some) = .ok () := by
  refine checkInserted_iff.2 ⟨?_, fun c hc => ⟨List.not_mem_nil,
    h.attachable ha hr hm (by simpa using hc)⟩⟩
  rw [List.filterMap_map]
  simpa using h.nodup

/-- Loose nodes can be put into a list. -/
theorem exists_listInsert {xs : List NodeId} (h : Loose r a xs) (hl : a.Lists m list items)
    (hi : i ≤ items.length) :
    ∃ b, listInsert (some m) list i (xs.map some) a = .ok i b ∧ b.WellOwned
      ∧ Overwrites a b m list (.list items)
      (.list (items.take i ++ xs.map some ++ items.drop i)) := by
  have hcheck : (fun a : Arena => a.checkInserted (some m) [] (xs.map some)) a = .ok () :=
    h.checkInserted ha hr hm
  have hrun : ∃ b, listInsert (some m) list i (xs.map some) a = .ok i b := by
    refine ⟨(a.update (some m)
      (·.withValue list (.list (items.take i ++ xs.map some ++ items.drop i)))).setParents
      (xs.map some) (some m), ?_⟩
    unfold listInsert
    rw [run_ask_bind hcheck, run_ask_bind hl.list_eq, Nat.min_eq_left hi]
    rfl
  obtain ⟨b, hrun⟩ := hrun
  obtain ⟨m', old, hm', -, hover, -⟩ :=
    (ends_listInsert_entries ha (some m) list i (xs.map some)).of_ok hrun
  obtain rfl := Option.some.inj hm'
  obtain ⟨k, -, hk, -, hv, -⟩ := hover.get?
  obtain rfl : items = old := hl.unique ⟨k, hk, hv⟩
  exact ⟨b, hrun, wellOwned_of_ok ha (stays_owned_listInsert _ _ _ _)
    (stays_shaped_listInsert _ _ _ _) hrun, hover⟩

theorem exists_listSet (h : Loose r a [x]) (hl : a.Lists m list items)
    (hi : items[i]? = some (some o)) :
    ∃ b, listSet (some m) list i (some x) a = .ok (some o) b ∧ b.WellOwned
      ∧ Overwrites a b m list (.list items) (.list (items.set i (some x))) := by
  have hcheck : (fun a : Arena => a.checkListSet (some m) list i (some x)) a
      = .ok (items, some o) := by
    have hattach := h.attachable ha hr hm (List.mem_singleton_self x)
    show a.checkListSet (some m) list i (some x) = _
    unfold checkListSet
    simp only [hl.list_eq, bind, Except.bind, hi, hattach]
    split <;> rfl
  have hrun : ∃ b, listSet (some m) list i (some x) a = .ok (some o) b := by
    unfold listSet
    rw [run_ask_bind hcheck]
    dsimp only
    split <;> exact ⟨_, rfl⟩
  obtain ⟨b, hrun⟩ := hrun
  obtain ⟨m', old, hm', -, hover⟩ := (ends_listSet ha (some m) list i (some x)).of_ok hrun
  obtain rfl := Option.some.inj hm'
  obtain ⟨k, -, hk, -, hv, -⟩ := hover.get?
  obtain rfl : items = old := hl.unique ⟨k, hk, hv⟩
  exact ⟨b, hrun, wellOwned_of_ok ha (stays_owned_listSet _ _ _ _) (stays_shaped_listSet _ _ _ _)
    hrun, hover⟩

omit hr hm in
theorem exists_listRemove (hl : a.Lists m list items) (hi : items[i]? = some (some o)) :
    ∃ b, listRemove (some m) list i a = .ok (some (some o)) b ∧ b.WellOwned
      ∧ Overwrites a b m list (.list items) (.list (items.eraseIdx i)) := by
  have hrun : ∃ b, listRemove (some m) list i a = .ok (some (some o)) b := by
    have hlist : (fun a : Arena => a.list (some m) list) a = .ok items := hl.list_eq
    unfold listRemove
    rw [run_ask_bind hlist, hi]
    exact ⟨_, rfl⟩
  obtain ⟨b, hrun⟩ := hrun
  obtain ⟨m', k, old, hm', hk, hv, hold, hcases⟩ := (ends_listRemove ha (some m) list i).of_ok hrun
  obtain rfl := Option.some.inj hm'
  obtain rfl : items = old := hl.unique ⟨k, hk, hv⟩
  refine ⟨b, hrun, wellOwned_of_ok ha (stays_owned_listRemove _ _ _)
    (stays_shaped_listRemove _ _ _) hrun, ?_⟩
  obtain ⟨hnone, -⟩ | hover := hcases
  · cases hnone
  · exact hover

end Writes

end ScopedTree.Arena
