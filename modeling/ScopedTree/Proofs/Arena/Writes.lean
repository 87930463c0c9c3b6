import ScopedTree.Arena.Walk
import ScopedTree.Proofs.Arena.Ownership
import ScopedTree.Proofs.Outcome

/-!
# Writes keep ownership single

Each write of children checks first and then changes a slot and the owner links together. None of
them, successful or not, breaks single ownership.

* `Arena.Attachable`, `Arena.checkAttachable_iff`   a node that may come to a slot of another;
* `Arena.stays_owned_alloc`, …    the writes one by one;
* `Arena.Write`, `Arena.runAll`   a call of a write, and a sequence of calls on the empty arena;
* `Arena.owned_runAll`            ownership is single after any sequence of calls.
-/

namespace ScopedTree.Arena

open Relation

variable {α : Type} {a : Arena} {c p q : NodeId} {parent : Option NodeId}

theorem ends_ask {f : Arena → Except ShapeError α} {Q : α → Arena → Prop}
    {E : ShapeError → Arena → Prop} :
    Ends (ask f a) Q E ↔ (∀ x, f a = .ok x → Q x a) ∧ ∀ e, f a = .error e → E e a := by
  unfold ask
  rw [ends_bind, ends_get]
  cases h : f a with
  | ok x => simp [ends_pure]
  | error e => simp [ends_throw]

theorem stays_ask {P : Arena → Prop} (f : Arena → Except ShapeError α) : Stays P (ask f) :=
  stays_iff.2 fun _ h => ends_ask.2 ⟨fun _ _ => h, fun _ _ => h⟩

/-! ## what the checks guarantee -/

theorem checkAttachable_ok {parent : Option NodeId}
    (h : a.checkAttachable parent (some c) = .ok ()) :
    c.index < a.size ∧ a.parentOf (some c) = none ∧ a.isWithin parent (some c) = false := by
  unfold checkAttachable at h
  cases hn : a.node (some c) with
  | error e => simp [hn, bind, Except.bind] at h
  | ok n =>
    have hl : a.get? c = some n := node_ok.1 hn
    cases hp : n.parent <;> cases hw : a.isWithin parent (some c) <;>
      simp_all [bind, Except.bind, parentOf_some, get?_eq_some_lt hl]

theorem free_of_checkAttachable (ha : a.Owned) (h : a.checkAttachable (some p) (some c) = .ok ()) :
    a.parentOf (some c) = none ∧ ¬ ReflTransGen a.OwnedBy p c := by
  obtain ⟨_, hp, hw⟩ := checkAttachable_ok h
  refine ⟨hp, fun hr => ?_⟩
  rw [(isWithin_iff ha).2 hr] at hw
  cases hw

/-- A node without an owner that is not `p` and not above it. -/
structure Attachable (a : Arena) (p c : NodeId) : Prop where
  present : c.index < a.size
  unowned : a.parentOf (some c) = none
  not_above : ¬ ReflTransGen a.OwnedBy p c

theorem checkAttachable_iff (ha : a.Owned) :
    a.checkAttachable (some p) (some c) = .ok () ↔ a.Attachable p c := by
  constructor
  · intro h
    obtain ⟨hfree, habove⟩ := free_of_checkAttachable ha h
    exact ⟨(checkAttachable_ok h).1, hfree, habove⟩
  · intro h
    obtain ⟨k, hk⟩ := Option.isSome_iff_exists.1 (isSome_get?_iff.2 h.present)
    have hnode : a.node (some c) = .ok k := node_ok.2 hk
    have hfree : k.parent = none := by
      have hfree := h.unowned
      rwa [parentOf_some, hk] at hfree
    have hout : a.isWithin (some p) (some c) = false := by
      rw [Bool.eq_false_iff]
      exact fun hin => h.not_above ((isWithin_iff ha).1 hin)
    simp [checkAttachable, hnode, hfree, hout, bind, Except.bind, pure, Except.pure]

theorem checkUnowned_ok : ∀ {ids : List NodeId}, a.checkUnowned ids = .ok () → ∀ c ∈ ids,
    c.index < a.size ∧ a.parentOf (some c) = none
  | [], _, c, hc => by simp at hc
  | id :: ids, h, c, hc => by
    unfold checkUnowned at h
    cases hn : a.node (some id) with
    | error e => simp [hn, bind, Except.bind] at h
    | ok n =>
      have hl : a.get? id = some n := node_ok.1 hn
      cases hp : n.parent with
      | some o => simp [hn, hp, bind, Except.bind] at h
      | none =>
        have hrest : a.checkUnowned ids = .ok () := by
          simpa [hn, hp, bind, Except.bind] using h
        rcases List.mem_cons.1 hc with rfl | hc
        · exact ⟨get?_eq_some_lt hl, by rw [parentOf_some, hl]; exact hp⟩
        · exact checkUnowned_ok hrest c hc

theorem checkUnowned_iff {ids : List NodeId} :
    a.checkUnowned ids = .ok () ↔ ∀ c ∈ ids, c.index < a.size ∧ a.parentOf (some c) = none := by
  refine ⟨checkUnowned_ok, fun h => ?_⟩
  induction ids with
  | nil => rfl
  | cons c ids ih =>
    obtain ⟨hlt, hfree⟩ := h c (List.mem_cons_self ..)
    obtain ⟨k, hk⟩ := Option.isSome_iff_exists.1 (isSome_get?_iff.2 hlt)
    rw [parentOf_some, hk, Option.bind_some] at hfree
    have hnode : a.node (some c) = .ok k := node_ok.2 hk
    have hrest := ih fun d hd => h d (List.mem_cons_of_mem _ hd)
    simp [checkUnowned, hnode, hfree, hrest, bind, Except.bind]

theorem checkDistinct_ok : ∀ {seen ids : List NodeId}, checkDistinct seen ids = .ok () →
    ids.Nodup ∧ ∀ c ∈ ids, c ∉ seen
  | _, [], _ => ⟨.nil, by simp⟩
  | seen, id :: ids, h => by
    unfold checkDistinct at h
    split at h
    · cases h
    · next hid =>
      obtain ⟨hnd, hns⟩ := checkDistinct_ok h
      refine ⟨List.nodup_cons.2 ⟨fun hm => hns id hm (List.mem_cons_self ..), hnd⟩, ?_⟩
      intro c hc
      rcases List.mem_cons.1 hc with rfl | hc
      · simpa using hid
      · exact fun hm => hns c hc (List.mem_cons_of_mem _ hm)

theorem checkDistinct_iff {seen ids : List NodeId} :
    checkDistinct seen ids = .ok () ↔ ids.Nodup ∧ ∀ c ∈ ids, c ∉ seen := by
  refine ⟨checkDistinct_ok, fun h => ?_⟩
  induction ids generalizing seen with
  | nil => rfl
  | cons c ids ih =>
    obtain ⟨hnd, hnew⟩ := h
    obtain ⟨hc, hnd⟩ := List.nodup_cons.1 hnd
    have hseen : ¬ seen.contains c := by simpa using hnew c (List.mem_cons_self ..)
    rw [checkDistinct, if_neg hseen]
    refine ih ⟨hnd, fun d hd hmem => ?_⟩
    rcases List.mem_cons.1 hmem with rfl | hmem
    · exact hc hd
    · exact hnew d (List.mem_cons_of_mem _ hd) hmem

theorem checkAlloc_ok {ty : NodeType} {values : List Value} (h : a.checkAlloc ty values = .ok ()) :
    values.length = ty.fields.length ∧ checkFields ty ty.fields values = .ok ()
      ∧ (values.flatMap Value.children).Nodup
      ∧ ∀ c ∈ values.flatMap Value.children, c.index < a.size ∧ a.parentOf (some c) = none := by
  unfold checkAlloc at h
  by_cases hl : values.length = ty.fields.length
  · rw [if_neg (not_not.2 hl)] at h
    obtain ⟨_, hf, h⟩ := bind_eq_ok.1 h
    obtain ⟨_, hu, hd⟩ := bind_eq_ok.1 h
    exact ⟨hl, hf, (checkDistinct_ok hd).1, checkUnowned_ok hu⟩
  · rw [if_pos hl] at h
    cases h

theorem checkSetChild_ok {parent child old : Option NodeId} {field : String}
    (h : a.checkSetChild parent field child = .ok old) :
    ∃ n, a.look parent = some n ∧ n.value? field = some (.node old)
      ∧ (old ≠ child → a.checkAttachable parent child = .ok ()) := by
  unfold checkSetChild at h
  obtain ⟨n, hn, h⟩ := bind_eq_ok.1 h
  refine ⟨n, node_ok.1 hn, ?_⟩
  have key : ((n.child field >>= fun old => do
      if old != child then a.checkAttachable parent child
      return old) = Except.ok old) := by
    cases hf : n.type.field? field with
    | none => simp [hf, bind, Except.bind] at h
    | some f =>
      cases hk : f.kind <;> cases child <;> simp_all [bind, Except.bind, pure, Except.pure]
  obtain ⟨o, ho, h⟩ := bind_eq_ok.1 key
  by_cases hne : o = child
  · subst hne
    obtain rfl : o = old := by simpa [pure, Except.pure] using h
    exact ⟨Node.child_ok ho, fun hne => absurd rfl hne⟩
  · rw [if_pos (bne_iff_ne.2 hne)] at h
    obtain ⟨_, hc, h⟩ := bind_eq_ok.1 h
    obtain rfl : o = old := by simpa [pure, Except.pure] using h
    exact ⟨Node.child_ok ho, fun _ => hc⟩

theorem list_ok {parent : Option NodeId} {field : String} {items : List (Option NodeId)}
    (h : a.list parent field = .ok items) :
    ∃ p n, parent = some p ∧ a.get? p = some n ∧ n.value? field = some (.list items) := by
  unfold list at h
  obtain ⟨n, hn, hi⟩ := bind_eq_ok.1 h
  have hl := node_ok.1 hn
  cases parent with
  | none => cases hl
  | some p => exact ⟨p, n, rfl, hl, Node.list_ok hi⟩

theorem checkInserted_ok {parent : Option NodeId} :
    ∀ {items seen : List (Option NodeId)}, a.checkInserted parent seen items = .ok () →
      (items.filterMap id).Nodup ∧ ∀ c, some c ∈ items →
        some c ∉ seen ∧ a.checkAttachable parent (some c) = .ok ()
  | [], _, _ => ⟨.nil, by simp⟩
  | item :: items, seen, h => by
    unfold checkInserted at h
    cases item with
    | none =>
      obtain ⟨_, _, h⟩ := bind_eq_ok.1 h
      obtain ⟨hnd, hin⟩ := checkInserted_ok h
      refine ⟨hnd, fun c hc => ?_⟩
      have hc : some c ∈ items := by simpa using hc
      exact ⟨fun hm => (hin c hc).1 (List.mem_cons_of_mem _ hm), (hin c hc).2⟩
    | some d =>
      by_cases hs : seen.contains (some d)
      · simp only [if_pos hs] at h
        cases h
      · simp only [if_neg hs] at h
        obtain ⟨_, hd, h⟩ := bind_eq_ok.1 h
        obtain ⟨hnd, hin⟩ := checkInserted_ok h
        refine ⟨List.nodup_cons.2 ⟨fun hm => ?_, hnd⟩, fun c hc => ?_⟩
        · obtain ⟨o, ho, rfl⟩ : ∃ o ∈ items, o = some d := by simpa using hm
          exact (hin d ho).1 (List.mem_cons_self ..)
        · rcases List.mem_cons.1 hc with hc | hc
          · obtain rfl := Option.some.inj hc
            exact ⟨by simpa using hs, hd⟩
          · exact ⟨fun hm => (hin c hc).1 (List.mem_cons_of_mem _ hm), (hin c hc).2⟩

theorem checkInserted_iff {items seen : List (Option NodeId)} :
    a.checkInserted parent seen items = .ok () ↔ (items.filterMap id).Nodup ∧ ∀ c, some c ∈ items →
      some c ∉ seen ∧ a.checkAttachable parent (some c) = .ok () := by
  refine ⟨checkInserted_ok, fun h => ?_⟩
  induction items generalizing seen with
  | nil => rfl
  | cons item items ih =>
    obtain ⟨hnd, hin⟩ := h
    cases item with
    | none =>
      refine ih ⟨hnd, fun c hc => ⟨fun hmem => ?_, (hin c (List.mem_cons_of_mem _ hc)).2⟩⟩
      exact (hin c (List.mem_cons_of_mem _ hc)).1 (by simpa using hmem)
    | some d =>
      obtain ⟨hd, hnd⟩ := List.nodup_cons.1 (show (d :: items.filterMap id).Nodup from hnd)
      obtain ⟨hnew, hattach⟩ := hin d (List.mem_cons_self ..)
      have hseen : ¬ seen.contains (some d) := by simpa using hnew
      have hrest : a.checkInserted parent (some d :: seen) items = .ok () := by
        refine ih ⟨hnd, fun c hc => ⟨fun hmem => ?_, (hin c (List.mem_cons_of_mem _ hc)).2⟩⟩
        rcases List.mem_cons.1 hmem with he | hmem
        · obtain rfl := Option.some.inj he
          exact hd (List.mem_filterMap.2 ⟨some c, hc, rfl⟩)
        · exact (hin c (List.mem_cons_of_mem _ hc)).1 hmem
      rw [checkInserted]
      simp only [if_neg hseen, hattach]
      exact hrest

theorem checkListSet_ok {parent item old : Option NodeId} {field : String} {index : Nat}
    {items : List (Option NodeId)} (h : a.checkListSet parent field index item = .ok (items, old)) :
    a.list parent field = .ok items ∧ items[index]? = some old
      ∧ (old ≠ item → a.checkAttachable parent item = .ok ()) := by
  unfold checkListSet at h
  obtain ⟨l, hl, h⟩ := bind_eq_ok.1 h
  cases hi : l[index]? with
  | none => simp [hi] at h
  | some o =>
    rw [hi] at h
    by_cases hne : o = item
    · subst hne
      obtain ⟨rfl, rfl⟩ : l = items ∧ o = old := by simpa [pure, Except.pure] using h
      exact ⟨hl, hi, fun hne => absurd rfl hne⟩
    · simp only [bne_iff_ne.2 hne, if_true] at h
      obtain ⟨_, hc, h⟩ := bind_eq_ok.1 h
      obtain ⟨rfl, rfl⟩ : l = items ∧ o = old := by simpa [pure, Except.pure] using h
      exact ⟨hl, hi, fun _ => hc⟩

/-! ## the writes one by one -/

theorem count_single [BEq α] [LawfulBEq α] [DecidableEq α] (x y : α) :
    [x].count y = if y = x then 1 else 0 := by
  rw [List.count_singleton]
  by_cases h : y = x
  · simp [h]
  · simp [h, Ne.symm h]

theorem count_children_node (o : Option NodeId) (c : NodeId) :
    (Value.node o).children.count c = if some c = o then 1 else 0 := by
  cases o with
  | none => rfl
  | some d =>
    show [d].count c = _
    rw [count_single]
    simp

theorem count_children_list (items : List (Option NodeId)) (c : NodeId) :
    (Value.list items).children.count c = items.count (some c) := by
  show (items.filterMap id).count c = _
  induction items with
  | nil => rfl
  | cons item items ih =>
    cases item with
    | none => simpa using ih
    | some d =>
      show (d :: items.filterMap id).count c = _
      rw [List.count_cons, List.count_cons, ih]
      simp

theorem count_eraseIdx {old : List (Option NodeId)} {index : Nat} {x : Option NodeId}
    (h : old[index]? = some x) (y : Option NodeId) :
    (old.eraseIdx index).count y + (if y = x then 1 else 0) = old.count y := by
  obtain ⟨hi, rfl⟩ := List.getElem?_eq_some_iff.1 h
  have hsplit := List.take_append_drop index old
  rw [List.drop_eq_getElem_cons hi] at hsplit
  have hc := congrArg (List.count y) hsplit
  rw [List.count_append, List.count_cons] at hc
  rw [List.eraseIdx_eq_take_drop_succ, List.count_append, ← hc]
  by_cases hy : y = old[index]
  · simp [hy]
    omega
  · simp [hy, Ne.symm hy]

theorem count_set {old : List (Option NodeId)} {index : Nat} {x : Option NodeId}
    (h : old[index]? = some x) (new y : Option NodeId) :
    (old.set index new).count y + (if y = x then 1 else 0)
      = old.count y + (if y = new then 1 else 0) := by
  have hc := count_flatMap_set (fun x => [x]) y new old index h
  rw [List.flatMap_singleton', List.flatMap_singleton', count_single, count_single] at hc
  exact hc

theorem mem_set_iff {old : List (Option NodeId)} {index : Nat} {x new y : Option NodeId}
    (h : old[index]? = some x) (hone : old.count y ≤ 1) (hne : y ≠ new) :
    y ∈ old.set index new ↔ y ∈ old ∧ x ≠ y := by
  have hc := count_set h new y
  rw [if_neg hne] at hc
  rw [← List.count_pos_iff, ← List.count_pos_iff]
  by_cases hx : y = x
  · rw [if_pos hx] at hc
    exact iff_of_false (by omega) fun hy => hy.2 hx.symm
  · rw [if_neg hx] at hc
    rw [and_iff_left (Ne.symm hx)]
    omega

theorem free_of_check (ha : a.Owned) {item : Option NodeId}
    (h : a.checkAttachable (some p) item = .ok ()) {c : NodeId} (hc : item = some c) :
    c.index < a.size ∧ a.parentOf (some c) = none ∧ ¬ ReflTransGen a.OwnedBy p c := by
  subst hc
  exact ⟨(checkAttachable_ok h).1, free_of_checkAttachable ha h⟩

theorem stays_owned_setChild (parent : Option NodeId) (field : String) (child : Option NodeId) :
    Stays Owned (setChild parent field child) := by
  refine stays_iff.2 fun a ha => ?_
  unfold setChild
  rw [ends_bind, ends_ask]
  refine ⟨fun old h => ?_, fun _ _ => ha⟩
  obtain ⟨n, hn, hv, hc⟩ := checkSetChild_ok h
  by_cases hne : old = child
  · simpa [hne, ends_pure] using ha
  · simp only [bne_iff_ne.2 hne, if_true]
    rw [ends_bind, ends_modify, ends_pure]
    cases parent with
    | none => cases hn
    | some p =>
      refine ha.overwrite (.node child) [old] [child] hn hv ?_ ?_ ?_
      · intro c
        simp only [count_children_node, List.mem_singleton]
        by_cases h : some c = child <;> simp [h]
      · intro c hc
        rw [← List.count_pos_iff, count_children_node, if_pos (List.mem_singleton.1 hc)]
        exact Nat.one_pos
      · intro c hc'
        exact free_of_check ha (hc hne) (List.mem_singleton.1 hc').symm

theorem stays_owned_listInsert (parent : Option NodeId) (field : String) (index : Nat)
    (items : List (Option NodeId)) : Stays Owned (listInsert parent field index items) := by
  refine stays_iff.2 fun a ha => ?_
  unfold listInsert
  rw [ends_bind, ends_ask]
  refine ⟨fun _ h => ?_, fun _ _ => ha⟩
  rw [ends_bind, ends_ask]
  refine ⟨fun old hl => ?_, fun _ _ => ha⟩
  rw [ends_bind, ends_modify, ends_pure]
  obtain ⟨hnd, hin⟩ := checkInserted_ok h
  obtain ⟨p, n, rfl, hn, hv⟩ := list_ok hl
  have hfree : ∀ c, some c ∈ items → c.index < a.size ∧ a.parentOf (some c) = none
      ∧ ¬ ReflTransGen a.OwnedBy p c := fun c hc => free_of_check ha (hin c hc).2 rfl
  refine ha.overwrite (.list (old.take (min index old.length) ++ items
    ++ old.drop (min index old.length))) [] items hn hv ?_ (by simp) hfree
  intro c
  have hsplit : (old.take (min index old.length)).count (some c)
      + (old.drop (min index old.length)).count (some c) = old.count (some c) := by
    rw [← List.count_append, List.take_append_drop]
  have hone : items.count (some c) ≤ 1 := by
    rw [← count_children_list]
    exact List.nodup_iff_count_le_one.1 hnd c
  rw [count_children_list, count_children_list, List.count_append, List.count_append]
  by_cases hc : some c ∈ items
  · have hpos := List.count_pos_iff.2 hc
    have h0 := ha.count_field_eq_zero hn hv (hfree c hc).2.1
    rw [count_children_list] at h0
    rw [if_pos hc]
    omega
  · have h0 := List.count_eq_zero.2 hc
    rw [if_neg hc, if_neg List.not_mem_nil]
    omega

theorem stays_owned_listRemove (parent : Option NodeId) (field : String) (index : Nat) :
    Stays Owned (listRemove parent field index) := by
  refine stays_iff.2 fun a ha => ?_
  unfold listRemove
  rw [ends_bind, ends_ask]
  refine ⟨fun old hl => ?_, fun _ _ => ha⟩
  obtain ⟨p, n, rfl, hn, hv⟩ := list_ok hl
  cases hi : old[index]? with
  | none => exact ha
  | some removed =>
    simp only [ends_bind, ends_modify, ends_pure]
    refine ha.overwrite (.list (old.eraseIdx index)) [removed] [] hn hv
      ?_ ?_ (by simp)
    · intro c
      have hone := ha.count_field_le_one hn hv c
      have herase := count_eraseIdx hi (some c)
      rw [count_children_list] at hone ⊢
      rw [if_neg List.not_mem_nil, count_children_list]
      by_cases h : some c = removed
      · rw [if_pos h] at herase
        rw [if_pos (List.mem_singleton.2 h)]
        omega
      · rw [if_neg h] at herase
        rw [if_neg fun hm => h (List.mem_singleton.1 hm)]
        exact herase
    · intro c hc
      obtain rfl := List.mem_singleton.1 hc
      rw [← List.count_pos_iff, count_children_list, List.count_pos_iff]
      exact List.mem_of_getElem? hi

theorem stays_owned_listSet (parent : Option NodeId) (field : String) (index : Nat)
    (item : Option NodeId) : Stays Owned (listSet parent field index item) := by
  refine stays_iff.2 fun a ha => ?_
  unfold listSet
  rw [ends_bind, ends_ask]
  refine ⟨fun (items, old) h => ?_, fun _ _ => ha⟩
  obtain ⟨hl, hi, hc⟩ := checkListSet_ok h
  obtain ⟨p, n, rfl, hn, hv⟩ := list_ok hl
  by_cases hne : old = item
  · simpa [hne, ends_pure] using ha
  · simp only [bne_iff_ne.2 hne, if_true]
    rw [ends_bind, ends_modify, ends_pure]
    refine ha.overwrite (.list (items.set index item)) [old] [item] hn hv
      ?_ ?_ ?_
    · intro c
      have hone := ha.count_field_le_one hn hv c
      have hset := count_set hi item (some c)
      rw [count_children_list] at hone
      simp only [count_children_list, List.mem_singleton]
      by_cases h : some c = item
      · have h0 := ha.count_field_eq_zero hn hv (free_of_check ha (hc hne) h.symm).2.1
        rw [count_children_list] at h0
        have hold : some c ≠ old := fun ho => hne (ho.symm.trans h)
        rw [if_pos h, if_neg hold] at hset
        rw [if_pos h]
        omega
      · rw [if_neg h] at hset ⊢
        by_cases ho : some c = old
        · rw [if_pos ho] at hset ⊢
          omega
        · rw [if_neg ho] at hset ⊢
          exact hset
    · intro c hc'
      obtain rfl := List.mem_singleton.1 hc'
      rw [← List.count_pos_iff, count_children_list, List.count_pos_iff]
      exact List.mem_of_getElem? hi
    · intro c hc'
      exact free_of_check ha (hc hne) (List.mem_singleton.1 hc').symm

theorem children_withoutChild (c : NodeId) (v : Value) :
    (withoutChild c v).children = v.children.filter (· != c) := by
  cases v with
  | node child =>
    cases child with
    | none => simp [withoutChild, Value.children, Value.handles]
    | some d =>
      by_cases h : d = c <;> simp [withoutChild, Value.children, Value.handles, h]
  | list items =>
    show (items.filter (· != some c)).filterMap id = (items.filterMap id).filter (· != c)
    rw [List.filterMap_filter, List.filter_filterMap]
    congr 1
    funext item
    cases item with
    | none => simp
    | some d => by_cases h : d = c <;> simp [Option.filter, h]
  | _ => rfl

theorem stays_owned_take (id : Option NodeId) : Stays Owned (take id) := by
  refine stays_iff.2 fun a ha => ?_
  unfold take
  rw [ends_bind, ends_ask]
  refine ⟨fun n hn => ?_, fun _ _ => ha⟩
  have hl := node_ok.1 hn
  cases id with
  | none => cases hl
  | some c =>
    cases hp : n.parent with
    | none => exact ha
    | some owner =>
      simp only [ends_bind, ends_modify, ends_ask]
      refine ⟨fun o ho => ?_, fun _ _ => ha⟩
      have ho : a.get? owner = some o := node_ok.1 ho
      have hown : a.OwnedBy c owner := by
        show a.parentOf (some c) = some owner
        rw [parentOf_some, show a.get? c = some n from hl]
        exact hp
      refine ha.rewire (p := owner) [] [c] ?_ ?_ ?_ ?_ (by simp)
      · intro q hq
        rw [children_setParent, children_update, if_neg hq]
      · intro d
        have hflat : (o.values.map (withoutChild c)).flatMap Value.children
            = o.children.filter (· != c) := by
          rw [List.flatMap_map, Node.children_eq, List.filter_flatMap]
          exact congrArg (o.values.flatMap ·) (funext (children_withoutChild c))
        rw [children_setParent, children_update, if_pos rfl, ho, if_neg List.not_mem_nil]
        show ((o.values.map (withoutChild c)).flatMap Value.children).count d = _
        rw [hflat, children_some, ho]
        by_cases hd : d = c
        · rw [if_pos (List.mem_singleton.2 hd), List.count_eq_zero]
          simp [hd]
        · rw [if_neg fun hm => hd (List.mem_singleton.1 hm), List.count_filter (by simpa using hd)]
          rfl
      · intro d
        have hkeep := parentOf_update_of_eq (a := a) (q := d)
          (f := fun o => { o with values := o.values.map (withoutChild c) }) (fun _ => rfl)
          (some owner)
        rw [parentOf_setParent, size_update, hkeep, if_neg List.not_mem_nil]
        by_cases hd : d = c
        · subst hd
          rw [if_pos ⟨rfl, hown.lt⟩, if_pos (List.mem_singleton_self d)]
        · rw [if_neg fun h => hd (Option.some.inj h.1), if_neg fun hm =>
            hd (List.mem_singleton.1 hm)]
      · intro d hd
        obtain rfl := List.mem_singleton.1 hd
        exact hown

/-! ## new nodes -/

theorem get?_push (a : Arena) (m : Node) (q : NodeId) :
    ({ a with nodes := a.nodes.push m } : Arena).get? q
      = if q = ⟨a.size⟩ then some m else a.get? q := by
  show (a.nodes.push m)[q.index]? = _
  rw [Array.getElem?_push]
  by_cases h : q = ⟨a.size⟩
  · subst h
    simp [size]
  · have hi : q.index ≠ a.nodes.size := fun hi => h (by cases q; simp_all [size])
    rw [if_neg hi, if_neg h]
    rfl

theorem get?_fresh (a : Arena) : a.get? ⟨a.size⟩ = none := by
  simp [get?, size]

/-- A new node takes over nodes that had no owner. -/
theorem stays_owned_alloc (ty : NodeType) (values : List Value) :
    Stays Owned (alloc ty values) := by
  refine stays_iff.2 fun a ha => ?_
  unfold alloc
  rw [ends_bind, ends_ask]
  refine ⟨fun _ h => ?_, fun _ _ => ha⟩
  rw [ends_modifyGet]
  obtain ⟨_, _, hnd, hfree⟩ := checkAlloc_ok h
  have hchildren : ∀ m : Node, m.values = values → m.children = values.flatMap Value.children := by
    rintro m rfl
    rfl
  refine ha.rewire (p := ⟨a.size⟩) (values.flatMap Value.children) [] ?_ ?_ ?_
    (by simp) ?_
  · intro q hq
    rw [children_setParents, children_some, get?_push, if_neg hq]
    rfl
  · intro c
    rw [children_setParents, children_some, get?_push, if_pos rfl, if_neg List.not_mem_nil,
      children_some, get?_fresh]
    show (values.flatMap Value.children).count c = _
    by_cases hc : c ∈ values.flatMap Value.children
    · rw [if_pos hc, List.count_eq_one_of_mem hnd hc]
    · rw [if_neg hc, List.count_eq_zero_of_not_mem hc]
      rfl
  · intro c
    rw [parentOf_setParents, if_neg List.not_mem_nil, hchildren _ rfl]
    by_cases hc : c ∈ values.flatMap Value.children
    · have hlt : c.index < a.size + 1 := Nat.lt_succ_of_lt (hfree c hc).1
      rw [if_pos ⟨List.mem_map_of_mem hc, by simpa [size] using hlt⟩, if_pos hc]
    · have hn : some c ∉ (values.flatMap Value.children).map some := by
        rw [List.mem_map_of_injective (Option.some_injective _)]
        exact hc
      rw [if_neg fun h => hn h.1, if_neg hc, parentOf_some, parentOf_some, get?_push]
      by_cases hf : c = ⟨a.size⟩
      · rw [if_pos hf, hf, get?_fresh]
        rfl
      · rw [if_neg hf]
  · intro c hc
    refine ⟨(hfree c hc).2, fun hr => ?_⟩
    -- the new node has no owner yet, so the way up from it ends at once
    rcases ReflTransGen.cases_head hr with h | ⟨m, hm, _⟩
    · exact absurd (hfree c hc).1 (by rw [← h]; exact Nat.lt_irrefl _)
    · obtain ⟨n, hn, _⟩ := hm.get?
      rw [get?_fresh] at hn
      cases hn

/-- A copy keeps what is kept by new nodes and by changes of positions, comments and extra data. -/
theorem Stays.cloneLevels {P : Arena → Prop} (halloc : ∀ ty values, Stays P (alloc ty values))
    (hdata : ∀ a id (f : Node → Node), (∀ m, (f m).type = m.type ∧ (f m).values = m.values
      ∧ (f m).parent = m.parent) → P a → P (a.update id f)) (metadata : Bool) :
    ∀ (fuel : Nat) (root : Option NodeId), Stays P (cloneLevels metadata fuel root)
  | 0, root => stays_throw _
  | fuel + 1, root => by
    have ih := Stays.cloneLevels halloc hdata metadata fuel
    unfold Arena.cloneLevels
    refine (stays_ask _).bind fun n => Stays.bind ?_ fun values => ?_
    · refine Stays.mapM (fun v => ?_) n.values
      cases v with
      | node child =>
        cases child with
        | none => exact stays_pure _
        | some c => exact (ih (some c)).bind fun _ => stays_pure _
      | list items =>
        refine Stays.bind (Stays.mapM (fun item => ?_) items) fun _ => stays_pure _
        cases item with
        | none => exact stays_pure _
        | some c => exact (ih (some c)).bind fun _ => stays_pure _
      | _ => exact stays_pure _
    · refine (halloc n.type values).bind fun copy => ?_
      cases metadata with
      | false => exact stays_pure _
      | true =>
        refine (stays_modify fun a ha => ?_).bind fun _ => stays_pure _
        exact hdata a _ _ (fun _ => ⟨rfl, rfl, rfl⟩) ha

theorem stays_owned_cloneDeep (root : Option NodeId) (metadata : Bool) :
    Stays Owned (cloneDeep root metadata) := by
  refine Stays.bind (fun _ h => h) fun a => Stays.cloneLevels stays_owned_alloc ?_ metadata _ root
  intro a id f hf ha
  refine ha.of_eq (fun q => children_update_of_eq (fun m => ?_) id)
    fun q => parentOf_update_of_eq (fun m => (hf m).2.2) id
  rw [Node.children_eq, (hf m).2.1]
  rfl

/-! ## sequences of writes -/

/-- A call of one of the operations that write children. -/
inductive Write where
  | alloc (ty : NodeType) (values : List Value)
  | setChild (parent : Option NodeId) (field : String) (child : Option NodeId)
  | listInsert (parent : Option NodeId) (field : String) (index : Nat)
      (items : List (Option NodeId))
  | listRemove (parent : Option NodeId) (field : String) (index : Nat)
  | listSet (parent : Option NodeId) (field : String) (index : Nat) (item : Option NodeId)
  | take (id : Option NodeId)
  | cloneDeep (root : Option NodeId) (metadata : Bool)

/-- The arena after a call, successful or not. -/
def Write.run (a : Arena) : Write → Arena
  | alloc ty values => final (Arena.alloc ty values a)
  | setChild parent field child => final (Arena.setChild parent field child a)
  | listInsert parent field index items => final (Arena.listInsert parent field index items a)
  | listRemove parent field index => final (Arena.listRemove parent field index a)
  | listSet parent field index item => final (Arena.listSet parent field index item a)
  | take id => final (Arena.take id a)
  | cloneDeep root metadata => final (Arena.cloneDeep root metadata a)

/-- The arena after a sequence of calls on the empty arena. -/
def runAll (calls : List Write) : Arena := calls.foldl Write.run {}

theorem Owned.run (ha : a.Owned) (w : Write) : (w.run a).Owned := by
  cases w with
  | alloc ty values => exact stays_owned_alloc ty values a ha
  | setChild parent field child => exact stays_owned_setChild parent field child a ha
  | listInsert parent field index items =>
    exact stays_owned_listInsert parent field index items a ha
  | listRemove parent field index => exact stays_owned_listRemove parent field index a ha
  | listSet parent field index item => exact stays_owned_listSet parent field index item a ha
  | take id => exact stays_owned_take id a ha
  | cloneDeep root metadata => exact stays_owned_cloneDeep root metadata a ha

theorem Owned.foldl_run (ha : a.Owned) (calls : List Write) : (calls.foldl Write.run a).Owned := by
  induction calls generalizing a with
  | nil => exact ha
  | cons w calls ih => exact ih (ha.run w)

/-- **Single ownership.** After any calls, successful or failing, what a node lists is a node that
names it as its owner, an owner lists the node in one place of all its fields, and no owner links
lead around. -/
theorem owned_runAll (calls : List Write) : (runAll calls).Owned := owned_empty.foldl_run calls

end ScopedTree.Arena
