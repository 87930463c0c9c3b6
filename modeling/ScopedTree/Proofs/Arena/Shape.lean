import Mathlib.Data.List.Forall2
import ScopedTree.Proofs.Arena.Writes

/-!
# Nodes that fit their types

Every node that was made by the writes of the arena has one value for each field of its type, and
the value fits the field.

* `Node.Shaped`, `Arena.Shaped`      the values of a node, of all nodes, fit the schema;
* `Node.Shaped.children_eq`          the children of a node, field by field;
* `Arena.WellOwned`                  single ownership of nodes that fit their types;
* `Arena.wellOwned_runAll`           both hold after any sequence of writes.
-/

namespace ScopedTree

/-- Every field of the type has one value and the value fits it. -/
def Node.Shaped (n : Node) : Prop :=
  List.Forall₂ (fun (f : Field) (v : Value) => v.fits f.kind) n.type.fields n.values

def Node.fieldChildren (n : Node) (field : String) : List NodeId :=
  (n.value? field).elim [] Value.children

theorem NodeType.nodup_fields (ty : NodeType) : (ty.fields.map (·.name)).Nodup := by
  cases ty <;> decide

theorem NodeType.length_childFields_le (ty : NodeType) : ty.childFields.length ≤ 8 := by
  cases ty <;> decide

namespace Node

variable {n : Node} {field : String}

theorem Shaped.values_eq (h : n.Shaped) :
    n.values.map some = n.type.fields.map fun f => n.value? f.name := by
  refine List.ext_getElem (by simpa using h.length_eq.symm) fun i hi hi' => ?_
  rw [List.length_map] at hi hi'
  have hpos : n.type.fieldPosition? n.type.fields[i].name = some i := by
    rw [NodeType.fieldPosition?, List.findIdx?_eq_some_iff_getElem]
    refine ⟨hi', by simp, fun j hj => ?_⟩
    have hne := List.pairwise_iff_getElem.1 n.type.nodup_fields j i (by simpa using by omega)
      (by simpa using hi') hj
    simpa using hne
  rw [List.getElem_map, List.getElem_map, value?, hpos, Option.bind_some,
    List.getElem?_eq_getElem hi]

theorem Shaped.value?_of_mem (h : n.Shaped) {f : Field} (hf : f ∈ n.type.fields) :
    ∃ v, n.value? f.name = some v ∧ v.fits f.kind := by
  obtain ⟨i, hi, rfl⟩ := List.getElem_of_mem hf
  have hlen := h.length_eq
  have hv : i < n.values.length := by omega
  have heq := congrArg (·[i]?) h.values_eq
  simp only [List.getElem?_map, List.getElem?_eq_getElem hi, List.getElem?_eq_getElem hv,
    Option.map_some, Option.some.injEq] at heq
  exact ⟨n.values[i], heq.symm, (List.forall₂_iff_get.1 h).2 i hi hv⟩

theorem children_of_not_isChild {v : Value} {k : FieldKind} (h : v.fits k)
    (hk : k.isChild = false) : v.children = [] := by
  cases v <;> cases k <;> simp_all [Value.fits, FieldKind.isChild, Value.children, Value.handles]

/-- The children of a node are those in its child fields, in schema order. -/
theorem Shaped.children_eq (h : n.Shaped) :
    n.children = n.type.childFields.flatMap fun f => n.fieldChildren f.name := by
  have hall : n.children = n.type.fields.flatMap fun f => n.fieldChildren f.name := by
    have hv : n.values.flatMap Value.children
        = (n.values.map some).flatMap fun v => v.elim [] Value.children := by
      rw [List.flatMap_map]
      rfl
    rw [Node.children_eq, hv, h.values_eq, List.flatMap_map]
    rfl
  have hskip : ∀ l : List Field, (∀ f ∈ l, f ∈ n.type.fields) →
      l.flatMap (fun f => n.fieldChildren f.name)
        = (l.filter (·.kind.isChild)).flatMap fun f => n.fieldChildren f.name := by
    intro l hl
    induction l with
    | nil => rfl
    | cons f l ih =>
      have ih := ih fun g hg => hl g (List.mem_cons_of_mem _ hg)
      obtain ⟨v, hv, hfit⟩ := h.value?_of_mem (hl f (List.mem_cons_self ..))
      cases hk : f.kind.isChild with
      | true => rw [List.filter_cons_of_pos (by simpa using hk), List.flatMap_cons,
          List.flatMap_cons, ih]
      | false =>
        have hnil : n.fieldChildren f.name = [] := by
          rw [fieldChildren, hv]
          exact children_of_not_isChild hfit hk
        rw [List.filter_cons_of_neg (by simpa using hk), List.flatMap_cons, hnil, ih]
        rfl
  rw [hall]
  exact hskip _ fun _ hf => hf

theorem fieldChildren_sublist (n : Node) (field : String) :
    (n.fieldChildren field).Sublist n.children := by
  unfold fieldChildren
  cases hv : n.value? field with
  | none => exact List.nil_sublist _
  | some v =>
    obtain ⟨i, _, hi⟩ := Option.bind_eq_some_iff.1 hv
    rw [Node.children_eq, List.flatMap_def]
    exact List.sublist_flatten_of_mem (List.mem_map_of_mem (List.mem_of_getElem? hi))

theorem Shaped.withValue (h : n.Shaped) {old new : Value} (hv : n.value? field = some old)
    (hfit : ∀ k, old.fits k → new.fits k) : (n.withValue field new).Shaped := by
  obtain ⟨i, hi, hiv⟩ := Option.bind_eq_some_iff.1 hv
  have hw : n.withValue field new = { n with values := n.values.set i new } := by
    rw [Node.withValue, hi]
  obtain ⟨hlen, hget⟩ := List.forall₂_iff_get.1 h
  obtain ⟨hlt, rfl⟩ := List.getElem?_eq_some_iff.1 hiv
  rw [hw]
  refine List.forall₂_iff_get.2 ⟨by simpa using hlen, fun j hj hj' => ?_⟩
  have hjv : j < n.values.length := by simpa using hj'
  have hfj := hget j hj hjv
  by_cases hij : i = j
  · subst hij
    simpa using hfit _ hfj
  · simpa [List.getElem_set_ne hij] using hfj

end Node

namespace Arena

/-- All nodes fit their types. -/
def Shaped (a : Arena) : Prop := ∀ id n, a.get? id = some n → n.Shaped

variable {a : Arena} {id : Option NodeId} {f : Node → Node}

theorem shaped_empty : ({} : Arena).Shaped := by
  intro id n hn
  simp [Arena.get?] at hn

theorem Shaped.update (ha : a.Shaped) (hf : ∀ n, a.look id = some n → n.Shaped → (f n).Shaped) :
    (a.update id f).Shaped := by
  cases id with
  | none => exact ha
  | some id =>
    intro q n hn
    rw [get?_update] at hn
    by_cases hq : q = id
    · rw [if_pos hq] at hn
      obtain ⟨m, hm, rfl⟩ := Option.map_eq_some_iff.1 hn
      exact hf m hm (ha id m hm)
    · rw [if_neg hq] at hn
      exact ha q n hn

theorem Shaped.setParent (ha : a.Shaped) (id parent : Option NodeId) :
    (a.setParent id parent).Shaped :=
  ha.update fun _ _ h => h

theorem Shaped.setParents (ha : a.Shaped) (ids : List (Option NodeId)) (parent : Option NodeId) :
    (a.setParents ids parent).Shaped := by
  induction ids generalizing a with
  | nil => exact ha
  | cons id ids ih => exact ih (ha.setParent id parent)

theorem Shaped.withList (ha : a.Shaped) {p : NodeId} {n : Node} {field : String}
    {old new : List (Option NodeId)} (hn : a.get? p = some n)
    (hv : n.value? field = some (.list old)) :
    (a.update (some p) (·.withValue field (.list new))).Shaped := by
  refine ha.update fun m hm hs => ?_
  obtain rfl := Option.some.inj (hn.symm.trans hm)
  exact hs.withValue hv fun k hk => by cases k <;> exact hk

theorem shaped_of_checkFields (ty : NodeType) : ∀ {fs : List Field} {values : List Value},
    values.length = fs.length → checkFields ty fs values = .ok () →
      List.Forall₂ (fun (f : Field) (v : Value) => v.fits f.kind) fs values
  | [], [], _, _ => .nil
  | f :: fs, v :: values, hl, h => by
    unfold checkFields at h
    cases hfit : v.fits f.kind with
    | false => simp [hfit] at h
    | true =>
      refine .cons hfit (shaped_of_checkFields ty (by simpa using hl) ?_)
      simp only [hfit, Bool.not_true, Bool.false_eq_true, if_false] at h
      split at h
      · cases h
      · exact h

/-! ## the writes one by one -/

theorem stays_shaped_alloc (ty : NodeType) (values : List Value) :
    Stays Shaped (alloc ty values) := by
  refine stays_iff.2 fun a ha => ?_
  unfold alloc
  rw [ends_bind, ends_ask]
  refine ⟨fun _ h => ?_, fun _ _ => ha⟩
  rw [ends_modifyGet]
  obtain ⟨hl, hf, _⟩ := checkAlloc_ok h
  refine Shaped.setParents ?_ _ _
  intro q n hn
  rw [get?_push] at hn
  split at hn
  · obtain rfl := Option.some.inj hn
    exact shaped_of_checkFields ty hl hf
  · exact ha q n hn

theorem stays_shaped_setChild (parent : Option NodeId) (field : String) (child : Option NodeId) :
    Stays Shaped (setChild parent field child) := by
  refine stays_iff.2 fun a ha => ?_
  unfold setChild
  rw [ends_bind, ends_ask]
  refine ⟨fun old h => ?_, fun _ _ => ha⟩
  obtain ⟨n, hn, hv, _⟩ := checkSetChild_ok h
  by_cases hne : old = child
  · simpa [hne, ends_pure] using ha
  · simp only [bne_iff_ne.2 hne, if_true]
    rw [ends_bind, ends_modify, ends_pure]
    refine (Shaped.update ha fun m hm hs => ?_).setParent _ _ |>.setParent _ _
    obtain rfl := Option.some.inj (hn.symm.trans hm)
    exact hs.withValue hv fun k hk => by cases k <;> exact hk

theorem stays_shaped_listInsert (parent : Option NodeId) (field : String) (index : Nat)
    (items : List (Option NodeId)) : Stays Shaped (listInsert parent field index items) := by
  refine stays_iff.2 fun a ha => ?_
  unfold listInsert
  simp only [ends_bind, ends_ask, ends_modify, ends_pure]
  refine ⟨fun _ _ => ⟨fun old hl => ?_, fun _ _ => ha⟩, fun _ _ => ha⟩
  obtain ⟨p, n, rfl, hn, hv⟩ := list_ok hl
  exact (ha.withList hn hv).setParents _ _

theorem stays_shaped_listRemove (parent : Option NodeId) (field : String) (index : Nat) :
    Stays Shaped (listRemove parent field index) := by
  refine stays_iff.2 fun a ha => ?_
  unfold listRemove
  rw [ends_bind, ends_ask]
  refine ⟨fun old hl => ?_, fun _ _ => ha⟩
  obtain ⟨p, n, rfl, hn, hv⟩ := list_ok hl
  cases old[index]? with
  | none => exact ha
  | some removed =>
    simp only [ends_bind, ends_modify, ends_pure]
    exact (ha.withList hn hv).setParent _ _

theorem stays_shaped_listSet (parent : Option NodeId) (field : String) (index : Nat)
    (item : Option NodeId) : Stays Shaped (listSet parent field index item) := by
  refine stays_iff.2 fun a ha => ?_
  unfold listSet
  rw [ends_bind, ends_ask]
  refine ⟨fun (items, old) h => ?_, fun _ _ => ha⟩
  obtain ⟨hl, _, _⟩ := checkListSet_ok h
  obtain ⟨p, n, rfl, hn, hv⟩ := list_ok hl
  by_cases hne : old = item
  · simpa [hne, ends_pure] using ha
  · simp only [bne_iff_ne.2 hne, if_true]
    rw [ends_bind, ends_modify, ends_pure]
    exact (ha.withList hn hv).setParent _ _ |>.setParent _ _

theorem fits_withoutChild (c : NodeId) (v : Value) {k : FieldKind} (h : v.fits k) :
    (withoutChild c v).fits k := by
  cases v with
  | node child =>
    have hany : (Value.node none).fits k := by cases k <;> exact h
    by_cases hc : child = some c
    · simpa [withoutChild, hc] using hany
    · simpa [withoutChild, hc] using h
  | list items => cases k <;> exact h
  | _ => exact h

theorem stays_shaped_take (id : Option NodeId) : Stays Shaped (take id) := by
  refine stays_iff.2 fun a ha => ?_
  unfold take
  rw [ends_bind, ends_ask]
  refine ⟨fun n hn => ?_, fun _ _ => ha⟩
  cases id with
  | none => exact ha
  | some c =>
    cases hp : n.parent with
    | none => exact ha
    | some owner =>
      simp only [ends_bind, ends_modify, ends_ask]
      refine ⟨fun o _ => ?_, fun _ _ => ha⟩
      refine (Shaped.update ha fun m _ hs => ?_).setParent _ _
      exact List.forall₂_map_right_iff.2 (hs.imp fun _ v => fits_withoutChild c v)

theorem stays_shaped_cloneDeep (root : Option NodeId) (metadata : Bool) :
    Stays Shaped (cloneDeep root metadata) := by
  refine Stays.bind (fun _ h => h) fun a => Stays.cloneLevels stays_shaped_alloc ?_ metadata _ root
  intro a id f hf ha
  refine ha.update fun m _ hs => ?_
  unfold Node.Shaped
  rw [(hf m).1, (hf m).2.1]
  exact hs

theorem Shaped.run (ha : a.Shaped) (w : Write) : (w.run a).Shaped := by
  cases w with
  | alloc ty values => exact stays_shaped_alloc ty values a ha
  | setChild parent field child => exact stays_shaped_setChild parent field child a ha
  | listInsert parent field index items =>
    exact stays_shaped_listInsert parent field index items a ha
  | listRemove parent field index => exact stays_shaped_listRemove parent field index a ha
  | listSet parent field index item => exact stays_shaped_listSet parent field index item a ha
  | take id => exact stays_shaped_take id a ha
  | cloneDeep root metadata => exact stays_shaped_cloneDeep root metadata a ha

/-! ## both together -/

/-- An arena as the writes leave it: ownership is single and every node fits its type. -/
structure WellOwned (a : Arena) : Prop where
  owned : a.Owned
  shaped : a.Shaped

theorem wellOwned_runAll (calls : List Write) : (runAll calls).WellOwned := by
  have h : ∀ (calls : List Write) (a : Arena), a.WellOwned →
      (calls.foldl Write.run a).WellOwned := by
    intro calls
    induction calls with
    | nil => exact fun _ ha => ha
    | cons w calls ih => exact fun a ha => ih _ ⟨ha.owned.run w, ha.shaped.run w⟩
  exact h calls {} ⟨owned_empty, shaped_empty⟩

end Arena

end ScopedTree
