import ScopedTree.Arena.Edit

/-!
# Updates of an arena

What a single update does to the two sides of ownership: the children a node lists and the owner a
node names.

* `children_update`, `parentOf_update`       a change of one node;
* `children_setParent`, `parentOf_setParents`, `get?_setParents`   a change of owner links;
* `count_children_withValue`                 a field that is overwritten.
-/

namespace ScopedTree

def Node.withOwner (n : Node) (owner : Option NodeId) : Node := { n with parent := owner }

namespace Arena

variable {a : Arena} {id q : NodeId} {f : Node → Node}

theorem get?_update (a : Arena) (id q : NodeId) (f : Node → Node) :
    (a.update (some id) f).get? q = if q = id then (a.get? id).map f else a.get? q := by
  show (a.nodes.modify id.index f)[q.index]? = _
  rw [Array.getElem?_modify]
  by_cases h : q = id
  · subst h
    simp [get?]
  · have hi : id.index ≠ q.index := fun hi => h (by cases id; cases q; simp_all)
    rw [if_neg hi, if_neg h]
    rfl

@[simp] theorem update_none (a : Arena) (f : Node → Node) : a.update none f = a := rfl

@[simp] theorem size_update (a : Arena) (id : Option NodeId) (f : Node → Node) :
    (a.update id f).size = a.size := by
  cases id with
  | none => rfl
  | some id => exact Array.size_modify

@[simp] theorem look_some (a : Arena) (id : NodeId) : a.look (some id) = a.get? id := rfl

theorem children_some (a : Arena) (id : NodeId) :
    a.children (some id) = (a.get? id).elim [] (·.children) := rfl

theorem parentOf_some (a : Arena) (id : NodeId) :
    a.parentOf (some id) = (a.get? id).bind (·.parent) := rfl

@[simp] theorem parentOf_none (a : Arena) : a.parentOf none = none := rfl

theorem get?_eq_some_lt {n : Node} (h : a.get? id = some n) : id.index < a.size :=
  (Array.getElem?_eq_some_iff.1 h).1

theorem isSome_get?_iff : (a.get? id).isSome ↔ id.index < a.size := by
  simp [get?, size]

theorem get?_of_parentOf {p : NodeId} (h : a.parentOf (some id) = some p) :
    ∃ n, a.get? id = some n ∧ n.parent = some p := by
  rw [parentOf_some] at h
  exact Option.bind_eq_some_iff.1 h

theorem get?_of_mem_children (h : id ∈ a.children (some q)) :
    ∃ n, a.get? q = some n ∧ id ∈ n.children := by
  rw [children_some] at h
  cases hn : a.get? q with
  | none => simp [hn] at h
  | some n => exact ⟨n, rfl, by simpa [hn] using h⟩

theorem node_ok {n : Node} {id : Option NodeId} : a.node id = .ok n ↔ a.look id = some n := by
  unfold node
  cases a.look id <;> simp

/-! ## children and owners after an update -/

theorem children_update (a : Arena) (id q : NodeId) (f : Node → Node) :
    (a.update (some id) f).children (some q)
      = if q = id then (a.get? id).elim [] fun n => (f n).children else a.children (some q) := by
  rw [children_some, get?_update]
  by_cases h : q = id
  · rw [if_pos h, if_pos h]
    cases a.get? id <;> rfl
  · rw [if_neg h, if_neg h]
    rfl

theorem parentOf_update (a : Arena) (id q : NodeId) (f : Node → Node) :
    (a.update (some id) f).parentOf (some q)
      = if q = id then (a.get? id).bind fun n => (f n).parent else a.parentOf (some q) := by
  rw [parentOf_some, get?_update]
  by_cases h : q = id
  · rw [if_pos h, if_pos h]
    cases a.get? id <;> rfl
  · rw [if_neg h, if_neg h]
    rfl

theorem children_update_of_eq (hf : ∀ n, (f n).children = n.children) (id : Option NodeId) :
    (a.update id f).children (some q) = a.children (some q) := by
  cases id with
  | none => rfl
  | some id =>
    rw [children_update]
    split
    · next h =>
      subst h
      rw [children_some]
      cases a.get? q with
      | none => rfl
      | some n => exact hf n
    · rfl

theorem parentOf_update_of_eq (hf : ∀ n, (f n).parent = n.parent) (id : Option NodeId) :
    (a.update id f).parentOf (some q) = a.parentOf (some q) := by
  cases id with
  | none => rfl
  | some id =>
    rw [parentOf_update]
    split
    · next h =>
      subst h
      rw [parentOf_some]
      cases a.get? q with
      | none => rfl
      | some n => exact hf n
    · rfl

@[simp] theorem size_setParent (a : Arena) (id parent : Option NodeId) :
    (a.setParent id parent).size = a.size := size_update ..

@[simp] theorem children_setParent (a : Arena) (id parent : Option NodeId) (q : NodeId) :
    (a.setParent id parent).children (some q) = a.children (some q) :=
  children_update_of_eq (f := ({ · with parent })) (fun _ => rfl) id

theorem parentOf_setParent (a : Arena) (id parent : Option NodeId) (q : NodeId) :
    (a.setParent id parent).parentOf (some q)
      = if some q = id ∧ q.index < a.size then parent else a.parentOf (some q) := by
  cases id with
  | none => simp [setParent]
  | some id =>
    rw [setParent, parentOf_update]
    by_cases h : q = id
    · subst h
      cases hn : a.get? q with
      | none =>
        have hs : ¬ q.index < a.size := by
          rw [← isSome_get?_iff, hn]
          simp
        simp [hs, parentOf_some, hn]
      | some n => simp [get?_eq_some_lt hn]
    · simp [h]

@[simp] theorem size_setParents (a : Arena) (ids : List (Option NodeId)) (parent : Option NodeId) :
    (a.setParents ids parent).size = a.size := by
  induction ids generalizing a with
  | nil => rfl
  | cons id ids ih => exact (ih _).trans (size_setParent ..)

@[simp] theorem children_setParents (a : Arena) (ids : List (Option NodeId))
    (parent : Option NodeId) (q : NodeId) :
    (a.setParents ids parent).children (some q) = a.children (some q) := by
  induction ids generalizing a with
  | nil => rfl
  | cons id ids ih => exact (ih _).trans (children_setParent ..)

theorem get?_setParents (a : Arena) (ids : List (Option NodeId)) (parent : Option NodeId)
    (q : NodeId) :
    (a.setParents ids parent).get? q
      = (a.get? q).map fun n => if some q ∈ ids then n.withOwner parent else n := by
  induction ids generalizing a with
  | nil => simp [setParents]
  | cons id ids ih =>
    have hhead : (a.setParent id parent).get? q
        = (a.get? q).map fun n => if some q = id then n.withOwner parent else n := by
      cases id with
      | none => simp [setParent]
      | some id =>
        rw [setParent, get?_update]
        by_cases hq : q = id
        · subst hq
          rw [if_pos rfl]
          simp [Node.withOwner]
        · simp [hq]
    show ((a.setParent id parent).setParents ids parent).get? q = _
    rw [ih, hhead, Option.map_map]
    refine congrArg (Option.map · _) (funext fun n => ?_)
    by_cases hid : some q = id <;> by_cases hids : some q ∈ ids <;> simp [hid, hids, Node.withOwner]

theorem parentOf_setParents (a : Arena) (ids : List (Option NodeId)) (parent : Option NodeId)
    (q : NodeId) :
    (a.setParents ids parent).parentOf (some q)
      = if some q ∈ ids ∧ q.index < a.size then parent else a.parentOf (some q) := by
  induction ids generalizing a with
  | nil => simp [setParents]
  | cons id ids ih =>
    have h := ih (a.setParent id parent)
    show ((a.setParent id parent).setParents ids parent).parentOf (some q) = _
    rw [h, size_setParent, parentOf_setParent]
    by_cases hs : q.index < a.size
    · by_cases hm : some q ∈ ids <;> by_cases he : some q = id <;> simp [hs, hm, he]
    · simp [hs]

end Arena

/-! ## a field that is overwritten -/

def Value.children (v : Value) : List NodeId := v.handles.filterMap id

theorem Node.children_eq (n : Node) : n.children = n.values.flatMap Value.children := rfl

theorem count_flatMap_set {α β : Type} [BEq β] (g : α → List β) (c : β) {old : α} (new : α) :
    ∀ (l : List α) (i : Nat), l[i]? = some old →
      ((l.set i new).flatMap g).count c + (g old).count c
        = (l.flatMap g).count c + (g new).count c
  | [], _, h => by simp at h
  | x :: l, 0, h => by
    obtain rfl : x = old := by simpa using h
    simp only [List.set_cons_zero, List.flatMap_cons, List.count_append]
    omega
  | x :: l, i + 1, h => by
    have ih := count_flatMap_set g c new l i (by simpa using h)
    simp only [List.set_cons_succ, List.flatMap_cons, List.count_append]
    omega

/-- How often a node comes up among the children after a field was overwritten. -/
theorem Node.count_children_withValue {n : Node} {field : String} {old : Value}
    (h : n.value? field = some old) (new : Value) (c : NodeId) :
    (n.withValue field new).children.count c + old.children.count c
      = n.children.count c + new.children.count c := by
  obtain ⟨i, hi, hv⟩ := Option.bind_eq_some_iff.1 h
  have hw : n.withValue field new = { n with values := n.values.set i new } := by
    rw [withValue, hi]
  rw [hw, children_eq, children_eq]
  exact count_flatMap_set Value.children c new n.values i hv

theorem Node.count_children_le {n : Node} {field : String} {v : Value} (h : n.value? field = some v)
    (c : NodeId) : v.children.count c ≤ n.children.count c := by
  obtain ⟨i, _, hv⟩ := Option.bind_eq_some_iff.1 h
  obtain ⟨l, r, hlr⟩ := List.append_of_mem (List.mem_of_getElem? hv)
  rw [Node.children_eq, hlr, List.flatMap_append, List.flatMap_cons, List.count_append,
    List.count_append]
  omega

@[simp] theorem Node.parent_withValue (n : Node) (field : String) (v : Value) :
    (n.withValue field v).parent = n.parent := by
  unfold withValue
  split <;> rfl

theorem Node.child_ok {n : Node} {field : String} {c : Option NodeId} (h : n.child field = .ok c) :
    n.value? field = some (.node c) := by
  unfold child Node.field at h
  cases hv : n.value? field with
  | none => simp [hv, bind, Except.bind] at h
  | some v => cases v <;> simp_all [bind, Except.bind]

theorem Node.list_ok {n : Node} {field : String} {items : List (Option NodeId)}
    (h : n.list field = .ok items) : n.value? field = some (.list items) := by
  unfold list Node.field at h
  cases hv : n.value? field with
  | none => simp [hv, bind, Except.bind] at h
  | some v => cases v <;> simp_all [bind, Except.bind]

end ScopedTree
