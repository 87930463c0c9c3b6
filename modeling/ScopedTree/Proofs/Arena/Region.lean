import ScopedTree.Arena.Build
import ScopedTree.Proofs.Arena.Place

/-!
# What the writes of the arena do

Each write makes a node, overwrites one field or takes a node from its owner. The owners follow, and
a required slot that is filled is not emptied by what is made or overwritten.

* `Node.Filled`, `Arena.Filled`   no required slot of a node is empty;
* `Arena.Makes`                   a node was made, of the children that are given;
* `Arena.Overwrites`              a field was overwritten;
* `Arena.Takes`                   a node left its owner;
* `Arena.ends_build`, `Arena.ends_setChild`, `Arena.ends_listInsert_entries`, …   the writes do so.
-/

namespace ScopedTree

open Relation

/-- What a node stores, apart from its owner and what is attached to it. -/
def Node.content (n : Node) : NodeType × List Value := (n.type, n.values)

/-- No required slot is empty. -/
def Node.Filled (n : Node) : Prop :=
  ∀ f ∈ n.type.fields, f.kind = .node → (n.child? f.name).isSome

namespace Node

variable {n m : Node} {field g : String} {old new : Value}

theorem value?_congr (h : n.content = m.content) (g : String) : n.value? g = m.value? g := by
  have ht : n.type = m.type := congrArg (·.1) h
  have hv : n.values = m.values := congrArg (·.2) h
  rw [value?, value?, ht, hv]

theorem child?_congr (h : n.content = m.content) (g : String) : n.child? g = m.child? g := by
  rw [child?, child?, value?_congr h]

theorem Shaped.congr (hn : n.Shaped) (h : n.content = m.content) : m.Shaped := by
  have ht : n.type = m.type := congrArg (·.1) h
  have hv : n.values = m.values := congrArg (·.2) h
  unfold Shaped at hn ⊢
  rwa [← ht, ← hv]

theorem children_congr (h : n.content = m.content) : n.children = m.children := by
  have hv : n.values = m.values := congrArg (·.2) h
  rw [children_eq, children_eq, hv]

theorem Filled.congr (hn : n.Filled) (h : n.content = m.content) : m.Filled := by
  intro f hf hk
  have ht : n.type = m.type := congrArg (·.1) h
  rw [← child?_congr h]
  exact hn f (ht ▸ hf) hk

theorem fieldPosition?_inj {ty : NodeType} {i : Nat} (hf : ty.fieldPosition? field = some i)
    (hg : ty.fieldPosition? g = some i) : field = g := by
  obtain ⟨_, hf, _⟩ := List.findIdx?_eq_some_iff_getElem.1 hf
  obtain ⟨_, hg, _⟩ := List.findIdx?_eq_some_iff_getElem.1 hg
  rw [beq_iff_eq] at hf hg
  exact hf.symm.trans hg

theorem value?_withValue (h : n.value? field = some old) (new : Value) (g : String) :
    (n.withValue field new).value? g = if g = field then some new else n.value? g := by
  obtain ⟨i, hi, hv⟩ := Option.bind_eq_some_iff.1 h
  have hw : n.withValue field new = { n with values := n.values.set i new } := by
    rw [withValue, hi]
  have hlt := (List.getElem?_eq_some_iff.1 hv).1
  rw [hw]
  show (n.type.fieldPosition? g).bind ((n.values.set i new)[·]?) = _
  by_cases hg : g = field
  · rw [if_pos hg, hg, hi]
    exact List.getElem?_set_self hlt
  · rw [if_neg hg, value?]
    cases hj : n.type.fieldPosition? g with
    | none => rfl
    | some j =>
      have hij : i ≠ j := by
        rintro rfl
        exact hg (fieldPosition?_inj hj hi)
      exact List.getElem?_set_ne hij

theorem withValue_self (h : n.value? field = some old) : n.withValue field old = n := by
  obtain ⟨i, hi, hv⟩ := Option.bind_eq_some_iff.1 h
  obtain ⟨hlt, rfl⟩ := List.getElem?_eq_some_iff.1 hv
  rw [withValue, hi]
  dsimp only
  rw [List.set_getElem_self]

theorem content_withValue (n : Node) (field : String) (new : Value) :
    (n.withValue field new).type = n.type := by
  unfold withValue
  split <;> rfl

/-- A field that is overwritten leaves a node filled unless a required one is emptied. -/
theorem Filled.withValue (hn : n.Filled) (h : n.value? field = some old)
    (hnew : ∀ f ∈ n.type.fields, f.kind = .node → f.name = field → ∃ c, new = .node (some c)) :
    (n.withValue field new).Filled := by
  intro f hf hk
  rw [content_withValue] at hf
  unfold child?
  rw [value?_withValue h]
  by_cases hg : f.name = field
  · obtain ⟨c, rfl⟩ := hnew f hf hk hg
    rw [if_pos hg]
    rfl
  · rw [if_neg hg]
    exact hn f hf hk

end Node

namespace Arena

variable {a b : Arena} {c m n o p q : NodeId} {d : Option NodeId}
  {field : String} {old new : Value}

/-- The node is there and no required slot of it is empty. -/
def Filled (a : Arena) (m : NodeId) : Prop := ∃ n, a.get? m = some n ∧ n.Filled

/-! ## nodes that are made -/

theorem content_update_of_eq {f : Node → Node} (hf : ∀ n, (f n).content = n.content)
    (id : Option NodeId) (q : NodeId) :
    ((a.update id f).get? q).map Node.content = (a.get? q).map Node.content := by
  cases id with
  | none => rfl
  | some id =>
    rw [get?_update]
    split
    · next h =>
      subst h
      rw [Option.map_map]
      exact congrArg (Option.map · _) (funext hf)
    · rfl

theorem content_setParents (a : Arena) (ids : List (Option NodeId)) (parent : Option NodeId)
    (q : NodeId) :
    ((a.setParents ids parent).get? q).map Node.content = (a.get? q).map Node.content := by
  induction ids generalizing a with
  | nil => rfl
  | cons id ids ih =>
    exact (ih (a.setParent id parent)).trans
      (content_update_of_eq (f := ({ · with parent })) (fun _ => rfl) id q)

theorem content_congr {β : Type} {g : Node → β} (hg : ∀ n m, n.content = m.content → g n = g m)
    (h : (b.get? q).map Node.content = (a.get? q).map Node.content) :
    (b.get? q).map g = (a.get? q).map g := by
  cases hb : b.get? q with
  | none =>
    rw [hb] at h
    rw [Option.map_eq_none_iff.1 h.symm]
  | some n =>
    rw [hb] at h
    obtain ⟨m, hm, hc⟩ := Option.map_eq_some_iff.1 h.symm
    rw [hm]
    exact congrArg some (hg n m hc.symm)

theorem children_of_content (h : (b.get? q).map Node.content = (a.get? q).map Node.content) :
    b.children (some q) = a.children (some q) := by
  have hc := content_congr (fun _ _ => Node.children_congr) h
  rw [children_some, children_some]
  cases hb : b.get? q <;> cases ha : a.get? q <;> simp_all

theorem type?_of_content (h : (b.get? q).map Node.content = (a.get? q).map Node.content) :
    b.type? (some q) = a.type? (some q) := content_congr (fun _ _ h => congrArg (·.1) h) h

theorem Filled.of_content (hq : a.Filled q)
    (h : (b.get? q).map Node.content = (a.get? q).map Node.content) : b.Filled q := by
  obtain ⟨n, hn, hf⟩ := hq
  rw [hn] at h
  obtain ⟨m, hm, hc⟩ := Option.map_eq_some_iff.1 h
  exact ⟨m, hm, hf.congr hc.symm⟩

/-- A node was made and took over the nodes `cs`, which had no owner; nothing else happened. -/
structure Makes (a b : Arena) (id : NodeId) (ty : NodeType) (cs : List NodeId) : Prop where
  fresh : id = ⟨a.size⟩
  size : b.size = a.size + 1
  content : ∀ q, q ≠ id → (b.get? q).map Node.content = (a.get? q).map Node.content
  type : b.type? (some id) = some ty
  filled : b.Filled id
  children : b.children (some id) = cs
  parent : ∀ c, b.parentOf (some c) = if c ∈ cs then some id else a.parentOf (some c)
  unowned : ∀ c ∈ cs, c.index < a.size ∧ a.parentOf (some c) = none

theorem filled_of_checkFields (ty : NodeType) : ∀ {fs : List Field} {values : List Value},
    values.length = fs.length → checkFields ty fs values = .ok () →
      ∀ (i : Nat) (f : Field), fs[i]? = some f → f.kind = .node →
        ∃ c, values[i]? = some (.node (some c))
  | [], _, _, _, i, f, hi, _ => by simp at hi
  | g :: fs, [], hl, _, _, _, _, _ => by simp at hl
  | g :: fs, v :: values, hl, h, i, f, hi, hk => by
    unfold checkFields at h
    cases hfit : v.fits g.kind with
    | false => simp [hfit] at h
    | true =>
      simp only [hfit, Bool.not_true, Bool.false_eq_true, if_false] at h
      cases i with
      | zero =>
        obtain rfl : g = f := by simpa using hi
        cases v with
        | node child =>
          cases child with
          | none => simp [hk] at h
          | some c => exact ⟨c, rfl⟩
        | _ => simp [hk, Value.fits] at hfit
      | succ i =>
        refine filled_of_checkFields ty (by simpa using hl) ?_ i f (by simpa using hi) hk
        split at h
        · cases h
        · exact h

theorem ends_alloc (a : Arena) (ty : NodeType) (values : List Value) : Ends (alloc ty values a)
    (fun id b => Makes a b id ty (values.flatMap Value.children)) fun _ b => b = a := by
  unfold alloc
  rw [ends_bind, ends_ask]
  refine ⟨fun _ h => ?_, fun _ _ => rfl⟩
  rw [ends_modifyGet]
  obtain ⟨hl, hf, -, hfree⟩ := checkAlloc_ok h
  have hget : (({ a with nodes := a.nodes.push { type := ty, values } } : Arena).get? ⟨a.size⟩)
      = some { type := ty, values } := by rw [get?_push, if_pos rfl]
  have hcontent (q : NodeId) := content_setParents
    { a with nodes := a.nodes.push { type := ty, values } }
    ((({ type := ty, values } : Node).children).map some) (some ⟨a.size⟩) q
  refine ⟨rfl, ?_, fun q hq => ?_, ?_, ?_, ?_, fun c => ?_, hfree⟩
  · rw [size_setParents]
    exact Array.size_push ..
  · rw [hcontent, get?_push, if_neg hq]
  · exact (type?_of_content (hcontent _)).trans (congrArg (Option.map _) hget)
  · refine Filled.of_content (a := { a with nodes := a.nodes.push { type := ty, values } })
      ⟨_, hget, fun f hfs hk => ?_⟩ (hcontent _)
    obtain ⟨i, hi, rfl⟩ := List.getElem_of_mem hfs
    have hi' : ty.fields[i]? = some ty.fields[i] := List.getElem?_eq_getElem hi
    obtain ⟨c, hc⟩ := filled_of_checkFields ty hl hf i _ hi' hk
    have hv := (show ({ type := ty, values } : Node).Shaped from
      shaped_of_checkFields ty hl hf).values_eq
    have hv := congrArg (·[i]?) hv
    simp only [List.getElem?_map, hc, Option.map_some] at hv
    rw [show ({ type := ty, values } : Node).type.fields[i]? = some ty.fields[i] from hi',
      Option.map_some, Option.some.injEq] at hv
    unfold Node.child?
    rw [← hv]
    rfl
  · rw [children_of_content (hcontent _), children_some, hget]
    rfl
  · have hold : ({ a with nodes := a.nodes.push { type := ty, values } } : Arena).parentOf (some c)
        = a.parentOf (some c) := by
      rw [parentOf_some, parentOf_some, get?_push]
      split
      · next h =>
        rw [h, get?_fresh]
        rfl
      · rfl
    rw [parentOf_setParents]
    by_cases hc : c ∈ values.flatMap Value.children
    · have hlt : c.index < ({ a with nodes := a.nodes.push { type := ty, values } } :
        Arena).size := by
        show c.index < (a.nodes.push _).size
        rw [Array.size_push]
        exact Nat.lt_succ_of_lt (hfree c hc).1
      rw [if_pos ⟨List.mem_map_of_mem hc, hlt⟩, if_pos hc]
    · have hmap : some c ∉ (({ type := ty, values } : Node).children).map some := by
        rw [List.mem_map_of_injective (Option.some_injective _)]
        exact hc
      rw [if_neg fun h => hmap h.1, if_neg hc, hold]

theorem complete_ok {ty : NodeType} {given : Table Value} : ∀ {fs : List Field}
    {values : List Value}, complete ty given fs = .ok values → ∀ v ∈ values, v.children = []
      ∨ ∃ name, given.get? name = some v
  | [], _, h, v, hv => by
    cases h
    simp at hv
  | f :: fs, _, h, v, hv => by
    unfold complete at h
    cases hx : given.get? f.name <|> Value.default? f.kind with
    | none => simp [hx] at h
    | some value =>
      rw [hx] at h
      obtain ⟨rest, hrest, h⟩ := bind_eq_ok.1 h
      cases h
      rcases List.mem_cons.1 hv with rfl | hv
      · cases hg : given.get? f.name with
        | some w =>
          rw [hg] at hx
          exact .inr ⟨f.name, by rw [hg]; exact hx⟩
        | none =>
          rw [hg] at hx
          left
          cases hk : f.kind <;> simp_all [Value.default?] <;> subst hx <;> rfl
      · exact complete_ok hrest v hv

theorem gather_ok {ty : NodeType} : ∀ {fields : List (String × Value)} {given table : Table Value},
    gather ty given fields = .ok table → ∀ name v, table.get? name = some v →
      given.get? name = some v ∨ ∃ x ∈ fields, x.2 = v
  | [], _, _, h, name, v, hv => by
    cases h
    exact .inl hv
  | (key, value) :: rest, given, table, h, name, v, hv => by
    unfold gather at h
    cases hf : ty.field? key with
    | none => simp [hf] at h
    | some f =>
      simp only [hf] at h
      split at h
      · rcases gather_ok h name v hv with hput | ⟨x, hx, hxv⟩
        · rw [Table.get?_put] at hput
          split at hput
          · exact .inr ⟨_, List.mem_cons_self .., Option.some.inj hput⟩
          · exact .inl hput
        · exact .inr ⟨x, List.mem_cons_of_mem _ hx, hxv⟩
      · cases h

theorem complete_given {ty : NodeType} {given : Table Value} {f : Field} {v : Value}
    (hv : given.get? f.name = some v) : ∀ {fs : List Field} {values : List Value},
    complete ty given fs = .ok values → f ∈ fs → v ∈ values
  | g :: fs, _, h, hf => by
    unfold complete at h
    cases hx : given.get? g.name <|> Value.default? g.kind with
    | none => simp [hx] at h
    | some value =>
      rw [hx] at h
      obtain ⟨rest, hrest, h⟩ := bind_eq_ok.1 h
      cases h
      rcases List.mem_cons.1 hf with rfl | hf
      · rw [hv] at hx
        exact List.mem_cons.2 (.inl (Option.some.inj hx))
      · exact List.mem_cons_of_mem _ (complete_given hv hrest hf)

theorem gather_given {ty : NodeType} : ∀ {fields : List (String × Value)}
    {given table : Table Value}, gather ty given fields = .ok table → (fields.map (·.1)).Nodup →
      (∀ x ∈ fields, ∃ f ∈ ty.fields, f.name = x.1 ∧ table.get? x.1 = some x.2)
      ∧ ∀ name ∉ fields.map (·.1), table.get? name = given.get? name
  | [], _, _, h, _ => by
    cases h
    exact ⟨by simp, fun _ _ => rfl⟩
  | (key, value) :: rest, given, table, h, hnd => by
    unfold gather at h
    cases hf : ty.field? key with
    | none => simp [hf] at h
    | some f =>
      simp only [hf] at h
      split at h
      · obtain ⟨hkey, hnd⟩ := List.nodup_cons.1 hnd
        obtain ⟨hall, hothers⟩ := gather_given h hnd
        have hname : f.name = key := by simpa using List.find?_some hf
        refine ⟨fun x hx => ?_, fun name hn => ?_⟩
        · rcases List.mem_cons.1 hx with rfl | hx
          · refine ⟨f, List.mem_of_find?_eq_some hf, hname, ?_⟩
            rw [hothers _ hkey, Table.get?_put, if_pos rfl]
          · exact hall x hx
        · rw [List.map_cons, List.mem_cons, not_or] at hn
          rw [hothers name hn.2, Table.get?_put, if_neg hn.1]
      · cases h

/-- A node that is built has no other children than those given, and all of them if their fields
differ. -/
theorem ends_build (a : Arena) (ty : NodeType) (fields : List (String × Value)) :
    Ends (build ty fields a)
      (fun id b => ∃ cs, Makes a b id ty cs ∧ (∀ c ∈ cs, ∃ x ∈ fields, c ∈ x.2.children)
        ∧ ((fields.map (·.1)).Nodup → ∀ x ∈ fields, ∀ c ∈ x.2.children, c ∈ cs))
      fun _ b => b = a := by
  unfold build
  rw [ends_bind, ends_ask]
  refine ⟨fun values h => ?_, fun _ _ => rfl⟩
  obtain ⟨table, hgather, hcomplete⟩ := bind_eq_ok.1 h
  refine (ends_alloc a ty values).mono fun id b hmakes => ⟨_, hmakes, fun c hc => ?_,
    fun hnd x hx c hc => ?_⟩
  · obtain ⟨v, hv, hcv⟩ := List.mem_flatMap.1 hc
    rcases complete_ok hcomplete v hv with hnil | ⟨name, hname⟩
    · rw [hnil] at hcv
      cases hcv
    · rcases gather_ok hgather name v hname with hnone | ⟨x, hx, rfl⟩
      · cases hnone
      · exact ⟨x, hx, hcv⟩
  · obtain ⟨f, hf, hname, hv⟩ := (gather_given hgather hnd).1 x hx
    exact List.mem_flatMap.2 ⟨x.2, complete_given (hname ▸ hv) hcomplete hf, hc⟩

namespace Makes

variable {ty : NodeType} {cs : List NodeId}

theorem ne (h : Makes a b n ty cs) (hq : q.index < a.size) : q ≠ n := by
  rintro rfl
  rw [h.fresh] at hq
  exact Nat.lt_irrefl _ hq

theorem filled_old (h : Makes a b n ty cs) (hq : a.Filled q) : b.Filled q := by
  obtain ⟨m, hm, _⟩ := id hq
  exact hq.of_content (h.content q (h.ne (get?_eq_some_lt hm)))

theorem children_old (h : Makes a b n ty cs) (hq : q.index < a.size) :
    b.children (some q) = a.children (some q) := children_of_content (h.content q (h.ne hq))

theorem type_old (h : Makes a b n ty cs) (hq : q.index < a.size) :
    b.type? (some q) = a.type? (some q) := type?_of_content (h.content q (h.ne hq))

theorem unowned_new (h : Makes a b n ty cs) : b.parentOf (some n) = none := by
  have hn : n ∉ cs := fun hn => by
    have hlt := (h.unowned n hn).1
    rw [h.fresh] at hlt
    exact Nat.lt_irrefl _ hlt
  rw [h.parent, if_neg hn, parentOf_some, h.fresh, get?_fresh]
  rfl

end Makes

/-! ## fields that are overwritten -/

/-- The field of `p` that held `old` holds `new`. The owner links follow; nothing else happened. -/
structure Overwrites (a b : Arena) (p : NodeId) (field : String) (old new : Value) : Prop where
  size : b.size = a.size
  content : ∀ q, (b.get? q).map Node.content = (a.get? q).map fun n =>
    if q = p then (n.withValue field new).content else n.content
  held : ∃ n, a.get? p = some n ∧ n.value? field = some old
    ∧ ∀ f ∈ n.type.fields, f.kind = .node → f.name = field → ∃ c, new = .node (some c)
  parent : ∀ c, b.parentOf (some c) = if c ∈ new.children then some p
    else if c ∈ old.children then none else a.parentOf (some c)
  comes : ∀ c ∈ new.children, c ∈ old.children
    ∨ a.parentOf (some c) = none ∧ ¬ ReflTransGen a.OwnedBy p c

namespace Overwrites

theorem content_ne (h : Overwrites a b p field old new) (hq : q ≠ p) :
    (b.get? q).map Node.content = (a.get? q).map Node.content := by
  rw [h.content]
  exact congrArg (Option.map · _) (funext fun _ => if_neg hq)

theorem get? (h : Overwrites a b p field old new) : ∃ n m, a.get? p = some n ∧ b.get? p = some m
    ∧ n.value? field = some old ∧ m.content = (n.withValue field new).content
    ∧ ∀ f ∈ n.type.fields, f.kind = .node → f.name = field → ∃ c, new = .node (some c) := by
  obtain ⟨n, hn, hv, hreq⟩ := h.held
  have hc := h.content p
  rw [hn, Option.map_some, if_pos rfl] at hc
  obtain ⟨m, hm, hmc⟩ := Option.map_eq_some_iff.1 hc
  exact ⟨n, m, hn, hm, hv, hmc, hreq⟩

theorem filled (h : Overwrites a b p field old new) (hq : a.Filled q) : b.Filled q := by
  by_cases hqp : q = p
  · subst hqp
    obtain ⟨n, m, hn, hm, hv, hc, hreq⟩ := h.get?
    obtain ⟨n', hn', hf⟩ := hq
    obtain rfl := Option.some.inj (hn.symm.trans hn')
    exact ⟨m, hm, (hf.withValue hv hreq).congr hc.symm⟩
  · exact hq.of_content (h.content_ne hqp)

theorem type? (h : Overwrites a b p field old new) (q : NodeId) :
    b.type? (some q) = a.type? (some q) := by
  by_cases hqp : q = p
  · subst hqp
    obtain ⟨n, m, hn, hm, _, hc, _⟩ := h.get?
    show (b.get? q).map _ = (a.get? q).map _
    rw [hn, hm]
    exact congrArg some ((congrArg (·.1) hc).trans (n.content_withValue field new))
  · exact type?_of_content (h.content_ne hqp)

theorem mem_children (h : Overwrites a b p field old new) (hc : c ∈ b.children (some q)) :
    c ∈ a.children (some q) ∨ q = p ∧ c ∈ new.children := by
  by_cases hqp : q = p
  · subst hqp
    obtain ⟨n, m, hn, hm, hv, hcontent, _⟩ := h.get?
    rw [children_some, hm] at hc
    rw [children_some, hn]
    have hpos := List.count_pos_iff.2 (show c ∈ m.children from hc)
    rw [Node.children_congr hcontent] at hpos
    have hcount := n.count_children_withValue hv new c
    by_cases hnew : c ∈ new.children
    · exact .inr ⟨rfl, hnew⟩
    · have h0 := List.count_eq_zero.2 hnew
      exact .inl (List.count_pos_iff.1 (show 0 < n.children.count c by omega))
  · rw [children_of_content (h.content_ne hqp)] at hc
    exact .inl hc

theorem unowned (h : Overwrites a b p field old new) (hc : c ∉ new.children)
    (hp : a.parentOf (some c) = none) : b.parentOf (some c) = none := by
  rw [h.parent, if_neg hc, hp, ite_self]

end Overwrites

theorem overwrites_self (ha : a.Owned) {n : Node} (hn : a.get? p = some n)
    (hv : n.value? field = some old)
    (hreq : ∀ f ∈ n.type.fields, f.kind = .node → f.name = field → ∃ c, old = .node (some c)) :
    Overwrites a a p field old old where
  size := rfl
  content q := by
    cases hq : a.get? q with
    | none => rfl
    | some m =>
      by_cases hqp : q = p
      · subst hqp
        obtain rfl := Option.some.inj (hn.symm.trans hq)
        simp [Node.withValue_self hv]
      · simp [hqp]
  held := ⟨n, hn, hv, hreq⟩
  parent c := by
    by_cases hc : c ∈ old.children
    · rw [if_pos hc]
      exact ha.owner_of_field hn hv hc
    · rw [if_neg hc, if_neg hc]
  comes c hc := .inl hc

theorem overwrites_setParents {n : Node} (hn : a.get? p = some n) (hv : n.value? field = some old)
    (hreq : ∀ f ∈ n.type.fields, f.kind = .node → f.name = field → ∃ c, new = .node (some c))
    (out ins : List (Option NodeId))
    (hout : ∀ c, some c ∈ out → c ∈ old.children)
    (hins : ∀ c, some c ∈ ins → c ∈ new.children)
    (hmem : ∀ c, c ∈ new.children → some c ∈ ins ∨ a.parentOf (some c) = some p ∧ some c ∉ out)
    (hgone : ∀ c, c ∈ old.children → c ∉ new.children → some c ∈ out)
    (hlt : ∀ c, some c ∈ ins ∨ some c ∈ out → c.index < a.size)
    (hcomes : ∀ c ∈ new.children, c ∈ old.children
      ∨ a.parentOf (some c) = none ∧ ¬ ReflTransGen a.OwnedBy p c) :
    Overwrites a (((a.update (some p) (·.withValue field new)).setParents out none).setParents ins
      (some p)) p field old new where
  size := by rw [size_setParents, size_setParents, size_update]
  content q := by
    rw [content_setParents, content_setParents, get?_update]
    by_cases hqp : q = p
    · subst hqp
      simp [hn]
    · simp [hqp]
  held := ⟨n, hn, hv, hreq⟩
  parent c := by
    simp only [parentOf_setParents, size_setParents, size_update,
      parentOf_update_of_eq fun n => Node.parent_withValue n field new]
    by_cases hnew : c ∈ new.children
    · rw [if_pos hnew]
      rcases hmem c hnew with hi | ⟨hp, ho⟩
      · rw [if_pos ⟨hi, hlt c (.inl hi)⟩]
      · by_cases hi : some c ∈ ins
        · rw [if_pos ⟨hi, hlt c (.inl hi)⟩]
        · rw [if_neg fun h => hi h.1, if_neg fun h => ho h.1, hp]
    · rw [if_neg hnew, if_neg fun h => hnew (hins c h.1)]
      by_cases hold : c ∈ old.children
      · have ho := hgone c hold hnew
        rw [if_pos hold, if_pos ⟨ho, hlt c (.inr ho)⟩]
      · rw [if_neg hold, if_neg fun h => hold (hout c h.1)]
  comes := hcomes

theorem kind_ne_node (new : Value) {n : Node} (hn : n.Shaped) {items : List (Option NodeId)}
    (hv : n.value? field = some (.list items)) :
    ∀ f ∈ n.type.fields, f.kind = .node → f.name = field → ∃ c, new = .node (some c) := by
  rintro f hf hk rfl
  obtain ⟨v, hv', hfit⟩ := hn.value?_of_mem hf
  obtain rfl := Option.some.inj (hv.symm.trans hv')
  rw [hk] at hfit
  cases hfit

theorem mem_children_node {child : Option NodeId} :
    c ∈ (Value.node child).children ↔ child = some c := by
  cases child <;> simp [Value.children, Value.handles, eq_comm]

theorem mem_children_list {items : List (Option NodeId)} :
    c ∈ (Value.list items).children ↔ some c ∈ items := by
  simp [Value.children, Value.handles]

theorem child_of_checkSetChild {parent held child : Option NodeId} {n : Node}
    (h : a.checkSetChild parent field child = .ok held) (hn : a.look parent = some n) :
    ∀ f ∈ n.type.fields, f.kind = .node → f.name = field →
      ∃ c, Value.node child = .node (some c) := by
  rintro f hf hk rfl
  have hfield : n.type.field? f.name = some f := by
    obtain ⟨g, hg⟩ : ∃ g, n.type.field? f.name = some g :=
      Option.isSome_iff_exists.1 (List.find?_isSome.2 ⟨f, hf, beq_self_eq_true _⟩)
    have hg' : n.type.fields.find? (·.name == f.name) = some g := hg
    have hname : g.name = f.name := by simpa using List.find?_some hg'
    rw [hg, List.inj_on_of_nodup_map n.type.nodup_fields (List.mem_of_find?_eq_some hg') hf hname]
  cases child with
  | some c => exact ⟨c, rfl⟩
  | none =>
    unfold checkSetChild at h
    rw [node_ok.2 hn] at h
    simp [hfield, hk, bind, Except.bind] at h

/-- A single slot that is written. -/
theorem ends_setChild (ha : a.Owned) (parent : Option NodeId) (field : String)
    (child : Option NodeId) : Ends (setChild parent field child a)
      (fun held b => ∃ p, parent = some p ∧ Overwrites a b p field (.node held) (.node child))
      fun _ b => b = a := by
  unfold setChild
  rw [ends_bind, ends_ask]
  refine ⟨fun held h => ?_, fun _ _ => rfl⟩
  obtain ⟨n, hn, hv, hc⟩ := checkSetChild_ok h
  have hreq := child_of_checkSetChild h hn
  cases parent with
  | none => cases hn
  | some p =>
    by_cases hne : held = child
    · subst hne
      simp only [bne_self_eq_false, Bool.false_eq_true, if_false, ends_pure]
      exact ⟨p, rfl, overwrites_self ha hn hv hreq⟩
    · simp only [bne_iff_ne.2 hne, if_true]
      rw [ends_bind, ends_modify, ends_pure]
      refine ⟨p, rfl, overwrites_setParents hn hv hreq [held] [child] ?_ ?_ ?_ ?_ ?_ ?_⟩
      · exact fun c hc => mem_children_node.2 (List.mem_singleton.1 hc).symm
      · exact fun c hc => mem_children_node.2 (List.mem_singleton.1 hc).symm
      · exact fun c hc => .inl (List.mem_singleton.2 (mem_children_node.1 hc).symm)
      · exact fun c hc _ => List.mem_singleton.2 (mem_children_node.1 hc).symm
      · rintro c (h' | h')
        · exact (free_of_check ha (hc hne) (List.mem_singleton.1 h').symm).1
        · exact (ha.owner_of_field hn hv (mem_children_node.2 (List.mem_singleton.1 h').symm)).lt
      · intro c hc'
        exact .inr (free_of_check ha (hc hne) (mem_children_node.1 hc')).2

theorem ends_listSet (ha : a.WellOwned) (parent : Option NodeId) (field : String) (index : Nat)
    (item : Option NodeId) : Ends (listSet parent field index item a)
      (fun held b => ∃ p items, parent = some p ∧ items[index]? = some held
        ∧ Overwrites a b p field (.list items) (.list (items.set index item)))
      fun _ b => b = a := by
  unfold listSet
  rw [ends_bind, ends_ask]
  refine ⟨fun (items, held) h => ?_, fun _ _ => rfl⟩
  obtain ⟨hl, hi, hc⟩ := checkListSet_ok h
  obtain ⟨p, n, rfl, hn, hv⟩ := list_ok hl
  have hreq {v : Value} := kind_ne_node v (ha.shaped p n hn) hv
  have hset (c : NodeId) (hci : some c ≠ item) :
      some c ∈ items.set index item ↔ some c ∈ items ∧ held ≠ some c :=
    mem_set_iff hi (count_children_list items c ▸ ha.owned.count_field_le_one hn hv c) hci
  by_cases hne : held = item
  · subst hne
    simp only [bne_self_eq_false, Bool.false_eq_true, if_false, ends_pure]
    have hset : items.set index held = items := by
      obtain ⟨_, rfl⟩ := List.getElem?_eq_some_iff.1 hi
      exact List.set_getElem_self _
    refine ⟨p, items, rfl, hi, ?_⟩
    rw [hset]
    exact overwrites_self ha.owned hn hv hreq
  · simp only [bne_iff_ne.2 hne, if_true]
    rw [ends_bind, ends_modify, ends_pure]
    refine ⟨p, items, rfl, hi, overwrites_setParents hn hv hreq [held] [item] ?_ ?_ ?_ ?_ ?_ ?_⟩
    · intro c hc
      rw [List.mem_singleton] at hc
      exact mem_children_list.2 (hc ▸ List.mem_of_getElem? hi)
    · intro c hc
      rw [List.mem_singleton] at hc
      exact mem_children_list.2 (hc ▸ List.mem_set (List.getElem?_eq_some_iff.1 hi).1 _)
    · intro c hc
      by_cases hci : some c = item
      · exact .inl (List.mem_singleton.2 hci)
      · obtain ⟨hold, hheld⟩ := (hset c hci).1 (mem_children_list.1 hc)
        exact .inr ⟨ha.owned.owner_of_field hn hv (mem_children_list.2 hold), fun ho =>
          hheld (List.mem_singleton.1 ho).symm⟩
    · intro c hc hgone
      rw [mem_children_list] at hc hgone
      by_contra ho
      rw [List.mem_singleton] at ho
      by_cases hci : some c = item
      · exact hgone (hci ▸ List.mem_set (List.getElem?_eq_some_iff.1 hi).1 _)
      · exact hgone ((hset c hci).2 ⟨hc, Ne.symm ho⟩)
    · rintro c (h' | h')
      · exact (free_of_check ha.owned (hc hne) (List.mem_singleton.1 h').symm).1
      · rw [List.mem_singleton] at h'
        exact (ha.owned.owner_of_field hn hv
          (mem_children_list.2 (h' ▸ List.mem_of_getElem? hi))).lt
    · intro c hc'
      rw [mem_children_list] at hc'
      rcases List.mem_or_eq_of_mem_set hc' with hold | hitem
      · exact .inl (mem_children_list.2 hold)
      · exact .inr (free_of_check ha.owned (hc hne) hitem.symm).2

/-- Entries that are put into a list. -/
theorem ends_listInsert_entries (ha : a.WellOwned) (parent : Option NodeId) (field : String)
    (index : Nat) (items : List (Option NodeId)) : Ends (listInsert parent field index items a)
      (fun i b => ∃ p old, parent = some p ∧ i = min index old.length
        ∧ Overwrites a b p field (.list old) (.list (old.take i ++ items ++ old.drop i))
        ∧ ∀ c, some c ∈ items → a.parentOf (some c) = none)
      fun _ b => b = a := by
  unfold listInsert
  rw [ends_bind, ends_ask]
  refine ⟨fun _ h => ?_, fun _ _ => rfl⟩
  rw [ends_bind, ends_ask]
  refine ⟨fun old hl => ?_, fun _ _ => rfl⟩
  rw [ends_bind, ends_modify, ends_pure]
  obtain ⟨-, hin⟩ := checkInserted_ok h
  obtain ⟨p, n, rfl, hn, hv⟩ := list_ok hl
  have hfree (c : NodeId) (hc : some c ∈ items) := free_of_check ha.owned (hin c hc).2 rfl
  have hold {c : NodeId} {i : Nat} (hc : some c ∈ old.take i ∨ some c ∈ old.drop i) :
      some c ∈ old := hc.elim List.mem_of_mem_take List.mem_of_mem_drop
  refine ⟨p, old, rfl, rfl, overwrites_setParents hn hv
    (kind_ne_node _ (ha.shaped p n hn) hv) [] items
    (by simp) ?_ ?_ ?_ ?_ ?_, fun c hc => (hfree c hc).2.1⟩
  · intro c hc
    exact mem_children_list.2 (List.mem_append_left _ (List.mem_append_right _ hc))
  · intro c hc
    rw [mem_children_list, List.mem_append, List.mem_append, or_assoc, or_left_comm] at hc
    exact hc.imp_right fun hc =>
      ⟨ha.owned.owner_of_field hn hv (mem_children_list.2 (hold hc)), List.not_mem_nil⟩
  · intro c hc hgone
    rw [mem_children_list, ← List.take_append_drop (min index old.length) old,
      List.mem_append] at hc
    refine absurd (mem_children_list.2 ?_) hgone
    rw [List.mem_append, List.mem_append, or_assoc, or_left_comm]
    exact .inr hc
  · rintro c (h' | h')
    · exact (hfree c h').1
    · cases h'
  · intro c hc
    rw [mem_children_list, List.mem_append, List.mem_append, or_assoc, or_left_comm] at hc
    rcases hc with hc | hc
    · exact .inr (hfree c hc).2
    · exact .inl (mem_children_list.2 (hold hc))

theorem ends_listRemove (ha : a.WellOwned) (parent : Option NodeId) (field : String) (index : Nat) :
    Ends (listRemove parent field index a)
      (fun removed b => ∃ p n old, parent = some p ∧ a.get? p = some n
        ∧ n.value? field = some (.list old) ∧ removed = old[index]? ∧ (removed = none ∧ b = a
          ∨ Overwrites a b p field (.list old) (.list (old.eraseIdx index))))
      fun _ b => b = a := by
  unfold listRemove
  rw [ends_bind, ends_ask]
  refine ⟨fun old hl => ?_, fun _ _ => rfl⟩
  obtain ⟨p, n, rfl, hn, hv⟩ := list_ok hl
  cases hi : old[index]? with
  | none => exact ⟨p, n, old, rfl, hn, hv, hi.symm, .inl ⟨rfl, rfl⟩⟩
  | some removed =>
    simp only [ends_bind, ends_modify, ends_pure]
    have hcount (c : NodeId) := count_eraseIdx hi (some c)
    have hone (c : NodeId) : old.count (some c) ≤ 1 := by
      rw [← count_children_list]
      exact ha.owned.count_field_le_one hn hv c
    refine ⟨p, n, old, rfl, hn, hv, hi.symm, .inr (overwrites_setParents hn hv
      (kind_ne_node _ (ha.shaped p n hn) hv) [removed] [] ?_ (by simp) ?_ ?_ ?_ ?_)⟩
    · intro c hc
      rw [List.mem_singleton] at hc
      exact mem_children_list.2 (hc ▸ List.mem_of_getElem? hi)
    · intro c hc
      rw [mem_children_list] at hc
      refine .inr ⟨ha.owned.owner_of_field hn hv
        (mem_children_list.2 ((List.eraseIdx_sublist ..).mem hc)), fun ho => ?_⟩
      have hc' := hcount c
      rw [if_pos (List.mem_singleton.1 ho)] at hc'
      have := hone c
      have := List.count_pos_iff.2 hc
      omega
    · intro c hc hgone
      rw [mem_children_list, ← List.count_pos_iff] at hc
      rw [mem_children_list, ← List.count_eq_zero] at hgone
      have hc' := hcount c
      by_contra ho
      rw [if_neg fun he => ho (List.mem_singleton.2 he)] at hc'
      omega
    · rintro c (h' | h')
      · cases h'
      · rw [List.mem_singleton] at h'
        exact (ha.owned.owner_of_field hn hv
          (mem_children_list.2 (h' ▸ List.mem_of_getElem? hi))).lt
    · intro c hc
      rw [mem_children_list] at hc
      exact .inl (mem_children_list.2 ((List.eraseIdx_sublist ..).mem hc))

/-! ## nodes that are pulled out -/

/-- The node `c` was pulled out of its owner `o`, which may be left with an empty slot. -/
structure Takes (a b : Arena) (c o : NodeId) : Prop where
  owned : a.OwnedBy c o
  size : b.size = a.size
  content : ∀ q, q ≠ o → (b.get? q).map Node.content = (a.get? q).map Node.content
  held : ∃ n m, a.get? o = some n ∧ b.get? o = some m ∧ m.type = n.type
    ∧ m.values = n.values.map (withoutChild c)
  parent : ∀ q, b.parentOf (some q) = if q = c then none else a.parentOf (some q)

namespace Takes

theorem type? (h : Takes a b c o) (q : NodeId) : b.type? (some q) = a.type? (some q) := by
  by_cases hq : q = o
  · subst hq
    obtain ⟨n, m, hn, hm, ht, -⟩ := h.held
    show (b.get? q).map _ = (a.get? q).map _
    rw [hn, hm, Option.map_some, Option.map_some, ht]
  · exact type?_of_content (h.content q hq)

end Takes

theorem ends_take (a : Arena) (id : Option NodeId) : Ends (take id a)
    (fun _ b => ∃ c, id = some c ∧ (a.parentOf (some c) = none ∧ b = a ∨ ∃ o, Takes a b c o))
    fun _ b => b = a := by
  unfold take
  rw [ends_bind, ends_ask]
  refine ⟨fun n hn => ?_, fun _ _ => rfl⟩
  have hl := node_ok.1 hn
  cases id with
  | none => cases hl
  | some c =>
    have hc : a.get? c = some n := hl
    have hparent : a.parentOf (some c) = n.parent := by
      rw [parentOf_some, hc]
      rfl
    cases hp : n.parent with
    | none => exact ⟨c, rfl, .inl ⟨hparent.trans hp, rfl⟩⟩
    | some o =>
      simp only [ends_bind, ends_modify, ends_ask]
      refine ⟨fun k hk => ⟨c, rfl, .inr ⟨o, hparent.trans hp, ?_, ?_, ?_, ?_⟩⟩, fun _ _ => trivial⟩
      · rw [size_setParent, size_update]
      · intro q hq
        refine (content_update_of_eq (f := ({ · with parent := none })) (fun _ => rfl)
          (some c) q).trans ?_
        rw [get?_update, if_neg hq]
      · have hk : a.get? o = some k := node_ok.1 hk
        have hold : (a.update (some o) fun k =>
            { k with values := k.values.map (withoutChild c) }).get?
            o = some { k with values := k.values.map (withoutChild c) } := by
          rw [get?_update, if_pos rfl, hk]
          rfl
        have hcontent := content_update_of_eq (f := ({ · with parent := none }))
          (fun _ => rfl) (some c) o
          (a := a.update (some o) fun k => { k with values := k.values.map (withoutChild c) })
        rw [hold] at hcontent
        obtain ⟨m, hm, hmc⟩ := Option.map_eq_some_iff.1 hcontent
        exact ⟨k, m, hk, hm, congrArg (·.1) hmc, congrArg (·.2) hmc⟩
      · intro q
        have hkeep := parentOf_update_of_eq (a := a) (q := q)
          (f := fun k => { k with values := k.values.map (withoutChild c) }) (fun _ => rfl) (some o)
        rw [parentOf_setParent, size_update, hkeep]
        by_cases hq : q = c
        · subst hq
          rw [if_pos ⟨rfl, get?_eq_some_lt hc⟩, if_pos rfl]
        · rw [if_neg fun h => hq (Option.some.inj h.1), if_neg hq]

end Arena

end ScopedTree
