import Mathlib.Data.List.Basic
import ScopedTree.Proofs.Arena.Slots

/-!
# Nodes as terms

A node with all that lies below it is read as a term. In an arena with single owners a change at one
node changes the term of what lies above it at one position, and nowhere else.

* `Term`, `Arena.term`          a node read with all that lies below it;
* `Arena.at?`                   the node at a position below another;
* `Term.modifyAt`               the term with a change at a position;
* `Arena.term_eq`               a node reads as its type, its comments and its values read;
* `Arena.term_congr`            what lies below a node decides its term;
* `Arena.term_modifyAt`         **a change of one node is a change at one position**.
-/

namespace ScopedTree

open Relation

/-! ## terms -/

/-- The value of a field, with children of some kind. -/
inductive Part (α : Type) where
  | one (child : Option α)
  | many (items : List (Option α))
  | plain (value : Value)

/-- A node with its children in place of their handles. -/
inductive Term where
  | node (type : NodeType) (comments : NodeComments) (parts : List (Part Term))
  /-- There is no node. -/
  | nothing

variable {α β : Type}

def Value.read (f : NodeId → α) : Value → Part α
  | .node child => .one (child.map f)
  | .list items => .many (items.map (·.map f))
  | value => .plain value

def Part.modify (s : Slot) (f : α → α) : Part α → Part α
  | .one child =>
    match s with
    | .field _ => .one (child.map f)
    | _ => .one child
  | .many items =>
    match s with
    | .entry _ i => .many (items.modify i (·.map f))
    | _ => .many items
  | .plain value => .plain value

def Part.mapList (f : List (Option α) → List (Option α)) : Part α → Part α
  | .many items => .many (f items)
  | part => part

namespace Term

def mapPart (name : String) (f : Part Term → Part Term) : Term → Term
  | node ty comments parts =>
    node ty comments ((ty.fieldPosition? name).elim parts fun i => parts.modify i f)
  | nothing => nothing

/-- The term with a change at a position. -/
def modifyAt (f : Term → Term) : List Slot → Term → Term
  | [], τ => f τ
  | s :: rest, τ => (s.key?).elim τ fun name => τ.mapPart name (·.modify s (modifyAt f rest))

def mapList (name : String) (f : List (Option Term) → List (Option Term)) (τ : Term) : Term :=
  τ.mapPart name (·.mapList f)

def comments : Term → NodeComments
  | node _ comments _ => comments
  | nothing => {}

def mapComments (f : NodeComments → NodeComments) : Term → Term
  | node ty comments parts => node ty (f comments) parts
  | nothing => nothing

theorem modifyAt_append (f : Term → Term) (w w' : List Slot) (τ : Term) :
    τ.modifyAt f (w ++ w') = τ.modifyAt (·.modifyAt f w') w := by
  induction w generalizing τ with
  | nil => rfl
  | cons s w ih =>
    have hih : modifyAt f (w ++ w') = modifyAt (·.modifyAt f w') w := funext ih
    rw [List.cons_append, modifyAt, modifyAt, hih]

theorem mapPart_id (name : String) {f : Part Term → Part Term} (hf : ∀ part, f part = part)
    (τ : Term) :
    τ.mapPart name f = τ := by
  obtain rfl : f = id := funext hf
  cases τ with
  | nothing => rfl
  | node ty comments parts =>
    rw [mapPart]
    cases ty.fieldPosition? name with
    | none => rfl
    | some i => exact congrArg (node ty comments) (List.modify_id i parts)

theorem modifyAt_id {f : Term → Term} (hf : ∀ τ, f τ = τ) (w : List Slot) (τ : Term) :
    τ.modifyAt f w = τ := by
  induction w generalizing τ with
  | nil => exact hf τ
  | cons s w ih =>
    rw [modifyAt]
    cases s.key? with
    | none => rfl
    | some name =>
      refine mapPart_id name (fun part => ?_) τ
      have hchild (x : Option Term) : x.map (modifyAt f w) = x := by
        cases x with
        | none => rfl
        | some τ => exact congrArg some (ih τ)
      cases part with
      | one child =>
        cases s with
        | field name => exact congrArg Part.one (hchild child)
        | _ => rfl
      | many items =>
        cases s with
        | entry list i =>
          refine congrArg Part.many ?_
          rw [show (Option.map (modifyAt f w) : Option Term → Option Term) = id from funext hchild]
          exact List.modify_id i items
        | _ => rfl
      | plain value => rfl

theorem mapList_id (name : String) {f : List (Option Term) → List (Option Term)} (hf : ∀ l, f l = l)
    (τ : Term) : τ.mapList name f = τ := by
  refine mapPart_id name (fun part => ?_) τ
  cases part with
  | many items => exact congrArg Part.many (hf items)
  | _ => rfl

end Term

namespace Arena

/-- What is read of a node, over at most `fuel` levels. -/
def termUpTo (a : Arena) : Nat → NodeId → Term
  | 0, _ => .nothing
  | fuel + 1, n =>
    match a.get? n with
    | some k => .node k.type k.comments (k.values.map (Value.read (a.termUpTo fuel)))
    | none => .nothing

/-- The node with all that lies below it. No way down is longer than there are nodes. -/
def term (a : Arena) (n : NodeId) : Term := a.termUpTo a.size n

/-- The node at a position below `n`. -/
def at? (a : Arena) (n : NodeId) : List Slot → Option NodeId
  | [] => some n
  | s :: rest => (a.slotAt (some n) s).bind (a.at? · rest)

end Arena

def Node.shown (n : Node) : (NodeType × List Value) × NodeComments := (n.content, n.comments)

theorem Value.read_congr {f g : NodeId → α} {v : Value} (h : ∀ c ∈ v.children, f c = g c) :
    v.read f = v.read g := by
  cases v with
  | node child =>
    cases child with
    | none => rfl
    | some c => exact congrArg (Part.one ∘ some) (h c (Arena.mem_children_node.2 rfl))
  | list items =>
    refine congrArg Part.many (List.map_congr_left fun x hx => ?_)
    cases x with
    | none => rfl
    | some c => exact congrArg some (h c (Arena.mem_children_list.2 hx))
  | _ => rfl

namespace Arena

variable {a b : Arena} {c m n o p r : NodeId} {k : Node} {s : Slot} {w : List Slot}

theorem card_above_lt_size (ha : a.Owned) (hn : n.index < a.size) : (a.above n).card < a.size := by
  have hss : a.above n ⊂ Finset.range a.size := by
    refine Finset.ssubset_iff_subset_ne.2 ⟨fun i hi => ?_, fun he => ?_⟩
    · classical exact (Finset.mem_filter.1 hi).1
    · exact ha.acyclic n ((mem_above ha).1 (he ▸ Finset.mem_range.2 hn))
  exact (Finset.card_lt_card hss).trans_eq (Finset.card_range _)

theorem Owned.owner_of_value (ha : a.Owned) (hn : a.get? n = some k) {v : Value} (hv : v ∈ k.values)
    (hc : c ∈ v.children) : a.OwnedBy c n := by
  refine ha.owner_of_child n c ?_
  rw [children_some, hn]
  exact List.mem_flatMap.2 ⟨v, hv, hc⟩

theorem termUpTo_succ (ha : a.Owned) : ∀ {fuel : Nat} {n : NodeId},
    a.size ≤ fuel + (a.above n).card → a.termUpTo (fuel + 1) n = a.termUpTo fuel n
  | 0, n, h => by
    have hn : a.get? n = none := by
      by_contra hn
      have := card_above_lt_size ha (isSome_get?_iff.1 (Option.isSome_iff_ne_none.2 hn))
      omega
    simp only [termUpTo, hn]
  | fuel + 1, n, h => by
    rw [termUpTo, termUpTo]
    cases hn : a.get? n with
    | none => rfl
    | some k =>
      refine congrArg (Term.node _ _) (List.map_congr_left fun v hv =>
        Value.read_congr fun c hc => ?_)
      have := card_above_lt ha (ha.owner_of_value hn hv hc)
      exact termUpTo_succ ha (by omega)

/-- A node reads as its type, its comments and its values read. -/
theorem term_eq (ha : a.Owned) (hn : a.get? n = some k) :
    a.term n = .node k.type k.comments (k.values.map (Value.read a.term)) := by
  obtain ⟨fuel, hsize⟩ : ∃ fuel, a.size = fuel + 1 :=
    Nat.exists_eq_succ_of_ne_zero (Nat.ne_zero_of_lt (get?_eq_some_lt hn))
  unfold term
  rw [hsize, termUpTo, hn]
  refine congrArg (Term.node _ _) (List.map_congr_left fun v hv => Value.read_congr fun c hc => ?_)
  have hpos : 0 < (a.above c).card :=
    Finset.card_pos.2 ⟨n.index, (mem_above ha).2 (.single (ha.owner_of_value hn hv hc))⟩
  exact (termUpTo_succ ha (by omega)).symm

theorem term_of_none (hn : a.get? n = none) : a.term n = .nothing := by
  unfold term
  cases a.size with
  | zero => rfl
  | succ fuel =>
    rw [termUpTo, hn]

/-- What lies below a node decides its term. -/
theorem term_congr (ha : a.Owned) (hsize : b.size = a.size)
    (h : ∀ m, ReflTransGen a.OwnedBy m n → (b.get? m).map Node.shown = (a.get? m).map Node.shown) :
    b.term n = a.term n := by
  unfold term
  rw [hsize]
  generalize a.size = fuel
  induction fuel generalizing n with
  | zero => rfl
  | succ fuel ih =>
    have hself := h n .refl
    rw [termUpTo, termUpTo]
    cases hn : a.get? n with
    | none =>
      rw [hn, Option.map_none, Option.map_eq_none_iff] at hself
      rw [hself]
    | some k =>
      rw [hn] at hself
      obtain ⟨k', hk', hshown⟩ := Option.map_eq_some_iff.1 hself
      obtain ⟨hcontent, hcomments⟩ := Prod.mk.inj hshown
      obtain ⟨htype, hvalues⟩ := Prod.mk.inj hcontent
      rw [hk']
      dsimp only
      rw [htype, hcomments, hvalues]
      refine congrArg (Term.node _ _) (List.map_congr_left fun v hv =>
        Value.read_congr fun c hc => ?_)
      exact ih fun m hm => h m (hm.tail (ha.owner_of_value hn hv hc))

/-! ## positions -/

theorem reaches_of_at? (ha : a.Owned) (h : a.at? r w = some n) : ReflTransGen a.OwnedBy n r := by
  induction w generalizing r with
  | nil =>
    obtain rfl := Option.some.inj h
    exact .refl
  | cons s w ih =>
    obtain ⟨c, hc, hn⟩ := Option.bind_eq_some_iff.1 h
    exact (ih hn).tail (ha.owner_of_child r c (mem_children_of_slotAt hc))

theorem at?_append (a : Arena) (r : NodeId) (w w' : List Slot) :
    a.at? r (w ++ w') = (a.at? r w).bind (a.at? · w') := by
  induction w generalizing r with
  | nil => rfl
  | cons s w ih =>
    rw [List.cons_append, at?, at?, Option.bind_assoc]
    exact congrArg _ (funext ih)

theorem Owned.branch_unique (ha : a.Owned) {c' : NodeId} (hc : a.OwnedBy c p) (hc' : a.OwnedBy c' p)
    (hm : ReflTransGen a.OwnedBy m c) (hm' : ReflTransGen a.OwnedBy m c') : c = c' := by
  have hunique : Relator.RightUnique a.OwnedBy := fun _ _ _ h h' => h.unique h'
  -- one of the two would be above the other, and so above itself
  have habove {x y : NodeId} (hx : a.OwnedBy x p) (hy : a.OwnedBy y p)
      (hxy : ReflTransGen a.OwnedBy x y) : x = y := by
    rcases ReflTransGen.cases_head hxy with rfl | ⟨q, hq, hqy⟩
    · rfl
    · obtain rfl := hx.unique hq
      exact absurd (TransGen.head' hy hqy) (ha.acyclic y)
  rcases ReflTransGen.total_of_right_unique hunique hm hm' with h | h
  · exact habove hc hc' h
  · exact (habove hc' hc h).symm

theorem entry_unique {items : List (Option NodeId)} {i j : Nat} (hone : items.count (some c) ≤ 1)
    (hi : items[i]? = some (some c)) (hj : items[j]? = some (some c)) : i = j := by
  by_contra hne
  have hmem : some c ∈ items.set i none := by
    refine List.mem_of_getElem? (i := j) ?_
    rw [List.getElem?_set_ne hne]
    exact hj
  exact ((mem_set_iff hi hone (Option.some_ne_none c)).1 hmem).2 rfl

theorem Owned.value_unique (ha : a.Owned) (hk : a.get? o = some k) {i j : Nat} {v v' : Value}
    (hi : k.values[i]? = some v) (hj : k.values[j]? = some v') (hc : c ∈ v.children)
    (hc' : c ∈ v'.children) : i = j := by
  have hnodup := ha.nodup_children o
  rw [children_some, hk] at hnodup
  have hdisjoint := (List.nodup_flatMap.1 (show (k.values.flatMap Value.children).Nodup
    from hnodup)).2
  obtain ⟨hilt, rfl⟩ := List.getElem?_eq_some_iff.1 hi
  obtain ⟨hjlt, rfl⟩ := List.getElem?_eq_some_iff.1 hj
  rcases Nat.lt_trichotomy i j with hlt | heq | hlt
  · exact absurd hc' (List.pairwise_iff_getElem.1 hdisjoint i j hilt hjlt hlt hc)
  · exact heq
  · exact absurd hc (List.pairwise_iff_getElem.1 hdisjoint j i hjlt hilt hlt hc')

theorem mem_children_of_standing {v : Value} (h : v.standing s = some c) : c ∈ v.children := by
  cases s with
  | root => cases h
  | field name =>
    cases v with
    | node child => exact mem_children_node.2 h
    | _ => cases h
  | entry list i =>
    cases v with
    | list items => exact mem_children_list.2 (List.mem_of_getElem? (Option.join_eq_some_iff.1 h))
    | _ => cases h

theorem exists_of_slotAt (h : a.slotAt (some o) s = some c) : ∃ k name i v, a.get? o = some k
    ∧ s.key? = some name ∧ k.type.fieldPosition? name = some i ∧ k.values[i]? = some v
    ∧ v.standing s = some c := by
  obtain ⟨k, hk, -⟩ := get?_of_mem_children (mem_children_of_slotAt h)
  rw [slotAt_eq hk] at h
  obtain ⟨v, hv, hs⟩ := Option.bind_eq_some_iff.1 h
  obtain ⟨name, hkey, hv⟩ := Option.bind_eq_some_iff.1 hv
  obtain ⟨i, hi, hv⟩ := Option.bind_eq_some_iff.1 hv
  exact ⟨k, name, i, v, hk, hkey, hi, hv, hs⟩

theorem exists_list_of_slotAt {list : String} {i : Nat}
    (h : a.slotAt (some o) (.entry list i) = some c) :
    ∃ k items, a.get? o = some k ∧ k.value? list = some (.list items)
      ∧ items[i]? = some (some c) := by
  obtain ⟨k, hk, -⟩ := get?_of_mem_children (mem_children_of_slotAt h)
  rw [slotAt_eq hk] at h
  obtain ⟨v, hv, hs⟩ := Option.bind_eq_some_iff.1 h
  cases v with
  | list items => exact ⟨k, items, hk, hv, Option.join_eq_some_iff.1 hs⟩
  | _ => cases hs

theorem standing_unique {v : Value} {s' : Slot} (hone : v.children.count c ≤ 1)
    (hkey : s.key? = s'.key?) (h : v.standing s = some c) (h' : v.standing s' = some c) :
    s = s' := by
  cases s with
  | root => cases h
  | field name =>
    cases s' with
    | root => cases h'
    | field name' => exact congrArg Slot.field (Option.some.inj hkey)
    | entry list i =>
      cases v with
      | node child => cases h'
      | _ => cases h
  | entry list i =>
    cases s' with
    | root => cases h'
    | field name' =>
      cases v with
      | list items => cases h'
      | _ => cases h
    | entry list' j =>
      obtain rfl := Option.some.inj hkey
      cases v with
      | list items =>
        rw [count_children_list] at hone
        rw [entry_unique hone (Option.join_eq_some_iff.1 h) (Option.join_eq_some_iff.1 h')]
      | _ => cases h

theorem Owned.slot_unique (ha : a.Owned) {s' : Slot} (h : a.slotAt (some o) s = some c)
    (h' : a.slotAt (some o) s' = some c) : s = s' := by
  obtain ⟨k, name, i, v, hk, hkey, hi, hv, hs⟩ := exists_of_slotAt h
  obtain ⟨k', name', i', v', hk', hkey', hi', hv', hs'⟩ := exists_of_slotAt h'
  obtain rfl := Option.some.inj (hk.symm.trans hk')
  obtain rfl := ha.value_unique hk hv hv' (mem_children_of_standing hs)
    (mem_children_of_standing hs')
  obtain rfl := Option.some.inj (hv.symm.trans hv')
  obtain rfl := Node.fieldPosition?_inj hi hi'
  have hvalue : k.value? name = some v := by
    rw [Node.value?, hi]
    exact hv
  exact standing_unique (ha.count_field_le_one hk hvalue c) (hkey.trans hkey'.symm) hs hs'

end Arena

/-! ## changes -/

def Value.put (x : NodeId) (s : Slot) : Value → Value
  | .node child =>
    match s with
    | .field _ => .node (some x)
    | _ => .node child
  | .list items =>
    match s with
    | .entry _ i => .list (items.set i (some x))
    | _ => .list items
  | value => value

namespace Arena

variable {a b : Arena} {c m n o p r x : NodeId} {k : Node} {v : Value} {s : Slot} {w : List Slot}
  {name : String} {f g : NodeId → Term} {φ : Term → Term}

theorem put_standing (h : v.standing s = some c) : v.put c s = v := by
  cases s with
  | root => cases h
  | field name =>
    cases v with
    | node child => exact congrArg Value.node h.symm
    | _ => cases h
  | entry list i =>
    cases v with
    | list items =>
      obtain ⟨hlt, hi⟩ := List.getElem?_eq_some_iff.1 (Option.join_eq_some_iff.1 h)
      exact congrArg Value.list (by rw [← hi, List.set_getElem_self])
    | _ => cases h

theorem not_mem_put (hone : v.children.count c ≤ 1) (hs : v.standing s = some c) (hx : x ≠ c) :
    c ∉ (v.put x s).children := by
  cases s with
  | root => cases hs
  | field name =>
    cases v with
    | node child => exact fun hc => hx (Option.some.inj (mem_children_node.1 hc))
    | _ => cases hs
  | entry list i =>
    cases v with
    | list items =>
      have hi : items[i]? = some (some c) := Option.join_eq_some_iff.1 hs
      rw [count_children_list] at hone
      have hset := mem_set_iff hi hone fun he => hx (Option.some.inj he).symm
      exact fun hc => (hset.1 (mem_children_list.1 hc)).2 rfl
    | _ => cases hs

theorem mem_put (hs : v.standing s = some c) : x ∈ (v.put x s).children := by
  cases s with
  | root => cases hs
  | field name =>
    cases v with
    | node child => exact mem_children_node.2 rfl
    | _ => cases hs
  | entry list i =>
    cases v with
    | list items =>
      obtain ⟨hlt, -⟩ := List.getElem?_eq_some_iff.1 (Option.join_eq_some_iff.1 hs)
      exact mem_children_list.2 (List.mem_set hlt _)
    | _ => cases hs

theorem read_put (hone : v.children.count c ≤ 1) (hs : v.standing s = some c) (hx : g x = φ (f c))
    (hothers : ∀ c' ∈ v.children, c' ≠ c → g c' = f c') :
    (v.put x s).read g = (v.read f).modify s φ := by
  cases s with
  | root => cases hs
  | field name =>
    cases v with
    | node child =>
      obtain rfl : child = some c := hs
      exact congrArg (Part.one ∘ some) hx
    | _ => cases hs
  | entry list i =>
    cases v with
    | list items =>
      have hi : items[i]? = some (some c) := Option.join_eq_some_iff.1 hs
      rw [count_children_list] at hone
      refine congrArg Part.many (List.ext_getElem? fun j => ?_)
      rw [List.getElem?_map, List.getElem?_modify, List.getElem?_map]
      by_cases hj : i = j
      · subst hj
        rw [List.getElem?_set_self (List.getElem?_eq_some_iff.1 hi).1, hi]
        simp [hx]
      · rw [List.getElem?_set_ne hj]
        simp only [hj, if_false]
        cases hy : items[j]? with
        | none => rfl
        | some y =>
          cases y with
          | none => rfl
          | some c' =>
            have hne : c' ≠ c := fun he => hj (entry_unique hone hi (he ▸ hy))
            simp [hothers c' (mem_children_list.2 (List.mem_of_getElem? hy)) hne]
    | _ => cases hs

theorem read_modify (hone : v.children.count c ≤ 1) (hs : v.standing s = some c)
    (hc : g c = φ (f c)) (hothers : ∀ c' ∈ v.children, c' ≠ c → g c' = f c') :
    v.read g = (v.read f).modify s φ := by
  have hput := read_put hone hs hc hothers
  rwa [put_standing hs] at hput

theorem term_withValue (ha : a.Owned) (hb : b.Owned) (hk : a.get? o = some k) {old : Value}
    (hv : k.value? name = some old) (new : Value)
    (hshown : (b.get? o).map Node.shown = some (k.withValue name new).shown)
    {F : Part Term → Part Term} (hnew : new.read b.term = F (old.read a.term))
    (hothers : ∀ c ∈ a.children (some o), c ∉ old.children → b.term c = a.term c) :
    b.term o = (a.term o).mapPart name F := by
  obtain ⟨i, hi, hiv⟩ := Option.bind_eq_some_iff.1 hv
  obtain ⟨k', hk', hshown⟩ := Option.map_eq_some_iff.1 hshown
  have hw : k.withValue name new = { k with values := k.values.set i new } := by
    rw [Node.withValue, hi]
  rw [hw] at hshown
  obtain ⟨hcontent, hcomments⟩ := Prod.mk.inj hshown
  obtain ⟨htype, hvalues⟩ := Prod.mk.inj hcontent
  rw [term_eq hb hk', term_eq ha hk, Term.mapPart, htype, hcomments, hvalues, hi]
  refine congrArg (Term.node _ _) (List.ext_getElem? fun j => ?_)
  rw [Option.elim_some, List.getElem?_map, List.getElem?_modify, List.getElem?_map]
  by_cases hj : i = j
  · subst hj
    rw [List.getElem?_set_self (List.getElem?_eq_some_iff.1 hiv).1, hiv]
    simp [hnew]
  · rw [List.getElem?_set_ne hj]
    simp only [hj, if_false]
    cases hy : k.values[j]? with
    | none => rfl
    | some v =>
      refine congrArg some (Value.read_congr fun c hc => hothers c ?_ fun hold => ?_)
      · rw [children_some, hk]
        exact List.mem_flatMap.2 ⟨v, List.mem_of_getElem? hy, hc⟩
      · exact hj (ha.value_unique hk hiv hy hold hc)

/-- **A change of one node is a change at one position.** The nodes below `r` that are not below `o`
show what they did. -/
theorem term_modifyAt (ha : a.Owned) (hb : b.Owned) (hsize : b.size = a.size) : ∀ {w : List Slot}
    {r : NodeId}, a.at? r w = some o →
    (∀ m, ReflTransGen a.OwnedBy m r → ¬ ReflTransGen a.OwnedBy m o →
      (b.get? m).map Node.shown = (a.get? m).map Node.shown) →
    b.term o = φ (a.term o) → b.term r = (a.term r).modifyAt φ w
  | [], r, hat, _, ho => by
    obtain rfl := Option.some.inj hat
    exact ho
  | s :: w, r, hat, hsame, ho => by
    obtain ⟨c, hc, hat⟩ := Option.bind_eq_some_iff.1 hat
    have hown : a.OwnedBy c r := ha.owner_of_child r c (mem_children_of_slotAt hc)
    have hoc : ReflTransGen a.OwnedBy o c := reaches_of_at? ha hat
    have hbelow : b.term c = (a.term c).modifyAt φ w :=
      term_modifyAt ha hb hsize hat (fun m hm => hsame m (hm.tail hown)) ho
    have hself : (b.get? r).map Node.shown = (a.get? r).map Node.shown :=
      hsame r .refl fun hro => ha.acyclic r (TransGen.trans_right (hro.trans hoc) (.single hown))
    obtain ⟨k, name, i, v, hk, hkey, hi, hv, hs⟩ := exists_of_slotAt hc
    have hvalue : k.value? name = some v := by
      rw [Node.value?, hi]
      exact hv
    have hothers (c' : NodeId) (hc' : c' ∈ a.children (some r))
        (hne : c' ≠ c) : b.term c' = a.term c' := by
      have hown' := ha.owner_of_child r c' hc'
      refine term_congr ha hsize fun m hm => hsame m (hm.tail hown') fun hmo => hne ?_
      exact ha.branch_unique hown' hown hm (hmo.trans hoc)
    rw [Term.modifyAt, hkey, Option.elim_some]
    refine term_withValue ha hb hk hvalue v ?_ ?_ fun c' hc' hnot => hothers c' hc' ?_
    · rw [hself, hk, Node.withValue_self hvalue]
      rfl
    · refine read_modify (ha.count_field_le_one hk hvalue c) hs hbelow
        fun c' hc' hne => hothers c' ?_ hne
      exact ha.mem_children (ha.owner_of_field hk hvalue hc')
    · rintro rfl
      exact hnot (mem_children_of_standing hs)

end Arena

end ScopedTree
