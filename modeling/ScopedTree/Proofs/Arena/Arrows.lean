import ScopedTree.Proofs.Arena.Reshape
import ScopedTree.Proofs.Arena.Term

/-!
# Arrow functions

The body of an arrow function is a block or an expression, and a flag says which. Writes of places
change bodies; no write of a place changes a flag.

* `Arena.arrowBody`, `Arena.FlagsFit`   bodies, and flags that tell what they are;
* `Arena.SameFlags`     truth values stay what they are;
* `Arena.KeepsArrows`   what a run of writes leaves of bodies and flags;
* `Arena.Makes.keepsArrows`, `Arena.Puts.keepsArrows`, …   what the single writes do;
* `Arena.KeepsArrows.build`   to make other nodes leaves all flags fitting;
* `Arena.Trades`        one body in place of another;
* `Arena.Trades.flagsFit_iff`   **flags fit after that if and only if both are of one kind**.
-/

namespace ScopedTree

def Value.isTrue : Value → Bool
  | bool flag => flag
  | _ => false

theorem Node.isSet_eq (n : Node) (field : String) :
    n.isSet field = (n.value? field).any (·.isTrue) := by
  unfold isSet
  cases n.value? field with
  | none => rfl
  | some v => cases v <;> rfl

namespace Arena

variable {a b c : Arena} {m n o p x : NodeId} {s : Slot} {field : String} {old new : Value}
  {X Y : NodeId → NodeId → Prop}

/-! ## bodies and flags -/

/-- The body of an arrow function. -/
def arrowBody (a : Arena) (m : NodeId) : Option NodeId :=
  if a.is (some m) .arrowFunctionExpression then a.child? (some m) "body" else none

/-- The flag of `m` says what the body `n` is: it is set unless this is a block. -/
def FlagFits (a : Arena) (m n : NodeId) : Prop :=
  a.isSet (some m) "expression" = !a.is (some n) .blockStatement

/-- The flags of all arrow functions say what their bodies are. -/
def FlagsFit (a : Arena) : Prop := ∀ m n, a.arrowBody m = some n → a.FlagFits m n

theorem arrowBody_iff : a.arrowBody m = some n
    ↔ a.is (some m) .arrowFunctionExpression = true ∧ a.slotAt (some m) (.field "body")
    = some n := by
  unfold arrowBody
  split
  · next h => simp [h, slotAt]
  · next h => simp [h]

theorem ownedBy_of_arrowBody (ha : a.Owned) (h : a.arrowBody m = some n) : a.OwnedBy n m :=
  ha.owner_of_child m n (mem_children_of_slotAt (arrowBody_iff.1 h).2)

theorem lt_of_arrowBody (h : a.arrowBody m = some n) : m.index < a.size := by
  obtain ⟨k, hk, -⟩ := Option.map_eq_some_iff.1 (eq_of_beq (arrowBody_iff.1 h).1)
  exact get?_eq_some_lt hk

instance : Decidable (a.FlagFits m n) := inferInstanceAs (Decidable (_ = _))

instance : Decidable a.FlagsFit :=
  decidable_of_iff (∀ i < a.size, ∀ n ∈ a.arrowBody ⟨i⟩, a.FlagFits ⟨i⟩ n)
    ⟨fun h m n hn => h m.index (lt_of_arrowBody hn) n hn, fun h i _ n hn => h ⟨i⟩ n hn⟩

theorem arrowBody_of_content (h : (b.get? m).map Node.content = (a.get? m).map Node.content) :
    b.arrowBody m = a.arrowBody m := by
  have hbody : b.child? (some m) "body" = a.child? (some m) "body" :=
    slotAt_of_content h (.field "body")
  unfold arrowBody Arena.is
  rw [type?_of_content h, hbody]

/-! ## truth values -/

/-- Truth values stay what they are. -/
def SameFlags (a b : Arena) : Prop := ∀ m field, b.isSet (some m) field = a.isSet (some m) field

@[refl] theorem SameFlags.refl (a : Arena) : SameFlags a a := fun _ _ => rfl

theorem isSet_some {k : Node} (hk : a.get? m = some k) (field : String) :
    a.isSet (some m) field = (k.value? field).any (·.isTrue) := by
  rw [← k.isSet_eq]
  simp [isSet, hk]

theorem isSet_of_content (h : (b.get? m).map Node.content = (a.get? m).map Node.content)
    (field : String) :
    b.isSet (some m) field = a.isSet (some m) field := by
  have hvalue := content_congr (g := (·.value? field)) (fun _ _ hc => Node.value?_congr hc field) h
  cases hb : b.get? m with
  | none =>
    rw [hb] at hvalue
    simp [isSet, hb, Option.map_eq_none_iff.1 hvalue.symm]
  | some k =>
    rw [hb] at hvalue
    obtain ⟨n, hn, hvalue⟩ := Option.map_eq_some_iff.1 hvalue.symm
    rw [isSet_some hb, isSet_some hn, hvalue]

theorem Overwrites.sameFlags (h : Overwrites a b o field old new) (hold : old.isTrue = false)
    (hnew : new.isTrue = false) : SameFlags a b := by
  intro m name
  by_cases hm : m = o
  · subst hm
    obtain ⟨n, k, hn, hk, hv, hc, -⟩ := h.get?
    rw [isSet_some hk, isSet_some hn, Node.value?_congr hc, Node.value?_withValue hv]
    split
    · next he => rw [he, hv, Option.any_some, Option.any_some, hold, hnew]
    · rfl
  · exact isSet_of_content (h.content_ne hm) name

theorem isTrue_withoutChild (n : NodeId) (v : Value) : (withoutChild n v).isTrue = v.isTrue := by
  cases v with
  | node child =>
    show (if child = some n then Value.node none else .node child).isTrue = false
    split
    · rfl
    · rfl
  | _ => rfl

theorem standing_withoutChild {name : String} {v : Value}
    (h : (withoutChild n v).standing (.field name) = some x) :
    v.standing (.field name) = some x := by
  cases v with
  | node child =>
    change (if child = some n then Value.node none else .node child).standing _ = some x at h
    split at h
    · cases h
    · exact h
  | _ => exact h

theorem Takes.value? (h : Takes a b n o) {k k' : Node} (hk : a.get? o = some k)
    (hk' : b.get? o = some k') (field : String) :
    k'.value? field = (k.value? field).map (withoutChild n) := by
  obtain ⟨l, l', hl, hl', htype, hvalues⟩ := h.held
  obtain rfl := Option.some.inj (hk.symm.trans hl)
  obtain rfl := Option.some.inj (hk'.symm.trans hl')
  unfold Node.value?
  rw [htype, hvalues]
  cases k.type.fieldPosition? field <;> simp

theorem Takes.sameFlags (h : Takes a b n o) : SameFlags a b := by
  intro m field
  by_cases hm : m = o
  · subst hm
    obtain ⟨k, k', hk, hk', -⟩ := h.held
    rw [isSet_some hk, isSet_some hk', h.value? hk hk', Option.any_map]
    exact congrArg (Option.any · _) (funext (isTrue_withoutChild n))
  · exact isSet_of_content (h.content m hm) field

theorem Takes.slotAt_field (h : Takes a b n o) {name : String}
    (hx : b.slotAt (some m) (.field name) = some x) :
    a.slotAt (some m) (.field name) = some x := by
  by_cases hm : m = o
  · subst hm
    obtain ⟨k, k', hk, hk', -⟩ := h.held
    have hkey : (Slot.field name).key? = some name := rfl
    rw [slotAt_eq hk', hkey, Option.bind_some, h.value? hk hk'] at hx
    rw [slotAt_eq hk, hkey, Option.bind_some]
    obtain ⟨v', hv', hx⟩ := Option.bind_eq_some_iff.1 hx
    obtain ⟨v, hv, rfl⟩ := Option.map_eq_some_iff.1 hv'
    rw [hv, Option.bind_some]
    exact standing_withoutChild hx
  · rwa [slotAt_of_content (h.content m hm)] at hx

/-- The body of an arrow function may be pulled out. Another one does not come. -/
theorem Takes.arrowBody (h : Takes a b n o) (hx : b.arrowBody m = some x) :
    a.arrowBody m = some x := by
  rw [arrowBody_iff] at hx ⊢
  exact ⟨by simpa [Arena.is, h.type?] using hx.1, h.slotAt_field hx.2⟩

/-! ## what writes leave -/

/-- Flags that fit go on doing so. New bodies and new flags fit, except for those named. -/
structure KeepsArrows (X : NodeId → NodeId → Prop) (a b : Arena) : Prop where
  owned : b.WellOwned
  size : a.size ≤ b.size
  type? : ∀ q, q.index < a.size → b.type? (some q) = a.type? (some q)
  arrow : ∀ m n, b.arrowBody m = some n → (a.arrowBody m = some n
      ∧ b.isSet (some m) "expression" = a.isSet (some m) "expression") ∨ X m n ∨ b.FlagFits m n

theorem FlagFits.congr (h : a.FlagFits m n) (hn : b.type? (some n) = a.type? (some n))
    (hm : b.isSet (some m) "expression" = a.isSet (some m) "expression") : b.FlagFits m n := by
  unfold FlagFits Arena.is
  rw [hm, hn]
  exact h

namespace KeepsArrows

theorem of_content (hb : b.WellOwned) (hsize : a.size ≤ b.size)
    (h : ∀ q, (b.get? q).map Node.content = (a.get? q).map Node.content) : KeepsArrows X a b :=
  ⟨hb, hsize, fun q _ => type?_of_content (h q), fun m _ hn =>
    .inl ⟨(arrowBody_of_content (h m)).symm.trans hn, isSet_of_content (h m) _⟩⟩

theorem refl (ha : a.WellOwned) : KeepsArrows X a a :=
  ⟨ha, le_rfl, fun _ _ => rfl, fun _ _ h => .inl ⟨h, rfl⟩⟩

theorem mono (h : KeepsArrows X a b) (hX : ∀ m n, X m n → Y m n) : KeepsArrows Y a b :=
  ⟨h.owned, h.size, h.type?, fun m n hn => (h.arrow m n hn).imp_right (·.imp_left (hX m n))⟩

theorem trans (h : KeepsArrows X a b) (h' : KeepsArrows X b c) : KeepsArrows X a c where
  owned := h'.owned
  size := h.size.trans h'.size
  type? q hq := (h'.type? q (hq.trans_le h.size)).trans (h.type? q hq)
  arrow m n hn := by
    rcases h'.arrow m n hn with ⟨hb, hset⟩ | hrest
    · rcases h.arrow m n hb with ⟨ha, hset'⟩ | hX | hfits
      · exact .inl ⟨ha, hset.trans hset'⟩
      · exact .inr (.inl hX)
      · have hlt := (ownedBy_of_arrowBody h.owned.owned hb).lt
        exact .inr (.inr (hfits.congr (h'.type? n hlt) hset))
    · exact .inr hrest

theorem drop (h : KeepsArrows X a b) (hX : ∀ m n, b.arrowBody m = some n → X m n → Y m n
    ∨ b.FlagFits m n) :
    KeepsArrows Y a b := by
  refine ⟨h.owned, h.size, h.type?, fun m n hn => ?_⟩
  rcases h.arrow m n hn with hkept | hx | hfits
  · exact .inl hkept
  · exact .inr (hX m n hn hx)
  · exact .inr (.inr hfits)

theorem flagsFit (h : KeepsArrows X a b) (ha : a.WellOwned) (hfits : a.FlagsFit)
    (hX : ∀ m n, b.arrowBody m = some n → X m n → b.FlagFits m n) : b.FlagsFit := fun m n hn => by
  rcases h.arrow m n hn with ⟨hold, hset⟩ | hx | hfit
  · exact (hfits m n hold).congr (h.type? n (ownedBy_of_arrowBody ha.owned hold).lt) hset
  · exact hX m n hn hx
  · exact hfit

end KeepsArrows

/-- What is made is no arrow function. -/
theorem Makes.keepsArrows {ty : NodeType} {cs : List NodeId} (h : Makes a b n ty cs)
    (hb : b.WellOwned) (hty : ty ≠ .arrowFunctionExpression) : KeepsArrows X a b where
  owned := hb
  size := by rw [h.size]; exact Nat.le_succ _
  type? q hq := h.type_old hq
  arrow m k hk := by
    by_cases hm : m = n
    · subst hm
      have his := (arrowBody_iff.1 hk).1
      rw [Arena.is, h.type] at his
      exact absurd (Option.some.inj (eq_of_beq his)) hty
    · exact .inl ⟨(arrowBody_of_content (h.content m hm)).symm.trans hk,
        isSet_of_content (h.content m hm) _⟩

/-- A node that is put somewhere may become the body of an arrow function. -/
theorem Puts.keepsArrows (h : Puts a b o s x) (hb : b.WellOwned) (hflags : SameFlags a b) :
    KeepsArrows (fun m n => m = o ∧ s = .field "body" ∧ n = x) a b where
  owned := hb
  size := h.size.ge
  type? q _ := h.type? q
  arrow m n hn := by
    obtain ⟨his, hn⟩ := arrowBody_iff.1 hn
    rw [h.read] at hn
    split at hn
    · next he => exact .inr (.inl ⟨he.1, he.2.symm, (Option.some.inj hn).symm⟩)
    · refine .inl ⟨arrowBody_iff.2 ⟨?_, hn⟩, hflags m _⟩
      rwa [Arena.is, ← h.type? m]

theorem Takes.keepsArrows (h : Takes a b n o) (hb : b.WellOwned) : KeepsArrows X a b :=
  ⟨hb, h.size.ge, fun q _ => h.type? q, fun m _ hx => .inl ⟨h.arrowBody hx, h.sameFlags m _⟩⟩

/-- A list is no body of an arrow function, and neither is a place that is left empty. -/
theorem Overwrites.keepsArrows (h : Overwrites a b o field old new) (hb : b.WellOwned)
    (hold : old.isTrue = false) (hnew : new.isTrue = false)
    (hnone : ∀ name, new.standing (.field name) = none) : KeepsArrows X a b where
  owned := hb
  size := h.size.ge
  type? q _ := h.type? q
  arrow m n hn := by
    refine .inl ⟨?_, h.sameFlags hold hnew m _⟩
    by_cases hm : m = o
    · subst hm
      obtain ⟨his, hn⟩ := arrowBody_iff.1 hn
      rw [slotAt_overwritten h] at hn
      split at hn
      · cases (hnone _).symm.trans hn
      · refine arrowBody_iff.2 ⟨?_, hn⟩
        rwa [Arena.is, ← h.type? m]
    · rwa [← arrowBody_of_content (h.content_ne hm)]

/-- What is in a list does not matter to flags. -/
theorem Overwrites.flagsFit_iff {items items' : List (Option NodeId)}
    (h : Overwrites a b o field (.list items) (.list items')) : b.FlagsFit ↔ a.FlagsFit := by
  have hbody (m : NodeId) : b.arrowBody m = a.arrowBody m := by
    by_cases hm : m = o
    · subst hm
      have hslot : b.child? (some m) "body" = a.child? (some m) "body" := by
        show b.slotAt (some m) (.field "body") = a.slotAt (some m) (.field "body")
        rw [slotAt_overwritten h]
        split
        · next hkey => exact (slotAt_held h hkey).symm
        · rfl
      unfold arrowBody Arena.is
      rw [h.type? m, hslot]
    · exact arrowBody_of_content (h.content_ne hm)
  refine forall₂_congr fun m n => ?_
  rw [hbody]
  refine forall_congr' fun _ => ?_
  unfold FlagFits Arena.is
  rw [h.sameFlags rfl rfl, h.type? n]

theorem keepsArrows_unflag (ha : a.WellOwned) (hm : a.is (some m) .arrowFunctionExpression = true) :
    KeepsArrows (fun k _ => k = m) a (a.update (some m) (·.withValue "expression" (.bool false)))
      ∧ Alike a (a.update (some m) (·.withValue "expression" (.bool false)))
      ∧ (a.update (some m) (·.withValue "expression" (.bool false))).isSet (some m) "expression"
      = false := by
  obtain ⟨k, hk, htype⟩ := Option.map_eq_some_iff.1 (eq_of_beq hm)
  replace hk : a.get? m = some k := hk
  have hfield : (⟨"expression", .bool⟩ : Field) ∈ k.type.fields := by
    rw [htype]
    decide
  have hlike := Alike.flag ha hk hfield rfl false
  refine ⟨⟨hlike.wellOwned ha, hlike.size.ge, fun q _ => hlike.type? q, fun q n hn => ?_⟩, hlike,
    ?_⟩
  · by_cases hq : q = m
    · exact .inr (.inl hq)
    · have hcontent : ((a.update (some m) (·.withValue "expression" (.bool false))).get? q).map
          Node.content = (a.get? q).map Node.content := by
        rw [get?_update, if_neg hq]
      exact .inl ⟨(arrowBody_of_content hcontent).symm.trans hn, isSet_of_content hcontent _⟩
  · obtain ⟨v, hv, -⟩ := (ha.shaped m k hk).value?_of_mem hfield
    have hget : (a.update (some m) (·.withValue "expression" (.bool false))).get? m
        = some (k.withValue "expression" (.bool false)) := by
      rw [get?_update, if_pos rfl, hk]
      rfl
    rw [isSet_some hget, Node.value?_withValue hv, if_pos rfl]
    rfl

/-! ## calls -/

namespace KeepsArrows

/-- What is made is no arrow function. -/
theorem build {ty : NodeType} (hty : ty ≠ .arrowFunctionExpression)
    (fields : List (String × Value)) :
    Stays (KeepsArrows X a) (build ty fields) := by
  refine stays_iff.2 fun b h => ?_
  have howned : Stays Arena.Owned (Arena.build ty fields) :=
    (stays_ask _).bind fun values => stays_owned_alloc ty values
  have hshaped : Stays Arena.Shaped (Arena.build ty fields) :=
    (stays_ask _).bind fun values => stays_shaped_alloc ty values
  refine (((stays_iff.1 howned b h.owned.owned).and (stays_iff.1 hshaped b h.owned.shaped)).and
    (ends_build b ty fields)).imp ?_ ?_
  · rintro n c ⟨⟨ho, hs⟩, cs, hmakes, -⟩
    exact h.trans (hmakes.keepsArrows ⟨ho, hs⟩ hty)
  · rintro e c ⟨-, rfl⟩
    exact h

end KeepsArrows

/-! ## a body for another -/

/-- If `n` was the body of the arrow function `owner`, this has the body `x`, and its flag did not
change. All other flags that fitted do so. -/
structure Trades (owner : Option NodeId) (n x : NodeId) (a b : Arena) : Prop where
  keeps : KeepsArrows (fun m _ => owner = some m ∧ a.arrowBody m = some n) a b
  body : ∀ o, owner = some o → (b.arrowBody o = some x ↔ a.arrowBody o = some n)
  flag : ∀ o, owner = some o → a.arrowBody o = some n →
    b.isSet (some o) "expression" = a.isSet (some o) "expression"

section Trades

variable {owner : Option NodeId}

theorem Trades.trans {y : NodeId} (h : Trades owner n x a b) (h' : Trades owner x y b c) :
    Trades owner n y a c where
  keeps := h.keeps.trans (h'.keeps.mono fun m _ hm => ⟨hm.1, (h.body m hm.1).1 hm.2⟩)
  body o ho := (h'.body o ho).trans (h.body o ho)
  flag o ho hn := (h'.flag o ho ((h.body o ho).2 hn)).trans (h.flag o ho hn)

theorem Trades.of_content (hb : b.WellOwned) (hsize : a.size ≤ b.size)
    (h : ∀ q, (b.get? q).map Node.content = (a.get? q).map Node.content) :
    Trades owner n n a b where
  keeps := .of_content hb hsize h
  body o _ := by rw [arrowBody_of_content (h o)]
  flag o _ _ := isSet_of_content (h o) _

theorem Trades.refl (ha : a.WellOwned) : Trades owner n n a a := .of_content ha le_rfl fun _ => rfl

/-- A body that stays is kept. -/
theorem Trades.keepsArrows (h : Trades owner n n a b) : KeepsArrows X a b where
  __ := h.keeps
  arrow m k hk := by
    rcases h.keeps.arrow m k hk with hold | ⟨ho, hn⟩ | hfits
    · exact .inl hold
    · obtain rfl := Option.some.inj (((h.body m ho).2 hn).symm.trans hk)
      exact .inl ⟨hn, h.flag m ho hn⟩
    · exact .inr (.inr hfits)

/-- **Flags fit afterwards if and only if the body is of the kind of the one before.** -/
theorem Trades.flagsFit_iff (h : Trades owner n x a b) (ha : a.WellOwned) (hfits : a.FlagsFit) :
    b.FlagsFit ↔ ∀ o, owner = some o → a.arrowBody o = some n →
      a.is (some n) .blockStatement = b.is (some x) .blockStatement := by
  constructor
  · intro hfits' o ho hn
    have hold := hfits o n hn
    have hnew := hfits' o x ((h.body o ho).2 hn)
    unfold FlagFits at hold hnew
    rw [h.flag o ho hn, hold] at hnew
    exact Bool.not_inj hnew
  · refine fun hkind => h.keeps.flagsFit ha hfits fun o k hk ⟨ho, hn⟩ => ?_
    obtain rfl := Option.some.inj (((h.body o ho).2 hn).symm.trans hk)
    unfold FlagFits
    rw [h.flag o ho hn, hfits o n hn, hkind o ho hn]

theorem Makes.trades {ty : NodeType} {cs : List NodeId} (h : Makes a b m ty cs) (hb : b.WellOwned)
    (hty : ty ≠ .arrowFunctionExpression) : Trades owner n n a b where
  keeps := h.keepsArrows hb hty
  body o _ := by
    by_cases ho : o = m
    · subst ho
      refine iff_of_false (fun hn => hty ?_) fun hn => ?_
      · have his := (arrowBody_iff.1 hn).1
        rw [Arena.is, h.type] at his
        exact Option.some.inj (eq_of_beq his)
      · exact h.ne (lt_of_arrowBody hn) rfl
    · rw [arrowBody_of_content (h.content o ho)]
  flag o _ hn := isSet_of_content (h.content o (h.ne (lt_of_arrowBody hn))) _

theorem isTrue_put {v : Value} (hs : v.standing s = some n) :
    v.isTrue = false ∧ (v.put x s).isTrue = false := by
  cases v with
  | node child => cases s <;> exact ⟨rfl, rfl⟩
  | list items => cases s <;> exact ⟨rfl, rfl⟩
  | _ => cases s <;> cases hs

theorem standing_put {v : Value} (hs : v.standing s = some n) :
    (v.put x s).standing s = some x := by
  cases s with
  | root => cases hs
  | field name =>
    cases v with
    | node child => rfl
    | _ => cases hs
  | entry list i =>
    cases v with
    | list items =>
      obtain ⟨hlt, -⟩ := List.getElem?_eq_some_iff.1 (Option.join_eq_some_iff.1 hs)
      show (items.set i (some x))[i]?.join = some x
      rw [List.getElem?_set_self hlt]
      rfl
    | _ => cases hs

theorem eq_of_standing_put {v : Value} {k : NodeId} {name : String} (hs : v.standing s = some n)
    (hk : (v.put x s).standing (.field name) = some k) : k = x := by
  cases v with
  | node child =>
    cases s with
    | field _ => exact (Option.some.inj hk).symm
    | _ => cases hs
  | list items => cases s <;> cases hk
  | _ => cases s <;> cases hs

theorem Overwrites.trades (h : Overwrites a b o field old (old.put x s)) (ha : a.WellOwned)
    (hb : b.WellOwned) (hkey : s.key? = some field) (hs : old.standing s = some n) :
    Trades (some o) n x a b := by
  obtain ⟨hold, hnew⟩ := isTrue_put (x := x) hs
  have hflags : SameFlags a b := h.sameFlags hold hnew
  have hstood : a.slotAt (some o) s = some n := (slotAt_held h hkey).trans hs
  have hstands : b.slotAt (some o) s = some x := by
    rw [slotAt_overwritten h, if_pos hkey]
    exact standing_put hs
  have hbody : b.arrowBody o = some x ↔ a.arrowBody o = some n := by
    rw [arrowBody_iff, arrowBody_iff, Arena.is, Arena.is, h.type? o]
    refine and_congr_right fun _ => ⟨fun hx => ?_, fun hn => ?_⟩
    · rwa [← hb.owned.slot_unique hstands hx]
    · rwa [← ha.owned.slot_unique hstood hn]
  refine ⟨⟨hb, h.size.ge, fun q _ => h.type? q, fun m k hk => ?_⟩, fun m hm => ?_,
    fun m _ _ => hflags m _⟩
  · by_cases hm : m = o
    · subst hm
      by_cases hx : k = x
      · subst hx
        exact .inr (.inl ⟨rfl, hbody.1 hk⟩)
      · obtain ⟨his, hk⟩ := arrowBody_iff.1 hk
        rw [Arena.is, h.type? m] at his
        rw [slotAt_overwritten h] at hk
        split at hk
        · exact absurd (eq_of_standing_put hs hk) hx
        · exact .inl ⟨arrowBody_iff.2 ⟨his, hk⟩, hflags m _⟩
    · exact .inl ⟨(arrowBody_of_content (h.content_ne hm)).symm.trans hk, hflags m _⟩
  · obtain rfl := Option.some.inj hm
    exact hbody

end Trades

end Arena

end ScopedTree
