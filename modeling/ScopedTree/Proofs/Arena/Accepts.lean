import ScopedTree.Proofs.Arena.Relist

/-!
# Legal edits

A write of children either does all of its work or nothing. Which writes are done is said here
without the checks and their order.

* `Arena.Atomic`                        nothing changes where the program fails;
* `Arena.Attachable`                    a node that may come to a slot of another;
* `Arena.Makeable`, `Settable`, `Insertable`   the legal edits of three of the writes;
* `Arena.checkAttachable_iff`, …        what the checks let pass;
* `Arena.writes_legal`                  **the writes are atomic, and these three do exactly the
  legal edits**.
-/

namespace ScopedTree.Arena

open Relation

variable {α β : Type} {a b : Arena} {c p : NodeId} {parent child : Option NodeId} {field : String}

/-! ## all or nothing -/

/-- The program changes nothing where it fails. -/
def Atomic (x : ArenaM α) : Prop := ∀ a e b, x a = .error e b → b = a

theorem atomic_pure (x : α) : Atomic (pure x : ArenaM α) := fun _ _ _ h => nomatch h

theorem atomic_modify (f : Arena → Arena) (x : α) :
    Atomic (modify f >>= fun _ => (pure x : ArenaM α)) := fun _ _ _ h => nomatch h

theorem run_ask_bind_of_error {f : Arena → Except ShapeError α} {g : α → ArenaM β} {e : ShapeError}
    (h : f a = .error e) : (ask f >>= g) a = .error e a := by
  have hask : ask f a = .error e a := by
    unfold ask
    rw [run_get_bind, h]
    rfl
  exact run_bind_of_error hask

theorem Atomic.ask_bind {f : Arena → Except ShapeError α} {g : α → ArenaM β}
    (hg : ∀ x, Atomic (g x)) :
    Atomic (ask f >>= g) := fun a e b h => by
  cases hf : f a with
  | ok x => exact hg x a e b ((run_ask_bind hf).symm.trans h)
  | error e' =>
    obtain ⟨-, rfl⟩ := EStateM.Result.error.inj ((run_ask_bind_of_error hf).symm.trans h)
    rfl

theorem atomic_alloc (ty : NodeType) (values : List Value) : Atomic (alloc ty values) :=
  .ask_bind fun _ => fun _ _ _ h => nomatch h

theorem atomic_setChild (parent : Option NodeId) (field : String) (child : Option NodeId) :
    Atomic (setChild parent field child) := by
  refine .ask_bind fun old => ?_
  by_cases hne : old != child
  · rw [if_pos hne]
    exact atomic_modify _ _
  · rw [if_neg hne]
    exact atomic_pure _

theorem atomic_listInsert (parent : Option NodeId) (field : String) (index : Nat)
    (items : List (Option NodeId)) : Atomic (listInsert parent field index items) :=
  .ask_bind fun _ => .ask_bind fun _ => atomic_modify _ _

theorem atomic_listSet (parent : Option NodeId) (field : String) (index : Nat)
    (item : Option NodeId) :
    Atomic (listSet parent field index item) := by
  refine .ask_bind fun ⟨items, old⟩ => ?_
  by_cases hne : old != item
  · simp only [if_pos hne]
    exact atomic_modify _ _
  · simp only [if_neg hne]
    exact atomic_pure _

theorem atomic_take (id : Option NodeId) : Atomic (take id) := by
  refine .ask_bind fun n => ?_
  split
  · exact .ask_bind fun _ => atomic_modify _ _
  · exact atomic_pure _

theorem atomic_setList (parent : Option NodeId) (field : String) (items : List (Option NodeId)) :
    Atomic (setList parent field items) :=
  .ask_bind fun _ => .ask_bind fun _ => atomic_modify _ _

/-! ## what the checks let pass -/

/-- A value that a field can be given when its node is made. -/
def Fills (f : Field) (v : Value) : Prop := v.fits f.kind ∧ (f.kind = .node → v ≠ .node none)

theorem checkFields_iff (ty : NodeType) : ∀ {fs : List Field} {values : List Value},
    values.length = fs.length → (checkFields ty fs values = .ok () ↔ List.Forall₂ Fills fs values)
  | [], [], _ => ⟨fun _ => .nil, fun _ => rfl⟩
  | f :: fs, v :: values, hl => by
    have ih := checkFields_iff ty (show values.length = fs.length by simpa using hl)
    rw [List.forall₂_cons, ← ih, Fills]
    conv => lhs; unfold checkFields
    cases hfit : v.fits f.kind with
    | false => simp
    | true =>
      simp only [Bool.not_true, Bool.false_eq_true, if_false, true_and]
      split
      · next hk => simp [hk]
      · next hfilled => exact ⟨fun h => ⟨fun hk hv => hfilled hk hv, h⟩, fun h => h.2⟩

/-! ## legal edits -/

/-- A node of the type and with the values can be made. -/
structure Makeable (a : Arena) (ty : NodeType) (values : List Value) : Prop where
  /-- one value for each field, of its kind, and a child where one is required -/
  fills : List.Forall₂ Fills ty.fields values
  /-- no child comes up twice -/
  nodup : (values.flatMap Value.children).Nodup
  /-- the children are nodes without an owner -/
  free : ∀ c ∈ values.flatMap Value.children, c.index < a.size ∧ a.parentOf (some c) = none

/-- The child can be written to the single slot of `p`. -/
def Settable (a : Arena) (p : NodeId) (field : String) (child : Option NodeId) : Prop :=
  ∃ n f, a.get? p = some n ∧ n.type.field? field = some f
    ∧ (f.kind = .node ∧ child ≠ none ∨ f.kind = .optNode)
    ∧ (n.child? field = child ∨ ∀ c, child = some c → a.Attachable p c)

/-- The entries can be put into the list of `p`. -/
structure Insertable (a : Arena) (p : NodeId) (field : String)
    (items : List (Option NodeId)) : Prop where
  /-- the field is a list -/
  list : ∃ n f, a.get? p = some n ∧ n.type.field? field = some f ∧ f.kind = .list
  /-- no node comes up twice -/
  nodup : (items.filterMap id).Nodup
  attachable : ∀ c, some c ∈ items → a.Attachable p c

theorem checkAlloc_iff {ty : NodeType} {values : List Value} :
    a.checkAlloc ty values = .ok () ↔ a.Makeable ty values := by
  constructor
  · intro h
    obtain ⟨hlen, hfields, hnd, hfree⟩ := checkAlloc_ok h
    exact ⟨(checkFields_iff ty hlen).1 hfields, hnd, hfree⟩
  · intro h
    have hlen := h.fills.length_eq.symm
    have hfields := (checkFields_iff ty hlen).2 h.fills
    have hfree : a.checkUnowned (values.flatMap Value.children) = .ok () :=
      checkUnowned_iff.2 h.free
    have hnd : checkDistinct [] (values.flatMap Value.children) = .ok () :=
      checkDistinct_iff.2 ⟨h.nodup, fun _ _ => List.not_mem_nil⟩
    unfold checkAlloc
    rw [if_neg (not_not.2 hlen)]
    show (checkFields ty ty.fields values >>= fun _ =>
      a.checkUnowned (values.flatMap Value.children) >>= fun _ =>
      checkDistinct [] (values.flatMap Value.children)) = .ok ()
    rw [hfields, hfree, hnd]
    rfl

theorem Shaped.value?_of_field? (ha : a.Shaped) {n : Node} (hn : a.get? p = some n) {f : Field}
    (hf : n.type.field? field = some f) : ∃ v, n.value? field = some v ∧ v.fits f.kind := by
  have hname : f.name = field := by simpa using List.find?_some hf
  rw [← hname]
  exact (ha p n hn).value?_of_mem (List.mem_of_find?_eq_some hf)

theorem checkSetChild_iff (ha : a.WellOwned) :
    (∃ old, a.checkSetChild parent field child = .ok old)
      ↔ ∃ p, parent = some p ∧ a.Settable p field child := by
  constructor
  · rintro ⟨old, h⟩
    obtain ⟨n, hn, hv, hfree⟩ := checkSetChild_ok h
    cases parent with
    | none => cases hn
    | some p =>
      have hn : a.get? p = some n := hn
      refine ⟨p, rfl, ?_⟩
      unfold checkSetChild at h
      rw [show a.node (some p) = .ok n from node_ok.2 hn] at h
      cases hf : n.type.field? field with
      | none => simp [hf, bind, Except.bind] at h
      | some f =>
        have hkind : f.kind = .node ∧ child ≠ none ∨ f.kind = .optNode := by
          cases hk : f.kind <;> cases child <;> simp_all [bind, Except.bind]
        refine ⟨n, f, hn, hf, hkind, ?_⟩
        by_cases hne : old = child
        · left
          rw [Node.child?, hv, hne]
        · right
          rintro c rfl
          exact (checkAttachable_iff ha.owned).1 (hfree hne)
  · rintro ⟨p, rfl, n, f, hn, hf, hkind, hfree⟩
    obtain ⟨v, hv, hfit⟩ := ha.shaped.value?_of_field? hn hf
    obtain ⟨old, rfl⟩ : ∃ old, v = .node old := by
      rcases hkind with ⟨hk, -⟩ | hk <;> rw [hk] at hfit <;> cases v <;> simp [Value.fits] at hfit ⊢
    have hchild : n.child field = .ok old := by
      simp [Node.child, Node.field, hv, bind, Except.bind]
    have hattach : old ≠ child → a.checkAttachable (some p) child = .ok () := fun hne => by
      cases child with
      | none => rfl
      | some c =>
        refine (checkAttachable_iff ha.owned).2 (hfree.resolve_left (fun he => hne ?_) c rfl)
        rwa [Node.child?, hv] at he
    refine ⟨old, ?_⟩
    unfold checkSetChild
    rw [show a.node (some p) = .ok n from node_ok.2 hn]
    have hend : (do if old != child then a.checkAttachable (some p) child
                    return old : Except ShapeError (Option NodeId)) = .ok old := by
      by_cases hne : old = child
      · simp [hne, pure, Except.pure]
      · simp [hne, hattach hne, pure, Except.pure, bind, Except.bind]
    rcases hkind with ⟨hk, hsome⟩ | hk
    · obtain ⟨c, rfl⟩ := Option.ne_none_iff_exists'.1 hsome
      simp only [hf, hk, hchild, bind, Except.bind]
      exact hend
    · simp only [hf, hk, hchild, bind, Except.bind]
      exact hend

theorem insertable_iff (ha : a.WellOwned) {items : List (Option NodeId)} :
    (a.checkInserted parent [] items = .ok () ∧ ∃ old, a.list parent field = .ok old)
      ↔ ∃ p, parent = some p ∧ a.Insertable p field items := by
  constructor
  · rintro ⟨hcheck, old, hold⟩
    obtain ⟨hnd, hin⟩ := checkInserted_iff.1 hcheck
    obtain ⟨p, n, rfl, hn, hv⟩ := list_ok hold
    refine ⟨p, rfl, ⟨n, ?_⟩, hnd, fun c hc => (checkAttachable_iff ha.owned).1 (hin c hc).2⟩
    obtain ⟨i, hi, -⟩ := Option.bind_eq_some_iff.1 hv
    obtain ⟨hlt, hname, -⟩ := List.findIdx?_eq_some_iff_getElem.1 hi
    obtain ⟨f, hf⟩ : ∃ f, n.type.field? field = some f :=
      Option.isSome_iff_exists.1 (List.find?_isSome.2 ⟨_, List.getElem_mem hlt, hname⟩)
    obtain ⟨v, hv', hfit⟩ := ha.shaped.value?_of_field? hn hf
    obtain rfl := Option.some.inj (hv.symm.trans hv')
    refine ⟨f, hn, hf, ?_⟩
    cases hk : f.kind <;> rw [hk] at hfit <;> simp [Value.fits] at hfit ⊢
  · rintro ⟨p, rfl, ⟨n, f, hn, hf, hk⟩, hnd, hattach⟩
    obtain ⟨v, hv, hfit⟩ := ha.shaped.value?_of_field? hn hf
    obtain ⟨old, rfl⟩ : ∃ old, v = .list old := by
      rw [hk] at hfit
      cases v <;> simp [Value.fits] at hfit ⊢
    refine ⟨checkInserted_iff.2 ⟨hnd, fun c hc => ⟨List.not_mem_nil, ?_⟩⟩, old, ?_⟩
    · exact (checkAttachable_iff ha.owned).2 (hattach c hc)
    · exact Lists.list_eq ⟨n, hn, hv⟩

/-! ## the writes -/

theorem accepts_ask_bind {f : Arena → Except ShapeError α} {g : α → ArenaM β} :
    (∃ y b, (ask f >>= g) a = .ok y b) ↔ ∃ x, f a = .ok x ∧ ∃ y b, g x a = .ok y b := by
  constructor
  · rintro ⟨y, b, h⟩
    cases hf : f a with
    | ok x => exact ⟨x, rfl, y, b, (run_ask_bind hf).symm.trans h⟩
    | error e => cases (run_ask_bind_of_error hf).symm.trans h
  · rintro ⟨x, hx, y, b, h⟩
    exact ⟨y, b, (run_ask_bind hx).trans h⟩

theorem alloc_accepts {ty : NodeType} {values : List Value} :
    (∃ id b, alloc ty values a = .ok id b) ↔ a.Makeable ty values := by
  unfold alloc
  rw [accepts_ask_bind, ← checkAlloc_iff]
  exact ⟨fun ⟨_, h, _⟩ => h, fun h => ⟨⟨⟩, h, _, _, rfl⟩⟩

theorem setChild_accepts (ha : a.WellOwned) : (∃ old b, setChild parent field child a = .ok old b)
    ↔ ∃ p, parent = some p ∧ a.Settable p field child := by
  unfold setChild
  rw [accepts_ask_bind, ← checkSetChild_iff ha]
  refine exists_congr fun old => and_iff_left_iff_imp.2 fun _ => ?_
  by_cases hne : old != child
  · exact ⟨old, _, by rw [if_pos hne]; rfl⟩
  · exact ⟨old, _, by rw [if_neg hne]; rfl⟩

theorem listInsert_accepts (ha : a.WellOwned) {index : Nat} {items : List (Option NodeId)} :
    (∃ i b, listInsert parent field index items a = .ok i b)
      ↔ ∃ p, parent = some p ∧ a.Insertable p field items := by
  unfold listInsert
  rw [accepts_ask_bind, ← insertable_iff ha]
  constructor
  · rintro ⟨_, hcheck, h⟩
    obtain ⟨old, hold, -⟩ := accepts_ask_bind.1 h
    exact ⟨hcheck, old, hold⟩
  · rintro ⟨hcheck, old, hold⟩
    exact ⟨⟨⟩, hcheck, accepts_ask_bind.2 ⟨old, hold, _, _, rfl⟩⟩

/-- **The writes of children are all or nothing, and they take exactly the legal edits.** Where one
of them fails, the arena stays as it is. A node is made just if its values fit its type, no required
child is absent, and the children are distinct nodes without an owner. A child is written to a
single slot of a node if it may be absent where it is, and if it stands there already or is a node
without an owner that is not above the slot. Entries are put into a list if the nodes among them are
distinct, without an owner and not above the list. -/
theorem writes_legal (ha : a.WellOwned) :
    ((∀ ty values, Atomic (alloc ty values))
      ∧ (∀ parent field child, Atomic (setChild parent field child))
      ∧ (∀ parent field index items, Atomic (listInsert parent field index items))
      ∧ (∀ parent field index item, Atomic (listSet parent field index item))
      ∧ (∀ id, Atomic (take id)) ∧ ∀ parent field items, Atomic (setList parent field items))
    ∧ (∀ ty values, (∃ id b, alloc ty values a = .ok id b) ↔ a.Makeable ty values)
    ∧ (∀ parent field child, (∃ old b, setChild parent field child a = .ok old b)
      ↔ ∃ p, parent = some p ∧ a.Settable p field child)
    ∧ ∀ parent field index items, (∃ i b, listInsert parent field index items a = .ok i b)
      ↔ ∃ p, parent = some p ∧ a.Insertable p field items :=
  ⟨⟨atomic_alloc, atomic_setChild, atomic_listInsert, atomic_listSet, atomic_take, atomic_setList⟩,
    fun _ _ => alloc_accepts, fun _ _ _ => setChild_accepts ha, fun _ _ _ _ =>
      listInsert_accepts ha⟩

/-- An array literal with an element, and an identifier that stands nowhere. -/
def arrayAndName : Arena :=
  runAll [.alloc .identifier [.str "x", .node none], .alloc .arrayExpression
  [.list [some ⟨0⟩]], .alloc .identifier [.str "y", .node none]]

/-- Of the two identifiers one is refused as a further element and one is not. -/
theorem writes_legal_arrayAndName :
    (¬ ∃ p, some ⟨1⟩ = some p ∧ arrayAndName.Insertable p "elements" [none, some ⟨0⟩])
      ∧ ∃ p, some ⟨1⟩ = some p ∧ arrayAndName.Insertable p "elements" [none, some ⟨2⟩] := by
  have hlegal := (writes_legal (a := arrayAndName) (wellOwned_runAll _)).2.2.2 (some ⟨1⟩)
    "elements" 0
  refine ⟨fun h => ?_, (hlegal _).1 (exists_ok_of_passes (by decide))⟩
  obtain ⟨i, b, hrun⟩ := (hlegal _).2 h
  have hfail : passes (listInsert (some ⟨1⟩) "elements" 0 [none, some ⟨0⟩] arrayAndName)
      (fun _ _ => true) = false := by decide
  rw [hrun] at hfail
  cases hfail

end ScopedTree.Arena
