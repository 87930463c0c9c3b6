import ScopedTree.Proofs.Arena.Accepts

/-!
# A list written as a whole

The entries of a list may be any of those that were in it and nodes without an owner. A node of the
old list that is listed twice has an owner and is refused. Of the others the check does not see that
they come up twice, so ownership stays single only if they do not.

* `Arena.checkEntries_iff`       what the check of the entries lets pass;
* `Arena.Relisted`               a list was written and the owners followed;
* `Arena.setList_owned`          **the list holds the entries, and ownership stays single**;
* `Arena.setList_repeated`       a new node that is listed twice is let pass.
-/

namespace ScopedTree.Arena

open Relation

variable {a b : Arena} {c d p q : NodeId} {field : String} {parent : Option NodeId}
  {old items : List (Option NodeId)}

/-! ## the check -/

theorem checkEntries_cons {item : Option NodeId} {seen : List (Option NodeId)} :
    a.checkEntries parent old seen (item :: items) = .ok ()
      ↔ (item ∈ seen ∨ item ∉ old → a.checkAttachable parent item = .ok ())
        ∧ a.checkEntries parent old (item :: seen) items = .ok () := by
  have hcond : (seen.contains item || !old.contains item) = true ↔ item ∈ seen
      ∨ item ∉ old := by simp
  rw [checkEntries]
  by_cases h : item ∈ seen ∨ item ∉ old
  · rw [if_pos (hcond.2 h)]
    constructor
    · intro hrun
      obtain ⟨_, hattach, hrest⟩ := bind_eq_ok.1 hrun
      exact ⟨fun _ => hattach, hrest⟩
    · exact fun ⟨hattach, hrest⟩ => bind_eq_ok.2 ⟨(), hattach h, hrest⟩
  · rw [if_neg (mt hcond.1 h)]
    exact ⟨fun hrest => ⟨fun h' => absurd h' h, hrest⟩, fun ⟨_, hrest⟩ => hrest⟩

/-- Entries are checked if they are not among the current ones or come up a second time. -/
theorem checkEntries_iff {seen : List (Option NodeId)} :
    a.checkEntries parent old seen items = .ok () ↔
    ∀ c, some c ∈ items → (some c ∈ seen ∨ some c ∉ old ∨ 2 ≤ items.count (some c)) →
      a.checkAttachable parent (some c) = .ok () := by
  induction items generalizing seen with
  | nil => exact ⟨fun _ c hc => absurd hc List.not_mem_nil, fun _ => rfl⟩
  | cons item items ih =>
    rw [checkEntries_cons, ih]
    constructor
    · rintro ⟨hhead, htail⟩ c hc hwhy
      by_cases hrest : some c ∈ items
      · refine htail c hrest ?_
        by_cases he : some c = item
        · exact .inl (he ▸ List.mem_cons_self ..)
        · rw [List.count_cons_of_ne (Ne.symm he)] at hwhy
          exact hwhy.imp_left (List.mem_cons_of_mem _)
      · obtain rfl := (List.mem_cons.1 hc).resolve_right hrest
        rw [List.count_cons_self, List.count_eq_zero_of_not_mem hrest] at hwhy
        exact hhead (hwhy.imp_right fun h => h.resolve_right (by omega))
    · intro h
      refine ⟨fun hwhy => ?_, fun c hc hwhy => h c (List.mem_cons_of_mem _ hc) ?_⟩
      · cases item with
        | none => rfl
        | some d => exact h d (List.mem_cons_self ..) (hwhy.imp_right .inl)
      · have hpos := List.count_pos_iff.2 hc
        rcases hwhy with hseen | hwhy | hwhy
        · rcases List.mem_cons.1 hseen with rfl | hseen
          · refine .inr (.inr ?_)
            rw [List.count_cons_self]
            omega
          · exact .inl hseen
        · exact .inr (.inl hwhy)
        · exact .inr (.inr (hwhy.trans List.count_le_count_cons))

/-- The entries that are let pass: those that were in the list, each once, and nodes that may come
to it. -/
theorem checkEntries_lists (ha : a.Owned) (hl : a.Lists p field old) :
    a.checkEntries (some p) old [] items = .ok () ↔
      ∀ c, some c ∈ items → some c ∈ old ∧ items.count (some c) = 1 ∨ a.Attachable p c := by
  rw [checkEntries_iff]
  refine forall₂_congr fun c hc => ?_
  have hpos := List.count_pos_iff.2 hc
  rw [checkAttachable_iff ha]
  by_cases hold : some c ∈ old
  · -- an entry of the list has an owner, so it may not come to the list again
    have howned : ¬ a.Attachable p c := fun h => by
      cases h.unowned.symm.trans (hl.owned ha hold)
    simp only [hold, List.not_mem_nil, not_true, false_or, true_and, howned, or_false, imp_false]
    omega
  · simp [hold]

/-! ## the write -/

/-- The list `old` of `p` was overwritten with `items`, and the owners followed. -/
structure Relisted (a b : Arena) (p : NodeId) (field : String)
    (old items : List (Option NodeId)) : Prop where
  /-- the field holds the entries -/
  holds : b.Lists p field items
  /-- each node among them comes up once and belongs to `p` -/
  once : ∀ c, some c ∈ items → items.count (some c) = 1 ∧ b.OwnedBy c p
  /-- the nodes that are left out belong to no node -/
  released : ∀ c, some c ∈ old → some c ∉ items → b.parentOf (some c) = none
  /-- nothing else is changed -/
  get? : ∀ q, b.get? q = (a.get? q).map fun n =>
    (if q = p then n.withValue field (.list items) else n).withOwner
      (if some q ∈ items then some p else if some q ∈ old then none else n.parent)
  size : b.size = a.size
  owned : b.Owned

/-- The arena with a list overwritten, in place of the entries `old`. -/
def withItems (a : Arena) (p : NodeId) (field : String)
    (old items : List (Option NodeId)) : Arena :=
  ((a.update (some p) (·.withValue field (.list items))).setParents
    (old.filter (!items.contains ·)) none).setParents items (some p)

theorem size_withItems : (a.withItems p field old items).size = a.size := by
  rw [withItems, size_setParents, size_setParents, size_update]

theorem get?_withItems (a : Arena) (p : NodeId) (field : String) (old items : List (Option NodeId))
    (q : NodeId) : (a.withItems p field old items).get? q = (a.get? q).map fun n =>
      (if q = p then n.withValue field (.list items) else n).withOwner
        (if some q ∈ items then some p else if some q ∈ old then none else n.parent) := by
  have hout : some q ∈ old.filter (!items.contains ·) ↔ some q ∈ old ∧ some q ∉ items := by simp
  have hwrite : (a.update (some p) (·.withValue field (.list items))).get? q
      = (a.get? q).map fun n => if q = p then n.withValue field (.list items) else n := by
    rw [get?_update]
    by_cases hq : q = p
    · subst hq
      simp
    · simp [hq]
  rw [withItems, get?_setParents, get?_setParents, hwrite, Option.map_map, Option.map_map]
  refine congrArg (Option.map · _) (funext fun n => ?_)
  simp only [Function.comp_apply, hout]
  have howner : (if q = p then n.withValue field (.list items) else n).parent = n.parent := by
    split <;> simp
  by_cases hin : some q ∈ items
  · simp [hin, Node.withOwner]
  · by_cases hold : some q ∈ old
    · simp [hin, hold, Node.withOwner]
    · simp [hin, hold, Node.withOwner, ← howner]

theorem parentOf_withItems (c : NodeId) : (a.withItems p field old items).parentOf (some c)
    = if some c ∈ items ∧ c.index < a.size then some p
      else if some c ∈ old then none else a.parentOf (some c) := by
  rw [parentOf_some, get?_withItems, parentOf_some]
  cases hn : a.get? c with
  | none =>
    have hlt : ¬ c.index < a.size := fun hlt => by simpa [hn] using isSome_get?_iff.2 hlt
    simp [hlt]
  | some n => simp [get?_eq_some_lt hn, Node.withOwner]

section Checked

variable (ha : a.Owned) (hl : a.Lists p field old)
  (hin : ∀ c, some c ∈ items → some c ∈ old ∧ items.count (some c) = 1 ∨ a.Attachable p c)
  (hnew : ∀ c, c.index < a.size → a.parentOf (some c) = none → items.count (some c) ≤ 1)

include hin hnew in
theorem count_eq_one_of_checked (hc : some c ∈ items) : items.count (some c) = 1 := by
  have hpos := List.count_pos_iff.2 hc
  rcases hin c hc with ⟨-, hone⟩ | hfree
  · exact hone
  · have := hnew c hfree.present hfree.unowned
    omega

include ha hl hin in
theorem lt_of_checked (hc : some c ∈ items) : c.index < a.size :=
  (hin c hc).elim (fun h => (hl.owned ha h.1).lt) (·.present)

include ha hl hin hnew in
theorem owned_withItems : (a.withItems p field old items).Owned := by
  obtain ⟨n, hn, hv⟩ := hl
  have hl : a.Lists p field old := ⟨n, hn, hv⟩
  have hins : ∀ {c : NodeId}, c ∈ (items.filter (!old.contains ·)).filterMap id
      ↔ some c ∈ items ∧ some c ∉ old := by simp
  have hout : ∀ {c : NodeId}, c ∈ (old.filter (!items.contains ·)).filterMap id
      ↔ some c ∈ old ∧ some c ∉ items := by simp
  have hfree : ∀ {c : NodeId}, some c ∈ items → some c ∉ old → a.Attachable p c := fun hc hold =>
    (hin _ hc).resolve_left fun h => hold h.1
  have hp : a.children (some p) = n.children := by
    rw [children_some, hn]
    rfl
  refine ha.rewire (p := p) ((items.filter (!old.contains ·)).filterMap id)
    ((old.filter (!items.contains ·)).filterMap id) (fun q hq => ?_) (fun c => ?_) (fun c => ?_)
    (fun c hc => hl.owned ha (hout.1 hc).1) fun c hc => ?_
  · rw [withItems, children_setParents, children_setParents, children_update, if_neg hq]
  · have hcount := n.count_children_withValue hv (.list items) c
    rw [count_children_list, count_children_list] at hcount
    rw [withItems, children_setParents, children_setParents, children_update, if_pos rfl, hn, hp]
    simp only [hins, hout]
    show (n.withValue field (.list items)).children.count c = _
    by_cases hold : some c ∈ old
    · have hone : old.count (some c) = 1 :=
        le_antisymm (hl.count_le_one ha c) (List.count_pos_iff.2 hold)
      have hchild := ha.count_of_owner p c (hl.owned ha hold)
      rw [hp] at hchild
      by_cases hc : some c ∈ items
      · have hitem := count_eq_one_of_checked hin hnew hc
        rw [if_neg (fun h => h.2 hold), if_neg (fun h => h.2 hc)]
        omega
      · have hitem := List.count_eq_zero_of_not_mem hc
        rw [if_neg (fun h => h.2 hold), if_pos ⟨hold, hc⟩]
        omega
    · have hzero := List.count_eq_zero_of_not_mem hold
      by_cases hc : some c ∈ items
      · have hitem := count_eq_one_of_checked hin hnew hc
        have hchild : n.children.count c = 0 := by
          rw [← hp, List.count_eq_zero]
          exact fun hmem => by cases (hfree hc hold).unowned.symm.trans (ha.owner_of_child p c hmem)
        rw [if_pos ⟨hc, hold⟩]
        omega
      · have hitem := List.count_eq_zero_of_not_mem hc
        rw [if_neg (fun h => hc h.1), if_neg (fun h => hold h.1)]
        omega
  · rw [parentOf_withItems]
    simp only [hins, hout]
    by_cases hc : some c ∈ items
    · rw [if_pos ⟨hc, lt_of_checked ha hl hin hc⟩]
      by_cases hold : some c ∈ old
      · rw [if_neg (fun h => h.2 hold), if_neg (fun h => h.2 hc)]
        exact (hl.owned ha hold).symm
      · rw [if_pos ⟨hc, hold⟩]
    · simp only [hc, false_and, if_false, not_false_iff, and_true]
  · obtain ⟨hc, hold⟩ := hins.1 hc
    exact ⟨(hfree hc hold).unowned, (hfree hc hold).not_above⟩

include ha hl hin hnew in
theorem relisted_withItems : Relisted a (a.withItems p field old items) p field old items where
  holds := by
    obtain ⟨n, hn, hv⟩ := hl
    have hvalue := Node.value?_withValue hv (.list items) field
    rw [if_pos rfl] at hvalue
    have hget := get?_withItems a p field old items p
    rw [hn, Option.map_some, if_pos rfl] at hget
    exact ⟨_, hget, hvalue⟩
  once c hc := by
    refine ⟨count_eq_one_of_checked hin hnew hc, ?_⟩
    show Arena.parentOf _ _ = _
    rw [parentOf_withItems, if_pos ⟨hc, lt_of_checked ha hl hin hc⟩]
  released c hold hc := by
    rw [parentOf_withItems, if_neg (fun h => hc h.1), if_pos hold]
  get? := get?_withItems a p field old items
  size := size_withItems
  owned := owned_withItems ha hl hin hnew

end Checked

theorem run_setList (hl : a.Lists p field old)
    (hcheck : a.checkEntries (some p) old [] items = .ok ()) :
    setList (some p) field items a = .ok old (a.withItems p field old items) := by
  unfold setList
  rw [run_ask_bind (f := fun a => a.list (some p) field) hl.list_eq,
    run_ask_bind (f := fun a => a.checkEntries (some p) old [] items) hcheck]
  rfl

/-- A node that is there is refused for its owner, or because it would own itself. -/
theorem error_of_checkAttachable {item : Option NodeId} {e : ShapeError}
    (hlt : ∀ c, item = some c → c.index < a.size) (h : a.checkAttachable parent item = .error e) :
    ∃ c, e = .alreadyAttached c := by
  cases item with
  | none => cases h
  | some c =>
    obtain ⟨k, hk⟩ := Option.isSome_iff_exists.1 (isSome_get?_iff.2 (hlt c rfl))
    unfold checkAttachable at h
    rw [show a.node (some c) = .ok k from node_ok.2 hk] at h
    change (if (k.parent.isSome || a.isWithin parent (some c)) = true then
      Except.error (ShapeError.alreadyAttached c) else pure ()) = Except.error e at h
    split at h
    · exact ⟨c, (Except.error.inj h).symm⟩
    · cases h

theorem error_of_checkEntries {seen : List (Option NodeId)} {e : ShapeError}
    (hlt : ∀ c, some c ∈ items → c.index < a.size)
    (h : a.checkEntries parent old seen items = .error e) :
    ∃ c, e = .alreadyAttached c := by
  induction items generalizing seen with
  | nil => cases h
  | cons item items ih =>
    rw [checkEntries] at h
    have hrest (h : a.checkEntries parent old (item :: seen) items = .error e) :
        ∃ c, e = .alreadyAttached c := ih (fun c hc => hlt c (List.mem_cons_of_mem _ hc)) h
    split at h
    · cases hitem : a.checkAttachable parent item with
      | error e' =>
        rw [hitem] at h
        obtain rfl : e' = e := Except.error.inj h
        exact error_of_checkAttachable (fun c hc => hlt c (hc ▸ List.mem_cons_self ..)) hitem
      | ok _ =>
        rw [hitem] at h
        exact hrest h
    · exact hrest h

/-- **A list written as a whole.** No node without an owner may be listed twice. Then, if the write
succeeds, the field holds the entries, each node among them once and with `p` for its owner, former
entries that are not among them have no owner, nothing else is changed, and ownership is single.
Entries that list a node twice are refused; if all of them are there, the error is that a node has
an owner. -/
theorem setList_owned (ha : a.Owned) (p : NodeId) (field : String)
    (hnew : ∀ c, c.index < a.size → a.parentOf (some c) = none → items.count (some c) ≤ 1) :
    (∀ r b, setList (some p) field items a = .ok r b → a.Lists p field r
      ∧ Relisted a b p field r items) ∧ ∀ old c, a.Lists p field old → 2 ≤ items.count (some c) →
        ∃ e, setList (some p) field items a = .error e a
          ∧ ((∀ d, some d ∈ items → d.index < a.size) → ∃ d, e = .alreadyAttached d) := by
  constructor
  · intro r b hrun
    obtain ⟨old, hold, hcheck⟩ := accepts_ask_bind.1 ⟨r, b, hrun⟩
    obtain ⟨p', n, hp, hn, hv⟩ := list_ok hold
    obtain rfl := Option.some.inj hp
    have hl : a.Lists p field old := ⟨n, hn, hv⟩
    obtain ⟨_, hcheck, -⟩ := accepts_ask_bind.1 hcheck
    obtain ⟨rfl, rfl⟩ := EStateM.Result.ok.inj (hrun.symm.trans (run_setList hl hcheck))
    exact ⟨hl, relisted_withItems ha hl ((checkEntries_lists ha hl).1 hcheck) hnew⟩
  · intro old c hl htwice
    cases hcheck : a.checkEntries (some p) old [] items with
    | ok _ =>
      have hc : some c ∈ items := List.count_pos_iff.1 (by omega)
      have hone := count_eq_one_of_checked ((checkEntries_lists ha hl).1 hcheck) hnew hc
      omega
    | error e =>
      refine ⟨e, ?_, fun hlt => error_of_checkEntries hlt hcheck⟩
      unfold setList
      rw [run_ask_bind (f := fun a => a.list (some p) field) hl.list_eq]
      exact run_ask_bind_of_error (f := fun a => a.checkEntries (some p) old [] items) hcheck

theorem lists_arrayAndName : arrayAndName.Lists ⟨1⟩ "elements" [some ⟨0⟩] := ⟨_, rfl, rfl⟩

/-- The element can be listed behind the other identifier, and not in front of it as well. -/
theorem setList_owned_arrayAndName :
    (∃ b, setList (some ⟨1⟩) "elements" [none, some ⟨2⟩, some ⟨0⟩] arrayAndName = .ok [some ⟨0⟩] b
      ∧ Relisted arrayAndName b ⟨1⟩ "elements" [some ⟨0⟩] [none, some ⟨2⟩, some ⟨0⟩])
    ∧ ∃ d, setList (some ⟨1⟩) "elements" [some ⟨0⟩, some ⟨2⟩, some ⟨0⟩] arrayAndName
      = .error (.alreadyAttached d) arrayAndName := by
  have howned : arrayAndName.Owned := owned_runAll _
  constructor
  · have hcheck : arrayAndName.checkEntries (some ⟨1⟩) [some ⟨0⟩] [] [none, some ⟨2⟩, some ⟨0⟩]
        = .ok () := rfl
    have hrun := run_setList lists_arrayAndName hcheck
    have hnodup : [none, some ⟨2⟩, some ⟨0⟩].Nodup (α := Option NodeId) := by decide
    exact ⟨_, hrun, ((setList_owned howned ⟨1⟩ "elements" fun c _ _ =>
      List.nodup_iff_count_le_one.1 hnodup (some c)).1 _ _ hrun).2⟩
  · obtain ⟨e, hrun, he⟩ := (setList_owned howned ⟨1⟩ "elements" fun c _ hfree => by
      have hc : c ≠ ⟨0⟩ := by
        rintro rfl
        cases hfree
      show [some ⟨0⟩, some ⟨2⟩, some ⟨0⟩].count (some c) ≤ 1
      simp only [List.count_cons, List.count_nil, beq_iff_eq, Option.some.injEq, if_neg hc.symm]
      split <;> decide).2 _ ⟨0⟩ lists_arrayAndName (by decide)
    obtain ⟨d, rfl⟩ := he (by simp; decide)
    exact ⟨d, hrun⟩

/-- **A new node that is listed twice** is let pass, and then it stands in two places. -/
theorem setList_repeated : ∃ b, setList (some ⟨1⟩) "elements" [some ⟨2⟩, some ⟨2⟩] arrayAndName
    = .ok [some ⟨0⟩] b ∧ b.Lists ⟨1⟩ "elements" [some ⟨2⟩, some ⟨2⟩] ∧ ¬ b.Owned := by
  refine ⟨_, run_setList lists_arrayAndName rfl, ⟨_, rfl, rfl⟩, fun h => ?_⟩
  have hone := h.count_of_owner ⟨1⟩ ⟨2⟩ (by rfl)
  revert hone
  decide

end ScopedTree.Arena
