import ScopedTree.Proofs.Edit.Put
import ScopedTree.Proofs.Scope.Hygiene
import ScopedTree.Proofs.Text.Identifier

/-!
# Generated names are identifiers

A base has lost the underscore that makes a name out of a reserved word, or out of a text that
starts with a digit. What is tried with an underscore has it again; the base alone may be no
identifier.

* `opensName`                     the bases that are identifiers as they are;
* `isIdentifier_uidCandidate`     the names tried for a base that are identifiers;
* `Tree.isIdentifier_generateUid` the generated names that are;
* `Tree.generateUid_reserved`     one that is not.
-/

namespace ScopedTree

open ScopedTree.Tree Arena

variable {base name : String} {c : Char} {n : Nat}

/-- Whether a base can be a name as it is: it starts as an identifier does, and is no reserved word.
-/
def opensName (base : String) : Bool :=
  base.toList.head?.any isIdentifierStart && !isReservedWord base

/-- A base is written with characters of the name that is made out of the text, unless it is `temp`.
-/
theorem mem_uidBase (hc : c ∈ (uidBase name).toList) :
    c ∈ (toIdentifier name).toList ∨ uidBase name = "temp" := by
  unfold uidBase at hc ⊢
  dsimp only at hc ⊢
  split
  · exact .inr rfl
  · next hne =>
    rw [if_neg hne, String.toList_ofList] at hc
    have hc := List.mem_reverse.1 ((List.dropWhile_sublist _).subset (List.mem_reverse.1 hc))
    exact .inl ((List.dropWhile_sublist _).subset hc)

theorem isIdentifierPart_uidBase (hname : ∀ c ∈ name.toList, hasMarkedCapital c = false) :
    ∀ c ∈ (uidBase name).toList, isIdentifierPart c = true := by
  intro c hc
  rcases mem_uidBase hc with hmem | htemp
  · exact isIdentifierPart_toIdentifier hname hmem
  · have hparts : "temp".toList.all isIdentifierPart = true := by decide
    exact List.all_eq_true.1 hparts c (htemp ▸ hc)

/-- **The names tried for a base** are identifiers from the first underscore on; the base itself is
one if it can be a name. -/
theorem isIdentifier_uidCandidate (hbase : ∀ c ∈ base.toList, isIdentifierPart c = true) :
    isIdentifier (uidCandidate base n) = true ↔ (n = 0 → opensName base = true) := by
  rw [isIdentifier_iff]
  by_cases hn : n = 0
  · subst hn
    unfold opensName
    rw [Bool.and_eq_true, Bool.not_eq_true', Option.any_eq_true]
    constructor
    · rintro ⟨hstart, -, hword⟩ -
      exact ⟨hstart, hword⟩
    · intro h
      exact ⟨(h rfl).1, hbase, (h rfl).2⟩
  · have htext := toList_uidCandidate base hn
    have hword := isReservedWord_underscore _ htext
    refine ⟨fun _ h => absurd h hn, fun _ => ⟨⟨'_', ?_, by decide⟩, ?_, hword⟩⟩
    · rw [htext]
      rfl
    · intro c hc
      rw [htext, List.mem_cons, List.mem_append] at hc
      rcases hc with rfl | hc | hc
      · decide
      · exact hbase c hc
      · exact isIdentifierPart_of_isDigit (isDigit_of_mem_uidDigits hc)

theorem uidCandidate_eq_base (hbase : IsUidBase base) : uidCandidate base n = base ↔ n = 0 := by
  constructor
  · intro h
    exact (hbase.candidate_inj (n := 0) hbase h).2
  · rintro rfl
    rfl

namespace Arena

variable {a b : Arena} {id : NodeId}

theorem name?_of_identifier (h : Arena.identifier name a = .ok id b) :
    b.name? (some id) = some name := by
  have hmade : Arena.identifier name a = .ok ⟨a.size⟩
      { a with nodes := a.nodes.push { type := .identifier, values := [.str name, .node none] } } :=
      rfl
  obtain ⟨rfl, rfl⟩ := EStateM.Result.ok.inj (hmade.symm.trans h)
  unfold Arena.name?
  rw [look_some, get?_push, if_pos rfl]
  rfl

end Arena

namespace Tree

variable {t t' : Tree} {s : ScopeId} {uid : String}

theorem isIdentifier_of_generateUid (hname : ∀ c ∈ name.toList, hasMarkedCapital c = false)
    (hrun : generateUid s name t = .ok uid t') :
    isIdentifier uid = true ↔ (uid = uidBase name → opensName (uidBase name) = true) := by
  obtain ⟨n, _, _, _, rfl, _⟩ := (uidSearch_generateUid s name t).of_ok hrun
  rw [isIdentifier_uidCandidate (isIdentifierPart_uidBase hname),
    uidCandidate_eq_base (isUidBase_uidBase name)]

theorem ends_generateUidBasedOn (s : ScopeId) (id : Option NodeId) (fallback : String) (t : Tree) :
    Ends (generateUidBasedOn s id fallback t) (fun x t' => ∃ name uid t₁,
      nodeName t.arena id fallback = .ok name ∧ generateUid s name t = .ok uid t₁
        ∧ t'.arena.name? (some x) = some uid) fun _ _ => True := by
  have hrun : generateUidBasedOn s id fallback t = (do
      let name ← TreeM.ofShape (nodeName t.arena id fallback)
      generateUidIdentifier s name : TreeM NodeId) t := rfl
  rw [hrun]
  cases hname : nodeName t.arena id fallback with
  | error e => trivial
  | ok name =>
    show Ends (generateUidIdentifier s name t) _ _
    refine ends_bind.2 (ends_iff.2 ⟨fun uid t₁ hgen => ?_, fun _ _ _ => trivial⟩)
    have hmade : Ends (Arena.identifier uid t₁.arena) (fun x a => a.name? (some x) = some uid)
        fun _ _ => True := ends_iff.2 ⟨fun _ _ => name?_of_identifier, fun _ _ _ => trivial⟩
    refine (ends_edit hmade).mono fun x t' ⟨a, ha, ht'⟩ => ?_
    subst ht'
    exact ⟨name, uid, t₁, rfl, hgen, ha⟩

/-- **The generated names that are identifiers.** Unless a character of the text has a marked
capital, a name that is generated for the text is an identifier, save where it is the bare base and
the base cannot be a name; so is the name of an identifier that recalls a node, with the text that
the node gives. -/
theorem isIdentifier_generateUid (t : Tree) (s : ScopeId) :
    (∀ name uid t', (∀ c ∈ name.toList, hasMarkedCapital c = false) →
      generateUid s name t = .ok uid t' →
      (isIdentifier uid = true ↔ (uid = uidBase name → opensName (uidBase name) = true)))
    ∧ ∀ id fallback x t', generateUidBasedOn s id fallback t = .ok x t' → ∃ name uid,
      nodeName t.arena id fallback = .ok name ∧ t'.arena.name? (some x) = some uid
        ∧ ((∀ c ∈ name.toList, hasMarkedCapital c = false) →
          (isIdentifier uid = true ↔ (uid = uidBase name → opensName (uidBase name) = true))) := by
  constructor
  · intro name uid t' hname hrun
    exact isIdentifier_of_generateUid hname hrun
  · intro id fallback x t' hrun
    obtain ⟨name, uid, t₁, hname, hgen, hx⟩ := (ends_generateUidBasedOn s id fallback t).of_ok hrun
    exact ⟨name, uid, hname, hx, fun hplain => isIdentifier_of_generateUid hplain hgen⟩

/-- In `let x; x; y` the name for `x` is `_x`, and `_y` recalls the read of `y`. -/
theorem isIdentifier_letAndReads : ∃ s t,
    scopeOfRoot (ofArena letAndReads (some ⟨7⟩) {}) = .ok (some s) t
      ∧ (∃ t', generateUid s "x" t = .ok "_x" t' ∧ isIdentifier "_x" = true)
      ∧ ∃ x t', generateUidBasedOn s (some ⟨5⟩) "temp" t = .ok x t'
      ∧ t'.arena.name? (some x) = some "_y"
        ∧ isIdentifier "_y" = true := by
  have hok : passes (scopeOfRoot (ofArena letAndReads (some ⟨7⟩) {})) (fun o t => o.any fun s =>
      passes (generateUid s "x" t) (fun uid _ => uid == "_x")
        && passes (generateUidBasedOn s (some ⟨5⟩) "temp" t) fun x t' =>
          t'.arena.name? (some x) == some "_y"
            && decide (nodeName t.arena (some ⟨5⟩) "temp" = .ok "y"))
      = true := by decide +kernel
  obtain ⟨o, t, hrun, hok⟩ := ok_of_passes hok
  obtain ⟨s, rfl, hok⟩ := (Option.any_eq_true _ _).1 hok
  obtain ⟨hplain, hbased⟩ := Bool.and_eq_true_iff.1 hok
  obtain ⟨uid, t₁, hgen, huid⟩ := ok_of_passes hplain
  obtain rfl : uid = "_x" := by simpa using huid
  obtain ⟨x, t₂, hmade, hx⟩ := ok_of_passes hbased
  obtain ⟨hx, hnode⟩ := Bool.and_eq_true_iff.1 hx
  have hx : t₂.arena.name? (some x) = some "_y" := by simpa using hx
  have hnode := of_decide_eq_true hnode
  obtain ⟨name, uid, hname, huid, hspelt⟩ :=
    (isIdentifier_generateUid t s).2 (some ⟨5⟩) "temp" x t₂ hmade
  obtain rfl := Except.ok.inj (hname.symm.trans hnode)
  obtain rfl := Option.some.inj (huid.symm.trans hx)
  refine ⟨s, t, hrun, ⟨t₁, hgen, ?_⟩, x, t₂, hmade, hx, ?_⟩
  · have hletter : ∀ c ∈ "x".toList, hasMarkedCapital c = false :=
      List.forall_mem_singleton.2 (by decide)
    exact ((isIdentifier_generateUid t s).1 "x" "_x" t₁ hletter hgen).2 (by decide +kernel)
  · exact (hspelt (List.forall_mem_singleton.2 (by decide))).2 (by decide +kernel)

/-- The base of `class` is the reserved word itself, and it is not taken: the word is generated. -/
theorem generateUid_reserved : ∃ s t t',
    scopeOfRoot (ofArena letAndReads (some ⟨7⟩) {}) = .ok (some s) t
      ∧ generateUid s "class" t = .ok "class" t' ∧ isReservedWord "class" = true
      ∧ isIdentifier "class" = false := by
  have hok : passes (scopeOfRoot (ofArena letAndReads (some ⟨7⟩) {})) (fun o t => o.any fun s =>
      passes (generateUid s "class" t) fun uid _ => uid == "class") = true := by decide +kernel
  obtain ⟨o, t, hrun, hok⟩ := ok_of_passes hok
  obtain ⟨s, rfl, hok⟩ := (Option.any_eq_true _ _).1 hok
  obtain ⟨uid, t', hgen, huid⟩ := ok_of_passes hok
  obtain rfl : uid = "class" := by simpa using huid
  exact ⟨s, t, t', hrun, hgen, by decide, by decide⟩

end Tree

end ScopedTree
