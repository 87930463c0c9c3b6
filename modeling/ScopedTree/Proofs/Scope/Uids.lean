import Mathlib.Data.List.DropRight
import ScopedTree.Proofs.Scope.Scoped
import ScopedTree.Scope.Uid

/-!
# Names that are tried

A base neither starts with an underscore nor ends with a digit, so that a name tells the base that
it was tried for and the attempt.

* `IsUidBase`, `isUidBase_uidBase`   what bases look like;
* `IsUidBase.candidate_inj`          no two bases and attempts share a name;
* `Tree.UidSearch`                   how a search for a name ends;
* `Tree.uidSearch_generateUid`       names are generated so.
-/

namespace ScopedTree

structure IsUidBase (base : String) : Prop where
  head : base.toList.head? ≠ some '_'
  last : base.toList.rdropWhile Char.isDigit = base.toList

theorem head?_rdropWhile_dropWhile (l : List Char) :
    ((l.dropWhile (· == '_')).rdropWhile Char.isDigit).head? ≠ some '_' := by
  intro h
  obtain ⟨rest, hrest⟩ := List.rdropWhile_prefix Char.isDigit (l.dropWhile (· == '_'))
  obtain ⟨tail, htail⟩ := List.head?_eq_some_iff.1 h
  have hnot := List.head?_dropWhile_not (· == '_') l
  rw [← hrest, htail] at hnot
  exact Bool.noConfusion hnot

theorem isUidBase_uidBase (name : String) : IsUidBase (uidBase name) := by
  unfold uidBase
  dsimp only
  split
  · exact ⟨by decide, by decide⟩
  · refine ⟨?_, ?_⟩
    · rw [String.toList_ofList]
      exact head?_rdropWhile_dropWhile _
    · rw [String.toList_ofList]
      exact List.rdropWhile_idempotent _ _

/-- What follows the base in the names with an underscore. -/
def uidDigits : Nat → List Char
  | 0 | 1 => []
  | n => Nat.toDigits 10 n

theorem toList_uidCandidate (base : String) {n : Nat} (hn : n ≠ 0) :
    (uidCandidate base n).toList = '_' :: (base.toList ++ uidDigits n) := by
  match n, hn with
  | 1, _ => simp [uidCandidate, uidDigits]
  | n + 2, _ => simp [uidCandidate, uidDigits]

theorem isDigit_of_mem_uidDigits {n : Nat} {c : Char} (h : c ∈ uidDigits n) : c.isDigit = true := by
  match n with
  | 0 | 1 => cases h
  | n + 2 => exact Nat.isDigit_of_mem_toDigits (by decide) (by decide) h

theorem uidDigits_inj {m n : Nat} (hm : m ≠ 0) (hn : n ≠ 0)
    (h : uidDigits m = uidDigits n) : m = n := by
  match m, n with
  | 1, 1 => rfl
  | 1, n + 2 => exact absurd h.symm Nat.toDigits_ne_nil
  | m + 2, 1 => exact absurd h Nat.toDigits_ne_nil
  | m + 2, n + 2 =>
    have hvalue := congrArg (fun ds => Nat.ofDigitChars 10 ds 0) h
    simpa [uidDigits] using hvalue

namespace IsUidBase

variable {b c : String} {m n : Nat}

theorem rdropWhile_append (hb : IsUidBase b) (n : Nat) :
    (b.toList ++ uidDigits n).rdropWhile Char.isDigit = b.toList := by
  refine Eq.trans ?_ hb.last
  unfold List.rdropWhile
  rw [List.reverse_append, List.dropWhile_append_of_pos]
  intro d hd
  exact isDigit_of_mem_uidDigits (List.mem_reverse.1 hd)

theorem candidate_zero_ne (hb : IsUidBase b) (hn : n ≠ 0) :
    uidCandidate b 0 ≠ uidCandidate c n := by
  intro h
  apply hb.head
  have hlist : b.toList = (uidCandidate c n).toList := congrArg String.toList h
  rw [hlist, toList_uidCandidate c hn]
  rfl

/-- **A name tells its base and attempt.** -/
theorem candidate_inj (hb : IsUidBase b) (hc : IsUidBase c)
    (h : uidCandidate b m = uidCandidate c n) :
    b = c ∧ m = n := by
  by_cases hm : m = 0
  · by_cases hn : n = 0
    · subst hm hn
      exact ⟨h, rfl⟩
    · subst hm
      exact absurd h (hb.candidate_zero_ne hn)
  · by_cases hn : n = 0
    · subst hn
      exact absurd h.symm (hc.candidate_zero_ne hm)
    · have hlist := congrArg String.toList h
      rw [toList_uidCandidate b hm, toList_uidCandidate c hn] at hlist
      have htail := (List.cons.inj hlist).2
      have hbase : b.toList = c.toList := by
        rw [← hb.rdropWhile_append m, htail, hc.rdropWhile_append n]
      refine ⟨String.toList_injective hbase, uidDigits_inj hm hn ?_⟩
      rw [hbase] at htail
      exact List.append_cancel_left htail

end IsUidBase

namespace Tree

variable {t : Tree} {s : ScopeId}

/-- The attempt to go on with for a base. -/
def uidCounter (t : Tree) (p : ScopeId) (base : String) : Nat :=
  ((t.scope p).uidCounters.get? base).getD 0

theorem claim_of_eq {name : String} {x : Bool × Tree} (h : (match t.options.registry with
    | none => (true, t)
    | some names =>
      if names.contains name then (false, t)
      else (true, { t with options := { t.options with registry := some (names ++ [name]) } }))
        = x) :
    claim name t = .ok x.1 x.2 := by
  subst h
  rfl

theorem claim_cases (name : String) (t : Tree) :
    (t.options.registry = none ∧ claim name t = .ok true t)
    ∨ ∃ names, t.options.registry = some names
      ∧ (name ∈ names ∧ claim name t = .ok false t
        ∨ name ∉ names ∧ claim name t
          = .ok true { t with options := { t.options with registry := some (names
            ++ [name]) } }) := by
  cases hr : t.options.registry with
  | none =>
    refine .inl ⟨rfl, claim_of_eq (x := (true, t)) ?_⟩
    rw [hr]
  | some names =>
    refine .inr ⟨names, rfl, ?_⟩
    by_cases hmem : name ∈ names
    · refine .inl ⟨hmem, claim_of_eq (x := (false, t)) ?_⟩
      rw [hr]
      exact if_pos (List.contains_iff_mem.2 hmem)
    · refine .inr ⟨hmem, claim_of_eq (x := (true, _)) ?_⟩
      rw [hr]
      exact if_neg fun h => hmem (List.contains_iff_mem.1 h)

/-- How a search for a name ends: trials leave no trace, up to one that is free, claimed and kept.
-/
inductive UidSearch (s : ScopeId) (base : String) (attempt : Nat) (t : Tree) :
    EStateM.Result TreeError Tree String → Prop
  | gaveUp (e : TreeError) : UidSearch s base attempt t (.error e t)
  | found {n : Nat} {t₁ : Tree} (hn : attempt ≤ n)
    (hfree : t.isTaken s (uidCandidate base n) = false)
      (hclaim : claim (uidCandidate base n) t = .ok true t₁) :
    UidSearch s base attempt t
      (.ok (uidCandidate base n) (final (reserve s base (uidCandidate base n) (n + 1) t₁)))

theorem UidSearch.earlier {base : String} {n : Nat} {r : EStateM.Result TreeError Tree String}
    (h : UidSearch s base (n + 1) t r) : UidSearch s base n t r := by
  cases h with
  | gaveUp e => exact .gaveUp e
  | found hn hfree hclaim => exact .found (Nat.le_of_succ_le hn) hfree hclaim

theorem UidSearch.of_error {base : String} {n : Nat} {r : EStateM.Result TreeError Tree String}
    (h : UidSearch s base n t r) {e : TreeError} {t' : Tree} (hr : r = .error e t') : t' = t := by
  cases h with
  | gaveUp e => exact (EStateM.Result.error.inj hr).2.symm
  | found hn hfree hclaim => cases hr

theorem UidSearch.of_ok {base : String} {m : Nat} {r : EStateM.Result TreeError Tree String}
    (h : UidSearch s base m t r) {uid : String} {t' : Tree} (hr : r = .ok uid t') :
    ∃ n t₁, m ≤ n ∧ claim uid t = .ok true t₁ ∧ uid = uidCandidate base n
      ∧ t' = final (reserve s base uid (n + 1) t₁) := by
  cases h with
  | gaveUp e => cases hr
  | found hn hfree hclaim =>
    obtain ⟨rfl, rfl⟩ := EStateM.Result.ok.inj hr
    exact ⟨_, _, hn, hclaim, rfl, rfl⟩

theorem UidSearch.not_isTaken {base : String} {m : Nat} {r : EStateM.Result TreeError Tree String}
    (h : UidSearch s base m t r) {uid : String} {t' : Tree} (hr : r = .ok uid t') :
    t.isTaken s uid = false := by
  cases h with
  | gaveUp e => cases hr
  | found hn hfree hclaim =>
    obtain ⟨rfl, rfl⟩ := EStateM.Result.ok.inj hr
    exact hfree

theorem uidSearch_tryUids (s : ScopeId) (base : String) (fuel attempt : Nat) (t : Tree) :
    UidSearch s base attempt t (tryUids s base fuel attempt t) := by
  induction fuel generalizing attempt with
  | zero => exact .gaveUp _
  | succ fuel ih =>
    have hrun : tryUids s base (fuel + 1) attempt t
        = (if t.isTaken s (uidCandidate base attempt) then tryUids s base fuel (attempt + 1)
          else do
            if ← claim (uidCandidate base attempt) then
              reserve s base (uidCandidate base attempt) (attempt + 1)
              return uidCandidate base attempt
            else tryUids s base fuel (attempt + 1) : TreeM String) t := rfl
    rw [hrun]
    split
    · exact (ih (attempt + 1)).earlier
    · next htaken =>
      have hfree : t.isTaken s (uidCandidate base attempt) = false := by simpa using htaken
      rcases claim_cases (uidCandidate base attempt) t with
        ⟨-, hclaim⟩ | ⟨names, -, ⟨-, hclaim⟩ | ⟨-, hclaim⟩⟩
      · rw [run_bind_of_ok hclaim]
        exact .found (Nat.le_refl _) hfree hclaim
      · rw [run_bind_of_ok hclaim]
        exact (ih (attempt + 1)).earlier
      · rw [run_bind_of_ok hclaim]
        exact .found (Nat.le_refl _) hfree hclaim

/-- Names are generated for a base from the attempt on that its counter says. -/
theorem uidSearch_generateUid (s : ScopeId) (name : String) (t : Tree) :
    UidSearch s (uidBase name) (t.uidCounter (t.programScope s) (uidBase name)) t
      (generateUid s name t) :=
  uidSearch_tryUids s (uidBase name) _ _ t

/-! ## keeping a name -/

theorem scopes_claim {name : String} {free : Bool} {t t₁ : Tree} (h : claim name t = .ok free t₁) :
    t₁.scopes = t.scopes := by
  rcases claim_cases name t with ⟨-, hclaim⟩ | ⟨names, -, ⟨-, hclaim⟩ | ⟨-, hclaim⟩⟩
  · cases hclaim.symm.trans h
    rfl
  · cases hclaim.symm.trans h
    rfl
  · cases hclaim.symm.trans h
    rfl

theorem scope_congr {t t₁ : Tree} (h : t₁.scopes = t.scopes) (c : ScopeId) :
    t₁.scope c = t.scope c :=
  congrArg (fun scopes : Array ScopeData => scopes[c.index]?.getD _) h

theorem uidCounter_congr {t t₁ : Tree} (h : t₁.scopes = t.scopes) (p : ScopeId) (base : String) :
    t₁.uidCounter p base = t.uidCounter p base :=
  congrArg (fun d : ScopeData => (d.uidCounters.get? base).getD 0) (scope_congr h p)

theorem uidCounter_updateScope (t : Tree) (s p : ScopeId) (base : String)
    {f : ScopeData → ScopeData} (hf : ∀ d, (f d).uidCounters = d.uidCounters) :
    (t.updateScope s f).uidCounter p base = t.uidCounter p base :=
  congrArg (fun table : Table Nat => (table.get? base).getD 0)
    (t.scope_updateScope_congr s p f ScopeData.uidCounters hf)

theorem reserve_eq (s : ScopeId) (base uid : String) (n : Nat) (t : Tree) :
    ∃ t₁, noteReference s uid t = .ok ⟨⟩ t₁ ∧ t₁.scopes.size = t.scopes.size
      ∧ t₁.options = t.options ∧ (∀ p, t₁.uidCounter p = t.uidCounter p)
      ∧ final (reserve s base uid n t) = t₁.updateScope (t.programScope s) fun d =>
        { d with
          uidCounters := d.uidCounters.put base n
          uids := if d.uids.contains uid then d.uids else uid :: d.uids } := by
  refine ⟨_, rfl, size_scopes_updateScope .., rfl, fun p => funext fun base => ?_, ?_⟩
  · exact uidCounter_updateScope _ _ _ _ fun _ => rfl
  · refine congrArg (fun p => updateScope _ p _) (programScope_congr (fun c => ?_) s)
    exact t.scope_updateScope_congr _ c _ ScopeData.parent fun _ => rfl

end Tree

end ScopedTree
