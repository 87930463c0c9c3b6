import Mathlib.Data.List.Nodup
import ScopedTree.Edit.Invalidate

/-!
# Records of bindings

Crawls and edits change records one at a time and in few ways, and each of them leaves the counts
and flags of a record in line with its lists.

* `Binding.Becomes`         what becomes of a record in one step;
* `Binding.home`            where it belongs, which no step changes;
* `Tree.Develops`           the records come from those of a tree, or are new;
* `Binding.Consistent`      counts and flags say what the lists say;
* `Binding.Consistent.becomes`   no step breaks that;
* `Tree.Consistent`         it holds of every record of a tree.
-/

namespace ScopedTree

namespace Binding

/-- What crawls and edits make of a record in one step, where it belongs apart. -/
inductive Becomes (b : Binding) : Binding → Prop
  | same : Becomes b b
  | referenced (p : PathId) : Becomes b (b.reference p)
  | reassigned (p : PathId) : Becomes b (b.reassign p)
  | merged (kind : BindingKind) (p : PathId) (id : NodeId) : Becomes b (b.merge kind p id)
  | pruned (drops : PathId → Bool) : Becomes b (Tree.forgetUses drops b)
  | succeeded (p : PathId) (kind : BindingKind) (id : NodeId) : Becomes b (Tree.succeed b p kind id)

/-- The record of a name that was just declared. -/
def IsNew (b : Binding) : Prop :=
  ∃ identifier name scope path kind, b = { identifier, name, scope, path, kind }

variable {b b' : Binding} {p : PathId}

/-! ## homes -/

/-- Where a binding belongs: its scope, and its name there. -/
def home (b : Binding) : ScopeId × String := (b.scope, b.name)

theorem home_merge (kind : BindingKind) (p : PathId) (id : NodeId) (b : Binding) :
    (b.merge kind p id).home = b.home := by
  unfold merge
  split <;> rfl

theorem home_dereference (b : Binding) (p : PathId) : (b.dereference p).home = b.home := by
  unfold dereference
  split <;> rfl

theorem home_remember (b : Binding) (v : Primitive) : (b.remember v).home = b.home := by
  unfold remember
  split <;> rfl

/-- No step makes a binding belong elsewhere. -/
theorem Becomes.home (h : b.Becomes b') : b'.home = b.home := by
  cases h with
  | same => rfl
  | referenced p =>
    unfold reference
    split <;> rfl
  | reassigned p => rfl
  | merged kind p id => exact home_merge kind p id b
  | pruned drops => rfl
  | succeeded p kind id =>
    unfold Tree.succeed
    dsimp only
    split <;> rfl

/-! ## values -/

theorem hasValue_reference (b : Binding) (p : PathId) : (b.reference p).hasValue = b.hasValue := by
  unfold reference
  split <;> rfl

theorem hasValue_merge (kind : BindingKind) (p : PathId) (id : NodeId) (b : Binding) :
    (b.merge kind p id).hasValue = false := by
  unfold merge
  split <;> rfl

theorem Becomes.hasValue (h : b.Becomes b') (hb : b.hasValue = false) : b'.hasValue = false := by
  cases h with
  | same => exact hb
  | referenced p => exact (b.hasValue_reference p).trans hb
  | reassigned p => rfl
  | merged kind p id => exact hasValue_merge kind p id b
  | pruned drops => exact hb
  | succeeded p kind id =>
    unfold Tree.succeed
    dsimp only
    split
    · rfl
    · exact hb

theorem IsNew.hasValue (h : b.IsNew) : b.hasValue = false := by
  obtain ⟨_, _, _, _, _, rfl⟩ := h
  rfl

/-! ## counts and flags -/

/-- Counts and flags say what the lists say, no path is listed twice, and a value is there exactly
if there is said to be one, which is never while values are refused. -/
structure Consistent (b : Binding) : Prop where
  references : b.references = b.referencePaths.length
  referenced : b.referenced = true ↔ 0 < b.referencePaths.length
  constant : b.constant = true ↔ b.constantViolations = []
  reads : b.referencePaths.Nodup
  writes : b.constantViolations.Nodup
  redeclared : (b.redeclarations.map (·.1)).Nodup
  value : b.value.isSome = b.hasValue
  refusal : ¬(b.hasValue = true ∧ b.refused = true)

theorem IsNew.consistent (h : b.IsNew) : b.Consistent := by
  obtain ⟨identifier, name, scope, path, kind, rfl⟩ := h
  exact ⟨rfl, by simp, by simp, .nil, .nil, .nil, rfl, by simp⟩

namespace Consistent

theorem nodup_append {l : List PathId} (hl : l.Nodup) (hp : p ∉ l) : (l ++ [p]).Nodup := by
  rw [← List.concat_eq_append]
  exact List.Nodup.concat hp hl

variable (h : b.Consistent)

include h

theorem reference (p : PathId) : (b.reference p).Consistent := by
  unfold Binding.reference
  split
  · exact h
  · next hp =>
    refine { h with references := ?_, referenced := ?_, reads := ?_ }
    · simp [h.references]
    · simp
    · exact nodup_append h.reads (by simpa using hp)

theorem dereference (p : PathId) : (b.dereference p).Consistent := by
  unfold Binding.dereference
  split
  · next hp =>
    have hlength : (b.referencePaths.erase p).length = b.references - 1 := by
      rw [List.length_erase_of_mem (by simpa using hp), h.references]
    refine { h with references := hlength.symm, referenced := ?_, reads := h.reads.erase p }
    simp [hlength]
  · refine { h with referenced := ?_ }
    simp [h.references]

theorem clearMemo : b.clearMemo.Consistent := { h with value := rfl, refusal := nofun }

theorem refuseMemo : b.refuseMemo.Consistent := { h with value := rfl, refusal := nofun }

theorem remember (v : Primitive) : (b.remember v).Consistent := by
  unfold Binding.remember
  split
  · exact h
  · next hrefused => exact { h with value := rfl, refusal := fun hboth => hrefused hboth.2 }

theorem reassign (p : PathId) : (b.reassign p).Consistent := by
  unfold Binding.reassign
  refine { h.refuseMemo with constant := ?_, writes := ?_ }
  · dsimp only
    split
    · next hp =>
      have hne : b.constantViolations ≠ [] := by
        rintro hnil
        simp [hnil] at hp
      simpa using hne
    · simp
  · dsimp only
    split
    · exact h.writes
    · next hp => exact nodup_append h.writes (by simpa using hp)

theorem declares (kind : BindingKind) (path : PathId) (id : NodeId) :
    ({ b with kind, path, identifier := id }).Consistent := { h with }

theorem merge (kind : BindingKind) (p : PathId) (id : NodeId) : (b.merge kind p id).Consistent := by
  unfold Binding.merge
  split
  · exact (h.declares kind p id).reassign b.path
  · have hwritten := h.reassign p
    refine { hwritten with redeclared := ?_ }
    dsimp only
    split
    · exact hwritten.redeclared
    · next hp =>
      rw [List.map_append]
      exact nodup_append hwritten.redeclared (by simpa using hp)

theorem forgetUses (drops : PathId → Bool) : (Tree.forgetUses drops b).Consistent := by
  have hnone {l : List PathId} (hlength : ¬(l.filter (!drops ·)).length != l.length) :
      l.filter (!drops ·) = l := List.filter_sublist.eq_of_length (by simpa using hlength)
  unfold Tree.forgetUses
  refine { h with
    references := ?_
    referenced := ?_
    constant := ?_
    reads := h.reads.filter _
    writes := h.writes.filter _
    redeclared := h.redeclared.sublist (List.filter_sublist.map _) }
  · dsimp only
    split
    · rfl
    · next hlength => rw [hnone hlength, h.references]
  · dsimp only
    split
    · simp
    · next hlength => rw [hnone hlength, h.referenced]
  · dsimp only
    split
    · simp
    · next hlength => rw [hnone hlength, h.constant]

theorem succeed (p : PathId) (kind : BindingKind) (id : NodeId) :
    (Tree.succeed b p kind id).Consistent := by
  have hmemo : (if (b.constantViolations.filter (· != p)).isEmpty then b.clearMemo
      else b).Consistent := by
    split
    · exact h.clearMemo
    · exact h
  unfold Tree.succeed
  refine { hmemo with
    constant := by simp
    writes := h.writes.filter _
    redeclared := hmemo.redeclared.sublist (List.filter_sublist.map _) }

theorem rehomed (scope : ScopeId) (name : String) : ({ b with scope, name } : Binding).Consistent :=
  { h with }

/-- **No step of a crawl or an edit breaks the counts and flags of a record.** -/
theorem becomes (hb : b.Becomes b') : b'.Consistent := by
  cases hb with
  | same => exact h
  | referenced p => exact h.reference p
  | reassigned p => exact h.reassign p
  | merged kind p id => exact h.merge kind p id
  | pruned drops => exact h.forgetUses drops
  | succeeded p kind id => exact h.succeed p kind id

end Consistent

end Binding

namespace Tree

variable {t t' : Tree} {bindings : Array (Option Binding)}

/-- Each record is new, or comes in one step from the one that was there, wherever that belongs. -/
def Develops (t : Tree) (bindings : Array (Option Binding)) : Prop :=
  ∀ (i : Nat) (b : Binding), bindings[i]? = some (some b) →
    b.IsNew ∨ ∃ b' scope name, t.bindings[i]? = some (some b')
    ∧ ({ b' with scope, name } : Binding).Becomes b

theorem develops_modify {b : BindingId} {f : Option Binding → Option Binding}
    (hf : ∀ o x, t.bindings[b.index]? = some o → f o = some x →
      ∃ y scope name, o = some y ∧ ({ y with scope, name } : Binding).Becomes x) :
    t.Develops (t.bindings.modify b.index f) := by
  intro i x hx
  rw [Array.getElem?_modify] at hx
  split at hx
  · next hi =>
    subst hi
    obtain ⟨o, ho, hx⟩ := Option.map_eq_some_iff.1 hx
    obtain ⟨y, scope, name, rfl, hy⟩ := hf o x ho hx
    exact .inr ⟨y, scope, name, ho, hy⟩
  · exact .inr ⟨x, x.scope, x.name, hx, .same⟩

theorem develops_push {b : Binding} (hb : b.IsNew) : t.Develops (t.bindings.push (some b)) := by
  intro i x hx
  rw [Array.getElem?_push] at hx
  split at hx
  · cases hx
    exact .inl hb
  · exact .inr ⟨x, x.scope, x.name, hx, .same⟩

/-- What holds of new records and is not broken by any step holds of all records that develop. -/
theorem Develops.all {C : Binding → Prop} (h : t.Develops bindings)
    (hnew : ∀ b : Binding, b.IsNew → C b) (hstep : ∀ (b b' : Binding) scope name, C b →
      ({ b with scope, name } : Binding).Becomes b' → C b')
    (ht : ∀ b record, t.binding? b = some record → C record) :
    ∀ b record, ({ t with bindings }).binding? b = some record → C record := by
  intro b record hr
  obtain ⟨o, ho, rfl⟩ : ∃ o, bindings[b.index]? = some o ∧ o = some record := by
    simpa [binding?, Option.join_eq_some_iff] using hr
  rcases h b.index record ho with hfresh | ⟨old, scope, name, hold, hbecomes⟩
  · exact hnew record hfresh
  · refine hstep old record scope name (ht b old ?_) hbecomes
    unfold binding?
    rw [hold]
    rfl

/-- The counts and flags of all bindings say what their lists say. -/
def Consistent (t : Tree) : Prop := ∀ b record, t.binding? b = some record → record.Consistent

end Tree

end ScopedTree
