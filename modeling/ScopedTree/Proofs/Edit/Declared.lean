import ScopedTree.Proofs.Edit.Endures
import ScopedTree.Proofs.Scope.Crawl

/-!
# Names that come into scopes

A name that was declared in a scope has a binding there. What is registered later on takes none of
the names away.

* `Tree.Owns`                  the scope itself binds the name;
* `Tree.KeepsOwned`            no scope loses a name;
* `Tree.ends_declareName`      a name that is declared is bound then;
* `Tree.ends_registerBinding`  and so is all that a declarator declares, once it is registered.
-/

namespace ScopedTree.Tree

open Arena

variable {t t' : Tree} {s c : ScopeId} {name other : String} {kind : BindingKind} {p : PathId}
  {id : NodeId} {b : BindingId}

/-- The scope itself binds the name. -/
def Owns (t : Tree) (s : ScopeId) (name : String) : Prop := (t.ownBinding? s name).isSome

theorem owns_iff : t.Owns s name ↔
    ∃ b, (t.scope s).bindings.get? name = some b ∧ (t.binding? b).isSome := by
  unfold Owns ownBinding?
  rw [Option.isSome_iff_exists]
  exact exists_congr fun b => Option.filter_eq_some_iff

/-! ## what keeps a name -/

theorem Owns.updateScope (h : t.Owns s name) (c : ScopeId) {f : ScopeData → ScopeData}
    (hf : ∀ d, (f d).bindings = d.bindings) : (t.updateScope c f).Owns s name := by
  obtain ⟨b, hb, hsome⟩ := owns_iff.1 h
  refine owns_iff.2 ⟨b, ?_, hsome⟩
  rw [← hb]
  exact congrArg (·.get? name) (t.scope_updateScope_congr c s f ScopeData.bindings hf)

theorem Owns.updateBinding (h : t.Owns s name) (b : BindingId) (f : Binding → Binding) :
    (t.updateBinding b f).Owns s name := by
  obtain ⟨c, hc, hsome⟩ := owns_iff.1 h
  refine owns_iff.2 ⟨c, hc, ?_⟩
  rw [binding?_updateBinding]
  split
  · next heq =>
    rw [Option.isSome_map, ← heq]
    exact hsome
  · exact hsome

theorem Owns.withBinding (h : t.Owns s name) (hc : c.index < t.scopes.size) (other : String)
    (record : Binding) : (t.withBinding c other record).Owns s name := by
  obtain ⟨b, hb, hsome⟩ := owns_iff.1 h
  rw [owns_iff, get?_withBinding hc]
  split
  · refine ⟨_, rfl, ?_⟩
    rw [binding?_withBinding, if_pos rfl]
    rfl
  · refine ⟨b, hb, ?_⟩
    rw [binding?_withBinding]
    split
    · rfl
    · exact hsome

/-- Nodes and paths are the same, no scope is lost, and none loses a name. -/
structure KeepsOwned (t t' : Tree) : Prop where
  arena : t'.arena = t.arena
  paths : t'.paths = t.paths
  size : t.scopes.size ≤ t'.scopes.size
  owns : ∀ s name, t.Owns s name → t'.Owns s name

namespace KeepsOwned

@[refl] protected theorem refl (t : Tree) : t.KeepsOwned t :=
  ⟨rfl, rfl, Nat.le_refl _, fun _ _ h => h⟩

protected theorem trans {t'' : Tree} (h : t.KeepsOwned t') (h' : t'.KeepsOwned t'') :
    t.KeepsOwned t'' :=
  ⟨h'.arena.trans h.arena, h'.paths.trans h.paths, h.size.trans h'.size,
    fun s name hn => h'.owns s name (h.owns s name hn)⟩

theorem updateScope (t : Tree) (c : ScopeId) {f : ScopeData → ScopeData}
    (hf : ∀ d, (f d).bindings = d.bindings) : t.KeepsOwned (t.updateScope c f) :=
  ⟨rfl, rfl, (size_scopes_updateScope ..).ge, fun _ _ h => h.updateScope c hf⟩

theorem updateBinding (t : Tree) (b : BindingId) (f : Binding → Binding) :
    t.KeepsOwned (t.updateBinding b f) :=
  ⟨rfl, rfl, Nat.le_refl _, fun _ _ h => h.updateBinding b f⟩

end KeepsOwned

/-! ## what is declared -/

/-- **A name that is declared is bound then**, and no other is lost. -/
theorem ends_declareName (hs : s.index < t.scopes.size) :
    Ends (declareName s kind p name id t) (fun _ t' => t'.Owns s name ∧ t.KeepsOwned t')
      fun _ _ => True := by
  have hnote (t₁ : Tree) (h : t₁.Owns s name) (hkeep : t.KeepsOwned t₁) :
      Ends (noteReference s name t₁) (fun _ t' => t'.Owns s name ∧ t.KeepsOwned t')
        fun _ _ => True := by
    unfold noteReference
    rw [ends_modify]
    have hnoted := KeepsOwned.updateScope t₁ (t₁.programScope s) (f := fun d => { d with
      references := if d.references.contains name then d.references else name :: d.references })
      fun _ => rfl
    exact ⟨hnoted.owns s name h, hkeep.trans hnoted⟩
  unfold declareName
  rw [ends_bind, ends_get]
  cases hown : (t.ownBinding? s name).bind fun b => (t.binding? b).map (b, ·) with
  | none =>
    dsimp only
    rw [if_neg (Nat.not_le.2 hs), ends_bind, ends_modify]
    refine hnote (t.withBinding s name _) ?_ ⟨rfl, rfl, ?_,
      fun c other h => h.withBinding hs name _⟩
    · rw [owns_iff, get?_withBinding hs, if_pos ⟨rfl, rfl⟩]
      refine ⟨_, rfl, ?_⟩
      rw [binding?_withBinding, if_pos rfl]
      rfl
    · exact (t.sameScopes_withBinding s name _).size.ge
  | some x =>
    obtain ⟨b, old⟩ := x
    have hb : t.Owns s name := by
      obtain ⟨b, hb, _⟩ := Option.bind_eq_some_iff.1 hown
      exact Option.isSome_iff_exists.2 ⟨b, hb⟩
    dsimp only
    split
    · exact ⟨hb, .refl t⟩
    · split
      · exact trivial
      · rw [ends_bind, ends_modify]
        exact hnote _ (hb.updateBinding b _) (.updateBinding t b _)

theorem ends_forM_owns {α : Type} {f : α → TreeM PUnit} {Q : α → Tree → Prop} (l : List α)
    (hf : ∀ x ∈ l, ∀ t, s.index < t.scopes.size →
      Ends (f x t) (fun _ t' => Q x t' ∧ t.KeepsOwned t') fun _ _ => True)
    (hQ : ∀ x t t', Q x t → t.KeepsOwned t' → Q x t') (t : Tree) (hs : s.index < t.scopes.size) :
    Ends (l.forM f t) (fun _ t' => (∀ x ∈ l, Q x t') ∧ t.KeepsOwned t') fun _ _ => True := by
  induction l generalizing t with
  | nil => exact ⟨by simp, .refl t⟩
  | cons x l ih =>
    rw [List.forM]
    refine ends_bind.2 ((hf x (List.mem_cons_self ..) t hs).mono ?_)
    rintro _ t₁ ⟨hx, hkeep₁⟩
    refine (ih (fun y hy => hf y (List.mem_cons_of_mem _ hy)) t₁ (hs.trans_le hkeep₁.size)).mono ?_
    rintro _ t₂ ⟨hl, hkeep₂⟩
    refine ⟨fun y hy => ?_, hkeep₁.trans hkeep₂⟩
    rcases List.mem_cons.1 hy with rfl | hy
    · exact hQ y t₁ t₂ hx hkeep₂
    · exact hl y hy

theorem ends_declareNames (hs : s.index < t.scopes.size) {target : Option NodeId} :
    Ends (declareNames s kind p target t)
      (fun _ t' => (∀ x ∈ t.arena.bindingIds target true, x.2 ≠ [] → t'.Owns s x.1)
        ∧ t.KeepsOwned t') fun _ _ => True := by
  unfold declareNames
  rw [ends_bind, ends_get]
  refine ends_forM_owns (Q := fun (x : String × List NodeId) t' => x.2 ≠ [] → t'.Owns s x.1) _ ?_ ?_
    t hs
  · rintro ⟨name, ids⟩ _ t₁ hs₁
    refine (ends_forM_owns (Q := fun _ t' => t'.Owns s name) ids ?_ ?_ t₁ hs₁).mono ?_
    · exact fun id _ t₂ hs₂ => ends_declareName hs₂
    · exact fun _ _ _ h hkeep => hkeep.owns s name h
    · rintro _ t₂ ⟨howns, hkeep⟩
      refine ⟨fun hne => ?_, hkeep⟩
      obtain ⟨id, hid⟩ := List.exists_mem_of_ne_nil _ hne
      exact howns id hid
  · exact fun x _ _ h hkeep hne => hkeep.owns s x.1 (h hne)

/-- **Once a declarator is registered, the scope binds all that it declares.** -/
theorem ends_registerBinding (hs : s.index < t.scopes.size)
    (hp : ¬ t.nodeIs p .variableDeclaration = true) :
    Ends (registerBinding s kind p t)
      (fun _ t' => (∀ x ∈ t.arena.bindingIds (t.node p) true, x.2 ≠ [] → t'.Owns s x.1)
        ∧ t.KeepsOwned t') fun _ _ => True := by
  unfold registerBinding registerBindingLevels
  rw [ends_bind, ends_get, ends_bind, ends_get, if_neg hp]
  exact ends_declareNames hs

end ScopedTree.Tree
