import ScopedTree.Proofs.Constant.Value
import ScopedTree.Proofs.Scope.Reads

/-!
# What is remembered is right

While nothing is edited, evaluations only find paths and remember values, and each value remembered
is that of the node that the declarator starts the binding with.

* `Tree.Remembers`             the state of a tree after some evaluations;
* `Evaluation.Yields`          evaluations that leave such a state;
* `Evaluation.Gives`           evaluations whose value is the right one;
* `Evaluation.evaluates_evalLevels`   the value of a node is right.
-/

namespace ScopedTree

open ScopedTree.Tree Arena

def NodeType.hasChild (ty : NodeType) (key : String) : Bool :=
  (ty.field? key).any fun f => f.kind == .node || f.kind == .optNode

def NodeType.hasList (ty : NodeType) (key : String) : Bool := (ty.field? key).any (·.kind == .list)

namespace Tree

variable {a : Arena} {t₀ t t' : Tree} {r n : NodeId} {p q : PathId} {b : BindingId} {v : Primitive}
  {above : List NodeId} {s : ScopeId} {name : String}

/-- A later state of `t₀`: paths have come and values are remembered, all of them right. -/
structure Remembers (r : NodeId) (t₀ t : Tree) : Prop where
  coherent : t.Coherent r
  same : t₀.SameScopes t
  scopes : t.scopes = t₀.scopes
  records : ∀ b, (t.binding? b).map Binding.clearMemo = (t₀.binding? b).map Binding.clearMemo
  memos : ∀ b record, t.binding? b = some record → record.hasValue = true →
    ∃ v init, record.value = some v ∧ t₀.initializer? record = some init ∧ t₀.Means init v

theorem Binding.clearMemo_remember (b : Binding) (v : Primitive) :
    (b.remember v).clearMemo = b.clearMemo := by
  unfold Binding.remember
  split <;> rfl

theorem initializer?_congr {b b' : Binding} (h : b.clearMemo = b'.clearMemo) :
    t.initializer? b = t.initializer? b' := by
  have hb : t.initializer? b.clearMemo = t.initializer? b'.clearMemo := by rw [h]
  exact hb

theorem boundMeaning_congr {b b' : Binding} (h : b.clearMemo = b'.clearMemo) :
    t.boundMeaning p b = t.boundMeaning p b' := by
  have hb : t.boundMeaning p b.clearMemo = t.boundMeaning p b'.clearMemo := by rw [h]
  exact hb

namespace Remembers

variable (h : Remembers r t₀ t)

include h

theorem arena : t.arena = t₀.arena := h.same.grows.arena

theorem record {record : Binding} (hb : t.binding? b = some record) :
    ∃ record₀, t₀.binding? b = some record₀ ∧ record.clearMemo = record₀.clearMemo := by
  have hr := h.records b
  rw [hb] at hr
  obtain ⟨record₀, h₀, hr⟩ := Option.map_eq_some_iff.1 hr.symm
  exact ⟨record₀, h₀, hr.symm⟩

theorem keepsTables : t₀.KeepsTables t := by
  refine h.same.keepsTables (fun s => ?_) fun b => ?_
  · unfold Tree.scope
    rw [h.scopes]
  · simpa using congrArg Option.isSome (h.records b)

theorem inScope (ht : t₀.Scoped r) : t.Scoped r := ht.keeps h.same.toKeepsScopes h.coherent

theorem morePaths (hext : t.Extends t' r) : Remembers r t₀ t' where
  coherent := hext.coherent
  same := h.same.trans hext.sameScopes
  scopes := hext.names.scopes.trans h.scopes
  records b := by
    unfold Tree.binding?
    rw [hext.names.bindings]
    exact h.records b
  memos b record hb := by
    unfold Tree.binding? at hb
    rw [hext.names.bindings] at hb
    exact h.memos b record hb

theorem remember (hinit : ∀ record, t.binding? b = some record →
    ∃ init, t₀.initializer? record = some init ∧ t₀.Means init v) :
    Remembers r t₀ (t.updateBinding b (·.remember v)) where
  coherent := coherent_of_names h.coherent _ _
  same := h.same.trans (t.sameScopes_updateBinding b _ fun record _ => record.precedes_remember v)
  scopes := h.scopes
  records c := by
    rw [binding?_updateBinding, ← h.records c]
    split
    · next hc =>
      rw [hc, Option.map_map]
      exact congrArg (fun f => (t.binding? b).map f) (funext fun x =>
        Binding.clearMemo_remember x v)
    · rfl
  memos c record hrecord hhas := by
    rw [binding?_updateBinding] at hrecord
    split at hrecord
    · next hc =>
      obtain ⟨old, hold, rfl⟩ := Option.map_eq_some_iff.1 hrecord
      rw [initializer?_congr (Binding.clearMemo_remember old v)]
      unfold Binding.remember at hhas ⊢
      split at hhas
      · next hrefused =>
        rw [if_pos hrefused]
        exact h.memos b old hold hhas
      · next hrefused =>
        rw [if_neg hrefused]
        exact ⟨v, (hinit old hold).imp fun init hv => ⟨rfl, hv⟩⟩
    · exact h.memos c record hrecord hhas

end Remembers

end Tree

namespace Evaluation

variable {α β : Type} {t₀ t t' : Tree} {r n m : NodeId} {p q : PathId} {o : Node} {key : String}
  {Q Q' : α → Tree → Prop} {R : β → Tree → Prop} {v : Primitive}
  {form : (Option NodeId → Option Primitive) → Option Primitive}
  {next : Primitive → (Option NodeId → Option Primitive) → Option Primitive}

/-! ## steps of evaluations -/

def Right (t₀ : Tree) (e : Evaluation) : Prop := ∀ node v, (node, some v) ∈ e.seen → t₀.Means node v

/-- Steps that leave all that is remembered right, with a result for which `Q` holds. -/
def Yields (r : NodeId) (t₀ : Tree) (x : EvalM α) (t : Tree) (Q : α → Tree → Prop) : Prop :=
  ∀ e, Right t₀ e → Ends (x e t)
    (fun y t' => Remembers r t₀ t' ∧ t.Grows t' ∧ Right t₀ y.2 ∧ Q y.1 t')
    fun _ t' => Remembers r t₀ t'

theorem Yields.bind {x : EvalM α} {f : α → EvalM β} (hx : Yields r t₀ x t Q)
    (hf : ∀ y t', Remembers r t₀ t' → t.Grows t' → Q y t' → Yields r t₀ (f y) t' R) :
    Yields r t₀ (x >>= f) t R := by
  intro e he
  refine ends_bind.2 ((hx e he).mono fun y t' ⟨ht', hg, he', hQ⟩ => ?_)
  exact (hf y.1 t' ht' hg hQ y.2 he').mono fun z t'' ⟨ht'', hg', he'', hR⟩ =>
    ⟨ht'', hg.trans hg', he'', hR⟩

theorem Yields.mono {x : EvalM α} (hx : Yields r t₀ x t Q) (hQ : ∀ y t', Q y t' → Q' y t') :
    Yields r t₀ x t Q' := fun e he =>
  (hx e he).mono fun y t' ⟨ht', hg, he', h⟩ => ⟨ht', hg, he', hQ y.1 t' h⟩

theorem yields_pure (h : Remembers r t₀ t) {x : α} (hQ : Q x t) :
    Yields r t₀ (pure x : EvalM α) t Q := fun _ he => ⟨h, .refl t, he, hQ⟩

theorem yields_tree {f : Tree → EvalM α} (h : Yields r t₀ (f t) t Q) :
    Yields r t₀ (getThe Tree >>= f) t Q := h

theorem yields_get {f : Evaluation → EvalM α} (h : ∀ e, Right t₀ e → Yields r t₀ (f e) t Q) :
    Yields r t₀ (get >>= f) t Q := fun e he => h e he e he

theorem yields_modify {f : Evaluation → Evaluation} {x : PUnit → EvalM α}
    (hf : ∀ e, Right t₀ e → Right t₀ (f e)) (h : Yields r t₀ (x ⟨⟩) t Q) :
    Yields r t₀ (modify f >>= x) t Q := fun e he => h (f e) (hf e he)

theorem yields_lift {x : TreeM α} (hx : Ends (x t)
      (fun y t' => Remembers r t₀ t' ∧ t.Grows t' ∧ Q y t') fun _ t' => Remembers r t₀ t') :
    Yields r t₀ (liftM x : EvalM α) t Q := by
  intro e he
  refine ends_bind.2 (hx.mono fun y t' ⟨ht', hg, hQ⟩ => ?_)
  exact ⟨ht', hg, he, hQ⟩

theorem yields_follow (h : Remembers r t₀ t) (ho : t₀.arena.get? n = some o)
    (hp : t.node p = some n) (hkey : o.type.hasChild key = true) (hdot : '.' ∉ key.toList) :
    Yields r t₀ (liftM (Tree.follow p key) : EvalM PathId) t
      fun q t' => t'.Below p q (t₀.arena.child? (some n) key) := by
  rw [← h.arena] at ho
  refine yields_lift ((ends_follow h.coherent ho hp hdot).imp ?_ ?_)
  · rintro q t' ⟨hext, hq⟩
    rw [h.arena] at hq
    exact ⟨h.morePaths hext, hext.grows, hq⟩
  · rintro e t' ⟨_, hnone⟩
    obtain ⟨f, hf, hk⟩ := (Option.any_eq_true _ _).1 hkey
    obtain ⟨h1, h2⟩ := hnone f hf
    simp [h1, h2] at hk

theorem yields_entries (h : Remembers r t₀ t) (ho : t₀.arena.get? n = some o)
    (hp : t.node p = some n) (hkey : o.type.hasList key = true) (hdot : '.' ∉ key.toList) :
    Yields r t₀ (liftM (Tree.entries p key) : EvalM (List PathId)) t
      fun qs t' => List.Forall₂ (fun item q => t'.Below p q item)
        (t₀.arena.items (some n) key) qs := by
  rw [← h.arena] at ho
  refine yields_lift ((ends_entries h.coherent ho hp hdot).imp ?_ ?_)
  · rintro q t' ⟨hext, hq⟩
    rw [h.arena] at hq
    exact ⟨h.morePaths hext, hext.grows, hq⟩
  · rintro e t' ⟨_, hnone⟩
    obtain ⟨f, hf, hk⟩ := (Option.any_eq_true _ _).1 hkey
    simp [hnone f hf] at hk

theorem yields_ofShape (h : Remembers r t₀ t) (x : Except ShapeError α) :
    Yields r t₀ (liftM (TreeM.ofShape x) : EvalM α) t fun y t' => x = .ok y ∧ t' = t := by
  refine yields_lift ?_
  cases x with
  | ok y => exact ⟨h, .refl t, rfl, rfl⟩
  | error e => exact h

/-! ## values -/

/-- The steps give no value, or the right one. -/
def Gives (r : NodeId) (t₀ : Tree) (x : EvalM (Option Primitive)) (t : Tree)
    (form : (Option NodeId → Option Primitive) → Option Primitive) : Prop :=
  Yields r t₀ x t fun v _ => ∀ w, v = some w → t₀.Finds form w

theorem gives_none (h : Remembers r t₀ t) : Gives r t₀ (pure none) t form :=
  yields_pure h fun _ hw => nomatch hw

theorem gives_some (h : Remembers r t₀ t) (hv : t₀.Finds form v) :
    Gives r t₀ (pure (some v)) t form :=
  yields_pure h fun _ hw => Option.some.inj hw ▸ hv

theorem gives_giveUp (h : Remembers r t₀ t) (p : PathId) : Gives r t₀ (giveUp p) t form :=
  fun _ he => ⟨h, .refl t, he, fun _ hw => nomatch hw⟩

theorem Gives.whenKnown {x : EvalM (Option Primitive)} {f : Primitive → EvalM (Option Primitive)}
    (hx : Gives r t₀ x t form)
    (hf : ∀ u t', Remembers r t₀ t' → t.Grows t' → t₀.Finds form u → Gives r t₀ (f u) t' (next u))
    (hform : Rises form) (hrises : ∀ u, Rises (next u)) :
    Gives r t₀ (whenKnown x f) t fun value => (form value).bind fun u => next u value := by
  refine Yields.bind hx fun v t' ht' hg hv => ?_
  cases v with
  | none => exact gives_none ht'
  | some u =>
    have hu := hv u rfl
    exact (hf u t' ht' hg hu).mono fun _ _ hw w h => hu.bind (hw w h) hform (hrises u)

def Evaluates (r : NodeId) (t₀ : Tree) (eval : PathId → EvalM (Option Primitive)) : Prop :=
  ∀ t p, Remembers r t₀ t → Gives r t₀ (eval p) t fun value => value (t.node p)

theorem Evaluates.below {eval : PathId → EvalM (Option Primitive)} (heval : Evaluates r t₀ eval)
    (h : Remembers r t₀ t) {node : Option NodeId} (hq : t.Below p q node) :
    Gives r t₀ (eval q) t fun value => value node := by
  have hg := heval t q h
  rwa [hq.node] at hg

theorem yields_operator (h : Remembers r t₀ t) (hp : t.node p = some n) {f : String → EvalM α}
    (hf : Yields r t₀ (f ((t₀.arena.text? (some n) "operator").getD "")) t Q) :
    Yields r t₀ (operator p >>= f) t Q := by
  rw [← h.arena, ← hp] at hf
  exact hf

theorem gives_ite {c : Bool} {x y : EvalM (Option Primitive)}
    {form form' : (Option NodeId → Option Primitive) → Option Primitive}
    (hx : c = true → Gives r t₀ x t form) (hy : c = false → Gives r t₀ y t form') :
    Gives r t₀ (if c then x else y) t fun value => if c then form value else form' value := by
  cases c with
  | true => exact hx rfl
  | false => exact hy rfl

theorem gives_ofOption (h : Remembers r t₀ t) (p : PathId) (result : Option Primitive) :
    Gives r t₀ (match result with
      | some result => return some result
      | none => giveUp p) t fun _ => result := by
  cases result with
  | none => exact gives_giveUp h p
  | some result => exact gives_some h (finds_const t₀ result)

theorem forall₂_getLast? {β γ : Type} {R : β → γ → Prop} {l : List β} {l' : List γ} {y : γ}
    (h : List.Forall₂ R l l') (hy : l'.getLast? = some y) : ∃ x, l.getLast? = some x ∧ R x y := by
  have hrev := List.forall₂_reverse_iff.2 h
  rw [List.getLast?_eq_head?_reverse] at hy ⊢
  generalize l.reverse = k at hrev ⊢
  generalize l'.reverse = k' at hrev hy
  cases hrev with
  | nil => cases hy
  | cons hx _ => exact ⟨_, rfl, Option.some.inj hy ▸ hx⟩

section Forms

variable {eval : PathId → EvalM (Option Primitive)} (heval : Evaluates r t₀ eval)

include heval

theorem gives_evalTemplate (p : PathId) (text : String) : ∀ (quasis expressions : List PathId)
    (items values : List (Option NodeId)) (t : Tree), Remembers r t₀ t →
    List.Forall₂ (fun item q => t.Below p q item) items quasis →
    List.Forall₂ (fun item q => t.Below p q item) values expressions →
    Gives r t₀ (evalTemplate eval quasis expressions text) t
      fun value => t₀.arena.templateValue? value items values text := by
  intro quasis
  induction quasis generalizing text with
  | nil =>
    rintro expressions _ values t h ⟨⟩ _
    exact gives_some h (finds_const t₀ _)
  | cons quasi quasis ih =>
    rintro expressions _ values t h (_ | ⟨hquasi, hquasis⟩) hvalues
    refine yields_tree ((yields_ofShape h _).bind ?_)
    rintro cooked t' h' - ⟨hcooked, rfl⟩
    rw [hquasi.node, h.arena] at hcooked
    unfold Arena.templateValue?
    rw [hcooked]
    cases cooked with
    | none => exact gives_giveUp h quasi
    | some cooked =>
      cases hvalues with
      | nil => exact ih _ _ _ _ _ h hquasis .nil
      | cons hvalue hvalues =>
        refine (heval.below h hvalue).whenKnown (fun u t₁ h₁ hg _ => ?_) (rises_value _)
          fun u => rises_templateValue? t₀.arena _ _ _
        exact ih _ _ _ _ _ h₁ (hquasis.imp fun _ _ hq => hq.grows hg)
          (hvalues.imp fun _ _ hq => hq.grows hg)

variable (h : Remembers r t₀ t) (ho : t₀.arena.get? n = some o) (hp : t.node p = some n)

include h ho hp

theorem gives_evalChild (hkey : o.type.hasChild key = true) (hdot : '.' ∉ key.toList) :
    Gives r t₀ (evalChild eval p key) t fun value => value (t₀.arena.child? (some n) key) :=
  (yields_follow h ho hp hkey hdot).bind fun _ _ ht' _ hq => heval.below ht' hq

theorem gives_evalMember (hty : o.type = .memberExpression) :
    Gives r t₀ (evalMember eval p) t fun value => t₀.arena.memberValue? value (some n) := by
  refine (yields_follow h ho hp (by rw [hty]; decide) (by decide)).bind
    fun object t₁ h₁ hg₁ hobject => ?_
  have hp₁ := (hg₁.node p (lt_of_node hp)).trans hp
  refine (yields_follow h₁ ho hp₁ (by rw [hty]; decide) (by decide)).bind
    fun property t₂ h₂ hg₂ hproperty => yields_tree ?_
  have hobject₂ := hobject.grows hg₂
  have hp₂ := (hg₂.node p (lt_of_node hp₁)).trans hp₁
  unfold Arena.memberValue?
  simp only [nodeIs_eq, hobject₂.node, hproperty.node, hp₂, h₂.arena, ← Bool.not_and]
  generalize (_ && _ : Bool) = isLength
  cases isLength with
  | false => exact gives_giveUp h₂ p
  | true =>
    refine (heval.below h₂ hobject₂).whenKnown (fun u t₃ h₃ _ _ => ?_) (rises_value _)
      fun _ => rises_const _
    cases u with
    | string s => exact gives_some h₃ (finds_const t₀ _)
    | _ => exact gives_none h₃

theorem gives_evalUnary (hty : o.type = .unaryExpression) :
    Gives r t₀ (evalUnary eval p) t fun value => t₀.arena.unaryValue? value (some n) := by
  refine yields_operator h hp (gives_ite (fun _ => gives_some h (finds_const t₀ _)) fun _ => ?_)
  refine (yields_follow h ho hp (by rw [hty]; decide) (by decide)).bind
    fun argument t₁ h₁ _ hargument => yields_tree ?_
  rw [nodeIsA, nodeIsA, hargument.node, h₁.arena]
  refine gives_ite (fun _ => gives_some h₁ (finds_const t₀ _)) fun _ => ?_
  exact (heval.below h₁ hargument).whenKnown (fun u t₂ h₂ _ _ => gives_ofOption h₂ p _)
    (rises_value _) fun _ => rises_const _

theorem gives_evalBinary (hty : o.type = .binaryExpression) :
    Gives r t₀ (evalBinary eval p) t fun value => t₀.arena.binaryValue? value (some n) := by
  refine yields_operator h hp ?_
  refine (gives_evalChild heval h ho hp (by rw [hty]; decide) (by decide)).whenKnown
    (fun left t₁ h₁ hg₁ _ => ?_) (rises_value _) fun _ => (rises_value _).bind
    fun _ => rises_const _
  have hp₁ := (hg₁.node p (lt_of_node hp)).trans hp
  exact (gives_evalChild heval h₁ ho hp₁ (by rw [hty]; decide) (by decide)).whenKnown
    (fun right t₂ h₂ _ _ => gives_ofOption h₂ p _) (rises_value _) fun _ => rises_const _

theorem gives_evalConditional (hty : o.type = .conditionalExpression) :
    Gives r t₀ (evalConditional eval p) t
      fun value => t₀.arena.conditionalValue? value (some n) := by
  refine (gives_evalChild heval h ho hp (by rw [hty]; decide) (by decide)).whenKnown
    (fun test t₁ h₁ hg₁ _ => ?_) (rises_value _) fun _ => rises_value _
  have hp₁ := (hg₁.node p (lt_of_node hp)).trans hp
  refine gives_evalChild heval h₁ ho hp₁ ?_ ?_
  · rw [hty]
    split <;> decide
  · split <;> decide

theorem gives_evalSequence (hty : o.type = .sequenceExpression) :
    Gives r t₀ (evalSequence eval p) t
      fun value => (t₀.arena.items (some n) "expressions").getLast?.bind value := by
  refine (yields_entries h ho hp (by rw [hty]; decide) (by decide)).bind
    fun qs t₁ h₁ _ hqs => ?_
  cases hlast : qs.getLast? with
  | none => exact gives_giveUp h₁ p
  | some q =>
    obtain ⟨last, hitems, hq⟩ := forall₂_getLast? hqs hlast
    rw [hitems]
    exact heval.below h₁ hq

theorem gives_evalLogical (hty : o.type = .logicalExpression) :
    Gives r t₀ (evalLogical eval p) t fun value => t₀.arena.logicalValue? value (some n) := by
  refine yields_operator h hp (yields_get fun before _ => ?_)
  refine (gives_evalChild heval h ho hp (by rw [hty]; decide) (by decide)).bind
    fun left t₁ h₁ hg₁ hleft => yields_get fun ⟨confident, _, _⟩ _ => ?_
  have hp₁ := (hg₁.node p (lt_of_node hp)).trans hp
  refine yields_modify (fun _ he => he) ?_
  refine (gives_evalChild heval h₁ ho hp₁ (by rw [hty]; decide) (by decide)).bind
    fun right t₂ h₂ _ hright => yields_get fun ⟨rightConfident, _, _⟩ _ => ?_
  have hunknown : Gives r t₀ evalLogical.unknown t₂
      fun value => t₀.arena.logicalValue? value (some n) :=
    yields_modify (fun _ he => he) (gives_none h₂)
  cases left with
  | none => exact hunknown
  | some left =>
    cases confident with
    | false => exact hunknown
    | true =>
      have hfinds : ∀ w, t₀.Finds (fun value => decidedValue?
          ((t₀.arena.text? (some n) "operator").getD "") left
          (value (t₀.arena.child? (some n) "right"))) w →
          t₀.Finds (fun value => t₀.arena.logicalValue? value (some n)) w := fun w hw =>
        (hleft left rfl).bind hw (rises_value _) (rises_decidedValue? _ _ left)
      unfold decidedValue? at hfinds
      cases hd : decidesLeft? ((t₀.arena.text? (some n) "operator").getD "") left with
      | none =>
        simp only [Bool.not_true, Bool.false_eq_true, if_false, hd]
        exact gives_giveUp h₂ p
      | some decided =>
        rw [hd] at hfinds
        simp only [Bool.not_true, Bool.false_eq_true, if_false, hd]
        refine yields_modify (fun _ he => he) ?_
        cases decided with
        | true => exact gives_some h₂ (hfinds left (finds_const t₀ left))
        | false =>
          cases rightConfident with
          | true => exact yields_pure h₂ fun w hw => hfinds w (hright w hw)
          | false => exact gives_none h₂

end Forms

/-! ## names -/

theorem isBeforeDeclaration_congr (hg : t₀.Grows t) (hp : p.index < t₀.paths.size)
    (hq : q.index < t₀.paths.size) : isBeforeDeclaration t p q = isBeforeDeclaration t₀ p q := by
  simp only [isBeforeDeclaration, hg.arena, hg.node p hp, hg.node q hq]

theorem gives_evalUnbound (h : Remembers r t₀ t) (p : PathId) (name : String) :
    Gives r t₀ (evalUnbound p name) t fun _ => unboundValue? name := by
  unfold evalUnbound unboundValue?
  split
  · exact gives_some h (finds_const t₀ _)
  · exact gives_some h (finds_const t₀ _)
  · exact gives_some h (finds_const t₀ _)
  · exact gives_giveUp h p

theorem yields_remember {b : BindingId} (h : Remembers r t₀ t)
    (hinit : ∀ record, t.binding? b = some record →
      ∃ init, t₀.initializer? record = some init ∧ t₀.Means init v) :
    Yields r t₀ (modifyThe Tree (·.updateBinding b (·.remember v)) : EvalM PUnit) t
    fun _ _ => True :=
  fun _ he => ⟨h.remember hinit, t.grows_updateBinding b _, he, trivial⟩

theorem gives_initializer {eval : PathId → EvalM (Option Primitive)} (heval : Evaluates r t₀ eval)
    (h : Remembers r t₀ t) {id : BindingId} {b : Binding} (hb : t.binding? id = some b)
    (hq : b.path.index < t₀.paths.size) :
    Gives r t₀ (if b.kind == .imported || !t.nodeIs b.path .variableDeclarator then giveUp b.path
      else do
        let target ← Tree.follow b.path "id"
        let start ← Tree.follow b.path "init"
        let t ← getThe Tree
        if !t.nodeIs target .identifier || (t.node start).isNone then giveUp b.path
        else
          Evaluation.whenKnown (eval start) fun value => do
            modifyThe Tree (·.updateBinding id (·.remember value))
            return some value) t
      fun value => meaningValue? value ((t₀.initializer? b).elim .unclear .starts) := by
  split
  · exact gives_giveUp h b.path
  · next hdeclarator =>
    obtain ⟨hkind, hdeclarator⟩ : b.kind ≠ .imported ∧ t.nodeIs b.path .variableDeclarator
        = true := by
      simpa using hdeclarator
    rw [nodeIs_eq, h.arena] at hdeclarator
    cases hm : t.node b.path with
    | none =>
      rw [hm] at hdeclarator
      cases hdeclarator
    | some m =>
      rw [hm] at hdeclarator
      obtain ⟨o, ho, hty⟩ := is_some.1 hdeclarator
      have hm₀ : t₀.node b.path = some m := (h.same.grows.node b.path hq).symm.trans hm
      refine (yields_follow h ho hm (by rw [hty]; decide) (by decide)).bind
        fun target t₁ h₁ hg₁ htarget => ?_
      have hm₁ := (hg₁.node _ (lt_of_node hm)).trans hm
      refine (yields_follow h₁ ho hm₁ (by rw [hty]; decide) (by decide)).bind
        fun start t₂ h₂ hg₂ hstart => yields_tree ?_
      rw [nodeIs_eq, (htarget.grows hg₂).node, hstart.node, h₂.arena]
      split
      · exact gives_giveUp h₂ b.path
      · next hset =>
        obtain ⟨hset, hsome⟩ : t₀.arena.is (t₀.arena.child? (some m) "id") .identifier = true
            ∧ (t₀.arena.child? (some m) "init").isSome = true := by
          simpa [Option.isSome_iff_ne_none] using hset
        have hinit : t₀.initializer? b = some (t₀.arena.child? (some m) "init") := by
          unfold initializer?
          rw [hm₀]
          simp [hkind, hdeclarator, hset, hsome]
        rw [hinit]
        have hstep : ∀ u t₃, Remembers r t₀ t₃ → t₂.Grows t₃ →
            t₀.Finds (fun value => value (t₀.arena.child? (some m) "init")) u →
            Gives r t₀ (do
              modifyThe Tree (·.updateBinding id (·.remember u))
              return some u) t₃ fun _ => some u := by
          intro u t₃ h₃ _ hu
          refine Yields.bind (yields_remember h₃ fun record hrecord => ?_) fun _ t₄ h₄ _ _ =>
            gives_some h₄ (finds_const t₀ u)
          obtain ⟨record₀, h₀, heq⟩ := h₃.record hrecord
          obtain ⟨b₀, hb₀, heq'⟩ := h.record hb
          obtain rfl := Option.some.inj (h₀.symm.trans hb₀)
          exact ⟨_, (initializer?_congr (heq.trans heq'.symm)).trans hinit, hu⟩
        refine ((heval.below h₂ hstart).whenKnown hstep (rises_value _) fun _ => rises_const _).mono
          fun v _ hv w hw => ?_
        obtain ⟨k, hk⟩ := hv w hw
        exact ⟨k, by simpa [meaningValue?] using hk⟩

theorem gives_evalBound {eval : PathId → EvalM (Option Primitive)} (heval : Evaluates r t₀ eval)
    (h : Remembers r t₀ t) {id : BindingId} {b : Binding} (hb : t.binding? id = some b)
    (hp : p.index < t₀.paths.size) (hq : b.path.index < t₀.paths.size) :
    Gives r t₀ (evalBound eval p id b) t fun value =>
    meaningValue? value (t₀.boundMeaning p b) := by
  unfold evalBound
  refine yields_tree ?_
  rw [isBeforeDeclaration_congr h.same.grows hp hq]
  unfold boundMeaning
  split
  · exact gives_giveUp h b.path
  · split
    · next hhas =>
      obtain ⟨v, init, hvalue, hinit, hv⟩ := h.memos id b hb hhas
      rw [hvalue, hinit]
      exact gives_some h hv
    · exact gives_initializer heval h hb hq

theorem gives_ofShape (h : Remembers r t₀ t) (x : Except ShapeError α) (f : α → Primitive) :
    Gives r t₀ (do return some (f (← TreeM.ofShape x))) t fun _ => x.toOption.map f := by
  refine (yields_ofShape h x).bind ?_
  rintro y t' h' - ⟨rfl, rfl⟩
  exact gives_some h' (finds_const t₀ _)

theorem mem_of_lookup {β γ : Type} [BEq β] [LawfulBEq β] {l : List (β × γ)} {x : β} {y : γ}
    (h : l.lookup x = some y) : (x, y) ∈ l := by
  obtain ⟨l₁, l₂, rfl, _⟩ := List.lookup_eq_some_iff.1 h
  simp

theorem gives_unlessSeen (h : Remembers r t₀ t) {fresh : EvalM (Option Primitive)}
    (hfresh : Gives r t₀ fresh t fun value => value (t.node p)) :
    Gives r t₀ (unlessSeen p fresh) t fun value => value (t.node p) := by
  refine yields_tree (yields_get fun e he => ?_)
  split
  · next v hv => exact gives_some h (he _ v (mem_of_lookup hv))
  · exact gives_giveUp h p
  · exact hfresh

theorem gives_record {x : EvalM (Option Primitive)}
    (hx : Gives r t₀ x t fun value => value (t.node p)) :
    Gives r t₀ (record p x) t fun value => value (t.node p) := by
  refine yields_tree (yields_modify (fun e he node v hmem => ?_)
    (hx.bind fun value t' h' _ hv => ?_))
  · rcases List.mem_cons.1 hmem with heq | hmem
    · cases heq
    · exact he node v hmem
  · refine yields_modify (fun e he => ?_) (yields_pure h' hv)
    split
    · intro node v hmem
      rcases List.mem_cons.1 hmem with heq | hmem
      · obtain ⟨rfl, rfl⟩ := Prod.mk.inj heq
        exact hv v rfl
      · exact he node v hmem
    · exact he

theorem hasChild_of_wrapper {ty : NodeType} (h : ty.isA .expressionWrapper = true) :
    ty.hasChild "expression" = true := by
  revert h
  cases ty <;> decide

section Reads

variable {a : Arena} (hc : Crawled a r t₀) (hroot : a.is (some r) .program)

include hc hroot

/-- What a read stands for is what its name is bound to from the scope that it has. -/
theorem meaning_of_read (h : Remembers r t₀ t) (hp : t.node p = some n)
    (hn : t₀.arena.is (some n) .identifier) (hread : t.isReferencedIdentifier p = true) :
    p.index < t₀.paths.size ∧ ∃ s, (t₀.path p).scope = some s ∧ Tree.scopeOf p t = .ok (some s) t
      ∧ s.index < t₀.scopes.size
      ∧ t₀.meaning (some n) = match t₀.bindingOf? s ((t₀.arena.name? (some n)).getD "") with
        | some b => t₀.boundMeaning p b
        | none => .unbound ((t₀.arena.name? (some n)).getD "") := by
  obtain ⟨_, hl, _⟩ := hc.linked
  have ht := hl.inScope
  obtain ⟨above, hpl⟩ := h.coherent.exists_place hp
  obtain ⟨o, ho, hty⟩ := is_some.1 hn
  have hadmits : VirtualType.referencedIdentifier.admits t₀.arena n above = true := by
    rw [← h.arena, ← VirtualType.matches_eq h.coherent hpl]
    exact hread
  have hisRead : a.isRead n above := by
    unfold Arena.isRead
    rw [← hl.arena, hadmits]
    simp [type?, ho, hty]
    decide
  have hne : n ≠ r := by
    rintro rfl
    exact not_isRead_of_isScope (isScope_of_program hroot) hisRead
  have hu : a.Under r n above := by
    rw [← hl.arena, ← h.arena]
    exact hpl.under
  obtain ⟨q, s, hq, hs⟩ := hc.entered n above hu hne (shouldVisit_of_isRead hisRead)
  obtain rfl := h.coherent.unique _ _ _ (hq.grows h.same.grows).node hp
  have hs' : (t.path q).scope = some s := (h.same.scope q).trans hs
  refine ⟨hq.lt, s, hs, (h.inScope ht).scopeOfWith_eq hpl.onLine hs' crawl,
    (ht.path q _ s hq.onLine hs).2 s rfl, ?_⟩
  have hread₀ : t₀.isReferencedIdentifier q = true := by
    have hmatches := VirtualType.matches_eq ht.coherent hq VirtualType.referencedIdentifier
    rw [hadmits] at hmatches
    exact hmatches
  unfold meaning
  rw [pathOf?_eq ht.coherent hq.node]
  refine (if_neg (by simp [hread₀])).trans ?_
  exact hs ▸ rfl

theorem gives_evalIdentifier {eval : PathId → EvalM (Option Primitive)}
    (heval : Evaluates r t₀ eval) (h : Remembers r t₀ t) (hp : t.node p = some n)
    (hn : t₀.arena.is (some n) .identifier) :
    Gives r t₀ (evalIdentifier eval p) t fun value =>
    meaningValue? value (t₀.meaning (some n)) := by
  obtain ⟨_, hl, _⟩ := hc.linked
  unfold evalIdentifier
  refine yields_tree ?_
  split
  · exact gives_giveUp h p
  · next hread =>
    have hread : t.isReferencedIdentifier p = true := by simpa using hread
    obtain ⟨hlt, s, -, hs, hslt, hmeaning⟩ := meaning_of_read hc hroot h hp hn hread
    rw [hmeaning, h.arena, hp]
    generalize (t₀.arena.name? (some n)).getD "" = name
    have hscope : Yields r t₀ (liftM (Tree.scopeOf p) : EvalM (Option ScopeId)) t
        fun o t' => o = some s ∧ t' = t := by
      refine yields_lift ?_
      rw [hs]
      exact ⟨h, .refl t, rfl, rfl⟩
    refine hscope.bind ?_
    rintro _ t' - - ⟨rfl, ht⟩
    rw [ht]
    refine yields_tree ?_
    unfold bindingOf?
    rw [Option.bind_some, h.keepsTables.getBinding? hl.inScope hslt]
    cases hb : t₀.getBinding? s name with
    | none => exact gives_evalUnbound h p name
    | some b =>
      simp only [Option.bind_some]
      cases hrecord : t.binding? b with
      | none =>
        have hnone : t₀.binding? b = none := by simpa [hrecord] using (h.records b).symm
        rw [hnone]
        exact gives_evalUnbound h p name
      | some record =>
        obtain ⟨record₀, h₀, heq⟩ := h.record hrecord
        rw [h₀]
        dsimp only
        rw [← boundMeaning_congr heq]
        refine gives_evalBound heval h hrecord hlt ?_
        have hpath : record.clearMemo.path = record₀.clearMemo.path := by rw [heq]
        exact (congrArg PathId.index hpath).trans_lt (hl.bound.placed b record₀ h₀)

theorem gives_evalNode {eval : PathId → EvalM (Option Primitive)} (heval : Evaluates r t₀ eval)
    (h : Remembers r t₀ t) (hp : t.node p = some n) (ho : t₀.arena.get? n = some o) :
    Gives r t₀ (evalNode eval p) t
      fun value => t₀.arena.formValue? value t₀.meaning (some n) o := by
  unfold evalNode
  refine yields_get fun e _ => ?_
  split
  · exact gives_none h
  · refine yields_tree ?_
    have hlook : t.arena.look (t.node p) = some o := by
      rw [hp, h.arena, look_some, ho]
    simp only [hlook]
    split
    · next hty =>
      simp only [formValue?, hty]
      exact gives_evalSequence heval h ho hp hty
    · next hty =>
      simp only [formValue?, hty]
      exact gives_ofShape h (o.text "value") fun text => .string (text.getD "")
    · next hty =>
      simp only [formValue?, hty]
      exact gives_ofShape h (o.number "value") .number
    · next hty =>
      simp only [formValue?, hty]
      exact gives_ofShape h (o.flag "value") .bool
    · next hty =>
      simp only [formValue?, hty]
      exact gives_some h (finds_const t₀ _)
    · next hty =>
      simp only [formValue?, hty]
      refine (yields_entries h ho hp (by rw [hty]; decide) (by decide)).bind
        fun quasis t₁ h₁ hg₁ hquasis => ?_
      have hp₁ := (hg₁.node p (lt_of_node hp)).trans hp
      refine (yields_entries h₁ ho hp₁ (by rw [hty]; decide) (by decide)).bind
        fun expressions t₂ h₂ hg₂ hexpressions => ?_
      exact gives_evalTemplate heval p "" quasis expressions _ _ t₂ h₂
        (hquasis.imp fun _ _ hq => hq.grows hg₂) hexpressions
    · next hty =>
      simp only [formValue?, hty]
      exact gives_evalConditional heval h ho hp hty
    · next hty =>
      simp only [formValue?, hty]
      exact gives_evalMember heval h ho hp hty
    · next hty =>
      simp only [formValue?, hty]
      exact gives_evalIdentifier hc hroot heval h hp (is_some.2 ⟨o, ho, hty⟩)
    · next hty =>
      simp only [formValue?, hty]
      exact gives_evalUnary heval h ho hp hty
    · next hty =>
      simp only [formValue?, hty]
      exact gives_evalLogical heval h ho hp hty
    · next hty =>
      simp only [formValue?, hty]
      exact gives_evalBinary heval h ho hp hty
    · simp only [formValue?, *]
      refine gives_ite (fun hwrapper => ?_) fun _ => gives_giveUp h p
      exact gives_evalChild heval h ho hp (hasChild_of_wrapper hwrapper) (by decide)

/-- **The value that an evaluation finds is that of the node.** -/
theorem evaluates_evalLevels (levels : Nat) : Evaluates r t₀ (evalLevels levels) := by
  induction levels with
  | zero =>
    intro t p h
    exact gives_unlessSeen h (gives_giveUp h p)
  | succ levels ih =>
    intro t p h
    refine gives_unlessSeen h (gives_record ?_)
    cases hp : t.node p with
    | none =>
      refine yields_get fun e _ => ?_
      split
      · exact gives_none h
      · refine yields_tree ?_
        rw [hp]
        exact gives_giveUp h p
    | some n =>
      obtain ⟨above, hpl⟩ := h.coherent.exists_place hp
      obtain ⟨o, ho⟩ := hpl.under.get? h.coherent.arena.owned h.coherent.present
      rw [h.arena] at ho
      exact (gives_evalNode hc hroot ih h hp ho).mono fun v _ hv w hw =>
        (hv w hw).means (by rw [look_some, ho])

end Reads

end Evaluation

end ScopedTree
