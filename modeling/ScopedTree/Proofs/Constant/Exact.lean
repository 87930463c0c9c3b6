import ScopedTree.Proofs.Constant.Evaluate
import ScopedTree.Proofs.Constant.Operands

/-!
# Evaluations miss nothing

The value that an evaluation finds is right. Conversely, where operands do not nest too deep and do
not loop, a node that has a value is found to have it: no unknown that was met elsewhere gets in the
way. A node that was met before and has no value recorded is either being evaluated, and then it is
above and not met again, or it has none.

* `Evaluation.Settled`              what the nodes met so far say of those that have no value;
* `Evaluation.Solves`               steps that find a value, and are confident, exactly if there is
  one;
* `Evaluation.solves_evalLevels`    evaluations of nodes whose operands end;
* `Tree.evaluate_exact`             an evaluation finds exactly what the plain evaluator finds.
-/

namespace ScopedTree

open ScopedTree.Tree Arena Relation

/-! ## what literals store -/

namespace Node

variable {n : Node} {key : String} {f : Field}

theorem Shaped.value?_of_field? (h : n.Shaped) (hf : n.type.field? key = some f) :
    ∃ v, n.value? key = some v ∧ v.fits f.kind := by
  obtain ⟨v, hv, hfit⟩ := h.value?_of_mem (mem_fields_of_field? hf)
  rw [field?_name hf] at hv
  exact ⟨v, hv, hfit⟩

theorem Shaped.text_ok (h : n.Shaped) (hf : n.type.field? key = some f)
    (hkind : f.kind = .str ∨ f.kind = .optStr) : ∃ o, n.text key = .ok o := by
  obtain ⟨v, hv, hfit⟩ := h.value?_of_field? hf
  rcases hkind with hkind | hkind <;> rw [hkind] at hfit <;> cases v <;>
    simp_all [Value.fits, text, field, bind, Except.bind]

theorem Shaped.number_ok (h : n.Shaped) (hf : n.type.field? key = some f) (hkind : f.kind = .num) :
    ∃ x, n.number key = .ok x := by
  obtain ⟨v, hv, hfit⟩ := h.value?_of_field? hf
  rw [hkind] at hfit
  cases v <;> simp_all [Value.fits, number, field, bind, Except.bind]

theorem Shaped.flag_ok (h : n.Shaped) (hf : n.type.field? key = some f) (hkind : f.kind = .bool) :
    ∃ b, n.flag key = .ok b := by
  obtain ⟨v, hv, hfit⟩ := h.value?_of_field? hf
  rw [hkind] at hfit
  cases v <;> simp_all [Value.fits, flag, field, bind, Except.bind]

end Node

theorem Arena.cooked_ok {a : Arena} (ha : a.WellOwned) {quasi : Option NodeId}
    (h : a.is quasi .templateElement = true) :
    ∃ o, (do (← a.node quasi).text "cooked" : Except ShapeError (Option String)) = .ok o := by
  cases quasi with
  | none => cases h
  | some m =>
    obtain ⟨n, hn, hty⟩ := is_some.1 h
    obtain ⟨o, ho⟩ : ∃ o, n.text "cooked" = .ok o :=
      (ha.shaped m n hn).text_ok (by rw [hty]; rfl) (.inr rfl)
    refine ⟨o, ?_⟩
    rw [node_ok.2 (a.look_some m ▸ hn)]
    exact ho

namespace Evaluation

variable {α β : Type} {t₀ t t' : Tree} {r n m : NodeId} {p q : PathId} {o : Node} {key : String}
  {S : Option NodeId → Prop} {c : Bool} {Q : α → Bool → Tree → Prop} {R : β → Bool → Tree → Prop}
  {levels : Nat} {x : EvalM (Option Primitive)} {w : Option Primitive}

/-! ## steps of evaluations -/

/-- The values of the nodes met are right, and of those without a value only the nodes of `S`, which
are being evaluated, have one. -/
structure Settled (t₀ : Tree) (S : Option NodeId → Prop) (e : Evaluation) : Prop where
  right : Right t₀ e
  pending : ∀ node, e.seen.lookup node = some none → S node ∨ ∀ v, ¬ t₀.Means node v

/-- Steps that succeed from a state of the given confidence, and lead to a result and a confidence
for which `Q` holds. -/
def Reckons (r : NodeId) (t₀ : Tree) (S : Option NodeId → Prop) (c : Bool) (x : EvalM α) (t : Tree)
    (Q : α → Bool → Tree → Prop) : Prop :=
  ∀ e, Settled t₀ S e → e.confident = c → Ends (x e t)
    (fun y t' => Remembers r t₀ t' ∧ t.Grows t' ∧ Settled t₀ S y.2 ∧ Q y.1 y.2.confident t')
    fun _ _ => False

/-- Steps that find the value, if there is one, and are confident exactly then. -/
def Solves (r : NodeId) (t₀ : Tree) (S : Option NodeId → Prop) (x : EvalM (Option Primitive))
    (t : Tree) (w : Option Primitive) : Prop :=
  Reckons r t₀ S true x t fun y c _ => y = w ∧ c = w.isSome

theorem Reckons.bind {x : EvalM α} {f : α → EvalM β} (hx : Reckons r t₀ S c x t Q)
    (hf : ∀ y c' t', Remembers r t₀ t' → t.Grows t' → Q y c' t' → Reckons r t₀ S c' (f y) t' R) :
    Reckons r t₀ S c (x >>= f) t R := by
  intro e he hc
  refine ends_bind.2 ((hx e he hc).mono fun y t' ⟨ht', hg, he', hQ⟩ => ?_)
  exact (hf y.1 _ t' ht' hg hQ y.2 he' rfl).mono fun z t'' ⟨ht'', hg', he'', hR⟩ =>
    ⟨ht'', hg.trans hg', he'', hR⟩

theorem reckons_pure (h : Remembers r t₀ t) {y : α} (hQ : Q y c t) :
    Reckons r t₀ S c (pure y : EvalM α) t Q := by
  rintro e he rfl
  exact ⟨h, .refl t, he, hQ⟩

theorem reckons_tree {f : Tree → EvalM α} (h : Reckons r t₀ S c (f t) t Q) :
    Reckons r t₀ S c (getThe Tree >>= f) t Q := h

theorem reckons_get {f : Evaluation → EvalM α}
    (h : ∀ e, Settled t₀ S e → e.confident = c → Reckons r t₀ S c (f e) t Q) :
    Reckons r t₀ S c (get >>= f) t Q := fun e he hc => h e he hc e he hc

theorem reckons_confident {b : Bool} {f : PUnit → EvalM α} (h : Reckons r t₀ S b (f ⟨⟩) t Q) :
    Reckons r t₀ S c (modify ({ · with confident := b }) >>= f) t Q :=
  fun e he _ => h { e with confident := b } ⟨he.right, he.pending⟩ rfl

theorem reckons_lift {y : TreeM β} {f : β → EvalM α} {P : β → Tree → Prop}
    (hy : Ends (y t) (fun z t' => Remembers r t₀ t' ∧ t.Grows t' ∧ P z t') fun _ _ => False)
    (hf : ∀ z t', Remembers r t₀ t' → t.Grows t' → P z t' → Reckons r t₀ S c (f z) t' Q) :
    Reckons r t₀ S c (liftM y >>= f) t Q := by
  refine Reckons.bind (Q := fun z c' t' => P z t' ∧ c' = c) ?_ ?_
  · intro e he hc
    exact ends_bind.2 (hy.mono fun z t' ⟨ht', hg, hP⟩ => ⟨ht', hg, he, hP, hc⟩)
  · rintro z _ t' ht' hg ⟨hP, rfl⟩
    exact hf z t' ht' hg hP

theorem reckons_follow (h : Remembers r t₀ t) (ho : t₀.arena.get? n = some o)
    (hp : t.node p = some n) (hkey : o.type.hasChild key = true) (hdot : '.' ∉ key.toList)
    {f : PathId → EvalM α} (hf : ∀ q t', Remembers r t₀ t' → t.Grows t' →
      t'.Below p q (t₀.arena.child? (some n) key) → Reckons r t₀ S c (f q) t' Q) :
    Reckons r t₀ S c (liftM (Tree.follow p key) >>= f) t Q := by
  rw [← h.arena] at ho
  refine reckons_lift ((ends_follow h.coherent ho hp hdot).imp ?_ ?_) hf
  · rintro q t' ⟨hext, hq⟩
    rw [h.arena] at hq
    exact ⟨h.morePaths hext, hext.grows, hq⟩
  · rintro e t' ⟨_, hnone⟩
    obtain ⟨g, hg, hk⟩ := (Option.any_eq_true _ _).1 hkey
    obtain ⟨h1, h2⟩ := hnone g hg
    simp [h1, h2] at hk

theorem reckons_entries (h : Remembers r t₀ t) (ho : t₀.arena.get? n = some o)
    (hp : t.node p = some n) (hkey : o.type.hasList key = true) (hdot : '.' ∉ key.toList)
    {f : List PathId → EvalM α} (hf : ∀ qs t', Remembers r t₀ t' → t.Grows t' →
      List.Forall₂ (fun item q => t'.Below p q item) (t₀.arena.items (some n) key) qs →
      Reckons r t₀ S c (f qs) t' Q) :
    Reckons r t₀ S c (liftM (Tree.entries p key) >>= f) t Q := by
  rw [← h.arena] at ho
  refine reckons_lift ((ends_entries h.coherent ho hp hdot).imp ?_ ?_) hf
  · rintro q t' ⟨hext, hq⟩
    rw [h.arena] at hq
    exact ⟨h.morePaths hext, hext.grows, hq⟩
  · rintro e t' ⟨_, hnone⟩
    obtain ⟨g, hg, hk⟩ := (Option.any_eq_true _ _).1 hkey
    simp [hnone g hg] at hk

theorem reckons_ofShape (h : Remembers r t₀ t) {shape : Except ShapeError β} {y : β}
    (hy : shape = .ok y) {f : β → EvalM α} (hf : Reckons r t₀ S c (f y) t Q) :
    Reckons r t₀ S c (liftM (TreeM.ofShape shape) >>= f) t Q := by
  subst hy
  refine reckons_lift (P := fun z t' => z = y ∧ t' = t) ⟨h, .refl t, rfl, rfl⟩ ?_
  rintro _ _ - - ⟨rfl, rfl⟩
  exact hf

theorem reckons_operator (h : Remembers r t₀ t) (hp : t.node p = some n) {f : String → EvalM α}
    (hf : Reckons r t₀ S c (f ((t₀.arena.text? (some n) "operator").getD "")) t Q) :
    Reckons r t₀ S c (operator p >>= f) t Q := by
  rw [← h.arena, ← hp] at hf
  exact hf

theorem reckons_remember {b : BindingId} {v : Primitive} (h : Remembers r t₀ t)
    (hinit : ∀ record, t.binding? b = some record →
      ∃ init, t₀.initializer? record = some init ∧ t₀.Means init v) {f : PUnit → EvalM α}
    (hf : ∀ t', Remembers r t₀ t' → Reckons r t₀ S c (f ⟨⟩) t' Q) :
    Reckons r t₀ S c (modifyThe Tree (·.updateBinding b (·.remember v)) >>= f) t Q :=
  Reckons.bind (Q := fun _ c' _ => c' = c)
    (fun _ he hc => ⟨h.remember hinit, t.grows_updateBinding b _, he, hc⟩)
    fun _ _ t' ht' _ hc => hc ▸ hf t' ht'

/-! ## values -/

theorem solves_some (h : Remembers r t₀ t) (v : Primitive) :
    Solves r t₀ S (pure (some v)) t (some v) :=
  reckons_pure h ⟨rfl, rfl⟩

theorem reckons_giveUp (h : Remembers r t₀ t) (p : PathId) :
    Reckons r t₀ S c (giveUp p) t fun y c' _ => y = none ∧ c' = false :=
  fun _ he _ => ⟨h, .refl t, ⟨he.right, he.pending⟩, rfl, rfl⟩

theorem solves_giveUp (h : Remembers r t₀ t) (p : PathId) : Solves r t₀ S (giveUp p) t none :=
  reckons_giveUp h p

theorem Solves.whenKnown (hx : Solves r t₀ S x t w) {f : Primitive → EvalM (Option Primitive)}
    {next : Primitive → Option Primitive}
    (hf : ∀ u t', Remembers r t₀ t' → t.Grows t' → w = some u → Solves r t₀ S (f u) t' (next u)) :
    Solves r t₀ S (whenKnown x f) t (w.bind next) := by
  refine Reckons.bind hx ?_
  rintro y _ t' ht' hg ⟨rfl, rfl⟩
  cases y with
  | none => exact reckons_pure ht' ⟨rfl, rfl⟩
  | some u => exact hf u t' ht' hg rfl

theorem solves_ofOption (h : Remembers r t₀ t) (p : PathId) (result : Option Primitive) :
    Solves r t₀ S (match result with
      | some result => return some result
      | none => giveUp p) t result := by
  cases result with
  | none => exact solves_giveUp h p
  | some result => exact solves_some h result

theorem solves_ite {b : Bool} {x y : EvalM (Option Primitive)} {w w' : Option Primitive}
    (hx : b = true → Solves r t₀ S x t w) (hy : b = false → Solves r t₀ S y t w') :
    Solves r t₀ S (if b then x else y) t (if b then w else w') := by
  cases b with
  | true => exact hx rfl
  | false => exact hy rfl

theorem solves_ofShape (h : Remembers r t₀ t) {shape : Except ShapeError α} {y : α}
    (hy : shape = .ok y) (f : α → Primitive) :
    Solves r t₀ S (do return some (f (← TreeM.ofShape shape))) t (shape.toOption.map f) := by
  subst hy
  refine reckons_ofShape h rfl ?_
  exact solves_some h _

/-- The value of the node is found on so many levels, by `eval` too. -/
structure Answers (r : NodeId) (t₀ : Tree) (S : Option NodeId → Prop) (levels : Nat)
    (eval : PathId → EvalM (Option Primitive)) (d : Option NodeId) : Prop where
  solves : ∀ t q, Remembers r t₀ t → t.node q = d →
    Solves r t₀ S (eval q) t (t₀.constantValue? levels d)
  means : ∀ v, t₀.Means d v → t₀.constantValue? levels d = some v

theorem forall₂_getLast?_none {β γ : Type} {R : β → γ → Prop} {l : List β} {l' : List γ}
    (h : List.Forall₂ R l l') (hl : l'.getLast? = none) : l.getLast? = none := by
  rw [List.getLast?_eq_none_iff] at hl ⊢
  subst hl
  exact List.forall₂_nil_right_iff.1 h

theorem eq_string_of_constantValue? {d : Option NodeId} {u : Primitive}
    (hd : t₀.arena.is d .stringLiteral = true) (hu : t₀.constantValue? levels d = some u) :
    ∃ text, u = .string text := by
  cases levels with
  | zero => cases hu
  | succ levels =>
    obtain ⟨n, hn, hu⟩ := Option.bind_eq_some_iff.1 hu
    have hty : n.type = .stringLiteral := by simpa [Arena.is, Arena.type?, hn] using hd
    simp only [formValue?, hty] at hu
    obtain ⟨text, _, rfl⟩ := Option.map_eq_some_iff.1 hu
    exact ⟨_, rfl⟩

section Forms

variable {eval : PathId → EvalM (Option Primitive)}

theorem solves_evalTemplate (ha : t₀.arena.WellOwned) (p : PathId) (text : String) :
    ∀ (quasis expressions : List PathId) (items values : List (Option NodeId)) (t : Tree),
      Remembers r t₀ t → List.Forall₂ (fun item q => t.Below p q item) items quasis →
      List.Forall₂ (fun item q => t.Below p q item) values expressions →
      (∀ quasi ∈ items, t₀.arena.is quasi .templateElement = true) →
      (∀ d ∈ values, Answers r t₀ S levels eval d) →
      Solves r t₀ S (evalTemplate eval quasis expressions text) t
        (t₀.arena.templateValue? (t₀.constantValue? levels) items values text) := by
  intro quasis
  induction quasis generalizing text with
  | nil =>
    rintro expressions _ values t h ⟨⟩ _ - -
    exact solves_some h _
  | cons quasi quasis ih =>
    rintro expressions _ values t h (_ | ⟨hquasi, hquasis⟩) hvalues hitems heval
    obtain ⟨hitem, hitems⟩ := List.forall_mem_cons.1 hitems
    obtain ⟨cooked, hcooked⟩ := cooked_ok ha hitem
    have hread : (do (← t.arena.node (t.node quasi)).text "cooked" : Except ShapeError _)
        = .ok cooked := by
      rwa [hquasi.node, h.arena]
    refine reckons_tree (reckons_ofShape h hread ?_)
    unfold Arena.templateValue?
    rw [hcooked]
    cases cooked with
    | none => exact solves_giveUp h quasi
    | some cooked =>
      cases hvalues with
      | nil => exact ih _ _ _ _ _ h hquasis .nil hitems heval
      | cons hvalue hvalues =>
        obtain ⟨hfirst, hrest⟩ := List.forall_mem_cons.1 heval
        refine (hfirst.solves t _ h hvalue.node).whenKnown fun u t₁ h₁ hg _ => ?_
        exact ih _ _ _ _ _ h₁ (hquasis.imp fun _ _ hq => hq.grows hg)
          (hvalues.imp fun _ _ hq => hq.grows hg) hitems hrest

variable (h : Remembers r t₀ t) (ho : t₀.arena.get? n = some o) (hp : t.node p = some n)

include h ho hp

theorem solves_evalChild (hkey : o.type.hasChild key = true) (hdot : '.' ∉ key.toList)
    (heval : Answers r t₀ S levels eval (t₀.arena.child? (some n) key)) :
    Solves r t₀ S (evalChild eval p key) t
      (t₀.constantValue? levels (t₀.arena.child? (some n) key)) :=
  reckons_follow h ho hp hkey hdot fun q t' ht' _ hq => heval.solves t' q ht' hq.node

theorem solves_evalSequence (hty : o.type = .sequenceExpression)
    (heval : ∀ d ∈ (t₀.arena.items (some n) "expressions").getLast?, Answers r t₀ S levels eval d) :
    Solves r t₀ S (evalSequence eval p) t
      ((t₀.arena.items (some n) "expressions").getLast?.bind (t₀.constantValue? levels)) := by
  refine reckons_entries h ho hp (by rw [hty]; decide) (by decide) fun qs t₁ h₁ _ hqs => ?_
  cases hlast : qs.getLast? with
  | none =>
    rw [forall₂_getLast?_none hqs hlast]
    exact solves_giveUp h₁ p
  | some q =>
    obtain ⟨last, hitems, hq⟩ := forall₂_getLast? hqs hlast
    rw [hitems]
    exact (heval last hitems).solves t₁ q h₁ hq.node

theorem solves_evalConditional (hty : o.type = .conditionalExpression)
    (heval : ∀ d ∈ ["test", "consequent", "alternate"].map (t₀.arena.child? (some n)),
      Answers r t₀ S levels eval d) :
    Solves r t₀ S (evalConditional eval p) t
      (t₀.arena.conditionalValue? (t₀.constantValue? levels) (some n)) := by
  refine (solves_evalChild h ho hp (by rw [hty]; decide) (by decide) (heval _ (by simp))).whenKnown
    fun test t₁ h₁ hg₁ _ => ?_
  have hp₁ := (hg₁.node p (lt_of_node hp)).trans hp
  cases test.truthy with
  | true =>
    exact solves_evalChild h₁ ho hp₁ (by rw [hty]; decide) (by decide) (heval _ (by simp))
  | false =>
    exact solves_evalChild h₁ ho hp₁ (by rw [hty]; decide) (by decide) (heval _ (by simp))

theorem solves_evalMember (hty : o.type = .memberExpression)
    (heval : ∀ d ∈ t₀.arena.memberOperands (some n), Answers r t₀ S levels eval d) :
    Solves r t₀ S (evalMember eval p) t
      (t₀.arena.memberValue? (t₀.constantValue? levels) (some n)) := by
  refine reckons_follow h ho hp (by rw [hty]; decide) (by decide) fun object t₁ h₁ hg₁ hobject => ?_
  have hp₁ := (hg₁.node p (lt_of_node hp)).trans hp
  refine reckons_follow h₁ ho hp₁ (by rw [hty]; decide) (by decide) fun property t₂ h₂ hg₂
    hproperty =>
    reckons_tree ?_
  have hobject₂ := hobject.grows hg₂
  have hp₂ := (hg₂.node p (lt_of_node hp₁)).trans hp₁
  unfold memberOperands at heval
  unfold Arena.memberValue?
  simp only [nodeIs_eq, hobject₂.node, hproperty.node, hp₂, h₂.arena, ← Bool.not_and]
  cases hstring : t₀.arena.is (t₀.arena.child? (some n) "object") .stringLiteral with
  | false =>
    simp only [Bool.and_false, Bool.not_false, if_true, Bool.false_eq_true, if_false]
    exact solves_giveUp h₂ p
  | true =>
    simp only [hstring, Bool.and_true] at heval ⊢
    generalize (_ && _ : Bool) = isLength at heval ⊢
    cases isLength with
    | false => exact solves_giveUp h₂ p
    | true =>
      refine ((heval _ (List.mem_singleton_self _)).solves t₂ object h₂ hobject₂.node).whenKnown
        fun u t₃ h₃ _ hu => ?_
      obtain ⟨text, rfl⟩ := eq_string_of_constantValue? hstring hu
      exact solves_some h₃ _

theorem solves_evalUnary (hty : o.type = .unaryExpression)
    (heval : ∀ d ∈ t₀.arena.unaryOperands (some n), Answers r t₀ S levels eval d) :
    Solves r t₀ S (evalUnary eval p) t
      (t₀.arena.unaryValue? (t₀.constantValue? levels) (some n)) := by
  unfold unaryOperands at heval
  dsimp only at heval
  refine reckons_operator h hp (solves_ite (fun _ => solves_some h _) fun hvoid => ?_)
  rw [if_neg (by simp [hvoid])] at heval
  refine reckons_follow h ho hp (by rw [hty]; decide) (by decide) fun argument t₁ h₁ _ hargument =>
    reckons_tree ?_
  rw [nodeIsA, nodeIsA, hargument.node, h₁.arena]
  refine solves_ite (fun _ => solves_some h₁ _) fun htypeof => ?_
  rw [if_neg (by simp [htypeof])] at heval
  exact ((heval _ (List.mem_singleton_self _)).solves t₁ argument h₁ hargument.node).whenKnown
    fun u t₂ h₂ _ _ => solves_ofOption h₂ p _

variable (heval : ∀ d ∈ ["left", "right"].map (t₀.arena.child? (some n)),
  Answers r t₀ S levels eval d)

include heval

theorem solves_evalBinary (hty : o.type = .binaryExpression) :
    Solves r t₀ S (evalBinary eval p) t
      (t₀.arena.binaryValue? (t₀.constantValue? levels) (some n)) := by
  refine reckons_operator h hp ?_
  refine (solves_evalChild h ho hp (by rw [hty]; decide) (by decide) (heval _ (by simp))).whenKnown
    fun left t₁ h₁ hg₁ _ => ?_
  have hp₁ := (hg₁.node p (lt_of_node hp)).trans hp
  exact (solves_evalChild h₁ ho hp₁ (by rw [hty]; decide) (by decide) (heval _ (by simp))).whenKnown
    fun right t₂ h₂ _ _ => solves_ofOption h₂ p _

theorem solves_evalLogical (hty : o.type = .logicalExpression) :
    Solves r t₀ S (evalLogical eval p) t
      (t₀.arena.logicalValue? (t₀.constantValue? levels) (some n)) := by
  refine reckons_operator h hp (reckons_get fun before _ hbefore => ?_)
  refine (solves_evalChild h ho hp (by rw [hty]; decide) (by decide) (heval _ (by simp))).bind ?_
  rintro left _ t₁ h₁ hg₁ ⟨hleft, rfl⟩
  refine reckons_get fun e₁ _ he₁ => ?_
  have hp₁ := (hg₁.node p (lt_of_node hp)).trans hp
  rw [hbefore, he₁]
  refine reckons_confident ?_
  refine (solves_evalChild h₁ ho hp₁ (by rw [hty]; decide) (by decide) (heval _ (by simp))).bind ?_
  rintro right _ t₂ h₂ hg₂ ⟨hright, rfl⟩
  refine reckons_get fun e₂ _ he₂ => ?_
  rw [he₂]
  unfold logicalValue?
  rw [← hleft, ← hright]
  generalize (t₀.arena.text? (some n) "operator").getD "" = op
  cases left with
  | none => exact reckons_confident (reckons_pure h₂ ⟨rfl, rfl⟩)
  | some left =>
    simp only [Option.isSome_some, Bool.not_true, Bool.false_eq_true, if_false, Option.bind_some,
      decidedValue?]
    cases decidesLeft? op left with
    | none => exact reckons_giveUp h₂ p
    | some decided =>
      refine reckons_confident ?_
      cases decided with
      | true => exact reckons_pure h₂ ⟨rfl, rfl⟩
      | false =>
        cases right with
        | none => exact reckons_pure h₂ ⟨rfl, rfl⟩
        | some right => exact reckons_pure h₂ ⟨rfl, rfl⟩

end Forms

/-! ## nodes met before -/

theorem solves_unlessSeen (h : Remembers r t₀ t) (hexhausts : t₀.Exhausts levels (t.node p))
    (hS : ∀ d, S d → TransGen t₀.Operand d (t.node p)) {fresh : EvalM (Option Primitive)}
    (hfresh : Solves r t₀ S fresh t (t₀.constantValue? levels (t.node p))) :
    Solves r t₀ S (unlessSeen p fresh) t (t₀.constantValue? levels (t.node p)) := by
  refine reckons_tree (reckons_get fun e he _ => ?_)
  split
  · next v hv =>
    rw [hexhausts.means_iff.1 (he.right _ v (mem_of_lookup hv))]
    exact solves_some h v
  · next hnone =>
    rcases he.pending _ hnone with hpending | hno
    · exact absurd (hS _ hpending) hexhausts.not_above
    · have hvalue : t₀.constantValue? levels (t.node p) = none :=
        Option.eq_none_iff_forall_ne_some.2 fun v hv => hno v ⟨levels, hv⟩
      rw [hvalue]
      exact solves_giveUp h p
  · exact hfresh

/-- While a node is evaluated it is one of those of `S`; afterwards its value is recorded, or it has
none. -/
theorem solves_record (hx : Solves r t₀ (fun d => S d ∨ d = t.node p) x t w)
    (hw : ∀ v, t₀.Means (t.node p) v ↔ w = some v) : Solves r t₀ S (record p x) t w := by
  intro e he hc
  have hbegun : Settled t₀ (fun d => S d ∨ d = t.node p)
      { e with seen := (t.node p, none) :: e.seen } := by
    refine ⟨fun node v hmem => ?_, fun node hnone => ?_⟩
    · rcases List.mem_cons.1 hmem with heq | hmem
      · cases heq
      · exact he.right node v hmem
    · by_cases hnode : node = t.node p
      · exact .inl (.inr hnode)
      · rw [List.lookup_cons, beq_eq_false_iff_ne.2 hnode] at hnone
        exact (he.pending node hnone).imp_left .inl
  refine ends_bind.2 ((hx _ hbegun hc).mono ?_)
  rintro ⟨value, e'⟩ t' ⟨ht', hg, he', rfl, hc'⟩
  dsimp only at he' hw hc'
  have hsettled : Settled t₀ S
      (if e'.confident && value.isSome then { e' with seen := (t.node p, value) :: e'.seen }
        else e') := by
    cases value with
    | none =>
      rw [Option.isSome_none, Bool.and_false, if_neg Bool.false_ne_true]
      refine ⟨he'.right, fun node hnone => ?_⟩
      rcases he'.pending node hnone with (hS | rfl) | hno
      · exact .inl hS
      · exact .inr fun v hv => nomatch (hw v).1 hv
      · exact .inr hno
    | some v =>
      rw [hc', Option.isSome_some, Bool.and_true, if_pos rfl]
      refine ⟨fun node u hmem => ?_, fun node hnone => ?_⟩
      · rcases List.mem_cons.1 hmem with heq | hmem
        · obtain ⟨rfl, hu⟩ := Prod.mk.inj heq
          exact (hw u).2 hu.symm
        · exact he'.right node u hmem
      · by_cases hnode : node = t.node p
        · rw [hnode, List.lookup_cons_self] at hnone
          cases hnone
        · rw [List.lookup_cons, beq_eq_false_iff_ne.2 hnode] at hnone
          exact (he'.pending node hnone).imp_left fun hS => hS.resolve_right hnode
  refine ⟨ht', hg, hsettled, rfl, Eq.trans ?_ hc'⟩
  show Evaluation.confident (if _ then _ else e') = e'.confident
  split <;> rfl

/-! ## names -/

theorem solves_evalUnbound (h : Remembers r t₀ t) (p : PathId) (name : String) :
    Solves r t₀ S (evalUnbound p name) t (unboundValue? name) := by
  unfold evalUnbound
  split
  · exact solves_some h _
  · exact solves_some h _
  · exact solves_some h _
  · next hundefined hinfinity hnan =>
    have hnone : unboundValue? name = none := by
      unfold unboundValue?
      split <;> simp_all
    rw [hnone]
    exact solves_giveUp h p

theorem solves_initializer {eval : PathId → EvalM (Option Primitive)} (h : Remembers r t₀ t)
    {id : BindingId} {b : Binding} (hb : t.binding? id = some b) (hq : b.path.index < t₀.paths.size)
    (heval : ∀ init, t₀.initializer? b = some init → Answers r t₀ S levels eval init) :
    Solves r t₀ S (if b.kind == .imported || !t.nodeIs b.path .variableDeclarator then giveUp b.path
      else do
        let target ← Tree.follow b.path "id"
        let start ← Tree.follow b.path "init"
        let t ← getThe Tree
        if !t.nodeIs target .identifier || (t.node start).isNone then giveUp b.path
        else
          Evaluation.whenKnown (eval start) fun value => do
            modifyThe Tree (·.updateBinding id (·.remember value))
            return some value) t
      (meaningValue? (t₀.constantValue? levels) ((t₀.initializer? b).elim .unclear .starts)) := by
  have hnode : t.node b.path = t₀.node b.path := h.same.grows.node b.path hq
  rw [nodeIs_eq, h.arena, hnode]
  cases hdeclarator : (b.kind != .imported && t₀.arena.is (t₀.node b.path) .variableDeclarator) with
  | false =>
    have hnone : t₀.initializer? b = none := by simp [initializer?, hdeclarator]
    rw [hnone, if_pos (by simpa [or_iff_not_imp_left] using hdeclarator)]
    exact solves_giveUp h b.path
  | true =>
    obtain ⟨hkind, his⟩ := Bool.and_eq_true_iff.1 hdeclarator
    rw [if_neg (by simpa using hdeclarator)]
    cases hm₀ : t₀.node b.path with
    | none =>
      rw [hm₀] at his
      cases his
    | some m =>
      rw [hm₀] at his hdeclarator
      obtain ⟨o, ho, hty⟩ := is_some.1 his
      have hm : t.node b.path = some m := hnode.trans hm₀
      refine reckons_follow h ho hm (by rw [hty]; decide) (by decide) fun target t₁ h₁ hg₁
        htarget => ?_
      have hm₁ := (hg₁.node _ (lt_of_node hm)).trans hm
      refine reckons_follow h₁ ho hm₁ (by rw [hty]; decide) (by decide) fun start t₂ h₂
        hg₂ hbelow =>
        reckons_tree ?_
      rw [nodeIs_eq, (htarget.grows hg₂).node, hbelow.node, h₂.arena]
      cases hstart : (t₀.arena.is (t₀.arena.child? (some m) "id") .identifier
          && (t₀.arena.child? (some m) "init").isSome) with
      | false =>
        have hnone : t₀.initializer? b = none := by
          simp only [initializer?, hm₀, hdeclarator, Bool.true_and, hstart,
            Bool.false_eq_true, if_false]
        rw [hnone, if_pos (by simpa [or_iff_not_imp_left] using hstart)]
        exact solves_giveUp h₂ b.path
      | true =>
        have hinit : t₀.initializer? b = some (t₀.arena.child? (some m) "init") := by
          simp only [initializer?, hm₀, hdeclarator, Bool.true_and, hstart, if_true]
        rw [hinit, if_neg (by simpa [Option.isSome_iff_ne_none] using hstart)]
        have hsolves : Solves r t₀ S (Evaluation.whenKnown (eval start) fun value => do
              modifyThe Tree (·.updateBinding id (·.remember value))
              return some value) t₂
            ((t₀.constantValue? levels (t₀.arena.child? (some m) "init")).bind some) := by
          refine ((heval _ hinit).solves t₂ start h₂ hbelow.node).whenKnown fun u t₃ h₃ _ hu => ?_
          refine reckons_remember h₃ (fun record hrecord => ?_) fun t₄ h₄ => solves_some h₄ u
          obtain ⟨record₀, h₀, heq⟩ := h₃.record hrecord
          obtain ⟨b₀, hb₀, heq'⟩ := h.record hb
          obtain rfl := Option.some.inj (h₀.symm.trans hb₀)
          exact ⟨_, (initializer?_congr (heq.trans heq'.symm)).trans hinit, levels, hu⟩
        rwa [Option.bind_fun_some] at hsolves

theorem solves_evalBound {eval : PathId → EvalM (Option Primitive)} (h : Remembers r t₀ t)
    {id : BindingId} {b : Binding} (hb : t.binding? id = some b) (hp : p.index < t₀.paths.size)
    (hq : b.path.index < t₀.paths.size)
    (heval : ∀ d ∈ (t₀.boundMeaning p b).operands, Answers r t₀ S levels eval d) :
    Solves r t₀ S (evalBound eval p id b) t
      (meaningValue? (t₀.constantValue? levels) (t₀.boundMeaning p b)) := by
  unfold evalBound
  refine reckons_tree ?_
  rw [isBeforeDeclaration_congr h.same.grows hp hq]
  unfold boundMeaning at heval ⊢
  split
  · exact solves_giveUp h b.path
  · next hafter =>
    rw [if_neg hafter] at heval
    have hinit : ∀ init, t₀.initializer? b = some init → Answers r t₀ S levels eval init := by
      intro init hinit
      rw [hinit] at heval
      exact heval init (List.mem_singleton_self _)
    split
    · next hhas =>
      obtain ⟨v, init, hremembered, hstart, hv⟩ := h.memos id b hb hhas
      have hvalue : meaningValue? (t₀.constantValue? levels)
          ((t₀.initializer? b).elim .unclear .starts) = some v := by
        rw [hstart]
        exact (hinit init hstart).means v hv
      rw [hvalue, hremembered]
      exact solves_some h v
    · exact solves_initializer h hb hq hinit

theorem meaning_of_not_read (ht₀ : t₀.Coherent r) (h : Remembers r t₀ t) (hp : t.node p = some n)
    (hread : t.isReferencedIdentifier p = false) : t₀.meaning (some n) = .unclear := by
  unfold meaning
  cases hq : t₀.pathOf? (some n) with
  | none => rfl
  | some q =>
    have hnode : t₀.node q = some n := by simpa using List.find?_some hq
    obtain rfl := h.coherent.unique _ _ _ ((h.same.grows.node q (lt_of_node hnode)).trans hnode) hp
    have hread₀ : t₀.isReferencedIdentifier q = false := by
      obtain ⟨above, hpl⟩ := h.coherent.exists_place hp
      have hq : t₀.Place r q n above := ⟨hnode, h.arena ▸ hpl.under⟩
      refine Eq.trans (VirtualType.matches_eq ht₀ hq .referencedIdentifier) ?_
      rw [← h.arena]
      exact (VirtualType.matches_eq h.coherent hpl .referencedIdentifier).symm.trans hread
    exact if_pos (by simp [hread₀])

section Reads

variable {a : Arena} (hc : Crawled a r t₀) (hroot : a.is (some r) .program)

include hc hroot

theorem solves_evalIdentifier {eval : PathId → EvalM (Option Primitive)} (h : Remembers r t₀ t)
    (hp : t.node p = some n) (hn : t₀.arena.is (some n) .identifier)
    (heval : ∀ d ∈ (t₀.meaning (some n)).operands, Answers r t₀ S levels eval d) :
    Solves r t₀ S (evalIdentifier eval p) t
      (meaningValue? (t₀.constantValue? levels) (t₀.meaning (some n))) := by
  obtain ⟨_, hl, _⟩ := hc.linked
  unfold evalIdentifier
  refine reckons_tree ?_
  cases hread : t.isReferencedIdentifier p with
  | false =>
    rw [meaning_of_not_read hl.inScope.coherent h hp hread]
    exact solves_giveUp h p
  | true =>
    obtain ⟨hlt, s, -, hs, hslt, hmeaning⟩ := meaning_of_read hc hroot h hp hn hread
    rw [hmeaning] at heval ⊢
    rw [h.arena, hp, if_neg (by simp)]
    generalize (t₀.arena.name? (some n)).getD "" = name at heval ⊢
    refine reckons_lift (P := fun o t' => o = some s ∧ t' = t)
      (by rw [hs]; exact ⟨h, .refl t, rfl, rfl⟩) ?_
    rintro _ t' - - ⟨rfl, ht⟩
    rw [ht]
    refine reckons_tree ?_
    unfold bindingOf? at heval ⊢
    rw [Option.bind_some, h.keepsTables.getBinding? hl.inScope hslt]
    cases hb : t₀.getBinding? s name with
    | none => exact solves_evalUnbound h p name
    | some b =>
      rw [hb] at heval
      simp only [Option.bind_some] at heval ⊢
      cases hrecord : t.binding? b with
      | none =>
        have hnone : t₀.binding? b = none := by simpa [hrecord] using (h.records b).symm
        rw [hnone]
        exact solves_evalUnbound h p name
      | some record =>
        obtain ⟨record₀, h₀, heq⟩ := h.record hrecord
        rw [h₀] at heval ⊢
        dsimp only at heval ⊢
        rw [← boundMeaning_congr heq] at heval ⊢
        refine solves_evalBound h hrecord hlt ?_ heval
        have hpath : record.clearMemo.path = record₀.clearMemo.path := by rw [heq]
        exact (congrArg PathId.index hpath).trans_lt (hl.bound.placed b record₀ h₀)

theorem solves_evalNode {eval : PathId → EvalM (Option Primitive)} (h : Remembers r t₀ t)
    (hp : t.node p = some n) (ho : t₀.arena.get? n = some o) (hlegible : t₀.arena.Legible (some n))
    (heval : ∀ d ∈ t₀.arena.operands (some n) t₀.meaning o, Answers r t₀ S levels eval d) :
    Solves r t₀ S (evalNode eval p) t
      (t₀.arena.formValue? (t₀.constantValue? levels) t₀.meaning (some n) o) := by
  have hw : t₀.arena.WellOwned := h.arena ▸ h.coherent.arena
  have hshaped : o.Shaped := hw.shaped n o ho
  unfold evalNode
  refine reckons_get fun e _ he => ?_
  rw [he, if_neg (by simp)]
  refine reckons_tree ?_
  have hlook : t.arena.look (t.node p) = some o := by
    rw [hp, h.arena, look_some, ho]
  simp only [hlook]
  unfold Arena.operands at heval
  split
  · next hty =>
    simp only [hty] at heval
    simp only [formValue?, hty]
    exact solves_evalSequence h ho hp hty fun d hd => heval d (Option.mem_toList.2 hd)
  · next hty =>
    simp only [formValue?, hty]
    obtain ⟨text, htext⟩ : ∃ text, o.text "value" = .ok text :=
      hshaped.text_ok (by rw [hty]; rfl) (.inl rfl)
    exact solves_ofShape h htext fun text => .string (text.getD "")
  · next hty =>
    simp only [formValue?, hty]
    obtain ⟨x, hx⟩ : ∃ x, o.number "value" = .ok x := hshaped.number_ok (by rw [hty]; rfl) rfl
    exact solves_ofShape h hx .number
  · next hty =>
    simp only [formValue?, hty]
    obtain ⟨b, hb⟩ : ∃ b, o.flag "value" = .ok b := hshaped.flag_ok (by rw [hty]; rfl) rfl
    exact solves_ofShape h hb .bool
  · next hty =>
    simp only [formValue?, hty]
    exact solves_some h _
  · next hty =>
    simp only [hty] at heval
    simp only [formValue?, hty]
    refine reckons_entries h ho hp (by rw [hty]; decide) (by decide)
      fun quasis t₁ h₁ hg₁ hquasis => ?_
    have hp₁ := (hg₁.node p (lt_of_node hp)).trans hp
    refine reckons_entries h₁ ho hp₁ (by rw [hty]; decide) (by decide)
      fun expressions t₂ h₂ hg₂ hexpressions => ?_
    exact solves_evalTemplate hw p "" quasis expressions _ _ t₂ h₂
      (hquasis.imp fun _ _ hq => hq.grows hg₂) hexpressions
      (hlegible (is_some.2 ⟨o, ho, hty⟩)) heval
  · next hty =>
    simp only [hty] at heval
    simp only [formValue?, hty]
    exact solves_evalConditional h ho hp hty heval
  · next hty =>
    simp only [hty] at heval
    simp only [formValue?, hty]
    exact solves_evalMember h ho hp hty heval
  · next hty =>
    simp only [hty] at heval
    simp only [formValue?, hty]
    exact solves_evalIdentifier hc hroot h hp (is_some.2 ⟨o, ho, hty⟩) heval
  · next hty =>
    simp only [hty] at heval
    simp only [formValue?, hty]
    exact solves_evalUnary h ho hp hty heval
  · next hty =>
    simp only [hty] at heval
    simp only [formValue?, hty]
    exact solves_evalLogical h ho hp heval hty
  · next hty =>
    simp only [hty] at heval
    simp only [formValue?, hty]
    exact solves_evalBinary h ho hp heval hty
  · simp only [*] at heval
    simp only [formValue?, *]
    refine solves_ite (fun hwrapper => ?_) fun _ => solves_giveUp h p
    rw [if_pos hwrapper] at heval
    exact solves_evalChild h ho hp (hasChild_of_wrapper hwrapper) (by decide)
      (heval _ (List.mem_singleton_self _))

/-- **Evaluations of nodes whose operands end find all values.** -/
theorem solves_evalLevels (levels : Nat) : ∀ (S : Option NodeId → Prop) (t : Tree) (p : PathId),
    Remembers r t₀ t → t₀.Exhausts levels (t.node p) →
    (∀ d, ReflTransGen t₀.Operand (t.node p) d → t₀.arena.Legible d) →
    (∀ d, S d → TransGen t₀.Operand d (t.node p)) →
    Solves r t₀ S (evalLevels levels p) t (t₀.constantValue? levels (t.node p)) := by
  induction levels with
  | zero => exact fun _ _ _ _ hexhausts => hexhausts.elim
  | succ levels ih =>
    intro S t p h hexhausts hlegible hS
    refine solves_unlessSeen h hexhausts hS (solves_record ?_ fun v => hexhausts.means_iff)
    cases hp : t.node p with
    | none =>
      refine reckons_get fun e _ he => ?_
      rw [he, if_neg (by simp)]
      refine reckons_tree ?_
      rw [hp]
      exact solves_giveUp h p
    | some n =>
      obtain ⟨above, hpl⟩ := h.coherent.exists_place hp
      obtain ⟨o, ho⟩ := hpl.under.get? h.coherent.arena.owned h.coherent.present
      rw [h.arena] at ho
      rw [hp] at hexhausts hlegible hS
      have hoperand (d) (hd : d ∈ t₀.arena.operands (some n) t₀.meaning o) :
          t₀.Operand (some n) d := by
        unfold Operand Tree.operands
        rwa [look_some, ho]
      have hvalue : t₀.constantValue? (levels + 1) (some n)
          = t₀.arena.formValue? (t₀.constantValue? levels) t₀.meaning (some n) o := by
        simp [constantValue?, ho]
      rw [hvalue]
      refine solves_evalNode hc hroot h hp ho (hlegible _ .refl) fun d hd => ?_
      have hd := hoperand d hd
      refine ⟨?_, fun v => (hexhausts d hd).means_iff.1⟩
      rintro t' q ht' rfl
      refine ih _ t' q ht' (hexhausts _ hd) (fun m hm => hlegible m (.head hd hm)) ?_
      rintro m (hm | rfl)
      · exact (hS m hm).tail hd
      · exact .single hd

end Reads

end Evaluation

namespace Tree

variable {a : Arena} {t₀ t : Tree} {r : NodeId} {s₀ : ScopeId}

/-- An evaluation of a node whose operands end succeeds, and finds the value if there is one. -/
theorem Remembers.evaluate (hc : Crawled a r t₀) (hroot : a.is (some r) .program)
    (h : Remembers r t₀ t) (p : PathId) (hexhausts : t₀.Exhausts Limits.evaluation (t.node p))
    (hlegible : ∀ d, ReflTransGen t₀.Operand (t.node p) d → t₀.arena.Legible d) :
    ∃ x t', Tree.evaluate p t = .ok x t'
      ∧ ∀ v, x = .known v ↔ t₀.constantValue? Limits.evaluation (t.node p) = some v := by
  have hnone : Evaluation.Settled t₀ (fun _ => False) {} :=
    ⟨fun _ _ hmem => (nomatch hmem), fun _ hlookup => (nomatch hlookup)⟩
  have hsolves := Evaluation.solves_evalLevels hc hroot Limits.evaluation (fun _ => False) t
    p h hexhausts hlegible (fun _ h => h.elim) {} hnone rfl
  obtain ⟨⟨value, e⟩, t', hrun, -, -, -, hvalue, he⟩ := hsolves.exists_ok
  change (Evaluation.evalLevels Limits.evaluation p).run {} t = _ at hrun
  unfold Tree.evaluate
  rw [run_bind_of_ok (assertLive_eq h.coherent p), run_bind_of_ok hrun, ← hvalue]
  rw [← hvalue] at he
  dsimp only at he ⊢
  cases value with
  | none => exact ⟨_, t', rfl, fun v => by simp⟩
  | some value =>
    rw [he]
    exact ⟨.known value, t', rfl, fun v => by simp⟩

/-- **An evaluation finds exactly what the plain evaluator finds.** After the first crawl of a
program and any queries, take an expression whose operands and initializers, in any branch, end
within the depth that evaluations have, and where each text of a template that is met can be read.
Its evaluation succeeds, and a value is known just if the forms of the expressions give it. The
scopes are as the first crawl left them. -/
theorem evaluate_exact (ha : a.WellOwned) (hr : a.is (some r) .program) {options : Options}
    (h : scopeOfRoot (ofArena a (some r) options) = .ok (some s₀) t₀) (queries : List Query)
    (p : PathId) (hexhausts : t₀.Exhausts Limits.evaluation ((t₀.runQueries queries).node p))
    (hlegible : ∀ d, ReflTransGen t₀.Operand ((t₀.runQueries queries).node p) d →
      t₀.arena.Legible d) :
    ∃ x t', evaluate p (t₀.runQueries queries) = .ok x t' ∧ ∀ v, x = .known v ↔
      t₀.constantValue? Limits.evaluation ((t₀.runQueries queries).node p) = some v := by
  obtain ⟨hc, hun⟩ := crawled_scopeOfRoot ha hr h
  exact ((hc.remembers hun).runQueries hc hr queries).evaluate hc hr p hexhausts hlegible

def decidedRead : Arena := runAll [
  .alloc .identifier [.str "x", .node none],
  .alloc .booleanLiteral [.bool true],
  .alloc .variableDeclarator [.node (some ⟨0⟩), .node (some ⟨1⟩)],
  .alloc .variableDeclaration [.str "let", .list [some ⟨2⟩]],
  .alloc .identifier [.str "x", .node none],
  .alloc .identifier [.str "y", .node none],
  .alloc .logicalExpression [.str "||", .node (some ⟨4⟩), .node (some ⟨5⟩)],
  .alloc .expressionStatement [.node (some ⟨6⟩)],
  .alloc .program [.str "module", .list [], .list [some ⟨3⟩, some ⟨7⟩]]]

/-- Nothing is known of `y`, but the left side decides. -/
theorem evaluate_decidedRead :
    ∃ t, scopeOfRoot (ofArena decidedRead (some ⟨8⟩) {}) = .ok (some ⟨0⟩) t
    ∧ (t.runQueries [.evaluate ⟨5⟩]).node ⟨5⟩ = some ⟨6⟩ ∧ t.Exhausts Limits.evaluation (some ⟨6⟩)
    ∧ ∃ x t', evaluate ⟨5⟩ (t.runQueries [.evaluate ⟨5⟩]) = .ok x t'
      ∧ ∀ v, x = .known v ↔ t.constantValue? Limits.evaluation (some ⟨6⟩) = some v := by
  have hok : passes (scopeOfRoot (ofArena decidedRead (some ⟨8⟩) {})) (fun o t =>
      decide (o = some ⟨0⟩) && decide ((t.runQueries [.evaluate ⟨5⟩]).node ⟨5⟩ = some ⟨6⟩)
        && decide (t.Exhausts Limits.evaluation (some ⟨6⟩))) = true := by
    decide +kernel
  obtain ⟨o, t, hrun, hok⟩ := ok_of_passes hok
  simp only [Bool.and_eq_true, decide_eq_true_eq] at hok
  obtain ⟨⟨rfl, hnode⟩, hexhausts⟩ := hok
  have harena : t.arena = decidedRead := by
    obtain ⟨_, hl, _⟩ := (crawled_scopeOfRoot (wellOwned_runAll _) (by decide) hrun).1.linked
    exact hl.arena
  have hlegible : ∀ d, t.arena.Legible d := legible_of_forall (by rw [harena]; decide +kernel)
  have hexact := evaluate_exact (wellOwned_runAll _) (by decide) hrun [.evaluate ⟨5⟩] ⟨5⟩
    (by rwa [hnode]) fun d _ => hlegible d
  rw [hnode] at hexact
  exact ⟨t, hrun, hnode, hexhausts, hexact⟩

/-- The program `true || …`, where the right side is a template with a name in the place of a text.
-/
def illegibleRight : Arena := runAll [
  .alloc .booleanLiteral [.bool true],
  .alloc .identifier [.str "x", .node none],
  .alloc .templateLiteral [.list [some ⟨1⟩], .list []],
  .alloc .logicalExpression [.str "||", .node (some ⟨0⟩), .node (some ⟨2⟩)],
  .alloc .expressionStatement [.node (some ⟨3⟩)],
  .alloc .program [.str "module", .list [], .list [some ⟨4⟩]]]

/-- What is no text cannot be read, and that ends the evaluation though the left side decides. -/
theorem evaluate_illegibleRight : ∃ t p, illegibleRight.WellOwned
    ∧ scopeOfRoot (ofArena illegibleRight (some ⟨5⟩) {}) = .ok (some ⟨0⟩) t
    ∧ t.Unremembering ∧ t.node p = some ⟨3⟩ ∧ t.Exhausts Limits.evaluation (some ⟨3⟩)
    ∧ t.constantValue? Limits.evaluation (some ⟨3⟩) = some (.bool true)
    ∧ ∀ x t', evaluate p t ≠ .ok x t' := by
  have hok : passes (scopeOfRoot (ofArena illegibleRight (some ⟨5⟩) {})) (fun o t =>
      decide (o = some ⟨0⟩) && (t.pathOf? (some ⟨3⟩)).any (fun p =>
        decide (t.node p = some ⟨3⟩) && !passes (evaluate p t) fun _ _ => true)
      && decide (t.Exhausts Limits.evaluation (some ⟨3⟩))
      && (t.constantValue? Limits.evaluation (some ⟨3⟩)).any fun v =>
      findsBool true (.known v)) = true := by
    decide +kernel
  obtain ⟨o, t, hrun, hok⟩ := ok_of_passes hok
  simp only [Bool.and_eq_true, decide_eq_true_eq] at hok
  obtain ⟨⟨⟨rfl, hpath⟩, hexhausts⟩, hvalue⟩ := hok
  obtain ⟨p, -, hp⟩ := (Option.any_eq_true _ _).1 hpath
  simp only [Bool.and_eq_true, decide_eq_true_eq, Bool.not_eq_true'] at hp
  obtain ⟨hnode, hfails⟩ := hp
  obtain ⟨v, hv, hbool⟩ := (Option.any_eq_true _ _).1 hvalue
  refine ⟨t, p, wellOwned_runAll _, hrun, ?_, hnode, hexhausts, ?_, ?_⟩
  · exact (crawled_scopeOfRoot (wellOwned_runAll _) (by decide) hrun).2
  · rw [hv, Evaluated.known.inj (eq_of_findsBool hbool)]
  · intro x t' hok
    rw [hok] at hfails
    cases hfails

end Tree

end ScopedTree
