import ScopedTree.Tree.State

/-!
# Outcomes of runs

Programs with a state and failures are reasoned about through the outcome of a run.

* `Ends r Q E`   the outcome `r` is a value and a state with `Q`, or a failure with `E`;
* `Stays P x`    `x` keeps `P`, also where it fails;
* `Leads P E x`  `x` keeps `P` where it succeeds, and fails with `E`;
* `final`        the state that an outcome leaves;
* `passes r test`   the outcome `r` is a value and a state that pass a test that can be run.

Each way to build a program has one lemma, so that a run is followed step by step.
-/

namespace ScopedTree

variable {ε σ α β : Type}

/-- A run ends with a value and a state for which `Q` holds, or with a failure for which `E` does.
-/
def Ends (r : EStateM.Result ε σ α) (Q : α → σ → Prop) (E : ε → σ → Prop) : Prop :=
  match r with
  | .ok x s => Q x s
  | .error e s => E e s

/-- The state after a run. -/
def final : EStateM.Result ε σ α → σ
  | .ok _ s => s
  | .error _ s => s

/-- The run ends well, with a value and a state that pass a test. -/
def passes (r : EStateM.Result ε σ α) (test : α → σ → Bool) : Bool :=
  match r with
  | .ok x s => test x s
  | .error _ _ => false

theorem ok_of_passes {r : EStateM.Result ε σ α} {test : α → σ → Bool} (h : passes r test = true) :
    ∃ x s, r = .ok x s ∧ test x s = true := by
  cases r with
  | ok x s => exact ⟨x, s, rfl, h⟩
  | error e s => cases h

theorem exists_ok_of_passes {r : EStateM.Result ε σ α} (h : passes r (fun _ _ => true) = true) :
    ∃ x s, r = .ok x s := by
  obtain ⟨x, s, hr, -⟩ := ok_of_passes h
  exact ⟨x, s, hr⟩

theorem bind_eq_ok {x : Except ε α} {f : α → Except ε β} {z : β} :
    x >>= f = .ok z ↔ ∃ y, x = .ok y ∧ f y = .ok z := by
  cases x with
  | error e => exact ⟨fun h => (nomatch h), fun ⟨_, h, _⟩ => (nomatch h)⟩
  | ok y => exact ⟨fun h => ⟨y, rfl, h⟩, fun ⟨_, rfl, h⟩ => h⟩

/-! ## running step by step -/

section Run

theorem run_get_bind (f : σ → EStateM ε σ β) (s : σ) : (get >>= f) s = f s s := rfl

theorem run_modify_bind (g : σ → σ) (f : PUnit → EStateM ε σ β) (s : σ) :
    (modify g >>= f) s = f ⟨⟩ (g s) := rfl

theorem run_modifyGet_bind (g : σ → α × σ) (f : α → EStateM ε σ β) (s : σ) :
    (modifyGet g >>= f) s = f (g s).1 (g s).2 := rfl

theorem run_bind_of_ok {x : EStateM ε σ α} {f : α → EStateM ε σ β} {s s' : σ} {y : α}
    (h : x s = .ok y s') : (x >>= f) s = f y s' := by
  show EStateM.bind x f s = _
  unfold EStateM.bind
  rw [h]

theorem run_bind_of_error {x : EStateM ε σ α} {f : α → EStateM ε σ β} {s s' : σ} {e : ε}
    (h : x s = .error e s') : (x >>= f) s = .error e s' := by
  show EStateM.bind x f s = _
  unfold EStateM.bind
  rw [h]

theorem final_discard (x : EStateM ε σ α) (s : σ) : final (discard x s) = final (x s) := by
  show final (EStateM.map _ x s) = _
  unfold EStateM.map
  cases x s <;> rfl

theorem run_bind_congr {x : EStateM ε σ α} {f g : α → EStateM ε σ β} {s : σ}
    (h : ∀ y s', x s = .ok y s' → f y s' = g y s') : (x >>= f) s = (x >>= g) s := by
  show EStateM.bind x f s = EStateM.bind x g s
  unfold EStateM.bind
  cases hx : x s with
  | error e s' => rfl
  | ok y s' => exact h y s' hx

end Run

section Ends

variable {Q Q' : α → σ → Prop} {E E' : ε → σ → Prop}

theorem Ends.imp {r : EStateM.Result ε σ α} (h : Ends r Q E) (hQ : ∀ x s, Q x s → Q' x s)
    (hE : ∀ e s, E e s → E' e s) : Ends r Q' E' := by
  cases r with
  | ok x s => exact hQ x s h
  | error e s => exact hE e s h

theorem Ends.mono {r : EStateM.Result ε σ α} (h : Ends r Q E) (hQ : ∀ x s, Q x s → Q' x s) :
    Ends r Q' E := h.imp hQ fun _ _ he => he

theorem Ends.and {r : EStateM.Result ε σ α} (h : Ends r Q E) (h' : Ends r Q' E') :
    Ends r (fun x s => Q x s ∧ Q' x s) fun e s => E e s ∧ E' e s := by
  cases r with
  | ok x s => exact ⟨h, h'⟩
  | error e s => exact ⟨h, h'⟩

theorem Ends.of_ok {r : EStateM.Result ε σ α} (h : Ends r Q E) {x : α} {s : σ} (hr : r = .ok x s) :
    Q x s := by
  subst hr
  exact h

theorem Ends.of_error {r : EStateM.Result ε σ α} (h : Ends r Q E) {e : ε} {s : σ}
    (hr : r = .error e s) : E e s := by
  subst hr
  exact h

theorem Ends.exists_ok {r : EStateM.Result ε σ α} (h : Ends r Q fun _ _ => False) :
    ∃ x s, r = .ok x s ∧ Q x s := by
  cases r with
  | ok x s => exact ⟨x, s, rfl, h⟩
  | error e s => exact h.elim

theorem Ends.exists_error {r : EStateM.Result ε σ α} (h : Ends r (fun _ _ => False) E) :
    ∃ e s, r = .error e s ∧ E e s := by
  cases r with
  | ok x s => exact h.elim
  | error e s => exact ⟨e, s, rfl, h⟩

theorem ends_iff {r : EStateM.Result ε σ α} :
    Ends r Q E ↔ (∀ x s, r = .ok x s → Q x s) ∧ ∀ e s, r = .error e s → E e s := by
  constructor
  · exact fun h => ⟨fun _ _ hr => h.of_ok hr, fun _ _ hr => h.of_error hr⟩
  · intro h
    cases r with
    | ok x s => exact h.1 x s rfl
    | error e s => exact h.2 e s rfl

theorem ends_final {r : EStateM.Result ε σ α} {P : σ → Prop} :
    Ends r (fun _ s => P s) (fun _ s => P s) ↔ P (final r) := by
  cases r <;> exact Iff.rfl

instance {r : EStateM.Result ε σ α} [∀ x s, Decidable (Q x s)] [∀ e s, Decidable (E e s)] :
    Decidable (Ends r Q E) :=
  match r with
  | .ok x s => inferInstanceAs (Decidable (Q x s))
  | .error e s => inferInstanceAs (Decidable (E e s))

theorem Ends.of_imp {r : EStateM.Result ε σ α} {p : Prop} (h : p → Ends r Q E) :
    Ends r (fun x s => p → Q x s) fun e s => p → E e s := by
  cases r with
  | ok x s => exact h
  | error e s => exact h

theorem ends_pure {x : α} {s : σ} : Ends ((pure x : EStateM ε σ α) s) Q E ↔ Q x s := Iff.rfl

theorem ends_throw {e : ε} {s : σ} : Ends ((throw e : EStateM ε σ α) s) Q E ↔ E e s := Iff.rfl

theorem ends_bind {x : EStateM ε σ α} {f : α → EStateM ε σ β} {s : σ} {Q : β → σ → Prop} :
    Ends ((x >>= f) s) Q E ↔ Ends (x s) (fun y s' => Ends (f y s') Q E) E := by
  show Ends (EStateM.bind x f s) Q E ↔ _
  unfold EStateM.bind
  cases x s <;> exact Iff.rfl

theorem ends_map {x : EStateM ε σ α} {f : α → β} {s : σ} {Q : β → σ → Prop} :
    Ends ((f <$> x) s) Q E ↔ Ends (x s) (fun y s' => Q (f y) s') E := by
  show Ends (EStateM.map f x s) Q E ↔ _
  unfold EStateM.map
  cases x s <;> exact Iff.rfl

theorem ends_get {s : σ} {Q : σ → σ → Prop} :
    Ends ((get : EStateM ε σ σ) s) Q E ↔ Q s s := Iff.rfl

theorem ends_modify {f : σ → σ} {s : σ} {Q : PUnit → σ → Prop} :
    Ends ((modify f : EStateM ε σ PUnit) s) Q E ↔ Q ⟨⟩ (f s) := Iff.rfl

theorem ends_modifyGet {f : σ → α × σ} {s : σ} :
    Ends ((modifyGet f : EStateM ε σ α) s) Q E ↔ Q (f s).1 (f s).2 := Iff.rfl

end Ends

/-! ## what a program keeps -/

/-- The program keeps `P`, whether it succeeds or fails. -/
def Stays (P : σ → Prop) (x : EStateM ε σ α) : Prop := ∀ s, P s → P (final (x s))

section Stays

variable {P : σ → Prop}

theorem stays_iff {x : EStateM ε σ α} :
    Stays P x ↔ ∀ s, P s → Ends (x s) (fun _ s' => P s') fun _ s' => P s' :=
  forall_congr' fun _ => imp_congr_right fun _ => ends_final.symm

theorem stays_pure (x : α) : Stays P (pure x : EStateM ε σ α) := fun _ h => h

theorem stays_throw (e : ε) : Stays P (throw e : EStateM ε σ α) := fun _ h => h

theorem Stays.bind {x : EStateM ε σ α} {f : α → EStateM ε σ β} (hx : Stays P x)
    (hf : ∀ y, Stays P (f y)) : Stays P (x >>= f) := by
  rw [stays_iff] at hx ⊢
  intro s hs
  rw [ends_bind]
  exact (hx s hs).mono fun y s' hs' => stays_iff.1 (hf y) s' hs'

theorem stays_modify {f : σ → σ} (h : ∀ s, P s → P (f s)) :
    Stays P (modify f : EStateM ε σ PUnit) := h

theorem Stays.of_bind {x : EStateM ε σ α} {f : α → EStateM ε σ β} {s : σ}
    (hf : ∀ y, Stays P (f y)) (h : P (final (x s))) : P (final ((x >>= f) s)) := by
  show P (final (EStateM.bind x f s))
  unfold EStateM.bind
  cases hx : x s with
  | error e s' =>
    rw [hx] at h
    exact h
  | ok y s' =>
    rw [hx] at h
    exact hf y s' h

/-- Where the whole run does not end with `P`, it may be followed with another program that agrees
with the first one there. -/
theorem run_bind_eq_of_not {x y : EStateM ε σ α} {f g : α → EStateM ε σ β} {s : σ}
    (hg : ∀ z, Stays P (g z)) (hnot : ¬ P (final ((y >>= g) s)))
    (hxy : ¬ P (final (y s)) → x s = y s)
    (hfg : ∀ z s', ¬ P (final (g z s')) → f z s' = g z s') : (x >>= f) s = (y >>= g) s := by
  have hx := hxy fun h => hnot (Stays.of_bind hg h)
  have hcongr : (x >>= f) s = (y >>= f) s := by
    show EStateM.bind x f s = EStateM.bind y f s
    unfold EStateM.bind
    rw [hx]
  rw [hcongr]
  refine run_bind_congr fun z s' hz => hfg z s' fun h => hnot ?_
  rw [run_bind_of_ok hz]
  exact h

theorem Stays.mapM {f : α → EStateM ε σ β} (hf : ∀ y, Stays P (f y)) (l : List α) :
    Stays P (l.mapM f) := by
  induction l with
  | nil => exact stays_pure _
  | cons y l ih =>
    rw [List.mapM_cons]
    exact (hf y).bind fun _ => ih.bind fun _ => stays_pure _

end Stays

/-! ## what a program keeps where it succeeds -/

/-- From states with `P` the program ends well with `P`, or it fails with `E`. -/
def Leads (P : σ → Prop) (E : ε → σ → Prop) (x : EStateM ε σ α) : Prop :=
  ∀ s, P s → Ends (x s) (fun _ s' => P s') E

section Leads

variable {P : σ → Prop} {E : ε → σ → Prop}

theorem Stays.leads {x : EStateM ε σ α} (h : Stays P x) (hle : ∀ e s, P s → E e s) : Leads P E x :=
  fun s hs => (stays_iff.1 h s hs).imp (fun _ _ h => h) hle

theorem Leads.stays {x : EStateM ε σ α} (h : Leads P (fun _ => P) x) : Stays P x := stays_iff.2 h

theorem leads_pure (x : α) : Leads P E (pure x : EStateM ε σ α) := fun _ h => h

theorem leads_get : Leads P E (get : EStateM ε σ σ) := fun _ h => h

theorem leads_throw (hle : ∀ e s, P s → E e s) (e : ε) : Leads P E (throw e : EStateM ε σ α) :=
  hle e

theorem leads_modify {f : σ → σ} (h : ∀ s, P s → P (f s)) :
    Leads P E (modify f : EStateM ε σ PUnit) := h

theorem Leads.bind {x : EStateM ε σ α} {f : α → EStateM ε σ β} (hx : Leads P E x)
    (hf : ∀ y, Leads P E (f y)) : Leads P E (x >>= f) :=
  fun s hs => ends_bind.2 ((hx s hs).mono fun y s' hs' => hf y s' hs')

theorem Leads.guard {c : Prop} [Decidable c] {x : EStateM ε σ PUnit} {next : PUnit → EStateM ε σ β}
    (hx : Leads P E x) (hnext : ∀ y, Leads P E (next y)) :
    Leads P E (if c then x >>= next else next ⟨⟩) := by
  split
  · exact hx.bind hnext
  · exact hnext ⟨⟩

theorem Leads.forM {f : α → EStateM ε σ PUnit} (hf : ∀ x, Leads P E (f x)) (l : List α) :
    Leads P E (l.forM f) := by
  induction l with
  | nil => exact leads_pure _
  | cons x l ih => exact (hf x).bind fun _ => ih

theorem Leads.discard {x : EStateM ε σ α} (h : Leads P E x) :
    Leads P E (Functor.discard x : EStateM ε σ PUnit) := fun s hs => by
  show Ends ((Function.const α PUnit.unit <$> x) s) _ _
  exact ends_map.2 (h s hs)

end Leads

end ScopedTree
