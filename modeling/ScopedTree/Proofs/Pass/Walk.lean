import ScopedTree.Pass.Engine
import ScopedTree.Proofs.Arena.Place
import ScopedTree.Proofs.Outcome

/-!
# The recursive walk

What a pass does to a tree that nobody edits is a plain recursion: enter a node, walk its children,
leave it.

* `Verdict`, `Walker`      what the handlers of a node ask for, and what a walk needs;
* `each`                   visits nodes one after the other until one of them asks to stop;
* `Walker.walk`            the recursion, at most so many levels down;
* `Bridge.Agrees`          two runs that end alike, with states in a relation.
-/

namespace ScopedTree

/-- What the handlers of a node ask for. -/
inductive Verdict where
  /-- go on, but leave some fields out -/
  | go (skipped : List String)
  /-- leave the children and the exit out -/
  | skip
  /-- end the walk -/
  | stop

/-- What a walk needs to know about nodes, and what it does at them. The nodes above come first. -/
structure Walker (α : Type) where
  /-- the children worth a visit -/
  takes : NodeId → Bool
  /-- the types left out -/
  denied : NodeType → Bool
  /-- what is noted on the way to a node -/
  arrive : List NodeId → NodeId → α → α
  /-- what the handlers of a phase do at a node -/
  call : Phase → List NodeId → NodeId → EStateM TreeError α Verdict

variable {σ α β γ δ : Type}

/-- Visits nodes one after the other until one of them asks to stop. -/
def each (visit : NodeId → EStateM TreeError α Bool) : List NodeId → EStateM TreeError α Bool
  | [] => return false
  | c :: cs => do
    if ← visit c then return true
    each visit cs

/-- The children in the fields that are not left out, in visiting order. -/
def Node.keptChildren (n : Node) (skipped : List String) : List NodeId :=
  (n.type.childFields.filter fun f => !skipped.contains f.name).flatMap
    fun f => n.fieldChildren f.name

namespace Walker

/-- What is done at a node: enter, children, exit. Gives whether the walk is to end. -/
def visit (w : Walker α) (a : Arena) (children : List NodeId → EStateM TreeError α Bool)
    (above : List NodeId) (n : NodeId) : EStateM TreeError α Bool := do
  match a.get? n with
  | none => return false
  | some m =>
    if w.denied m.type then return false
    match ← w.call .enter above n with
    | .stop => return true
    | .skip => return false
    | .go skipped =>
      if ← children ((m.keptChildren skipped).filter w.takes) then return true
      match ← w.call .exit above n with
      | .stop => return true
      | _ => return false

/-- The walk from a node that was arrived at, with at most so many levels below it. -/
def walk (w : Walker α) (a : Arena) : Nat → List NodeId → NodeId → EStateM TreeError α Bool
  | 0 => w.visit a fun _ => throw .depthLimit
  | levels + 1 => fun above n =>
    w.visit a (each fun c => do
      modify (w.arrive (n :: above) c)
      walk w a levels (n :: above) c) above n

def walkAll (w : Walker α) (a : Arena) (levels : Nat) (above : List NodeId) :
    List NodeId → EStateM TreeError α Bool :=
  each fun c => do
    modify (w.arrive above c)
    w.walk a levels above c

/-- The walk of the children of a node, with at most so many levels. -/
def below (w : Walker α) (a : Arena) (levels : Nat) (above : List NodeId) (cs : List NodeId) :
    EStateM TreeError α Bool :=
  match levels with
  | 0 => throw .depthLimit
  | levels + 1 => w.walkAll a levels above cs

/-- The walk is through with the children of a node, and `x` is the state that they left. -/
def Leaves (w : Walker α) (a : Arena) (above : List NodeId) (n : NodeId) (x : α) : Prop :=
  ∃ o levels skipped x₀ x₁, a.get? n = some o ∧ w.call .enter above n x₀ = .ok (.go skipped) x₁
    ∧ w.below a levels (n :: above) ((o.keptChildren skipped).filter w.takes) x₁ = .ok false x

theorem walk_eq (w : Walker α) (a : Arena) (levels : Nat) (above : List NodeId) (n : NodeId) :
    w.walk a levels above n = w.visit a (w.below a levels (n :: above)) above n := by
  cases levels <;> rfl

end Walker

theorem each_singleton (visit : NodeId → EStateM TreeError α Bool) (c : NodeId) :
    each visit [c] = visit c := by
  funext x
  show EStateM.bind (visit c) _ x = _
  unfold EStateM.bind
  cases visit c x with
  | error e s => rfl
  | ok b s => cases b <;> rfl

theorem each_append (visit : NodeId → EStateM TreeError α Bool) (l l' : List NodeId) :
    each visit (l ++ l') = (do
      if ← each visit l then return true
      each visit l') := by
  induction l with
  | nil => rfl
  | cons c l ih =>
    funext x
    show ((visit c >>= fun b => if b then pure true else each visit (l ++ l')) : EStateM _ _ _) x
      = EStateM.bind (EStateM.bind (visit c) _) _ x
    rw [ih]
    show EStateM.bind _ _ x = _
    unfold EStateM.bind
    cases visit c x with
    | error e s => rfl
    | ok b s => cases b <;> rfl

theorem each_filter_eq {P : α → Prop} {visit visit' : NodeId → EStateM TreeError α Bool}
    {takes : NodeId → Bool} (hstay : ∀ l, Stays P (each visit' l))
    (hidle : ∀ c x, takes c = false → visit' c x = .ok false x)
    (hsame : ∀ c x, takes c = true → ¬ P (final (visit' c x)) → visit c x = visit' c x)
    (l : List NodeId) : ∀ x, ¬ P (final (each visit' l x)) →
      each visit (l.filter takes) x = each visit' l x := by
  induction l with
  | nil => exact fun _ _ => rfl
  | cons c l ih =>
    intro x hnot
    cases hc : takes c with
    | false =>
      have hskip : each visit' (c :: l) x = each visit' l x := by
        rw [each, run_bind_of_ok (hidle c x hc)]
        rfl
      rw [List.filter_cons_of_neg (by simp [hc]), hskip]
      rw [hskip] at hnot
      exact ih x hnot
    | true =>
      rw [List.filter_cons_of_pos hc]
      refine run_bind_eq_of_not (P := P) (fun b => ?_) hnot (hsame c x hc) fun b x' hnot' => ?_
      · cases b with
        | true => exact stays_pure _
        | false => exact hstay l
      · cases b with
        | true => rfl
        | false => exact ih x' hnot'

theorem Stays.each {P : α → Prop} {visit : NodeId → EStateM TreeError α Bool}
    (h : ∀ c, Stays P (visit c)) (l : List NodeId) : Stays P (each visit l) := by
  induction l with
  | nil => exact stays_pure _
  | cons c l ih =>
    refine (h c).bind fun b => ?_
    cases b with
    | true => exact stays_pure _
    | false => exact ih

theorem Stays.visit {P : α → Prop} {w : Walker α} {a : Arena}
    {children : List NodeId → EStateM TreeError α Bool}
    (hcall : ∀ phase above n, Stays P (w.call phase above n)) (hc : ∀ l, Stays P (children l))
    (above : List NodeId) (n : NodeId) : Stays P (w.visit a children above n) := by
  unfold Walker.visit
  cases a.get? n with
  | none => exact stays_pure _
  | some m =>
    dsimp only
    split
    · exact stays_pure _
    · refine (hcall .enter above n).bind fun v => ?_
      cases v with
      | stop => exact stays_pure _
      | skip => exact stays_pure _
      | go skipped =>
        refine (hc _).bind fun b => ?_
        cases b with
        | true => exact stays_pure _
        | false =>
          refine (hcall .exit above n).bind fun v => ?_
          cases v <;> exact stays_pure _

/-- Two walkers that do the same at nodes do the same at a node with its children, if they do so at
the children, as long as the run does not end with `P`. -/
theorem Walker.visit_eq_of_not {P : α → Prop} {w w' : Walker α} {a : Arena}
    {children children' : List NodeId → EStateM TreeError α Bool} {above : List NodeId} {n : NodeId}
    {x : α} (hdenied : w.denied = w'.denied) (hcall : w.call = w'.call)
    (hstay : ∀ phase above n, Stays P (w'.call phase above n))
    (hchildren : ∀ (l : List NodeId) x, ¬ P (final (children' (l.filter w'.takes) x)) →
      children (l.filter w.takes) x = children' (l.filter w'.takes) x)
    (hnot : ¬ P (final (w'.visit a children' above n x))) :
    w.visit a children above n x = w'.visit a children' above n x := by
  unfold Walker.visit at hnot ⊢
  rw [hdenied, hcall]
  cases hn : a.get? n with
  | none => rfl
  | some m =>
    rw [hn] at hnot
    dsimp only at hnot ⊢
    by_cases hden : w'.denied m.type = true
    · simp only [hden, if_true]
    · simp only [hden, Bool.false_eq_true, if_false] at hnot ⊢
      refine run_bind_congr fun verdict x' hrun => ?_
      rw [run_bind_of_ok hrun] at hnot
      cases verdict with
      | stop => rfl
      | skip => rfl
      | go skipped =>
        refine run_bind_eq_of_not (P := P) (fun b => ?_) hnot (hchildren _ x') fun _ _ _ => rfl
        cases b with
        | true => exact stays_pure _
        | false =>
          refine (hstay .exit above n).bind fun verdict => ?_
          cases verdict <;> exact stays_pure _

theorem Stays.walk {P : α → Prop} {w : Walker α} (a : Arena)
    (harrive : ∀ above n x, P x → P (w.arrive above n x))
    (hcall : ∀ phase above n, Stays P (w.call phase above n)) :
    ∀ (levels : Nat) (above : List NodeId) (n : NodeId), Stays P (w.walk a levels above n)
  | 0, above, n => Stays.visit hcall (fun _ => stays_throw _) above n
  | levels + 1, above, n => Stays.visit hcall (fun l => Stays.each (fun c =>
      (stays_modify fun x => harrive _ c x).bind fun _ =>
        Stays.walk a harrive hcall levels (n :: above) c) l) above n

/-! ## runs that end alike -/

/-- How the states of a walk and of a pass belong together. -/
structure Bridge (σ α : Type) where
  /-- the two states match -/
  Inv : α → Pass σ → Prop
  /-- the two states match after an error -/
  Fail : α → σ → Prop
  /-- errors that a pass may end with on its own -/
  Abort : TreeError → Prop
  /-- a state of the walk from which nothing is claimed about the pass -/
  Bad : α → Prop
  /-- what holds of a tree when a pass has come to a node -/
  Arrived : NodeId → Tree → Prop

/-- An error of the pass, accounted for: the walk ended with it too or went bad, or the pass may
abort with it. -/
def Bridge.Fails (B : Bridge σ α) (r : EStateM.Result TreeError α β) (err : TreeError) (own : σ) :
    Prop :=
  (∃ a, r = .error err a ∧ B.Fail a own) ∨ B.Abort err ∨ B.Bad (final r)

/-- The pass ends like the walk: both with values and states in a relation, or with an error that is
accounted for. -/
def Bridge.Agrees (B : Bridge σ α) (R : β → γ → α → Pass σ → Prop)
    (r : EStateM.Result TreeError α β) (run : EStateM.Result TreeError (Pass σ) γ) : Prop :=
  Ends run (fun y s => ∃ x a, r = .ok x a ∧ R x y a s) fun err s => B.Fails r err s.own

section Agrees

variable {B : Bridge σ α} {R R' : β → γ → α → Pass σ → Prop}
  {x : EStateM TreeError α β} {y : EStateM TreeError (Pass σ) γ} {a : α} {s : Pass σ}

theorem agrees_pure {b : β} {c : γ} (h : R b c a s) :
    B.Agrees R ((pure b : EStateM TreeError α β) a) ((pure c : PassM σ γ) s) :=
  ⟨b, a, rfl, h⟩

theorem agrees_throw {e : TreeError} (h : B.Fail a s.own) :
    B.Agrees R ((throw e : EStateM TreeError α β) a) ((throw e : PassM σ γ) s) :=
  .inl ⟨a, rfl, h⟩

theorem Bridge.Agrees.mono {r : EStateM.Result TreeError α β}
    {run : EStateM.Result TreeError (Pass σ) γ} (h : B.Agrees R r run)
    (hR : ∀ b c a s, R b c a s → R' b c a s) : B.Agrees R' r run :=
  Ends.mono h fun _ _ ⟨b, a, hr, hx⟩ => ⟨b, a, hr, hR _ _ _ _ hx⟩

theorem Bridge.Agrees.run {r : EStateM.Result TreeError α β}
    {run : EStateM.Result TreeError (Pass σ) γ} (h : B.Agrees R r run) :
    B.Agrees (fun b c a s => r = .ok b a ∧ R b c a s) r run :=
  Ends.mono h fun _ _ ⟨b, a, hr, hx⟩ => ⟨b, a, hr, hr, hx⟩

theorem Bridge.Fails.bind {f : β → EStateM TreeError α δ} {err : TreeError} {own : σ}
    (h : B.Fails (x a) err own) (hbad : ∀ b, Stays B.Bad (f b)) :
    B.Fails ((x >>= f) a) err own := by
  have hx : (x >>= f) a = EStateM.bind x f a := rfl
  rcases h with ⟨a', hr, hJ⟩ | hab | hb
  · refine .inl ⟨a', ?_, hJ⟩
    rw [hx]
    unfold EStateM.bind
    rw [hr]
  · exact .inr (.inl hab)
  · refine .inr (.inr ?_)
    rw [hx]
    unfold EStateM.bind
    cases hr : x a with
    | ok b a' =>
      rw [hr] at hb
      exact hbad b a' hb
    | error e a' =>
      rw [hr] at hb
      exact hb

theorem Bridge.Agrees.bind {S : β → γ → α → Pass σ → Prop} {R : δ → δ → α → Pass σ → Prop}
    {f : β → EStateM TreeError α δ} {g : γ → EStateM TreeError (Pass σ) δ}
    (h : B.Agrees S (x a) (y s)) (hbad : ∀ b, Stays B.Bad (f b))
    (hf : ∀ b c a s, S b c a s → B.Agrees R (f b a) (g c s)) :
    B.Agrees R ((x >>= f) a) ((y >>= g) s) := by
  refine ends_bind.2 (h.imp ?_ fun _ _ he => he.bind hbad)
  rintro c s' ⟨b, a', hr, hS⟩
  rw [run_bind_of_ok hr]
  exact hf b c a' s' hS

end Agrees

end ScopedTree
