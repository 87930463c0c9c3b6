import ScopedTree.Proofs.Edit.Arrows

/-!
# Bodies that give way to others

An edit at a path puts one node in place of another and leaves all flags of arrow functions alone.
So they fit afterwards if and only if no body of an arrow function gave way to one of the other
kind.

* `Tree.KeepsKind`, `Tree.Swap.Kept`   a body that is as what comes for it, a block or none;
* `Tree.FlagsAfter`       all flags fit under a condition, and only then;
* `Tree.Held`             a path that stands at its place while nodes come and go there;
* `Tree.ends_replaceSome_flags`     one node in place of another;
* `Tree.ends_removeUpTo_flags`      nodes that are removed;
* `Tree.InsertsHere.ends_flags`     nodes next to a node that is no expression.
-/

namespace ScopedTree.Tree

open Arena Relation

variable {t t' t₁ t₂ : Tree} {a b : Arena} {root owner : Option NodeId} {p q : PathId}
  {k n o x y : NodeId} {s : Slot} {ty : NodeType} {kept : Prop} {block : Bool}

/-! ## where bodies stand -/

/-- The path stands at the body `n` of the arrow function `o`. -/
structure BodyAt (t : Tree) (p : PathId) (o n : NodeId) : Prop where
  slot : t.slot p ≠ .root
  node : t.node p = some n
  body : t.arena.arrowBody o = some n

/-- If the path stands at the body of an arrow function, this is a block or not, as it is said. -/
def KeepsKind (t : Tree) (p : PathId) (block : Bool) : Prop :=
  ∀ o n, t.BodyAt p o n → t.arena.is (some n) .blockStatement = block

instance : Decidable (t.KeepsKind p block) :=
  decidable_of_iff (t.slot p ≠ .root → ∀ n ∈ t.node p, ∀ i < t.arena.size,
      t.arena.arrowBody ⟨i⟩ = some n → t.arena.is (some n) .blockStatement = block)
    ⟨fun h o n hat => h hat.slot n hat.node o.index (lt_of_arrowBody hat.body) hat.body,
      fun h hs n hn i _ hbody => h ⟨i⟩ n ⟨hs, hn, hbody⟩⟩

/-- Nodes are well owned, and if all flags fitted in `a` they all fit now if and only if `kept`. -/
def FlagsAfter (a : Arena) (kept : Prop) (t' : Tree) : Prop :=
  t'.arena.WellOwned ∧ (a.FlagsFit → (t'.arena.FlagsFit ↔ kept))

theorem FlagsAfter.nodal (a : Arena) (kept : Prop) : Nodal (FlagsAfter a kept) :=
  fun t t' harena _ h => by
  unfold FlagsAfter
  rwa [harena]

theorem Fitting.flagsAfter (ha : a.WellOwned) (h : Fitting a t')
    (hkept : kept) : FlagsAfter a kept t' :=
  ⟨h.owned, fun hfits => iff_of_true (h.flagsFit ha hfits fun _ _ _ hf => hf.elim) hkept⟩

theorem Fitting.then (ha : a.WellOwned) (h : Fitting a t) (h' : FlagsAfter t.arena kept t') :
    FlagsAfter a kept t' :=
  ⟨h'.1, fun hfits => h'.2 (h.flagsFit ha hfits fun _ _ _ hf => hf.elim)⟩

theorem Moored.bodyAt_iff (h : Moored a root p n owner t) (ha : a.Owned) :
    t.BodyAt p o k ↔ owner = some o ∧ n = k ∧ a.arrowBody o = some k := by
  have harena := h.arena
  subst harena
  constructor
  · rintro ⟨hs, hn, hbody⟩
    obtain rfl := Option.some.inj (h.stands.node.symm.trans hn)
    cases owner with
    | none => exact absurd h.stands.1 hs
    | some o' =>
      have howned : t.arena.OwnedBy n o' := Sits.owned ha h.stands
      exact ⟨congrArg some (howned.unique (ownedBy_of_arrowBody ha hbody)), rfl, hbody⟩
  · rintro ⟨rfl, rfl, hbody⟩
    exact ⟨Sits.slot h.stands, h.stands.node, hbody⟩

theorem Moored.flagsAfter (h : Moored a root p n owner t) (ha : a.WellOwned)
    (htrades : Trades owner n x a t'.arena) (hx : t'.arena.type? (some x) = some ty) :
    FlagsAfter a (t.KeepsKind p (ty == .blockStatement)) t' := by
  have his : t'.arena.is (some x) .blockStatement = (ty == .blockStatement) := by
    rw [Arena.is, hx]
    rfl
  refine ⟨htrades.keeps.owned, fun hfits => (htrades.flagsFit_iff ha hfits).trans ?_⟩
  rw [his, ← h.arena]
  constructor
  · intro hkind o k hat
    obtain ⟨ho, rfl, hn⟩ := (h.bodyAt_iff ha.owned).1 hat
    exact hkind o ho (h.arena ▸ hn)
  · intro hkind o ho hn
    exact hkind o n ((h.bodyAt_iff ha.owned).2 ⟨ho, rfl, h.arena ▸ hn⟩)

/-! ## nodes that are put at a path -/

/-- The path holds `x`, which came for `n`, and stands at its place. -/
structure Held (a : Arena) (owner : Option NodeId) (n : NodeId) (p : PathId) (x : NodeId)
    (t : Tree) :
    Prop where
  trades : Trades owner n x a t.arena
  moored : Moored t.arena t.root p x owner t

theorem Moored.held (h : Moored a root p n owner t) (ha : a.WellOwned) : Held a owner n p n t := by
  obtain rfl := h.arena
  obtain rfl := h.root
  exact ⟨.refl ha, h⟩

namespace Held

variable (h : Held a owner n p x t)

include h

theorem owned : t.arena.WellOwned := h.trades.keeps.owned

theorem ends_made (ty : NodeType) (hty : ty ≠ .arrowFunctionExpression)
    (fields : List (String × Value)) :
    Ends (TreeM.edit (build ty fields) t) (fun y t' => Held a owner n p x t'
      ∧ t'.arena.type? (some y) = some ty) fun _ _ => True := by
  have hmakes := (ends_edit (ends_build t.arena ty fields)).and (Tree.ends_made h.owned ty fields)
  refine hmakes.imp ?_ fun _ _ _ => trivial
  rintro y t' ⟨⟨b, ⟨cs, hmakes, -⟩, rfl⟩, hmade⟩
  exact ⟨⟨h.trades.trans (hmakes.trades hmade.built.owned hty), h.moored.made hmade⟩, hmakes.type⟩

theorem ends_takeFrom (hne : y ≠ x) :
    Ends (takeFrom (some y) (some x) t) (fun _ t' => Held a owner n p x t') fun _ _ => True := by
  have htake := Tree.ends_takeFrom h.owned y (some x)
  rw [if_pos (by simpa using hne)] at htake
  refine htake.mono ?_
  rintro _ _ ⟨b, rfl, hb, hpulls⟩
  exact ⟨h.trades.trans (hpulls.trades h.owned hb), h.moored.edited h.owned.owned hpulls⟩

theorem of_content (halike : Alike t.arena b)
    (hcontent : ∀ q, (b.get? q).map Node.content = (t.arena.get? q).map Node.content) :
    Held a owner n p x { t with arena := b } := by
  refine ⟨h.trades.trans (.of_content (halike.wellOwned h.owned) halike.size.ge hcontent),
    h.moored.rooted.of_congr rfl rfl rfl rfl, rfl, rfl, ?_⟩
  cases owner with
  | none => exact h.moored.stands
  | some o =>
    have hsits : t.Sits p x o := h.moored.stands
    have hholds := hsits.holds
    rw [readSlot_eq _ _ hsits.slot] at hholds
    refine ⟨hsits.slot, hsits.node, hsits.parent, ?_⟩
    show Tree.readSlot _ (some o) (t.slot p) = some x
    rw [readSlot_eq _ _ hsits.slot]
    exact (halike.slotAt o _).trans hholds

theorem ends_replaceNode (hy : t.arena.type? (some y) = some ty) :
    Ends (replaceNode p y t) (fun _ t' => Trades owner n y a t'.arena
      ∧ t'.arena.type? (some y) = some ty) fun _ _ => True := by
  refine (ends_replaceNode_swaps h.moored h.owned y).mono fun _ t' ⟨s, hswaps⟩ => ?_
  have htrades := hswaps.trades h.owned
  obtain ⟨k, hk, -⟩ := Option.map_eq_some_iff.1 hy
  exact ⟨h.trades.trans htrades, (htrades.keeps.type? y (get?_eq_some_lt hk)).trans hy⟩

end Held

/-- In a tree a node of some type is put in place of the one at a path. -/
structure Swap where
  tree : Tree
  path : PathId
  type : NodeType

namespace Swap

/-- A body of an arrow function that gives way is a block if and only if what comes is one. -/
def Kept (w : Swap) : Prop := w.tree.KeepsKind w.path (w.type == .blockStatement)

instance (w : Swap) : Decidable w.Kept := inferInstanceAs (Decidable (KeepsKind _ _ _))

/-- A statement that comes for an expression is made one, unless statements may stand there too. -/
def turned (w : Swap) : Bool :=
  w.tree.nodeIsA w.path .expression && w.type.isA .statement && !w.tree.isLoopHead w.path
    && !(w.tree.slot w.path == .field "body"
      && w.tree.arena.is (w.tree.parentNode w.path) .arrowFunctionExpression
      && w.type == .blockStatement)

theorem turned_eq {k : Node} (hx : t.arena.get? x = some k) : turned ⟨t, p, k.type⟩
    = (!(t.isLoopHead p || t.canSwapBody p (some x)) && t.nodeIsA p .expression
      && k.type.isA .statement) := by
  have his : t.arena.is (some x) .blockStatement = (k.type == .blockStatement) := by
    simp [Arena.is, Arena.type?, hx]
  have hisA : t.arena.isA (some x) .expression = k.type.isA .expression := by
    simp [Arena.isA, Arena.type?, hx]
  unfold turned canSwapBody
  rw [his, hisA]
  cases hstmt : k.type.isA .statement with
  | false => simp
  | true =>
    rw [not_isA_expression_of_statement hstmt]
    cases t.nodeIsA p .expression <;> simp [Bool.and_comm]

end Swap

theorem FlagsAfter.of_kept {w : Swap} (h : FlagsAfter a w.Kept t') :
    FlagsAfter a (∀ v ∈ some w, v.Kept) t' := by
  refine ⟨h.1, fun hfits => (h.2 hfits).trans ⟨?_, fun h => h w rfl⟩⟩
  rintro hkept _ ⟨⟩
  exact hkept

/-- What is replaced when a node is put at a path. -/
def swapAt? (p : PathId) (x : NodeId) (t : Tree) : Option Swap :=
  let t := final (assertLive p t)
  (t.arena.type? (some x)).map fun type => ⟨t, p, type⟩

theorem Held.ends_wrapped (h : Held a owner n p x t) (hne : y ≠ x) :
    Ends ((do
      takeFrom (some y) (some x)
      replaceNode p (← TreeM.edit (Arena.expressionStatement (some y))) : TreeM Unit) t)
      (fun _ t' => ∃ z, Trades owner n z a t'.arena
        ∧ t'.arena.type? (some z) = some .expressionStatement) fun _ _ => True :=
  ends_bind.2 ((h.ends_takeFrom hne).mono fun _ _ h => ends_bind.2
    ((h.ends_made _ NodeType.noConfusion _).mono fun z _ h =>
      (h.1.ends_replaceNode h.2).mono fun _ _ h => ⟨z, h⟩))

/-- **A node that is put in place of another leaves all flags fitting if and only if no body changes
kind**, where it need not be made an expression. -/
theorem ends_replaceSome_flags (h : t.Rooted 0) (ha : t.arena.WellOwned) (hn : t.node p = some n)
    (hturned : ∀ w ∈ swapAt? p x t, w.turned = false) :
    Ends (replaceSome p x t) (fun _ t' => FlagsAfter t.arena (∀ w ∈ swapAt? p x t, w.Kept) t')
      fun _ _ => True := by
  unfold replaceSome swapAt? at *
  cases hlive : assertLive p t with
  | error e t₁ => exact ends_bind.2 (by rw [hlive]; trivial)
  | ok _ t₁ =>
    rw [run_bind_of_ok hlive, run_get_bind]
    rw [hlive] at hturned
    dsimp only [final] at hturned ⊢
    obtain ⟨⟨owner, hmoored⟩, -⟩ := exists_moored h ha hn hlive
    rw [← hmoored.arena] at ha ⊢
    rw [← hmoored.arena] at hmoored
    have hnode : t₁.node p = some n := hmoored.stands.node
    cases hx : t₁.arena.get? x with
    | none =>
      have hnone : t₁.arena.type? (some x) = none := by simp [Arena.type?, hx]
      rw [hnone]
      split
      · refine Fitting.flagsAfter ha (.refl ha) ?_
        rintro _ ⟨⟩
      · trivial
    | some k =>
      have htype : t₁.arena.type? (some x) = some k.type := by simp [Arena.type?, hx]
      rw [htype] at hturned ⊢
      have hturned := (Swap.turned_eq hx).symm.trans (hturned _ rfl)
      have hall {t' : Tree}
          (h' : FlagsAfter t₁.arena (t₁.KeepsKind p (k.type == .blockStatement)) t') :
          FlagsAfter t₁.arena (∀ w ∈ some (Swap.mk t₁ p k.type), w.Kept) t' := .of_kept h'
      rw [hnode]
      split
      · -- nothing is put in place of itself
        next hself =>
        obtain rfl := Option.some.inj (eq_of_beq hself)
        exact hall (hmoored.flagsAfter ha (.refl ha) htype)
      next hne =>
      have hne : x ≠ n := fun he => hne (by rw [he, beq_self_eq_true])
      dsimp only
      split
      · exact ends_bind.2 trivial
      split
      · next hwraps =>
        refine ((hmoored.held ha).ends_wrapped hne).mono ?_
        rintro _ t' ⟨z, htrades, hz⟩
        refine hall ?_
        have hrefits := hmoored.flagsAfter ha htrades hz
        -- neither an expression nor a statement for one is a block
        have hexpr : (k.type == .blockStatement) = false := by
          rw [beq_eq_false_iff_ne]
          intro he
          rw [he] at hwraps
          simp only [Bool.and_eq_true] at hwraps
          cases hwraps.2
        rwa [hexpr]
      · rw [if_neg (by simpa using hturned)]
        exact ((hmoored.held ha).ends_replaceNode htype).mono fun _ t' h' =>
          hall (hmoored.flagsAfter ha h'.1 h'.2)

/-! ## nodes that are removed -/

/-- What is replaced when the node at a path is removed, over at most `fuel` owners that go with it.
-/
def swapOnRemoval? : Nat → PathId → Tree → Option Swap
  | 0, _, _ => none
  | fuel + 1, p, t =>
    let t := final (assertLive p t)
    match t.removal p with
    | .plain => some ⟨t, p, .noop⟩
    | .owner parent | .become parent none => swapOnRemoval? fuel parent t
    | .become parent (some other) => swapAt? parent other t
    | .emptyBlock =>
      match TreeM.edit (Arena.blockStatement []) t with
      | .ok block t => swapAt? p block t
      | .error _ _ => none

namespace Held

variable (h : Held a owner n p n t)

include h

theorem keepsKind_iff (h₀ : Moored a root p n owner t₁) (ha : a.WellOwned) :
    t.KeepsKind p block ↔ t₁.KeepsKind p block := by
  refine forall₂_congr fun o k => ?_
  have hat : t.BodyAt p o k ↔ t₁.BodyAt p o k := by
    rw [h.moored.bodyAt_iff h.owned.owned, h₀.bodyAt_iff ha.owned]
    refine and_congr_right fun ho => and_congr_right fun hk => ?_
    subst hk
    exact h.trades.body o ho
  rw [hat]
  refine forall_congr' fun hat => ?_
  have hk := ((h₀.bodyAt_iff ha.owned).1 hat).2.2
  unfold Arena.is
  rw [h.trades.keeps.type? k (ownedBy_of_arrowBody ha.owned hk).lt, h₀.arena]

theorem ends_shareComments :
    Ends (shareComments p t) (fun _ t' => Held a owner n p n t') fun _ _ => True :=
  (stays_iff.1 (stays_shareComments (fun _ id f h =>
    h.of_content (Alike.update _ id fun _ => ⟨rfl, rfl⟩)
    (content_update_of_eq (f := fun k => { k with comments := f k.comments }) (fun _ => rfl) id)) p)
    t h).imp (fun _ _ h => h) fun _ _ _ => trivial

theorem ends_removeFromOwner :
    Ends (removeFromOwner p t) (fun _ t' => FlagsAfter t.arena (t.KeepsKind p false) t')
    fun _ _ => True := by
  have ha := h.owned
  -- a place that may be left empty is not the body of an arrow function
  have hkeeps {t' : Tree} (h' : Fitting t.arena t') (hno : ∀ o, t.arena.arrowBody o ≠ some n) :
      FlagsAfter t.arena (t.KeepsKind p false) t' := by
    refine h'.flagsAfter ha fun o k hat => ?_
    obtain ⟨-, rfl, hbody⟩ := (h.moored.bodyAt_iff ha.owned).1 hat
    exact absurd hbody (hno o)
  have hslot {o : NodeId} (hbody : t.arena.arrowBody o = some n) (hs : t.slot p ≠ .root) :
      t.slot p = .field "body" ∧ t.parentNode p = some o := by
    cases owner with
    | none => exact absurd h.moored.stands.1 hs
    | some o' =>
      have hsits : t.Sits p n o' := h.moored.stands
      obtain rfl := (hsits.owned ha.owned).unique (ownedBy_of_arrowBody ha.owned hbody)
      have hholds := hsits.holds
      rw [readSlot_eq _ _ hs] at hholds
      exact ⟨ha.owned.slot_unique hholds (arrowBody_iff.1 hbody).2, hsits.parent⟩
  unfold removeFromOwner
  rw [run_get_bind]
  cases hs : t.slot p with
  | root => trivial
  | entry list i =>
    have hno (o : NodeId) : t.arena.arrowBody o ≠ some n := fun hbody =>
      Slot.noConfusion (hs.symm.trans (hslot hbody (hs.trans_ne Slot.noConfusion)).1)
    have hall := ((stays_iff.1 (stays_owned_listRemove (t.parentNode p) list i) _ ha.owned).and
      (stays_iff.1 (stays_shaped_listRemove (t.parentNode p) list i) _ ha.shaped)).and
      (ends_listRemove ha (t.parentNode p) list i)
    refine ends_bind.2 ((ends_edit (hall.imp (fun _ _ h => h) fun _ _ _ => trivial)).mono ?_)
    rintro _ _ ⟨b, ⟨⟨howned, hshaped⟩, o, k, old, -, -, -, -, hcases⟩, rfl⟩
    refine (stays_iff.1 ((Fitting.nodal t.arena).pathless.shiftEntries _ _ _ _ _)
      { t with arena := b } ?_).imp (fun _ t' h' => hkeeps h' hno) fun _ _ _ => trivial
    obtain ⟨-, rfl⟩ | hover := hcases
    · exact .refl ha
    · exact hover.keepsArrows ⟨howned, hshaped⟩ rfl rfl fun _ => rfl
  | field name =>
    dsimp only
    split
    · -- a placeholder is put there
      have hmade := ((h.moored.held ha).ends_made .noop NodeType.noConfusion []).and
        (Tree.ends_made ha .noop [])
      refine ends_bind.2 (ends_map.2 (hmade.imp ?_ fun _ _ _ => trivial))
      rintro x t₁ ⟨⟨h₁, htype⟩, hmade⟩
      have hpath := hmade.built.path p
      have hwrite : writeSlot p (some x) t₁
          = TreeM.edit (Arena.setChild (t.parentNode p) name (some x)) t₁ := by
        have hs₁ : (t₁.path p).slot = .field name := (congrArg PathData.slot hpath).trans hs
        have hparent : (t₁.path p).parent = t.parentNode p := congrArg PathData.parent hpath
        unfold writeSlot
        rw [run_get_bind, hs₁, hparent]
      refine ends_bind.2 ?_
      rw [← hwrite]
      refine (ends_writeSlot_stands h₁.owned h₁.moored.stands x).mono
        fun _ t₂ ⟨hb, hwritten, _⟩ => ?_
      have htrades := hwritten.trades h₁.owned hb
      obtain ⟨k, hk, -⟩ := Option.map_eq_some_iff.1 htype
      have hx := (htrades.keeps.type? x (get?_eq_some_lt hk)).trans htype
      exact h.moored.flagsAfter ha (h₁.trades.trans htrades) hx
    · next hrequired =>
      have hall := ((stays_iff.1 (stays_owned_setChild (t.parentNode p) name none) _ ha.owned).and
        (stays_iff.1 (stays_shaped_setChild (t.parentNode p) name none) _ ha.shaped)).and
        (ends_setChild ha.owned (t.parentNode p) name none)
      rw [pure_bind]
      refine ends_bind.2 ((ends_edit (hall.imp (fun _ _ h => h) fun _ _ _ => trivial)).mono ?_)
      rintro held _ ⟨b, ⟨⟨howned, hshaped⟩, o, ho, hover⟩, rfl⟩
      refine hkeeps (hover.keepsArrows ⟨howned, hshaped⟩ rfl rfl fun _ => rfl)
        fun m hbody => hrequired ?_
      obtain ⟨hbodySlot, hparent⟩ := hslot hbody (hs.trans_ne Slot.noConfusion)
      obtain rfl := Slot.field.inj (hs.symm.trans hbodySlot)
      have htype : t.arena.type? (some m) = some .arrowFunctionExpression :=
        eq_of_beq (arrowBody_iff.1 hbody).1
      rw [hparent, htype]
      decide

end Held

theorem ends_removePlain_flags (h : Moored a root p n owner t) (ha : a.WellOwned) :
    Ends (removePlain p t) (fun _ t' => FlagsAfter a (t.KeepsKind p false) t') fun _ _ => True := by
  unfold removePlain
  rw [run_get_bind]
  refine ends_bind.2 ((h.held ha).ends_shareComments.mono fun _ t₁ h₁ => ?_)
  rw [run_get_bind]
  refine ends_bind.2 (h₁.ends_removeFromOwner.mono fun _ t₂ h₂ => ?_)
  rw [h₁.keepsKind_iff h ha] at h₂
  have h₂ := Fitting.then ha h₁.trades.keepsArrows h₂
  rw [h.stands.node]
  dsimp only
  rw [run_modify_bind]
  exact (FlagsAfter.nodal _ _).pathless _ _ (.updatePath _ p _)
    ((FlagsAfter.nodal _ _).invalidate _ h₂)

theorem FlagsAfter.ends_marked {x : TreeM Unit} (old : Option NodeId)
    (h : Ends (x t) (fun _ t' => FlagsAfter a kept t') fun _ _ => True) :
    Ends ((do
      x
      markUnlessFilled p old : TreeM Unit) t) (fun _ t' => FlagsAfter a kept t')
        fun _ _ => True := by
  refine ends_bind.2 (h.mono fun _ t₁ h₁ => ?_)
  unfold markUnlessFilled
  rw [run_get_bind]
  split
  · exact (nodal a kept).pathless _ _ (.updatePath _ p _) h₁
  · exact h₁

theorem swapOnRemoval?_of_live (hlive : assertLive p t = .ok () t₁)
    (hagain : assertLive p t₁ = .ok () t₁) (fuel : Nat) :
    swapOnRemoval? fuel p t₁ = swapOnRemoval? fuel p t := by
  cases fuel with
  | zero => rfl
  | succ fuel =>
    unfold swapOnRemoval?
    rw [hlive, hagain]

theorem ends_removeUpTo_flags (fuel : Nat) (h : t.Rooted 0) (ha : t.arena.WellOwned)
    (hn : t.node p = some n) (hturned : ∀ w ∈ swapOnRemoval? fuel p t, w.turned = false) :
    Ends (removeUpTo fuel p t)
    (fun _ t' => FlagsAfter t.arena (∀ w ∈ swapOnRemoval? fuel p t, w.Kept) t')
      fun _ _ => True := by
  induction fuel generalizing p n t with
  | zero => trivial
  | succ fuel ih =>
    unfold removeUpTo
    unfold swapOnRemoval? at hturned ⊢
    cases hlive : assertLive p t with
    | error e t₁ => exact ends_bind.2 (by rw [hlive]; trivial)
    | ok _ t₁ =>
      rw [hlive] at hturned
      rw [run_bind_of_ok hlive, run_get_bind]
      dsimp only [final] at hturned ⊢
      obtain ⟨⟨owner, hmoored⟩, -⟩ := exists_moored h ha hn hlive
      rw [← hmoored.arena] at ha ⊢
      rw [← hmoored.arena] at hmoored
      cases hr : t₁.removal p with
      | plain =>
        exact (ends_removePlain_flags hmoored ha).mono fun _ t' h' =>
          FlagsAfter.of_kept (w := ⟨t₁, p, .noop⟩) h'
      | owner parent =>
        rw [hr] at hturned
        obtain ⟨-, m, hm⟩ := parent_of_removal (.inl hr)
        exact FlagsAfter.ends_marked _ (ih hmoored.rooted ha hm hturned)
      | become parent other =>
        obtain ⟨-, m, hm⟩ := parent_of_removal (.inr ⟨other, hr⟩)
        rw [hr] at hturned
        cases other with
        | some other => exact FlagsAfter.ends_marked _ (ends_replaceSome_flags hmoored.rooted
          ha hm hturned)
        | none =>
          dsimp only at hturned ⊢
          cases hlive₂ : assertLive parent t₁ with
          | error e t₂ => exact ends_bind.2 (by rw [hlive₂]; trivial)
          | ok _ t₂ =>
            obtain ⟨⟨owner₂, hmoored₂⟩, hagain⟩ := exists_moored hmoored.rooted ha hm hlive₂
            rw [run_bind_of_ok hlive₂, run_get_bind, hmoored₂.stands.node]
            rw [← swapOnRemoval?_of_live hlive₂ hagain fuel] at hturned ⊢
            rw [← hmoored₂.arena] at ha ⊢
            exact FlagsAfter.ends_marked _ (ih hmoored₂.rooted ha hmoored₂.stands.node hturned)
      | emptyBlock =>
        rw [hr] at hturned
        dsimp only at hturned ⊢
        have hblock := (hmoored.held ha).ends_made .blockStatement NodeType.noConfusion
          [("body", .list [])]
        cases hedit : TreeM.edit (Arena.blockStatement []) t₁ with
        | error e t₂ => exact ends_bind.2 (by rw [hedit]; trivial)
        | ok block t₂ =>
          rw [hedit] at hturned
          rw [run_bind_of_ok hedit]
          obtain ⟨h₂, -⟩ := hblock.of_ok hedit
          refine FlagsAfter.ends_marked _ ?_
          exact (ends_replaceSome_flags h₂.moored.rooted h₂.owned h₂.moored.stands.node
            hturned).mono
            fun _ t' h' => Fitting.then ha h₂.trades.keepsArrows h'

/-! ## nodes that are put next to a path -/

theorem Held.ends_detachForWrap (h : Held a owner n p x t) :
    Ends (detachForWrap p t) (fun _ t' => ∃ y, Held a owner n p y t') fun _ _ => True := by
  have hrooted : Ends (detachForWrap p t) (fun _ t' => t'.Rooted 0) fun _ _ => True := by
    have hdetach := Rooted.edits.detachForWrap p (lt_of_node h.moored.stands.node)
    exact (stays_iff.1 hdetach t h.moored.rooted.all).imp (fun _ _ => Rooted.mono (Nat.zero_le _))
      fun _ _ _ => trivial
  have hplace : Ends (detachForWrap p t) (fun _ t' => ∃ y, Trades owner n y a t'.arena
      ∧ t'.Stands p y owner)
      fun _ _ => True := by
    unfold detachForWrap
    have hlive : Stays (Moored t.arena t.root p x owner) (assertLive p) :=
      (Moored.charted h.owned).assertLive p
    refine ends_bind.2 ((stays_iff.1 hlive t h.moored).imp (fun _ t₁ h₁ => ?_) fun _ _ _ => trivial)
    have h₁ : Held a owner n p x t₁ :=
      ⟨by rw [h₁.arena]; exact h.trades, by rwa [h₁.arena, h₁.root]⟩
    rw [run_get_bind]
    refine ends_bind.2 ((h₁.ends_made .noop NodeType.noConfusion []).mono fun y t₂ ⟨h₂, _⟩ => ?_)
    refine ends_bind.2 (((ends_writeSlot_stands h₂.owned h₂.moored.stands y).and
      (ends_writeSlot h₂.owned p y)).imp (fun _ t₃ ⟨⟨hb, hwritten, _⟩, hwrote⟩ => ?_)
      fun _ _ _ => trivial)
    rw [run_modify_bind]
    refine ⟨y, h₂.trades.trans (hwritten.trades h₂.owned hb), ?_⟩
    have hself (t : Tree) (hlt : p.index < t.paths.size) :=
      path_updatePath_self t ({ · with node := some y }) hlt
    have hlt : p.index < t₂.paths.size := lt_of_node h₂.moored.stands.node
    obtain ⟨hs, rfl⟩ | ⟨hs, o, b, ho, rfl, -, hputs⟩ := hwrote
    · cases owner with
      | none =>
        exact ⟨(congrArg PathData.slot (hself _ hlt)).trans hs, rfl,
          congrArg PathData.node (hself _ hlt)⟩
      | some o => exact absurd hs (Sits.slot h₂.moored.stands)
    · cases owner with
      | none => exact absurd h₂.moored.stands.1 hs
      | some o' =>
        obtain rfl := Option.some.inj ((Sits.parent h₂.moored.stands).symm.trans ho)
        have hslot := congrArg PathData.slot (hself { t₂ with arena := b } hlt)
        refine ⟨hslot.trans_ne hs, congrArg PathData.node (hself _ hlt),
          (congrArg PathData.parent (hself _ hlt)).trans ho, ?_⟩
        rw [show Tree.slot _ p = t₂.slot p from hslot, readSlot_eq _ _ hs]
        exact (hputs.read _ _).trans (if_pos ⟨rfl, rfl⟩)
  refine (hrooted.and hplace).imp ?_ fun _ _ _ => trivial
  rintro c t' ⟨hr, y, htrades, hstands⟩
  exact ⟨y, htrades, hr, rfl, rfl, hstands⟩

theorem Moored.ends_insertIntoBody (h : Moored a root p n owner t) (ha : a.WellOwned)
    (before after : List (Option NodeId)) : Ends (insertIntoBody p before after t)
      (fun _ t' => FlagsAfter a (t.KeepsKind p true) t') fun _ _ => True := by
  unfold insertIntoBody
  refine ends_bind.2 ((h.held ha).ends_detachForWrap.mono fun c t₁ ⟨y, h₁⟩ => ?_)
  rw [run_get_bind]
  refine ends_bind.2 ((h₁.ends_made .blockStatement NodeType.noConfusion _).mono
    fun block t₂ ⟨h₂, htype⟩ => ?_)
  exact ends_bind.2 ((h₂.ends_replaceNode htype).mono fun _ t₃ h₃ => h.flagsAfter ha h₃.1 h₃.2)

def insertionPlace (p : PathId) : TreeM PathId := do
  assertLive p
  let t ← get
  insertionTarget (t.paths.size + t.arena.size + 2) p

/-- What is replaced when nodes are inserted next to a path: a body becomes a block. -/
def swapBeside? (p : PathId) (nodes : List (Option NodeId)) (t : Tree) : Option Swap :=
  if nodes.isEmpty then none else
    match insertionPlace p t with
    | .ok q t => if (t.slot q).list?.isSome then none else some ⟨t, q, .blockStatement⟩
    | .error _ _ => none

theorem ends_insertionTarget (fuel : Nat) (hover : Over a root t) (h : t.Rooted 0)
    (ha : a.WellOwned) (hn : t.node p = some n) :
    Ends (insertionTarget fuel p t) (fun q t' => ∃ k owner, Moored a root q k owner t')
    fun _ _ => True := by
  induction fuel generalizing p n t with
  | zero => trivial
  | succ fuel ih =>
    obtain ⟨rfl, rfl⟩ := hover
    unfold insertionTarget
    refine ends_bind.2 ((h.ends_assertLive ha hn).mono ?_)
    rintro _ t₁ ⟨⟨owner, h₁⟩, -⟩
    rw [run_get_bind]
    cases hwrap : t₁.statementWrapper? p with
    | none => exact ⟨n, owner, h₁⟩
    | some q =>
      obtain ⟨-, hq⟩ := Option.filter_eq_some_iff.1 hwrap
      obtain ⟨k, hk⟩ : ∃ k, t₁.node q = some k := by
        rw [← Option.ne_none_iff_exists']
        intro hk
        simp [nodeIs, hk, Arena.is, Arena.type?, Arena.look] at hq
      exact ih ⟨h₁.arena, h₁.root⟩ h₁.rooted hk

theorem ends_insertionPlace (h : t.Rooted 0) (ha : t.arena.WellOwned) (hn : t.node p = some n) :
    Ends (insertionPlace p t) (fun q t' => ∃ k owner, Moored t.arena t.root q k owner t')
    fun _ _ => True := by
  refine ends_bind.2 ((h.ends_assertLive ha hn).mono fun _ t₁ ⟨⟨owner, h₁⟩, _⟩ => ?_)
  rw [run_get_bind]
  exact ends_insertionTarget _ ⟨h₁.arena, h₁.root⟩ h₁.rooted ha h₁.stands.node

theorem ends_insertBeside_flags (ha : t.arena.WellOwned) (p : PathId) (list : String) (i : Nat)
    (nodes : List (Option NodeId)) : Ends (insertBeside p list i nodes t)
      (fun _ t' => t'.arena.WellOwned ∧ (t'.arena.FlagsFit ↔ t.arena.FlagsFit))
      fun _ _ => True := by
  unfold insertBeside
  rw [run_get_bind]
  cases t.parentPath p with
  | none => trivial
  | some q =>
    refine (ends_insertEntries_over ha q _ list i nodes).mono ?_
    rintro _ t' ⟨o, old, b, -, hb, -, ⟨rfl, -⟩, hover⟩
    exact ⟨hb, hover.flagsFit_iff⟩

/-- Nodes are inserted next to a node that is no expression: into its list, or its body becomes a
block. -/
structure InsertsHere (here : PathId → List (Option NodeId) → TreeM (List PathId)) : Prop where
  entry : ∀ {t : Tree} {q nodes list i}, t.nodeIsA q .expression = false →
    t.slot q = .entry list i → ∃ j, here q nodes t = insertBeside q list j nodes t
  body : ∀ {t : Tree} {q nodes}, t.nodeIsA q .expression = false → (t.slot q).list? = none →
    (∃ before after, here q nodes t = insertIntoBody q before after t)
    ∨ ∃ e, here q nodes t = .error e t

theorem insertsHere_before : InsertsHere insertBeforeHere where
  entry {t q nodes list i} hplain hs := by
    refine ⟨i, ?_⟩
    unfold insertBeforeHere
    rw [run_get_bind, if_neg (by simp [hplain]), hs]
  body {t q nodes} hplain hs := by
    unfold insertBeforeHere
    rw [run_get_bind, if_neg (by simp [hplain])]
    cases hq : t.slot q with
    | entry list i => simp [hq, Slot.list?] at hs
    | _ =>
      dsimp only
      split
      · exact .inl ⟨nodes, [], rfl⟩
      · exact .inr ⟨_, rfl⟩

theorem insertsHere_after : InsertsHere insertAfterHere where
  entry {t q nodes list i} hplain hs := by
    refine ⟨i + 1, ?_⟩
    unfold insertAfterHere
    rw [run_get_bind, if_neg (by simp [hplain]), hs]
  body {t q nodes} hplain hs := by
    unfold insertAfterHere
    rw [run_get_bind, if_neg (by simp [hplain])]
    cases hq : t.slot q with
    | entry list i => simp [hq, Slot.list?] at hs
    | _ =>
      dsimp only
      split
      · exact .inl ⟨[], nodes, rfl⟩
      · exact .inr ⟨_, rfl⟩

section Insert

variable {here : PathId → List (Option NodeId) → TreeM (List PathId)} {nodes : List (Option NodeId)}

theorem run_insertWith_place (t : Tree) (p : PathId) (hnodes : nodes.isEmpty = false) :
    insertWith here p nodes t = (insertionPlace p >>= fun q => here q nodes) t := by
  unfold insertWith insertionPlace
  rw [hnodes, bind_assoc]
  refine run_bind_congr fun _ t₁ _ => ?_
  rfl

theorem ends_insertWith_nil (hnodes : nodes.isEmpty = true) :
    Ends (insertWith here p nodes t) (fun _ t' => Over t.arena t.root t') fun _ _ => True := by
  have hover := (Over.nodal t.arena t.root).crawls.paths.assertLive p
  unfold insertWith
  rw [hnodes]
  exact ends_bind.2 ((stays_iff.1 hover t ⟨rfl, rfl⟩).imp (fun _ _ h => h) fun _ _ _ => trivial)

theorem InsertsHere.ends_list (hhere : InsertsHere here) (ha : t.arena.WellOwned)
    (hplace : Ends (insertionPlace p t) (fun q t₁ => t₁.nodeIsA q .expression = false
      ∧ (t₁.slot q).list?.isSome) fun _ _ => True) :
    Ends (insertWith here p nodes t) (fun _ t' => t'.arena.WellOwned
      ∧ (t'.arena.FlagsFit ↔ t.arena.FlagsFit))
      fun _ _ => True := by
  cases hnodes : nodes.isEmpty with
  | true =>
    refine (ends_insertWith_nil hnodes).mono fun _ t' h => ?_
    rw [h.1]
    exact ⟨ha, Iff.rfl⟩
  | false =>
    have hover : Stays (Over t.arena t.root) (insertionPlace p) := by
      have hpaths := (Over.nodal t.arena t.root).crawls.paths
      exact (hpaths.assertLive p).bind fun _ => stays_get.bind fun _ => hpaths.insertionTarget _ p
    rw [run_insertWith_place t p hnodes]
    refine ends_bind.2 (((stays_iff.1 hover t ⟨rfl, rfl⟩).and hplace).imp ?_ fun _ _ _ => trivial)
    rintro q t₁ ⟨⟨harena, -⟩, hplain, hlist⟩
    cases hs : t₁.slot q with
    | entry list i =>
      obtain ⟨j, hrun⟩ := hhere.entry hplain hs
      rw [hrun, ← harena]
      exact ends_insertBeside_flags (by rwa [harena]) q list j nodes
    | _ => simp [hs, Slot.list?] at hlist

/-- **Where nodes are inserted next to a node that is no expression**, flags fit afterwards if and
only if no body that was an expression became a block. -/
theorem InsertsHere.ends_flags (hhere : InsertsHere here) (h : t.Rooted 0) (ha : t.arena.WellOwned)
    (hn : t.node p = some n)
    (hplain : Ends (insertionPlace p t) (fun q t₁ => t₁.nodeIsA q .expression = false) fun _
      _ => True) :
    Ends (insertWith here p nodes t) (fun _ t' => FlagsAfter t.arena
      (∀ w ∈ swapBeside? p nodes t, w.Kept) t')
      fun _ _ => True := by
  unfold swapBeside?
  have hnone {t' : Tree} (hfits : t'.arena.WellOwned ∧ (t'.arena.FlagsFit ↔ t.arena.FlagsFit)) :
      FlagsAfter t.arena (∀ w ∈ (none : Option Swap), w.Kept) t' :=
    ⟨hfits.1, fun h => iff_of_true (hfits.2.2 h) fun _ hw => nomatch hw⟩
  cases hnodes : nodes.isEmpty with
  | true =>
    refine (ends_insertWith_nil hnodes).mono fun _ t' h => hnone ?_
    rw [h.1]
    exact ⟨ha, Iff.rfl⟩
  | false =>
    rw [run_insertWith_place t p hnodes]
    cases hplace : insertionPlace p t with
    | error e t₁ => exact ends_bind.2 (by rw [hplace]; trivial)
    | ok q t₁ =>
      rw [run_bind_of_ok hplace]
      have hplain := hplain.of_ok hplace
      obtain ⟨k, owner, hmoored⟩ := (ends_insertionPlace h ha hn).of_ok hplace
      have harena := hmoored.arena
      have hbody (hs : (t₁.slot q).list? = none) : Ends (here q nodes t₁)
          (fun _ t' => FlagsAfter t.arena
          (∀ w ∈ some (Swap.mk t₁ q .blockStatement), w.Kept) t') fun _ _ => True := by
        obtain ⟨before, after, hrun⟩ | ⟨e, hrun⟩ := hhere.body hplain hs
        · rw [hrun]
          exact (hmoored.ends_insertIntoBody ha before after).mono
            fun _ _ h' => FlagsAfter.of_kept h'
        · rw [hrun]
          trivial
      cases hs : t₁.slot q with
      | entry list i =>
        obtain ⟨j, hrun⟩ := hhere.entry hplain hs
        rw [hrun]
        have hend := ends_insertBeside_flags (t := t₁) (by rwa [harena]) q list j nodes
        rw [harena] at hend
        simpa [hs, Slot.list?] using hend.mono fun _ _ h' => hnone h'
      | _ => simpa [hs, Slot.list?] using hbody (by simp [hs, Slot.list?])

end Insert

end ScopedTree.Tree
