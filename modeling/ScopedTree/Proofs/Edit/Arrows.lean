import ScopedTree.Proofs.Arena.Arrows
import ScopedTree.Proofs.Edit.Updates

/-!
# Arrow functions and edits

A replacement trades one body for another and does not look at the flag of the arrow function. Where
a body is made a block the flag is taken away first.

* `Tree.Swaps.trades`     what a replacement makes of arrow functions;
* `Tree.BodyOpen`         a body that was taken off its path;
* `Tree.ends_ensureBlock_keepsArrows`   to make a body a block keeps all flags fitting;
* `Tree.Fitting.insertEntries`, `Tree.Fitting.declare`   and so do lists and declarations.
-/

namespace ScopedTree

namespace Tree

open Arena Relation

variable {t t' t₁ : Tree} {a b : Arena} {root owner : Option NodeId} {p q : PathId}
  {k m n o x : NodeId} {s : Slot}

theorem content_handComments (a : Arena) (n x q : NodeId) :
    ((a.handComments n x).get? q).map Node.content = (a.get? q).map Node.content :=
  (content_update_of_eq (f := fun k => { k with comments := k.comments.absorb _ }) (fun _ => rfl)
    (some x) q).trans (content_update_of_eq (f := ({ · with comments := {} }))
    (fun _ => rfl) (some n) q)

/-- What is pulled out of a node does not move that node. -/
theorem Pulls.trades (h : Pulls x (some n) a b) (ha : a.WellOwned) (hb : b.WellOwned) :
    Trades owner n n a b := by
  have hslot {o : NodeId} (hno : a.OwnedBy n o) := h.slotAt ha.owned rfl hno
  obtain ⟨rfl, -⟩ | ⟨-, -, q, htakes⟩ := h
  · exact .refl ha
  · refine ⟨htakes.keepsArrows hb, fun o _ => ⟨htakes.arrowBody, fun hn => ?_⟩,
      fun o _ _ => htakes.sameFlags o _⟩
    rw [arrowBody_iff, Arena.is, htakes.type? o, hslot (ownedBy_of_arrowBody ha.owned hn)]
    exact arrowBody_iff.1 hn

theorem Written.trades (h : Written s n x a b owner) (ha : a.WellOwned) (hb : b.WellOwned) :
    Trades owner n x a b := by
  cases owner with
  | none =>
    obtain rfl : b = a := h
    exact ⟨.refl ha, nofun, nofun⟩
  | some o =>
    obtain ⟨name, old, hkey, hs, hover, -⟩ := h
    exact hover.trades ha hb hkey hs

/-- **A replacement trades a body for another**, and leaves the flag. -/
theorem Swaps.trades (h : Swaps a root owner n x s t') (ha : a.WellOwned) :
    Trades owner n x a t'.arena := by
  obtain ⟨a₁, b, hwell, hb, -, hpulls, hwrite, harena, -⟩ := h
  rw [harena]
  have halike := alike_handComments b n x
  exact (hpulls.trades ha hwell).trans ((hwrite.trades hwell hb).trans
    (.of_content (halike.wellOwned hb) halike.size.ge (content_handComments b n x)))

theorem Moored.made {ty : NodeType} {fields : List (String × Value)} (h : Moored a root p n owner t)
    (hmade : Made ty fields x t t') : Moored t'.arena t'.root p n owner t' := by
  refine ⟨?_, rfl, rfl, ?_⟩
  · rw [hmade.built.eq]
    exact h.rooted.of_congr rfl rfl rfl rfl
  · cases owner with
    | none =>
      have hpath := hmade.built.path p
      exact ⟨(congrArg PathData.slot hpath).trans h.stands.1, hmade.built.root.trans h.stands.2.1,
        (congrArg PathData.node hpath).trans h.stands.2.2⟩
    | some o => exact hmade.built.sits h.stands

/-! ## bodies that become blocks -/

theorem Moored.ends_follow (h : Moored a root p n owner t) (ha : a.WellOwned) {key : String}
    (hkey : '.' ∉ key.toList) : Ends (follow p key t) (fun q t' => t'.Rooted 0 ∧ Over a root t'
      ∧ t'.slot q = .field key ∧ t'.parentNode q = some n
      ∧ t'.node q = a.slotAt (some n) (.field key))
      fun _ _ => True := by
  unfold follow
  refine ends_bind.2 ((stays_iff.1 (Moored.resync ha p) t h).imp (fun _ t₁ h₁ => ?_) fun _ _
    _ => trivial)
  rw [parts_of_not_mem hkey, followParts]
  refine ends_bind.2 ((fieldOf_same t₁ p key).imp ?_ fun _ _ _ => trivial)
  rintro ⟨ty, f⟩ t₁ ⟨rfl, -, rfl⟩
  dsimp only
  rw [run_get_bind, h₁.stands.node]
  have hchild : Ends ((getOrCreatePath (some p) (some n) (.field f.name)
      >>= fun q => followParts q []) t₁)
      (fun q t' => t'.Rooted 0 ∧ Over a root t' ∧ t'.slot q = .field f.name
        ∧ t'.parentNode q = some n
        ∧ t'.node q = a.slotAt (some n) (.field f.name)) fun _ _ => True := by
    have hread : t₁.readSlot (some n) (.field f.name) = a.slotAt (some n) (.field f.name) := by
      rw [readSlot_eq _ _ Slot.noConfusion, h₁.arena]
    obtain ⟨q, hq, -, hrun⟩ | ⟨t', hrun, hpush⟩ :=
      getOrCreatePath_cases t₁ p (some n) (.field f.name)
    · obtain ⟨hlt, hs⟩ := h₁.rooted.listed (some n) q hq
      rw [run_bind_of_ok hrun]
      have hself := path_updatePath_self t₁ (fun d => { d with
        parentPath := some p, parent := some n, slot := .field f.name,
        node := t₁.readSlot (some n) (.field f.name), stale := false }) hlt
      exact ⟨h₁.rooted.updatePath hs ⟨Slot.noConfusion, Option.some_ne_none p⟩, ⟨h₁.arena, h₁.root⟩,
        congrArg PathData.slot hself, congrArg PathData.parent hself,
        (congrArg PathData.node hself).trans hread⟩
    · rw [run_bind_of_ok hrun]
      exact ⟨h₁.rooted.pushes hpush (.inl ⟨Slot.noConfusion, Option.some_ne_none p⟩),
        ⟨hpush.arena.trans h₁.arena, hpush.root.trans h₁.root⟩,
        congrArg PathData.slot hpush.path_new, congrArg PathData.parent hpush.path_new,
        (congrArg PathData.node hpush.path_new).trans hread⟩
  cases f.kind with
  | node => exact hchild
  | optNode => exact hchild
  | list => trivial
  | _ => trivial

theorem ends_writeSlot_sameFlags (ha : t.arena.WellOwned) (p : PathId) (x : NodeId) :
    Ends (writeSlot p (some x) t) (fun _ t' => SameFlags t.arena t'.arena) fun _ _ => True := by
  unfold writeSlot
  rw [run_get_bind]
  cases (t.path p).slot with
  | root => exact SameFlags.refl t.arena
  | field name =>
    refine (ends_edit ((ends_setChild ha.owned _ _ _).imp (fun _ _ h => h)
      fun _ _ _ => trivial)).mono ?_
    rintro _ _ ⟨b, ⟨o, -, hover⟩, rfl⟩
    exact hover.sameFlags rfl rfl
  | entry list i =>
    refine (ends_edit ((ends_listSet ha _ _ _ _).imp (fun _ _ h => h) fun _ _ _ => trivial)).mono ?_
    rintro _ _ ⟨b, ⟨o, items, -, -, hover⟩, rfl⟩
    exact hover.sameFlags rfl rfl

/-- The path `q` stands at the body `x` of `o`. No other flag ceased to fit since the nodes were
`a`. -/
structure BodyOpen (a : Arena) (o : NodeId) (q : PathId) (x : NodeId) (t : Tree) : Prop where
  arrows : KeepsArrows (fun m _ => m = o) a t.arena
  moored : Moored t.arena t.root q x (some o) t
  slot : t.slot q = .field "body"

theorem ends_assertLive_found (h : t.Rooted 0) (ha : t.arena.WellOwned) {key : String}
    (hslot : t.slot q = .field key) (hparent : t.parentNode q = some o)
    (hnode : t.node q = t.arena.slotAt (some o) (.field key)) :
    Ends (assertLive q t) (fun _ t' => t'.Rooted 0 ∧ Over t.arena t.root t' ∧ t'.slot q = .field key
      ∧ t'.parentNode q = some o ∧ t'.node q = t.node q) fun _ _ => True := by
  have hs : t.slot q ≠ .root := hslot.trans_ne Slot.noConfusion
  have hread (s : Slot) (hs : s ≠ .root) : t.readSlot (some o) s = t.arena.slotAt (some o) s :=
    readSlot_eq t _ hs
  cases hn : t.node q with
  | none =>
    unfold assertLive
    rw [run_bind_of_ok (resync_of_none hn), run_get_bind]
    split
    · trivial
    · exact ⟨h, ⟨rfl, rfl⟩, hslot, hparent, hn⟩
  | some n =>
    have hheld : t.arena.slotAt (some o) (.field key) = some n := hnode.symm.trans hn
    have hmoored : Moored t.arena t.root q n (some o) t := by
      refine ⟨h, rfl, rfl, hs, hn, hparent, ?_⟩
      rw [hslot, hread _ Slot.noConfusion]
      exact hheld
    refine (stays_iff.1 ((Moored.charted ha).assertLive q) t hmoored).imp (fun _ t' h' => ?_)
      fun _ _ _ => trivial
    have hholds := Sits.holds h'.stands
    rw [readSlot_eq _ _ (Sits.slot h'.stands), h'.arena] at hholds
    exact ⟨h'.rooted, ⟨h'.arena, h'.root⟩, ha.owned.slot_unique hholds hheld, Sits.parent h'.stands,
      h'.stands.node⟩

theorem ends_detachForWrap_open (h : t.Rooted 0) (ha : t.arena.WellOwned)
    (hslot : t.slot q = .field "body") (hparent : t.parentNode q = some o)
    (hnode : t.node q = t.arena.slotAt (some o) (.field "body")) :
    Ends (detachForWrap q t) (fun _ t' => ∃ x, BodyOpen t.arena o q x t') fun _ _ => True := by
  unfold detachForWrap
  refine ends_bind.2 ((ends_assertLive_found h ha hslot hparent hnode).mono fun _ t₁ h₁ => ?_)
  obtain ⟨hrooted₁, ⟨harena₁, -⟩, hslot₁, hparent₁, -⟩ := h₁
  rw [← harena₁] at ha ⊢
  rw [run_get_bind]
  have hkeeps : Ends (TreeM.edit noop t₁) (fun _ t' => KeepsArrows (fun m _ => m = o)
      t₁.arena t'.arena)
      fun _ _ => True :=
    (stays_iff.1 (stays_edit (KeepsArrows.build NodeType.noConfusion [])) t₁ (.refl ha)).imp
      (fun _ _ h => h) fun _ _ _ => trivial
  refine ends_bind.2 (((ends_made ha .noop []).and hkeeps).imp (fun x t₂ h₂ => ?_) fun _ _
    _ => trivial)
  obtain ⟨hmade, hkeeps⟩ := h₂
  have hpath := hmade.built.path q
  have hslot₂ : t₂.slot q = .field "body" := (congrArg PathData.slot hpath).trans hslot₁
  have hparent₂ : t₂.parentNode q = some o := (congrArg PathData.parent hpath).trans hparent₁
  have hrooted₂ : t₂.Rooted 0 := by
    rw [hmade.built.eq]
    exact hrooted₁.of_congr rfl rfl rfl rfl
  refine ends_bind.2 (((ends_writeSlot hmade.built.owned q x).and
    (ends_writeSlot_sameFlags hmade.built.owned q x)).imp (fun _ t₃ h₃ => ?_) fun _ _ _ => trivial)
  obtain ⟨⟨hroot, -⟩ | ⟨hs, o', b, ho', rfl, hb, hputs⟩, hflags⟩ := h₃
  · cases hslot₂.symm.trans hroot
  obtain rfl := Option.some.inj (hparent₂.symm.trans ho')
  rw [hslot₂] at hputs
  rw [run_modify_bind]
  have hself := path_updatePath_self ({ t₂ with arena := b } : Tree) ({ · with node := some x })
    (lt_of_slot hs)
  have hread : b.slotAt (some o) (.field "body") = some x := by
    rw [hputs.read, if_pos ⟨rfl, rfl⟩]
  refine ⟨x, (hkeeps.trans ((hputs.keepsArrows hb hflags).mono fun _ _ h => h.1)),
    ⟨?_, rfl, rfl, ?_⟩, (congrArg PathData.slot hself).trans hslot₂⟩
  · have hrooted₃ : ({ t₂ with arena := b } : Tree).Rooted 0 := hrooted₂.of_congr rfl rfl rfl rfl
    exact hrooted₃.updatePath hs ⟨hs, hrooted₂.below q (lt_of_slot hs) hs⟩
  · refine ⟨(congrArg PathData.slot hself).trans_ne hs, congrArg PathData.node hself,
      (congrArg PathData.parent hself).trans hparent₂, ?_⟩
    rw [show Tree.slot _ q = .field "body" from (congrArg PathData.slot hself).trans hslot₂,
      readSlot_eq _ _ Slot.noConfusion]
    exact hread

namespace BodyOpen

variable (h : BodyOpen a o q x t)

include h

theorem body : t.arena.slotAt (some o) (.field "body") = some x := by
  have hholds := Sits.holds h.moored.stands
  rwa [h.slot, readSlot_eq _ _ Slot.noConfusion] at hholds

theorem ends_edit_build {ty : NodeType} (hty : ty ≠ .arrowFunctionExpression)
    (fields : List (String × Value)) :
    Ends (TreeM.edit (build ty fields) t) (fun n t' => BodyOpen a o q x t'
      ∧ t'.arena.is (some n) ty = true) fun _ _ => True := by
  have hkeeps := (stays_iff.1 (stays_edit (KeepsArrows.build hty fields)) t h.arrows).imp
    (fun _ _ h => h) fun _ _ _ => trivial
  refine ((ends_made h.arrows.owned ty fields).and hkeeps).imp ?_ fun _ _ _ => trivial
  rintro n t' ⟨hmade, hkeeps⟩
  exact ⟨⟨hkeeps, h.moored.made hmade, (congrArg PathData.slot (hmade.built.path q)).trans h.slot⟩,
    beq_iff_eq.2 hmade.type⟩

theorem ends_bodyStatements (body : Option NodeId) (inFunction : Bool) :
    Ends (bodyStatements body inFunction t) (fun _ t' => BodyOpen a o q x t') fun _ _ => True := by
  unfold bodyStatements
  rw [run_get_bind]
  split
  · exact h
  · split
    · exact h
    · split
      · exact ends_bind.2 ((h.ends_edit_build NodeType.noConfusion _).mono fun _ _ h => h.1)
      · exact ends_bind.2 ((h.ends_edit_build NodeType.noConfusion _).mono fun _ _ h => h.1)

theorem unflag (ho : t.arena.is (some o) .arrowFunctionExpression = true) :
    BodyOpen a o q x { t with
    arena := t.arena.update (some o) (·.withValue "expression" (.bool false)) } := by
  obtain ⟨hkeeps, hlike, -⟩ := keepsArrows_unflag h.arrows.owned ho
  have hsits : t.Sits q x o := h.moored.stands
  refine ⟨h.arrows.trans hkeeps, ⟨h.moored.rooted.of_congr rfl rfl rfl rfl, rfl, rfl,
    ⟨hsits.slot, hsits.node, hsits.parent, ?_⟩⟩, h.slot⟩
  show Tree.readSlot _ (some o) (t.slot q) = some x
  rw [h.slot, readSlot_eq _ _ Slot.noConfusion]
  exact (hlike.slotAt o _).trans h.body

theorem ends_replaceNode (ho : t.arena.is (some o) .arrowFunctionExpression = true →
      t.arena.isSet (some o) "expression" = false) {block : NodeId}
    (hblock : t.arena.is (some block) .blockStatement = true) :
    Ends (replaceNode q block t) (fun _ t' => KeepsArrows (fun _ _ => False) a t'.arena)
    fun _ _ => True := by
  have ha := h.arrows.owned
  refine (ends_replaceNode_swaps h.moored ha block).mono fun _ t' ⟨s, hswaps⟩ => ?_
  have htrades := hswaps.trades ha
  refine (h.arrows.trans (htrades.keeps.mono fun m k hm => ?_)).drop fun m k hk hm => .inr ?_
  · exact (Option.some.inj hm.1).symm
  · subst hm
    obtain ⟨his, -⟩ := arrowBody_iff.1 hk
    rw [Arena.is, htrades.keeps.type? m (Sits.owner_lt h.moored.stands)] at his
    have hx : t.arena.arrowBody m = some x := arrowBody_iff.2 ⟨his, h.body⟩
    obtain rfl := Option.some.inj (((htrades.body m rfl).2 hx).symm.trans hk)
    obtain ⟨l, hl, -⟩ := Option.map_eq_some_iff.1 (eq_of_beq hblock)
    unfold FlagFits Arena.is
    rw [htrades.flag m rfl hx, htrades.keeps.type? block (get?_eq_some_lt hl), ho his]
    exact (congrArg not hblock).symm

end BodyOpen

theorem ends_ensureBlock_of_none (hn : t.node p = none) :
    Ends (ensureBlock p t) (fun _ _ => False) fun _ _ => True := by
  have hfollow : Ends (follow p "body" t) (fun _ _ => False) fun _ _ => True := by
    unfold follow
    rw [run_bind_of_ok (resync_of_none hn), parts_of_not_mem (by decide), followParts]
    refine ends_bind.2 ((fieldOf_same t p "body").imp ?_ fun _ _ _ => trivial)
    rintro _ _ ⟨rfl, ⟨n, hn'⟩, -⟩
    cases hn.symm.trans hn'
  have hlive : Ends (assertLive p t) (fun _ t' => t' = t) fun _ _ => True := by
    unfold assertLive
    rw [run_bind_of_ok (resync_of_none hn), run_get_bind]
    split
    · trivial
    · rfl
  unfold ensureBlock
  refine ends_bind.2 (hlive.mono ?_)
  rintro _ _ rfl
  rw [run_get_bind]
  exact ends_bind.2 (hfollow.imp (fun _ _ h => h.elim) fun _ _ _ => trivial)

/-- **To make a body a block keeps all flags fitting.** -/
theorem ends_ensureBlock_keepsArrows (h : t.Rooted 0) (ha : t.arena.WellOwned) (p : PathId) :
    Ends (ensureBlock p t) (fun _ t' => KeepsArrows (fun _ _ => False) t.arena t'.arena)
    fun _ _ => True := by
  cases hn : t.node p with
  | none => exact (ends_ensureBlock_of_none hn).imp (fun _ _ h => h.elim) fun _ _ _ => trivial
  | some n =>
    unfold ensureBlock
    refine ends_bind.2 ((h.ends_assertLive ha hn).mono ?_)
    rintro _ t₁ ⟨⟨owner, hmoored⟩, -⟩
    rw [run_get_bind, hmoored.stands.node]
    refine ends_bind.2 ((hmoored.ends_follow ha (by decide)).mono fun q t₂ h₂ => ?_)
    obtain ⟨hrooted, ⟨harena, -⟩, hslot, hparent, hnode⟩ := h₂
    rw [← harena] at ha hnode ⊢
    rw [run_get_bind]
    split
    · exact .refl ha
    refine ends_bind.2 ((ends_detachForWrap_open hrooted ha hslot hparent hnode).mono ?_)
    rintro c t₃ ⟨x, h₃⟩
    rw [run_get_bind]
    refine ends_bind.2 ((h₃.ends_bodyStatements c _).mono fun l t₄ h₄ => ?_)
    refine ends_bind.2 ((h₄.ends_edit_build NodeType.noConfusion _).mono ?_)
    rintro block t₅ ⟨h₅, hblock⟩
    rw [run_get_bind]
    dsimp only
    split
    · next harrow =>
      rw [run_modify_bind]
      obtain ⟨hkeeps, hlike, hunset⟩ := keepsArrows_unflag h₅.arrows.owned harrow
      refine ends_bind.2 (((h₅.unflag harrow).ends_replaceNode (fun _ => hunset) ?_).mono
        fun _ _ h => h)
      rwa [Arena.is, hlike.type? block]
    · next harrow =>
      exact ends_bind.2 ((h₅.ends_replaceNode (fun h => absurd h harrow) hblock).mono
        fun _ _ h => h)

/-! ## lists and declarations -/

/-- All flags that fit in `a` go on doing so. -/
def Fitting (a : Arena) (t : Tree) : Prop := KeepsArrows (fun _ _ => False) a t.arena

namespace Fitting

theorem nodal (a : Arena) : Nodal (Fitting a) := fun t t' harena _ h => by
  unfold Fitting
  rwa [harena]

theorem step {α β : Type} {x : TreeM α} {f : α → TreeM β} (hx : Stays (Fitting a) x)
    (hf : ∀ y, Leads (Fitting a) (fun _ _ => True) (f y)) :
    Leads (Fitting a) (fun _ _ => True) (x >>= f) :=
  (hx.leads fun _ _ _ => trivial).bind hf

theorem edit {ty : NodeType} (hty : ty ≠ .arrowFunctionExpression)
    (fields : List (String × Value)) :
    Stays (Fitting a) (TreeM.edit (build ty fields)) := stays_edit (KeepsArrows.build hty fields)

theorem assertLive (p : PathId) : Stays (Fitting a) (Tree.assertLive p) :=
  (nodal a).crawls.paths.assertLive p

theorem insertEntries (q : PathId) (owner : Option NodeId) (list : String) (i : Nat)
    (nodes : List (Option NodeId)) :
    Leads (Fitting a) (fun _ _ => True) (insertEntries q owner list i nodes) := fun t h => by
  refine (ends_insertEntries_over h.owned q owner list i nodes).mono ?_
  rintro _ t' ⟨o, old, b, -, hb, -, ⟨rfl, -⟩, hover⟩
  exact h.trans (hover.keepsArrows hb rfl rfl fun _ => rfl)

theorem unshiftContainer (p : PathId) (key : String) (nodes : List (Option NodeId)) :
    Leads (Fitting a) (fun _ _ => True) (unshiftContainer p key nodes) :=
  step (assertLive p) fun _ => step (stays_listField p key) fun _ => leads_get.bind fun _ =>
    insertEntries _ _ _ _ _

theorem pushContainer (p : PathId) (key : String) (nodes : List (Option NodeId)) :
    Leads (Fitting a) (fun _ _ => True) (pushContainer p key nodes) :=
  step (assertLive p) fun _ => step (stays_listField p key) fun _ => leads_get.bind fun _ =>
    leads_get.bind fun _ => step (stays_ofShape _) fun _ => insertEntries _ _ _ _ _

theorem firstInserted (p : PathId) (message : String) (inserted : List PathId) :
    Stays (Fitting a) (firstInserted p message inserted) :=
  Edits.firstInserted (P := fun _ => Fitting a) (m := 0) p message inserted

theorem declarationFor (s : ScopeId) (block : PathId) (kind : String) (unique : Bool) :
    Leads (Fitting a) (fun _ _ => True) (declarationFor s block kind unique) := by
  unfold Tree.declarationFor
  refine leads_get.bind fun t => ?_
  split
  · exact leads_pure _
  · refine step (edit NodeType.noConfusion _) fun _ => (unshiftContainer _ _ _).bind fun _ =>
      step (firstInserted _ _ _) fun p => Leads.guard ?_ fun _ => leads_pure p
    exact Stays.leads ((nodal a).crawls.modifyScope _ fun _ => ⟨rfl, rfl⟩) fun _ _ _ => trivial

/-- **A declaration keeps all flags fitting**, also where the body of an arrow function becomes a
block. -/
theorem declare (h : t.Rooted 0) (ha : t.arena.WellOwned) (s : ScopeId) (id init : Option NodeId)
    (kind : String) (unique : Bool) :
    Ends (declare s id init kind unique t) (fun _ t' => Fitting t.arena t') fun _ _ => True := by
  have hat (p : PathId) :
      Ends ((if t.nodeIsA p .loop || t.nodeIsA p .function || t.nodeIs p .catchClause
      then ensureBlock p else pure p : TreeM PathId) t) (fun _ t' => Fitting t.arena t')
        fun _ _ => True := by
    split
    · exact ends_ensureBlock_keepsArrows h ha p
    · exact KeepsArrows.refl ha
  have hblock : Ends (declarationBlock s t) (fun _ t' => Fitting t.arena t') fun _ _ => True :=
    hat _
  refine ends_bind.2 (hblock.mono fun block t₁ h₁ => ?_)
  refine ((declarationFor s block kind unique).bind fun _ => ?_) t₁ h₁
  exact step (edit NodeType.noConfusion _) fun _ => (pushContainer _ _ _).bind fun _ =>
    step (firstInserted _ _ _) fun p =>
      step ((nodal t.arena).crawls.registerBinding s _ p) fun _ => leads_pure p

end Fitting

end Tree

end ScopedTree
