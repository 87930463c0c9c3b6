import ScopedTree.Proofs.Arena.Copy
import ScopedTree.Proofs.Edit.Arrows
import ScopedTree.Proofs.Edit.Comments
import ScopedTree.Proofs.Edit.Marked
import ScopedTree.Proofs.Edit.Refused

/-!
# Sequences in place of an expression

Expressions, and statements around expressions, are put in place of an expression as one sequence.
The expressions come out of their statements; no other node changes but the owner of the place.

* `Arena.Confined`                             nodes other than some keep their fields;
* `Tree.Moored.ends_replaceNode`             a node that takes the place of another stands there;
* `Tree.Rooted.ends_detachForWrap`           a node that is taken off its path;
* `Tree.ends_replaceWithStatements_sequence` the sequence stands at the path.
-/

namespace ScopedTree

namespace Arena

open Relation

variable {a b c : Arena} {e m n o q x : NodeId} {V W : NodeId → Prop} {ty : NodeType}
  {field : String} {old new : Value} {values : List Value}

/-! ## nodes that are left as they are -/

/-- Nodes keep their types, and outside of `W` their fields. -/
structure Confined (W : NodeId → Prop) (a b : Arena) : Prop where
  size : a.size ≤ b.size
  type? : ∀ q, q.index < a.size → b.type? (some q) = a.type? (some q)
  content : ∀ q, q.index < a.size → ¬ W q → (b.get? q).map Node.content
    = (a.get? q).map Node.content

namespace Confined

theorem refl (W : NodeId → Prop) (a : Arena) : Confined W a a :=
  ⟨le_rfl, fun _ _ => rfl, fun _ _ _ => rfl⟩

theorem trans (h : Confined W a b) (h' : Confined V b c) (hW : ∀ q, q.index < a.size → V q → W q) :
    Confined W a c where
  size := h.size.trans h'.size
  type? q hq := (h'.type? q (hq.trans_le h.size)).trans (h.type? q hq)
  content q hq hq' := (h'.content q (hq.trans_le h.size) fun hV => hq' (hW q hq hV)).trans
    (h.content q hq hq')

theorem mono (h : Confined V a b) (hV : ∀ m, V m → W m) : Confined W a b :=
  ⟨h.size, h.type?, fun q hq hW => h.content q hq fun hq' => hW (hV q hq')⟩

theorem of_makes {cs : List NodeId} (h : Makes a b n ty cs) : Confined W a b :=
  ⟨h.size ▸ Nat.le_succ _, fun _ => h.type_old, fun q hq _ => h.content q (h.ne hq)⟩

theorem of_overwrites (h : Overwrites a b m field old new) (hm : W m) : Confined W a b :=
  ⟨h.size.ge, fun q _ => h.type? q, fun _ _ hq => h.content_ne fun he => hq (he ▸ hm)⟩

theorem of_takes (h : Takes a b x o) (ho : W o) : Confined W a b :=
  ⟨h.size.ge, fun q _ => h.type? q, fun q _ hq => h.content q fun he => hq (he ▸ ho)⟩

theorem of_content (hsize : b.size = a.size)
    (h : ∀ q, (b.get? q).map Node.content = (a.get? q).map Node.content) : Confined W a b :=
  ⟨hsize.ge, fun q _ => type?_of_content (h q), fun q _ _ => h q⟩

variable (h : Confined W a b)

include h

theorem is {ty : NodeType} (hq : q.index < a.size) : b.is (some q) ty = a.is (some q) ty := by
  rw [Arena.is, h.type? q hq, Arena.is]

theorem isA {group : Alias} (hq : a.isA (some q) group = true) : b.isA (some q) group = true := by
  obtain ⟨k, hk, -⟩ := isA_some.1 hq
  rwa [Arena.isA, h.type? q (get?_eq_some_lt hk)]

end Confined

/-! ## nodes with their values -/

/-- The node has the type and the values. -/
def Stores (a : Arena) (n : NodeId) (ty : NodeType) (values : List Value) : Prop :=
  (a.get? n).map Node.content = some (ty, values)

theorem Stores.exists (h : a.Stores n ty values) :
    ∃ k, a.get? n = some k ∧ k.type = ty ∧ k.values = values := by
  obtain ⟨k, hk, hcontent⟩ := Option.map_eq_some_iff.1 h
  exact ⟨k, hk, congrArg (·.1) hcontent, congrArg (·.2) hcontent⟩

theorem Stores.is (h : a.Stores n ty values) : a.is (some n) ty = true := by
  obtain ⟨k, hk, hty, -⟩ := h.exists
  exact is_some.2 ⟨k, hk, hty⟩

theorem Stores.lt (h : a.Stores n ty values) : n.index < a.size := by
  obtain ⟨k, hk, -⟩ := h.exists
  exact get?_eq_some_lt hk

theorem Confined.stores (h : Confined W a b) (hn : a.Stores n ty values)
    (hW : ¬ W n) : b.Stores n ty values :=
  (h.content n hn.lt hW).trans hn

/-! ## what items give -/

/-- What the item gives for a sequence: if it is a statement around an expression, it has no other
than `y`; otherwise it is `y` itself. -/
def Lends (a : Arena) (item y : Option NodeId) : Prop :=
  if a.is item .expressionStatement then ∀ x, a.child? item "expression" = some x → y = some x
    else item = y

theorem Lends.takes (h : Takes a b x o) {item : Option NodeId} {y : Option NodeId}
    (hl : Lends a item y) :
    Lends b item y := by
  have his : b.is item .expressionStatement = a.is item .expressionStatement := by
    cases item with
    | none => rfl
    | some m => rw [Arena.is, h.type?, Arena.is]
  unfold Lends at hl ⊢
  rw [his]
  split
  · next hstmt =>
    rw [if_pos hstmt] at hl
    obtain ⟨m, rfl, -⟩ : ∃ m, item = some m ∧ True := by
      cases item with
      | none => cases hstmt
      | some m => exact ⟨m, rfl, trivial⟩
    exact fun z hz => hl z (h.slotAt_field hz)
  · next hstmt => rwa [if_neg hstmt] at hl

theorem child?_of_child {id x : Option NodeId} {field : String} (h : a.child id field = .ok x) :
    a.child? id field = x := by
  obtain ⟨k, hk, hx⟩ := bind_eq_ok.1 h
  obtain ⟨v, hv, hx⟩ := bind_eq_ok.1 hx
  rw [Arena.child?, node_ok.1 hk, Option.bind_some]
  unfold Node.field at hv
  cases hval : k.value? field with
  | none =>
    rw [hval] at hv
    cases hv
  | some w =>
    rw [hval] at hv
    cases hv
    unfold Node.child?
    rw [hval]
    cases v with
    | node c => exact Except.ok.inj hx
    | _ => cases hx

/-- The item is the expression `x`, or a statement made for it. -/
def Yields (a : Arena) (item x : NodeId) : Prop :=
  a.isA (some x) .expression = true
    ∧ (item = x ∨ a.Stores item .expressionStatement [.node (some x)])

theorem Yields.of_expression (h : a.isA (some x) .expression = true) : a.Yields x x := ⟨h, .inl rfl⟩

theorem Confined.yields {item : NodeId} (h : Confined W a b) (hs : a.Yields item x)
    (hW : ∀ q, W q → a.is (some q) .expressionStatement = false) : b.Yields item x :=
  ⟨h.isA hs.1, hs.2.imp_right fun hs =>
    h.stores hs fun hw => Bool.false_ne_true ((hW item hw).symm.trans hs.is)⟩

theorem Yields.lends {item : NodeId} (h : a.Yields item x) : Lends a (some item) (some x) := by
  obtain ⟨hexpr, rfl | hs⟩ := h
  · unfold Lends
    rw [if_neg]
    intro hs
    obtain ⟨k, hk, hty⟩ := isA_some.1 hexpr
    obtain ⟨k', hk', hty'⟩ := is_some.1 hs
    cases hk.symm.trans hk'
    rw [hty'] at hty
    cases hty
  · obtain ⟨⟨ty, values⟩, hk, hty, hvalues⟩ := hs.exists
    cases hty
    cases hvalues
    unfold Lends
    rw [if_pos hs.is]
    intro y hy
    rw [Arena.child?, look_some, hk] at hy
    exact hy.symm ▸ rfl

/-! ## nodes that are made -/

theorem ends_alloc_get (a : Arena) (ty : NodeType) (values : List Value) : Ends (alloc ty values a)
    (fun n b => Makes a b n ty (values.flatMap Value.children)
      ∧ b.get? n = some { type := ty, values })
    fun _ _ => True := by
  have hget : Ends (alloc ty values a) (fun n b => b.get? n = some { type := ty, values })
      fun _ _ => True := by
    by_cases hmake : a.Makeable ty values
    · obtain ⟨b, hrun, -, hget⟩ := run_alloc hmake
      rw [hrun]
      exact (hget _).trans (if_pos rfl)
    · unfold alloc
      rw [ends_bind, ends_ask]
      exact ⟨fun _ h => absurd (checkAlloc_iff.1 h) hmake, fun _ _ => trivial⟩
  exact ((ends_alloc a ty values).and hget).imp (fun _ _ h => h) fun _ _ _ => trivial

end Arena

namespace Tree

open Arena Relation

variable {t t' t₁ : Tree} {a b c : Arena} {root owner : Option NodeId} {p q : PathId}
  {e k n o x y : NodeId} {s : Slot} {ty : NodeType} {values : List Value}
  {fields : List (String × Value)} {α : Type}

/-! ## paths that stand at a place -/

theorem Moored.rewritten (h : Moored a root p n owner t)
    (hslot : ∀ o, owner = some o → ∀ s, b.slotAt (some o) s = a.slotAt (some o) s) :
    Moored b root p n owner { t with arena := b } := by
  refine ⟨h.rooted.of_congr rfl rfl rfl rfl, rfl, h.root, ?_⟩
  cases owner with
  | none => exact h.stands
  | some o =>
    obtain rfl := h.arena
    have hsits : t.Sits p n o := h.stands
    have hholds := hsits.holds
    rw [readSlot_eq _ _ hsits.slot] at hholds
    refine ⟨hsits.slot, hsits.node, hsits.parent, ?_⟩
    show Tree.readSlot _ (some o) (t.slot p) = some n
    rw [readSlot_eq _ _ hsits.slot]
    exact (hslot o rfl _).trans hholds

/-- The node `n` was made with the values. -/
structure Formed (ty : NodeType) (values : List Value) (n : NodeId) (t t' : Tree) : Prop where
  tree : t' = { t with arena := t'.arena }
  owned : t'.arena.WellOwned
  makes : Makes t.arena t'.arena n ty (values.flatMap Value.children)
  get? : t'.arena.get? n = some { type := ty, values }

theorem ends_formed (ha : t.arena.WellOwned)
    (hbuild : build ty fields t.arena = alloc ty values t.arena) :
    Ends (TreeM.edit (build ty fields) t) (fun n t' => Formed ty values n t t')
    fun _ _ => True := by
  have howned := (stays_iff.1 (stays_owned_alloc ty values) t.arena ha.owned).and
    (stays_iff.1 (stays_shaped_alloc ty values) t.arena ha.shaped)
  have hall := howned.and (ends_alloc_get t.arena ty values)
  rw [← hbuild] at hall
  refine (ends_edit (hall.imp (fun _ _ h => h) fun _ _ _ => trivial)).mono ?_
  rintro n _ ⟨b, ⟨⟨hb, hshaped⟩, hmakes, hget⟩, rfl⟩
  exact ⟨rfl, ⟨hb, hshaped⟩, hmakes, hget⟩

namespace Formed

variable (h : Formed ty values n t t')

include h

theorem node (p : PathId) : t'.node p = t.node p := by
  rw [h.tree]
  rfl

theorem root_eq : t'.root = t.root := by rw [h.tree]

theorem ne (hx : x.index < t.arena.size) : x ≠ n := h.makes.ne hx

theorem stores : t'.arena.Stores n ty values := congrArg (Option.map Node.content) h.get?

theorem confined (W : NodeId → Prop) : Confined W t.arena t'.arena := .of_makes h.makes

theorem moored (hm : Moored a root p x owner t) : Moored t'.arena root p x owner t' := by
  obtain rfl := hm.arena
  rw [h.tree]
  refine hm.rewritten fun o ho s => slotAt_of_content (h.makes.content o (h.ne ?_)) s
  subst ho
  exact Sits.owner_lt hm.stands

end Formed

/-- A node that takes the place of another leaves all paths but the one of the place with their
nodes. -/
theorem ends_replaceNode_other (hpq : p ≠ q) (hp : t.node p = some e) (x : NodeId) :
    Ends (replaceNode q x t) (fun _ t' => t'.node p = some e) fun _ _ => True := by
  have htells {t : Tree} (h : t.node p = some e) : Tells t.arena t.arena.commentsOf p e t :=
    ⟨told_self fun _ => rfl, h⟩
  have hkeeps {α : Type} {x : TreeM α} (hx : ∀ a c, Stays (Tells a c p e) x) :
      Stays (fun t => t.node p = some e) x := fun t h => (hx _ _ t (htells h)).node
  have hother (f : PathData → PathData) :
      Stays (fun t => t.node p = some e) (modify (·.updatePath q f) : TreeM Unit) :=
    stays_modify fun t h => (congrArg PathData.node (path_updatePath_ne t f hpq)).trans h
  have hrest : Stays (fun t => t.node p = some e) (do
      registerSubtree q
      requeue q : TreeM Unit) := (hkeeps fun _ _ => Tells.crawls.registerSubtree q).bind fun _ =>
    (hother _).bind fun _ => hkeeps fun _ _ => Tells.queueNewPath q true
  have hwrite (old : Option NodeId) {forget : TreeM Unit}
      (hforget : Stays (fun t => t.node p = some e) forget) :
      Stays (fun t => t.node p = some e) (do
        let _ ← writeSlot q (some x)
        moveComments old (some x)
        modify (·.updatePath q ({ · with node := some x, scope := none, stale := false }))
        forget
        registerSubtree q
        requeue q : TreeM Unit) :=
    (hkeeps fun _ _ => Tells.writeSlot q x).bind fun _ =>
      Stays.bind (stays_modify fun _ h => h) fun _ =>
      (hother _).bind fun _ => hforget.bind fun _ => hrest
  have hforget (d : Departure) : Stays (fun t => t.node p = some e)
      (modify (invalidate d) : TreeM Unit) :=
    stays_modify fun t h => ((htells h).invalidate d).node
  have hall : Leads (fun t => t.node p = some e) (fun _ _ => True) (replaceNode q x) := by
    have htrue {α : Type} {x : TreeM α} (hx : Stays (fun t => t.node p = some e) x) :
        Leads (fun t => t.node p = some e) (fun _ _ => True) x := hx.leads fun _ _ _ => trivial
    unfold replaceNode
    refine leads_get.bind fun t =>
      Leads.guard (htrue (hkeeps fun _ _ => Tells.takeFrom _ _)) fun _ =>
      leads_get.bind fun t' => ?_
    cases t.node q with
    | none =>
      have hend := hwrite none (stays_pure ⟨⟩)
      cases t'.parentPath q with
      | none => exact htrue hend
      | some parent =>
        dsimp only
        split
        · exact htrue hend
        · exact htrue ((hkeeps fun _ _ => Tells.crawls.scopeOf parent).bind fun _ => hend)
    | some old =>
      have hend (enclosing : Option ScopeId) :=
        hwrite (some old) (hforget { old, keep := some x, holder := some q, enclosing })
      cases t'.parentPath q with
      | none => exact htrue (hend none)
      | some parent =>
        dsimp only
        split
        · exact htrue (hend none)
        · exact htrue ((hkeeps fun _ _ => Tells.crawls.scopeOf parent).bind hend)
  exact hall t hp

/-- What is written to the place of a path stands there, once the path holds it. -/
theorem Moored.ends_writeSlot (h : Moored a root p n owner t) (ha : a.WellOwned) (x : NodeId) :
    Ends (writeSlot p (some x) t) (fun _ t' => t'.arena.WellOwned
      ∧ Written (t.slot p) n x a t'.arena owner
      ∧ t'.root = owner.elim (some x) (fun _ => root) ∧ ∀ b f, Alike t'.arena b → Refills x f →
        Moored b t'.root p x owner ({ t' with arena := b }.updatePath p f)) fun _ _ => True := by
  obtain rfl := h.arena
  have hlt := lt_of_node h.stands.node
  have hroots := Rooted.edits.ends_writeSlot (m := t.paths.size) hlt x h.rooted.all
  refine (((ends_writeSlot_stands ha h.stands x).and (Tree.ends_writeSlot ha p x)).and (hroots.imp
    (fun _ _ h => h) fun _ _ _ => trivial)).imp ?_ fun _ _ _ => trivial
  rintro _ t' ⟨⟨⟨hwell, hwritten, hroot⟩, hwrite⟩, hfill⟩
  refine ⟨hwell, hwritten, hroot.trans (by rw [h.root]), fun b f halike hf => ?_⟩
  have hplaced := placed_of_written ha hlt hwrite halike (f := f) fun d => congrArg (·.1) (hf d).1
  refine ⟨Rooted.mono (Nat.zero_le _) (hfill b f hf), rfl, rfl, ?_⟩
  cases owner with
  | none =>
    refine ⟨hplaced.slot_self.trans h.stands.1, ?_, hplaced.node_self⟩
    exact hroot
  | some o => exact hplaced.sits_self (Sits.slot h.stands) (Sits.parent h.stands)

/-- **The node that takes the place of another stands there.** -/
theorem Moored.ends_replaceNode (h : Moored a root p n owner t) (ha : a.WellOwned) (x : NodeId) :
    Ends (replaceNode p x t) (fun _ t' => Moored t'.arena t'.root p x owner t'
      ∧ ∃ s, Swaps a root owner n x s t') fun _ _ => True := by
  suffices hstands : Ends (replaceNode p x t) (fun _ t' => Moored t'.arena t'.root p x owner t')
      fun _ _ => True from
    (hstands.and (ends_replaceNode_swaps h ha x)).imp (fun _ _ h => h) fun _ _ _ => trivial
  have hput {a₁ : Arena} {t : Tree} (h : Moored a₁ root p n owner t) (ha₁ : a₁.WellOwned)
      (enclosing : Option ScopeId) : Ends ((do
      let _ ← writeSlot p (some x)
      moveComments (some n) (some x)
      modify (·.updatePath p ({ · with node := some x, scope := none, stale := false }))
      modify (invalidate { old := n, keep := some x, holder := some p, enclosing })
      registerSubtree p
      requeue p : TreeM Unit) t) (fun _ t' =>
        Moored t'.arena t'.root p x owner t') fun _ _ => True := by
    refine ends_bind.2 ((h.ends_writeSlot ha₁ x).mono fun _ t₂ hw => ?_)
    have hwell := hw.1
    have hfill := hw.2.2.2
    rw [run_moveComments, run_modify_bind, run_modify_bind]
    have halike := alike_handComments t₂.arena n x
    replace hwell := halike.wellOwned hwell
    have hrefills : Refills x ({ · with node := some x, scope := none, stale := false }) :=
      fun _ => ⟨rfl, rfl⟩
    have h₂ := hfill _ _ halike hrefills
    generalize Tree.updatePath _ p _ = t₃ at h₂ ⊢
    generalize t₂.arena.handComments n x = b at h₂ hwell
    generalize t₂.root = root' at h₂
    -- the path of the place is not among those that go
    have h₃ : Moored b root' p x owner
        (invalidate { old := n, keep := some x, holder := some p, enclosing } t₃) := by
      have hover := (Over.nodal b root').invalidate
        { old := n, keep := some x, holder := some p, enclosing } ⟨h₂.arena, h₂.root⟩
      refine h₂.of_place (Rooted.edits.forget 0 _ t₃ h₂.rooted) (hover.1.trans h₂.arena.symm)
        (hover.2.trans h₂.root.symm) ?_
      rw [path_invalidate, if_neg]
      simp [Departure.marks]
    generalize invalidate _ t₃ = t₄ at h₃ ⊢
    have hend : Stays (Moored b root' p x owner) (do
        registerSubtree p
        requeue p : TreeM Unit) :=
      ((Moored.crawls hwell).registerSubtree p).bind fun _ =>
        ((Moored.charted hwell).modifyPath p _).bind fun _ => stays_queueNewPath (fun _ _ _ _ h =>
          h.of_place (h.rooted.of_congr rfl rfl rfl rfl) rfl rfl rfl) p true
    refine (stays_iff.1 hend t₄ h₃).imp (fun _ t' h' => ?_) fun _ _ _ => trivial
    have harena := h'.arena
    have hroot := h'.root
    subst harena hroot
    exact h'
  obtain rfl := h.arena
  unfold replaceNode
  rw [run_get_bind, h.stands.node]
  refine ends_guard ((ends_takeFrom ha x (some n)).mono fun _ t₀ h₀ => ?_)
  obtain ⟨a₁, rfl, hwell, hpulls⟩ := h₀
  have hmoored := h.edited ha.owned hpulls
  dsimp only
  rw [run_get_bind]
  dsimp only
  cases Tree.parentPath { t with arena := a₁ } p with
  | none => exact hput hmoored hwell none
  | some parent =>
    dsimp only
    split
    · exact hput hmoored hwell none
    · exact ends_bind.2 ((stays_iff.1 ((Moored.crawls hwell).scopeOf parent) _ hmoored).imp
        (fun enclosing _ h₁ => hput h₁ hwell enclosing) fun _ _ _ => trivial)

/-! ## a node that is taken off its path -/

/-- The node `n` was taken off the path `p`, where a placeholder stands in `owner` now. -/
structure Vacated (p : PathId) (n : NodeId) (owner : Option NodeId) (t t' : Tree) : Prop where
  before : ∃ t₁, Moored t.arena t.root p n owner t₁
  owned : t'.arena.WellOwned
  moored : ∃ c, Moored t'.arena t'.root p c owner t'
  confined : Confined (fun q => owner = some q) t.arena t'.arena

theorem Rooted.ends_detachForWrap (h : t.Rooted 0) (ha : t.arena.WellOwned)
    (hn : t.node p = some n) :
    Ends (detachForWrap p t) (fun r t' => r = some n ∧ ∃ owner, Vacated p n owner t t')
    fun _ _ => True := by
  unfold detachForWrap
  refine ends_bind.2 ((h.ends_assertLive ha hn).mono ?_)
  rintro _ t₁ ⟨⟨owner, hmoored⟩, -⟩
  rw [run_get_bind]
  have hnoop : build .noop [] t₁.arena = alloc .noop [] t₁.arena := Arena.run_ask_bind rfl
  refine ends_bind.2 ((ends_formed (by rw [hmoored.arena]; exact ha) hnoop).mono fun c t₂ h₂ => ?_)
  have hmoored₂ := h₂.moored hmoored
  refine ends_bind.2 ((hmoored₂.ends_writeSlot h₂.owned c).mono fun _ t₃ h₃ => ?_)
  have hwritten := h₃.2.1
  have hfill := h₃.2.2.2 _ ({ · with node := some c }) (.refl t₃.arena) fun _ => ⟨rfl, rfl⟩
  rw [run_modify_bind]
  refine ⟨hmoored.stands.node, owner, ⟨t₁, hmoored⟩, h₃.1, ⟨c, hfill⟩, ?_⟩
  have hmakes : Confined (fun q => owner = some q) t.arena t₂.arena := by
    rw [← hmoored.arena]
    exact .of_makes h₂.makes
  refine hmakes.trans (V := fun q => owner = some q) ?_ fun _ _ h => h
  cases owner with
  | none =>
    have harena : t₃.arena = t₂.arena := hwritten
    exact harena ▸ .refl _ _
  | some o =>
    obtain ⟨name, old, -, -, hover, -⟩ := hwritten
    exact .of_overwrites hover rfl

/-! ## expressions in sequence -/

theorem ends_expressionOf {W : NodeId → Prop} (hm : Moored b root p k owner t) (hb : b.WellOwned)
    (hW : ∀ q, b.is (some q) .expressionStatement = true → W q)
    (howner : ∀ o, owner = some o → b.is (some o) .expressionStatement = false)
    {item z : Option NodeId} (hz : Lends b item z) : Ends (expressionOf item t) (fun r t' => r = z
      ∧ ∃ b', Moored b' root p k owner t'
      ∧ b'.WellOwned ∧ Confined W b b' ∧ b'.type? = b.type? ∧ ∀ i y, Lends b i y → Lends b' i y)
      fun _ _ => True := by
  obtain rfl := hm.arena
  have hself {r : Option NodeId} (hr : r = z) : r = z ∧ ∃ b', Moored b' root p k owner t
      ∧ b'.WellOwned ∧ Confined W t.arena b' ∧ b'.type? = t.arena.type? ∧ ∀ i y, Lends t.arena i y →
      Lends b' i y :=
    ⟨hr, _, hm, hb, .refl _ _, rfl, fun _ _ h => h⟩
  unfold expressionOf
  rw [run_get_bind]
  unfold Lends at hz
  split
  · next hstmt =>
    rw [if_pos hstmt] at hz
    cases hchild : t.arena.child item "expression" with
    | error e => exact ends_bind.2 trivial
    | ok x =>
      have hx := child?_of_child hchild
      refine ends_bind.2 ?_
      rw [TreeM.ofShape, ends_pure]
      have hall := ((stays_iff.1 (stays_owned_take x) _ hb.owned).and
        (stays_iff.1 (stays_shaped_take x) _ hb.shaped)).and (ends_take t.arena x)
      refine ends_bind.2 ((ends_edit (hall.imp (fun _ _ h => h) fun _ _ _ => trivial)).mono ?_)
      rintro _ _ ⟨b', ⟨⟨howned, hshaped⟩, y, rfl, hcases⟩, rfl⟩
      have hyz : z = some y := hz y hx
      rcases hcases with ⟨-, rfl⟩ | ⟨o, htakes⟩
      · exact hself hyz.symm
      · obtain ⟨m, rfl, -⟩ : ∃ m, item = some m ∧ True := by
          cases item with
          | none => cases hstmt
          | some m => exact ⟨m, rfl, trivial⟩
        have hy : t.arena.slotAt (some m) (.field "expression") = some y := hx
        obtain rfl := (hb.owned.owner_of_child m y (mem_children_of_slotAt hy)).unique htakes.owned
        refine ⟨hyz.symm, b', hm.rewritten fun o ho s => slotAt_of_content (htakes.content o ?_) s,
          ⟨howned, hshaped⟩, .of_takes htakes (hW m hstmt), funext
          fun id => ?_, fun i y h => h.takes htakes⟩
        · rintro rfl
          cases hstmt.symm.trans (howner o ho)
        · cases id with
          | none => rfl
          | some q => exact htakes.type? q
  · next hstmt =>
    rw [if_neg hstmt] at hz
    exact hself hz

theorem ends_mapM_expressionOf {W : NodeId → Prop}
    (hW : ∀ q, b.is (some q) .expressionStatement = true → W q)
    (howner : ∀ o, owner = some o → b.is (some o) .expressionStatement = false)
    {items ys : List (Option NodeId)} (hys : List.Forall₂ (Lends b) items ys)
    (hm : Moored b root p k owner t) (hb : b.WellOwned) :
    Ends (items.mapM expressionOf t) (fun r t' => r = ys ∧ ∃ b', Moored b' root p k owner t'
      ∧ b'.WellOwned ∧ Confined W b b' ∧ b'.type? = b.type?) fun _ _ => True := by
  induction items generalizing ys b t with
  | nil =>
    cases hys
    exact ⟨rfl, b, hm, hb, .refl _ _, rfl⟩
  | cons item items ih =>
    obtain ⟨z, zs, hz, hzs, rfl⟩ := List.forall₂_cons_left_iff.1 hys
    rw [List.mapM_cons]
    refine ends_bind.2 ((ends_expressionOf hm hb hW howner hz).mono ?_)
    rintro _ t₁ ⟨rfl, b₁, hm₁, hb₁, hconfined₁, htype₁, hlends⟩
    have his (q : NodeId) : b₁.is (some q) .expressionStatement
        = b.is (some q) .expressionStatement := by
      rw [Arena.is, htype₁, Arena.is]
    refine ends_bind.2
      ((ih (b := b₁) (fun q hq => hW q (his q ▸ hq)) (fun o ho => (his o).trans (howner o ho))
      (hzs.imp fun i y => hlends i y) hm₁ hb₁).mono ?_)
    rintro _ t₂ ⟨rfl, b₂, hm₂, hb₂, hconfined₂, htype₂⟩
    exact ⟨rfl, b₂, hm₂, hb₂, hconfined₁.trans hconfined₂ fun _ _ h => h, htype₂.trans htype₁⟩

theorem Pulls.eq_of_free (h : Pulls x (some n) a b) (hx : a.parentOf (some x) = none) : b = a := by
  obtain ⟨rfl, -⟩ | ⟨-, -, q, htakes⟩ := h
  · rfl
  · cases hx.symm.trans htakes.owned

theorem Swaps.confined (h : Swaps a root owner n x s t') (hx : a.parentOf (some x) = none) :
    Confined (fun q => owner = some q) a t'.arena := by
  obtain ⟨a₁, b, -, -, -, hpulls, hwritten, harena, -⟩ := h
  obtain rfl := hpulls.eq_of_free hx
  rw [harena]
  refine Confined.trans (V := fun q => owner = some q) (b := b) ?_
    (.of_content (alike_handComments b n x).size (content_handComments b n x)) fun _ _ h => h
  cases owner with
  | none =>
    have hsame : b = a₁ := hwritten
    exact hsame ▸ .refl _ _
  | some o =>
    obtain ⟨name, old, -, -, hover, -⟩ := hwritten
    exact .of_overwrites hover rfl

/-- The path stands in `owner` at the sequence of the expressions `ys`. -/
structure HoldsSequence (t : Tree) (p : PathId) (owner : Option NodeId)
    (ys : List NodeId) : Prop where
  stands : ∃ n, t.Stands p n owner ∧ t.arena.Stores n .sequenceExpression [.list (ys.map some)]
  expressions : ∀ y ∈ ys, t.arena.isA (some y) .expression = true

/-- **Expressions, and statements made for expressions, become one sequence.** -/
theorem ends_replaceWithStatements_sequence (h : Moored a root p k owner t) (ha : a.WellOwned)
    (howner : ∀ o, owner = some o → a.is (some o) .expressionStatement = false)
    {items ys : List NodeId} (hys : List.Forall₂ a.Yields items ys) (hlen : 2 ≤ items.length) :
    Ends (replaceWithStatements p (items.map some) t) (fun _ t' => t'.HoldsSequence p owner ys
      ∧ Confined (fun q => a.is (some q) .expressionStatement = true ∨ owner = some q) a t'.arena)
      fun _ _ => True := by
  have hlends : List.Forall₂ (Lends a) (items.map some) (ys.map some) := by
    rw [List.forall₂_map_left_iff, List.forall₂_map_right_iff]
    exact hys.imp fun _ _ h => h.lends
  have hitems := ((List.forall₂_and_left _ _).1 (hys.imp fun i y h =>
    ⟨(show a.is (some i) .expressionStatement = true ∨ a.isA (some i) .expression = true from
      h.2.elim (fun he => .inr (he ▸ h.1)) fun hs => .inl hs.is), h⟩)).1
  have hexprs := ((List.forall₂_and_left _ _).1 (List.Forall₂.flip (hys.imp fun i y h =>
    (⟨h.1, h⟩ : a.isA (some y) .expression = true ∧ a.Yields i y)))).1
  have hlen : 2 ≤ ys.length := hys.length_eq ▸ hlen
  unfold replaceWithStatements
  refine ends_bind.2 ((stays_iff.1 ((Moored.charted ha).assertLive p) t h).imp (fun _ t₁ h₁ => ?_)
    fun _ _ _ => trivial)
  have hne : items ≠ [] := by
    rintro rfl
    cases hys
    cases hlen
  have hall : ((items.map some).all fun id =>
      t₁.arena.is id .expressionStatement || t₁.arena.isA id .expression) = true := by
    rw [h₁.arena]
    simpa using hitems
  rw [run_get_bind, if_neg (by simpa using hne), if_pos hall]
  unfold replaceWithSequence
  refine ends_bind.2 ((ends_mapM_expressionOf (fun _ h => h) howner hlends h₁ ha).mono ?_)
  rintro r t₂ ⟨hr, b, h₂, hb, hconfined, htype⟩
  obtain ⟨l, hl⟩ : ∃ l, ys.map some = l := ⟨_, rfl⟩
  rw [hr, hl]
  split
  · have hone : ys.length = 1 := by rw [← List.length_map, hl]; rfl
    omega
  · have hbuild : build .sequenceExpression [("expressions", .list l)] t₂.arena
        = alloc .sequenceExpression [.list l] t₂.arena := Arena.run_ask_bind rfl
    have hwell : t₂.arena.WellOwned := by rw [h₂.arena]; exact hb
    refine ends_bind.2 ((ends_formed hwell hbuild).mono fun n t₃ h₃ => ?_)
    refine ((h₃.moored h₂).ends_replaceNode h₃.owned n).mono ?_
    rintro _ t' ⟨h', s, hswaps⟩
    have hno (o : NodeId) (ho : owner = some o) : o ≠ n := by
      subst ho
      exact h₃.ne (Sits.owner_lt h₂.stands)
    have hconfined' := hswaps.confined h₃.makes.unowned_new
    have hn : t₃.arena.Stores n .sequenceExpression [.list l] := h₃.stores
    have hfinal : Confined (fun q => a.is (some q) .expressionStatement = true
        ∨ owner = some q) a t'.arena := by
      have hmade : Confined (fun q => owner = some q) b t₃.arena := by
        rw [← h₂.arena]
        exact .of_makes h₃.makes
      exact (hconfined.mono fun q hq => .inl hq).trans (hmade.trans hconfined' fun _ _ h => h) fun q
        _ hq => .inr hq
    exact ⟨⟨⟨n, h'.stands, hl ▸ hconfined'.stores hn fun ho => hno n ho rfl⟩,
      fun y hy => hfinal.isA (hexprs y hy)⟩,
      hfinal⟩

/-! ## items before an expression -/

variable {items xs : List NodeId}

theorem Vacated.owner_eq (h : Vacated p e owner t t') (ha : t.arena.Owned)
    (hroot : t.root = some e → t.arena.parentOf (some e) = none) :
    owner = t.arena.parentOf (some e) := by
  obtain ⟨t₁, h₁⟩ := h.before
  cases owner with
  | none => exact (hroot (h₁.root.symm.trans h₁.stands.2.1)).symm
  | some o =>
    have hsits : t₁.Sits p e o := h₁.stands
    have howned := hsits.owned (by rw [h₁.arena]; exact ha)
    rw [h₁.arena] at howned
    exact howned.symm

/-- **Before an expression** there is a sequence. -/
theorem ends_insertBeforeHere_sequence (ht : t.WellOwned) (hrooted : t.Rooted 0)
    (hn : t.node p = some e) (hexpr : t.arena.isA (some e) .expression = true)
    (howner : ∀ o, t.arena.OwnedBy e o → t.arena.is (some o) .expressionStatement = false)
    (hitems : List.Forall₂ t.arena.Yields items xs) (hne : items ≠ []) :
    Ends (insertBeforeHere p (items.map some) t) (fun ps t' => ps = [p]
      ∧ t'.HoldsSequence p (t.arena.parentOf (some e)) (xs ++ [e])) fun _ _ => True := by
  unfold insertBeforeHere
  rw [run_get_bind, if_pos (by unfold nodeIsA; rwa [hn])]
  refine ends_bind.2 ((hrooted.ends_detachForWrap ht.arena hn).mono ?_)
  rintro _ t₁ ⟨rfl, owner, hv⟩
  obtain ⟨c, hmoored⟩ := hv.moored
  obtain rfl := hv.owner_eq ht.arena.owned (ht.root e)
  have hys : List.Forall₂ t₁.arena.Yields (items ++ [e]) (xs ++ [e]) :=
    List.rel_append (hitems.imp fun i x h => hv.confined.yields h howner)
      (.cons (.of_expression (hv.confined.isA hexpr)) .nil)
  have hlen : 2 ≤ (items ++ [e]).length := by
    have := List.length_pos_iff.2 hne
    rw [List.length_append]
    exact Nat.add_le_add_right this 1
  have hrun := ends_replaceWithStatements_sequence hmoored hv.owned (fun o ho => ?_) hys hlen
  · rw [List.map_append] at hrun
    exact ends_bind.2 (hrun.mono fun _ _ h => ⟨rfl, h.1⟩)
  · rw [hv.confined.is (ht.arena.owned.owner_lt ho)]
    exact howner o ho

end Tree

end ScopedTree
