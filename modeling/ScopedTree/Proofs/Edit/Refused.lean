import ScopedTree.Proofs.Edit.Updates

/-!
# Edits that are refused

A node that is missing, or is attached elsewhere, cannot be put anywhere. Writes of the arena find
this out before they change anything. Edits at paths do as well, unless something has to be taken
apart, wrapped or handed on first.

* `Arena.Unfit`                  nodes that cannot be put below an owner;
* `Arena.ends_setChild_unfit`, …  the writes one by one;
* `Tree.Refused`                 a run that fails and leaves nodes alone;
* `Tree.Reached.edits_refused`   **refused edits leave the tree as it was**.
-/

namespace ScopedTree

open Relation

namespace Arena

variable {a : Arena} {owner : Option NodeId} {nodes : List (Option NodeId)} {n o x : NodeId}

theorem update_eq_self {id : Option NodeId} {f : Node → Node}
    (h : ∀ k, a.look id = some k → f k = k) :
    a.update id f = a := by
  cases id with
  | none => rfl
  | some m =>
    have hnodes : a.nodes.modify m.index f = a.nodes := by
      refine Array.ext Array.size_modify fun i hi hi' => ?_
      rw [Array.getElem_modify]
      split
      · next heq =>
        subst heq
        exact h _ (Array.getElem?_eq_getElem hi')
      · rfl
    show ({ a with nodes := a.nodes.modify m.index f } : Arena) = a
    rw [hnodes]

/-- The nodes cannot be put below `owner`: one of them is missing, has an owner or has `owner` in
it, or one comes up twice. -/
def Unfit (a : Arena) (owner : Option NodeId) (nodes : List (Option NodeId)) : Prop :=
  (∃ x, some x ∈ nodes
      ∧ (a.size ≤ x.index ∨ a.parentOf (some x) ≠ none ∨ a.isWithin owner (some x) = true))
    ∨ ¬ (nodes.filterMap id).Nodup

theorem Unfit.checkInserted_ne (h : a.Unfit owner nodes) :
    a.checkInserted owner [] nodes ≠ .ok () := by
  intro hok
  obtain ⟨hnodup, hin⟩ := checkInserted_ok hok
  rcases h with ⟨x, hx, hbad⟩ | hdup
  · obtain ⟨hlt, hfree, hout⟩ := checkAttachable_ok (hin x hx).2
    rcases hbad with hle | howned | hwithin
    · exact absurd hlt (Nat.not_lt.2 hle)
    · exact howned hfree
    · cases hout.symm.trans hwithin
  · exact hdup hnodup

theorem Unfit.checkAttachable_ne (h : a.Unfit owner [some x]) :
    a.checkAttachable owner (some x) ≠ .ok () := by
  intro hok
  have hrun : a.checkInserted owner [] [some x] = a.checkAttachable owner (some x) >>=
      fun _ => .ok () := rfl
  exact h.checkInserted_ne (hrun.trans (by rw [hok]; rfl))

theorem Unfit.of_none (h : a.Unfit none nodes) : a.Unfit owner nodes := by
  rcases h with ⟨x, hx, hle | howned | hwithin⟩ | hdup
  · exact .inl ⟨x, hx, .inl hle⟩
  · exact .inl ⟨x, hx, .inr (.inl howned)⟩
  · cases hwithin
  · exact .inr hdup

theorem ends_listInsert_unfit (h : a.Unfit owner nodes) (list : String) (i : Nat) :
    Ends (listInsert owner list i nodes a) (fun _ _ => False) fun _ b => b = a := by
  unfold listInsert
  rw [ends_bind, ends_ask]
  exact ⟨fun _ hok => absurd hok h.checkInserted_ne, fun _ _ => rfl⟩

/-- The place of `n` takes no other node that is unfit. -/
theorem ends_setChild_unfit (h : a.Unfit (some o) [some x]) (hne : x ≠ n) {name : String}
    (hs : a.slotAt (some o) (.field name) = some n) :
    Ends (setChild (some o) name (some x) a) (fun _ _ => False) fun _ b => b = a := by
  unfold setChild
  rw [ends_bind, ends_ask]
  refine ⟨fun old hok => ?_, fun _ _ => rfl⟩
  obtain ⟨k, hk, hv, hcheck⟩ := checkSetChild_ok hok
  rw [slotAt_eq hk] at hs
  have hold : old = some n := by simpa [Slot.key?, hv, Value.standing] using hs
  subst hold
  exact absurd (hcheck fun heq => hne (Option.some.inj heq).symm) h.checkAttachable_ne

theorem ends_listSet_unfit (h : a.Unfit (some o) [some x]) (hne : x ≠ n) {list : String} {i : Nat}
    (hs : a.slotAt (some o) (.entry list i) = some n) :
    Ends (listSet (some o) list i (some x) a) (fun _ _ => False) fun _ b => b = a := by
  unfold listSet
  rw [ends_bind, ends_ask]
  refine ⟨fun (items, old) hok => ?_, fun _ _ => rfl⟩
  obtain ⟨hlist, hi, hcheck⟩ := checkListSet_ok hok
  obtain ⟨k, items', hk, hv, hi'⟩ := exists_list_of_slotAt hs
  obtain ⟨o', k', ho, hk', hv'⟩ := list_ok hlist
  obtain rfl := Option.some.inj ho
  obtain rfl := Option.some.inj (hk.symm.trans hk')
  obtain rfl : items' = items := by simpa using hv.symm.trans hv'
  obtain rfl := Option.some.inj (hi'.symm.trans hi)
  exact absurd (hcheck fun heq => hne (Option.some.inj heq).symm) h.checkAttachable_ne

theorem ends_build_unfit {ty : NodeType} {fields : List (String × Value)} {f : String × Value}
    (hfields : (fields.map (·.1)).Nodup) (hf : f ∈ fields) (h : a.Unfit none f.2.handles) :
    Ends (build ty fields a) (fun _ _ => False) fun _ b => b = a := by
  unfold build
  rw [ends_bind, ends_ask]
  refine ⟨fun values hvalues => ?_, fun _ _ => rfl⟩
  obtain ⟨table, hgather, hcomplete⟩ := bind_eq_ok.1 hvalues
  unfold alloc
  rw [ends_bind, ends_ask]
  refine ⟨fun _ hok => ?_, fun _ _ => rfl⟩
  obtain ⟨-, -, hnodup, hfree⟩ := checkAlloc_ok hok
  obtain ⟨g, hg, hname, hv⟩ := (gather_given hgather hfields).1 f hf
  have hmem : f.2 ∈ values := complete_given (hname ▸ hv) hcomplete hg
  rcases h with ⟨x, hx, hbad⟩ | hdup
  · obtain ⟨hlt, hunowned⟩ :=
      hfree x (List.mem_flatMap.2 ⟨_, hmem, List.mem_filterMap.2 ⟨_, hx, rfl⟩⟩)
    rcases hbad with hle | howned | hwithin
    · exact absurd hlt (Nat.not_lt.2 hle)
    · exact howned hunowned
    · cases hwithin
  · exact hdup ((List.nodup_flatMap.1 hnodup).1 _ hmem)

end Arena

namespace Tree

open Arena

variable {t t' t₁ : Tree} {a : Arena} {root : Option NodeId} {p q : PathId}
  {n o x : NodeId} {α : Type} {nodes : List (Option NodeId)}

/-- To insert next to the path means to wrap its node: an expression becomes part of a sequence or
of a function, and a body becomes a block. -/
def wraps (t : Tree) (p : PathId) : Bool := t.nodeIsA p .expression || t.isStatementBody p

/-- The run fails, and neither nodes nor what the path holds have changed. -/
def Refused (p : PathId) (t : Tree) (r : EStateM.Result TreeError Tree α) : Prop :=
  ∃ e t', r = .error e t' ∧ t'.arena = t.arena ∧ t'.root = t.root ∧ t'.node p = t.node p

theorem ends_edit_unfit {w : ArenaM α}
    (h : Ends (w t.arena) (fun _ _ => False) fun _ b => b = t.arena) :
    Ends (TreeM.edit w t) (fun _ _ => False) fun _ t' => t' = t := by
  unfold TreeM.edit
  dsimp only
  cases hw : w t.arena with
  | ok y b => exact h.of_ok hw
  | error e b =>
    rw [h.of_error hw]
    exact rfl

theorem run_takeFrom_of_outside (ha : t.arena.Owned) (hout : ¬ ReflTransGen t.arena.OwnedBy x n) :
    takeFrom (some x) (some n) t = .ok ⟨⟩ t := by
  have hwithin : ¬ t.arena.isWithin (some x) (some n) = true :=
    fun hin => hout ((isWithin_iff ha).1 hin)
  unfold takeFrom
  rw [run_get_bind, if_neg hwithin]
  rfl

section Moored

variable (h : Moored a root p n (some o) t)

include h

theorem Moored.writeSlot_unfit (hne : x ≠ n) (hx : a.Unfit (some o) [some x]) :
    Ends (writeSlot p (some x) t) (fun _ _ => False) fun _ => Moored a root p n (some o) := by
  obtain rfl := h.arena
  have hslot : (t.path p).slot ≠ .root := Sits.slot h.stands
  have hparent : (t.path p).parent = some o := Sits.parent h.stands
  have hheld : t.arena.slotAt (some o) (t.path p).slot = some n :=
    (readSlot_eq t (some o) hslot).symm.trans (Sits.holds h.stands)
  have hkept {w : ArenaM (Option NodeId)}
      (hw : Ends (w t.arena) (fun _ _ => False) fun _ b => b = t.arena) :
      Ends (TreeM.edit w t) (fun _ _ => False) fun _ => Moored t.arena root p n (some o) :=
    (ends_edit_unfit hw).imp (fun _ _ h => h) fun _ t' heq => by rwa [heq]
  unfold writeSlot
  rw [run_get_bind]
  dsimp only
  rw [hparent]
  cases hs : (t.path p).slot with
  | root => exact absurd hs hslot
  | field name =>
    rw [hs] at hheld
    exact hkept (ends_setChild_unfit hx hne hheld)
  | entry list i =>
    rw [hs] at hheld
    exact hkept (ends_listSet_unfit hx hne hheld)

/-- A node that is unfit, and does not come from the subtree that it is to replace, is not put at
the path. -/
theorem Moored.replaceNode_unfit (ha : a.WellOwned) (hout : ¬ ReflTransGen a.OwnedBy x n)
    (hx : a.Unfit (some o) [some x]) :
    Ends (replaceNode p x t) (fun _ _ => False) fun _ => Moored a root p n (some o) := by
  have hne : x ≠ n := by
    rintro rfl
    exact hout .refl
  have hwrite {t₁ : Tree} (h₁ : Moored a root p n (some o) t₁) {next : Option NodeId → TreeM Unit} :
      Ends ((writeSlot p (some x) >>= next) t₁) (fun _ _ => False) fun _ =>
      Moored a root p n (some o) :=
    ends_bind.2 ((h₁.writeSlot_unfit hne hx).imp (fun _ _ h => h.elim) fun _ _ h => h)
  have htake : takeFrom (some x) (some n) t = .ok ⟨⟩ t :=
    run_takeFrom_of_outside (by rw [h.arena]; exact ha.owned) (by rwa [h.arena])
  unfold replaceNode
  rw [run_get_bind, h.stands.node, if_pos (by simpa using hne), run_bind_of_ok htake]
  dsimp only
  rw [run_get_bind]
  cases t.parentPath p with
  | none => exact hwrite h
  | some parent =>
    dsimp only
    split
    · exact hwrite h
    · exact ends_bind.2 ((stays_iff.1 ((Moored.crawls ha).scopeOf parent) _ h).imp
        (fun _ _ h₁ => hwrite h₁) fun _ _ h₁ => h₁)

end Moored

theorem run_mapM_expressionOf : ∀ {nodes : List (Option NodeId)},
    (∀ id ∈ nodes, t.arena.is id .expressionStatement = false) →
    nodes.mapM expressionOf t = .ok nodes t
  | [], _ => rfl
  | id :: nodes, h => by
    have hid : expressionOf id t = .ok id t := by
      unfold expressionOf
      rw [run_get_bind, if_neg (by simp [h id (List.mem_cons_self ..)])]
      rfl
    have hrest := run_mapM_expressionOf fun id' hid' => h id' (List.mem_cons_of_mem _ hid')
    rw [List.mapM_cons, run_bind_of_ok hid, run_bind_of_ok hrest]
    rfl

theorem run_spreadComments {old first last : Option NodeId}
    (h : (t.arena.look old).elim {} (·.comments) = {}) :
    spreadComments old first last t = .ok ⟨⟩ t := by
  have hold : t.arena.update old ({ · with comments := {} }) = t.arena := by
    refine update_eq_self fun k hk => ?_
    rw [hk] at h
    exact congrArg (fun c => { k with comments := c }) (Eq.symm h)
  have hgiven (id : Option NodeId) (f : NodeComments → NodeComments) (hf : ∀ c, f c = c) :
      t.arena.update id (fun k => { k with comments := f k.comments }) = t.arena :=
    update_eq_self fun k _ => congrArg (fun c => { k with comments := c }) (hf k.comments)
  unfold spreadComments
  refine congrArg (EStateM.Result.ok PUnit.unit) ?_
  dsimp only
  rw [h, hold, hgiven first (·.absorb {}) NodeComments.absorb_empty,
    hgiven last (fun c => { c with trailing := c.trailing ++ [] }) fun c => by rw [List.append_nil]]

section Edits

variable {owner : Option NodeId} (ha : a.WellOwned) (hlive : assertLive p t = .ok () t₁)
  (hagain : assertLive p t₁ = .ok () t₁) (h : Moored a root p n owner t₁)

include ha hlive h

/-- Statements in place of an expression: they become the children of a new node, or the one
expression comes to the place. Unless there is an expression to be taken out of one of them, this is
found out first. -/
theorem ends_replaceWithStatements_unfit (hnodes : a.Unfit none nodes)
    (hone : ∀ x, nodes = [some x] → ¬ ReflTransGen a.OwnedBy x n
      ∧ (owner = none → a.size ≤ x.index))
    (hplain : (∀ id ∈ nodes, a.is id .expressionStatement = true ∨ a.isA id .expression = true) →
      ∀ id ∈ nodes, a.is id .expressionStatement = false) :
    Ends (replaceWithStatements p nodes t) (fun _ _ => False) fun _ => Moored a root p n owner := by
  obtain rfl := h.arena
  have hmade {w : ArenaM NodeId} {next : NodeId → TreeM Unit}
      (hw : Ends (w t₁.arena) (fun _ _ => False) fun _ b => b = t₁.arena) :
      Ends ((TreeM.edit w >>= next) t₁) (fun _ _ => False) fun _ =>
      Moored t₁.arena root p n owner :=
    ends_bind.2 ((ends_edit_unfit hw).imp (fun _ _ h => h.elim) fun _ t' heq => by rwa [heq])
  have hne : nodes ≠ [] := by
    rintro rfl
    rcases hnodes with ⟨x, hx, -⟩ | hdup
    · cases hx
    · exact hdup .nil
  unfold replaceWithStatements
  rw [run_bind_of_ok hlive, run_get_bind, if_neg (by simpa using hne)]
  split
  · next htest =>
    have hall : ∀ id ∈ nodes, t₁.arena.is id .expressionStatement = true
        ∨ t₁.arena.isA id .expression = true := by simpa using htest
    unfold replaceWithSequence
    rw [run_bind_of_ok (run_mapM_expressionOf (hplain hall))]
    split
    · next x =>
      obtain ⟨hout, hroot⟩ := hone x rfl
      have hlt : x.index < t₁.arena.size := by
        rcases hall _ (List.mem_singleton.2 rfl) with hty | hty
        · obtain ⟨k, hk, -⟩ := is_some.1 hty
          exact get?_eq_some_lt hk
        · obtain ⟨k, hk, -⟩ := isA_some.1 hty
          exact get?_eq_some_lt hk
      cases owner with
      | none => exact absurd hlt (Nat.not_lt.2 (hroot rfl))
      | some o => exact h.replaceNode_unfit ha hout hnodes.of_none
    · exact hmade (ends_build_unfit (by simp) (List.mem_singleton.2 rfl) hnodes)
  · unfold replaceWithCall
    exact hmade (ends_build_unfit (by simp) (List.mem_singleton.2 rfl) hnodes)

theorem ends_insert_unfit (hne : nodes ≠ []) (hsplice : ∀ q t₂,
      insertionTarget (t₁.paths.size + t₁.arena.size + 2) p t₁ = .ok q t₂ →
      t₂.wraps q = false ∧ a.Unfit (t₂.parentNode q) nodes) :
    Ends (insertBefore p nodes t) (fun _ _ => False) (fun _ => Moored a root p n owner)
      ∧ Ends (insertAfter p nodes t) (fun _ _ => False) fun _ => Moored a root p n owner := by
  have hbeside {q : PathId} {t₂ : Tree} (h₂ : Moored a root p n owner t₂)
      (hbad : a.Unfit (t₂.parentNode q) nodes) (list : String) (j : Nat) :
      Ends (insertBeside q list j nodes t₂) (fun _ _ => False) fun _ =>
      Moored a root p n owner := by
    rw [← h₂.arena] at hbad
    unfold insertBeside
    rw [run_get_bind]
    cases t₂.parentPath q with
    | none => exact h₂
    | some parent =>
      exact ends_bind.2 ((ends_edit_unfit (ends_listInsert_unfit hbad list j)).imp
        (fun _ _ h => h.elim)
        fun _ t' heq => by rwa [heq])
  have hwith {insertHere : PathId → List (Option NodeId) → TreeM (List PathId)}
      (hhere : ∀ q t₂, Moored a root p n owner t₂ → t₂.wraps q = false →
        a.Unfit (t₂.parentNode q) nodes →
        Ends (insertHere q nodes t₂) (fun _ _ => False) fun _ => Moored a root p n owner) :
      Ends (insertWith insertHere p nodes t) (fun _ _ => False) fun _ =>
      Moored a root p n owner := by
    unfold insertWith
    rw [run_bind_of_ok hlive, if_neg (by simpa using hne), run_get_bind, run_get_bind,
      ends_bind, ends_iff]
    have hkept (fuel : Nat) := stays_iff.1 ((Moored.charted ha).insertionTarget fuel p) t₁ h
    refine ⟨fun q t₂ hrun => ?_, fun e t₂ hrun => (hkept _).of_error hrun⟩
    obtain ⟨hwrap, hbad⟩ := hsplice q t₂ hrun
    exact hhere q t₂ ((hkept _).of_ok hrun) hwrap hbad
  refine ⟨hwith fun q t₂ h₂ hwrap hbad => ?_, hwith fun q t₂ h₂ hwrap hbad => ?_⟩
  all_goals
    obtain ⟨hexpr, hbody⟩ := Bool.or_eq_false_iff.1 hwrap
  · unfold insertBeforeHere
    rw [run_get_bind]
    simp only [hexpr, hbody, Bool.false_eq_true, if_false]
    cases t₂.slot q with
    | entry list i => exact hbeside h₂ hbad _ _
    | field name => exact h₂
    | root => exact h₂
  · unfold insertAfterHere
    rw [run_get_bind]
    simp only [hexpr, hbody, Bool.false_eq_true, if_false]
    cases t₂.slot q with
    | entry list i => exact hbeside h₂ hbad _ _
    | field name => exact h₂
    | root => exact h₂

section Replace

variable (hout : ¬ ReflTransGen a.OwnedBy x n) (hx : a.Unfit owner [some x])
  (hroot : owner = none → a.size ≤ x.index) (hco : t₁.coerces p x = true → a.Unfit none [some x]
    ∧ a.is (some x) .expressionStatement = false)

include hagain hout hx hroot hco

/-- A node in place of another. It may have to be adapted, unless it is a statement around an
expression. -/
theorem ends_replaceSome_unfit :
    Ends (replaceSome p x t) (fun _ _ => False) fun _ => Moored a root p n owner := by
  obtain rfl := h.arena
  have hne : n ≠ x := by
    rintro rfl
    exact hout .refl
  unfold replaceSome
  rw [run_bind_of_ok hlive, run_get_bind]
  dsimp only
  rw [if_neg (by simpa [h.stands.node] using hne)]
  cases hk : t₁.arena.get? x with
  | none => exact h
  | some k =>
    dsimp only
    rw [coerces_eq hk] at hco
    split
    · exact h
    · split
      · next hwrap =>
        rw [h.stands.node, run_bind_of_ok (run_takeFrom_of_outside ha.owned hout)]
        have hbad := (hco (by simp_all)).1
        exact ends_bind.2 ((ends_edit_unfit
          (ends_build_unfit (by simp) (List.mem_singleton.2 rfl) hbad)).imp
          (fun _ _ h => h.elim) fun _ t' heq => by rwa [heq])
      · split
        · next hcall =>
          obtain ⟨hbad, hplain⟩ := hco (by simp_all)
          refine ends_replaceWithStatements_unfit ha hagain h hbad (fun y hy => ?_)
            fun _ id hid => ?_
          · obtain rfl : x = y := by simpa using hy
            exact ⟨hout, hroot⟩
          · rwa [List.mem_singleton.1 hid]
        · cases owner with
          | none => exact absurd (get?_eq_some_lt hk) (Nat.not_lt.2 (hroot rfl))
          | some o => exact h.replaceNode_unfit ha hout hx

/-- The first of several nodes in place of one. If there are no comments to hand on, this is found
out first. -/
theorem ends_replaceWithMultiple_unfit (rest : List (Option NodeId))
    (hcomments : (a.look (some n)).elim {} (·.comments) = {}) :
    Ends (replaceWithMultiple p (some x :: rest) t) (fun _ _ => False) fun _ =>
    Moored a root p n owner := by
  have hspread : spreadComments (some n) (some x) (rest.getLast?.getD (some x)) t₁ = .ok ⟨⟩ t₁ :=
    run_spreadComments (by rwa [h.arena])
  unfold replaceWithMultiple
  rw [run_bind_of_ok hlive]
  dsimp only
  rw [run_get_bind, h.stands.node, run_bind_of_ok hspread]
  exact ends_bind.2 ((ends_replaceSome_unfit ha hagain hagain h hout hx hroot hco).mono fun _ _
    h => h.elim)

end Replace

end Edits

/-- **Refused edits leave the tree as it was.** In a tree in use the nodes of which have single
owners, let a path be found live, and let the arguments of an edit be unfit for where they are to
go. Then the edit fails, nothing that is reachable has changed and the path still holds its node, if

* a node replaces another: it does not come from there, and no statement has to become its
  expression;
* the first of several nodes replaces: there are no comments to hand on either;
* statements replace an expression: there is no expression to be taken out of one of them;
* nodes are inserted: what they come next to need not be wrapped.

The place of the root takes any node that there is. -/
theorem Reached.edits_refused (h : t.Reached) (ht : t.WellOwned) (hn : t.node p = some n)
    (hlive : assertLive p t = .ok () t₁) :
    (∀ x, ¬ ReflTransGen t.arena.OwnedBy x n → t.arena.Unfit (t.arena.parentOf (some n)) [some x] →
        (t.arena.parentOf (some n) = none → t.arena.size ≤ x.index) →
        (t₁.coerces p x = true → t.arena.Unfit none [some x]
          ∧ t.arena.is (some x) .expressionStatement = false) →
      Refused p t (replaceWith p (some x) t) ∧ Refused p t (replaceInline p [some x] t)
        ∧ ∀ rest, (t.arena.look (some n)).elim {} (·.comments) = {} →
          Refused p t (replaceWithMultiple p (some x :: rest) t)
            ∧ ((t₁.slot p).list? = none → Refused p t (replaceInline p (some x :: rest) t)))
    ∧ (∀ nodes, t.arena.Unfit none nodes →
        (∀ x, nodes = [some x] → ¬ ReflTransGen t.arena.OwnedBy x n
          ∧ (t.arena.parentOf (some n) = none → t.arena.size ≤ x.index)) →
        ((∀ id ∈ nodes, t.arena.is id .expressionStatement = true
          ∨ t.arena.isA id .expression = true) →
          ∀ id ∈ nodes, t.arena.is id .expressionStatement = false) →
      Refused p t (replaceWithStatements p nodes t))
    ∧ ∀ nodes, nodes ≠ [] →
        (∀ q t₂, insertionTarget (t₁.paths.size + t₁.arena.size + 2) p t₁ = .ok q t₂ →
          t₂.wraps q = false ∧ t.arena.Unfit (t₂.parentNode q) nodes) →
      Refused p t (insertBefore p nodes t) ∧ Refused p t (insertAfter p nodes t)
        ∧ ((t₁.slot p).list? ≠ none → nodes.length ≠ 1 →
          Refused p t (replaceInline p nodes t)) := by
  obtain ⟨⟨owner, hmoored⟩, hagain⟩ := exists_moored h.rooted ht.arena hn hlive
  obtain rfl : owner = t.arena.parentOf (some n) := by
    cases owner with
    | none => exact (ht.root n (hmoored.root.symm.trans hmoored.stands.2.1)).symm
    | some o =>
      have hown : t₁.arena.OwnedBy n o :=
        Sits.owned (by rw [hmoored.arena]; exact ht.arena.owned) hmoored.stands
      rw [hmoored.arena] at hown
      exact Eq.symm hown
  have ha := ht.arena
  have hrefused {β : Type} {r : EStateM.Result TreeError Tree β}
      (hr : Ends r (fun _ _ => False) fun _ =>
      Moored t.arena t.root p n (t.arena.parentOf (some n))) : Refused p t r := by
    obtain ⟨e, t', heq, hkept⟩ := hr.exists_error
    exact ⟨e, t', heq, hkept.arena, hkept.root, hkept.stands.node.trans hn.symm⟩
  refine ⟨fun x hout hx hroot hco => ?_, fun nodes hnodes hone hplain => ?_,
    fun nodes hne hsplice => ?_⟩
  · have hsome := ends_replaceSome_unfit ha hagain hagain hmoored hout hx hroot hco
    have hinline : Refused p t (replaceInline p [some x] t) := by
      refine hrefused ?_
      unfold replaceInline
      rw [run_bind_of_ok hlive]
      exact ends_bind.2 (hsome.mono fun _ _ h => h.elim)
    refine ⟨hrefused (ends_replaceSome_unfit ha hlive hagain hmoored hout hx hroot hco), hinline,
      fun rest hcomments =>
        ⟨hrefused (ends_replaceWithMultiple_unfit ha hlive hagain hmoored hout hx hroot
        hco rest hcomments), fun hslot => ?_⟩⟩
    cases rest with
    | nil => exact hinline
    | cons y rest =>
      refine hrefused ?_
      unfold replaceInline
      rw [run_bind_of_ok hlive]
      dsimp only
      rw [run_get_bind, if_pos (by simp [hslot])]
      exact ends_replaceWithMultiple_unfit ha hagain hagain hmoored hout hx hroot hco _ hcomments
  · exact hrefused (ends_replaceWithStatements_unfit ha hlive hmoored hnodes hone hplain)
  · obtain ⟨hbefore, hafter⟩ := ends_insert_unfit ha hlive hmoored hne hsplice
    refine ⟨hrefused hbefore, hrefused hafter, fun hlist hlength => hrefused ?_⟩
    have hagain₁ := (ends_insert_unfit ha hagain hmoored hne hsplice).2
    unfold replaceInline
    rw [run_bind_of_ok hlive]
    split
    · exact absurd rfl hlength
    · rw [run_get_bind, if_neg (by simpa using hlist)]
      exact ends_bind.2 (hagain₁.mono fun _ _ h => h.elim)

/-- A statement of the program is refused in place of another, also as one of several, and next to
it. -/
theorem edits_refused_lookedUp : Refused ⟨2⟩ lookedUp (replaceWith ⟨2⟩ (some ⟨0⟩) lookedUp)
    ∧ Refused ⟨2⟩ lookedUp (replaceWithMultiple ⟨2⟩ [some ⟨0⟩, some ⟨3⟩] lookedUp)
    ∧ Refused ⟨2⟩ lookedUp (replaceWithStatements ⟨2⟩ [some ⟨3⟩, some ⟨0⟩] lookedUp)
    ∧ Refused ⟨2⟩ lookedUp (insertBefore ⟨2⟩ [some ⟨3⟩, some ⟨0⟩] lookedUp)
    ∧ Refused ⟨2⟩ lookedUp (replaceInline ⟨2⟩ [some ⟨3⟩, some ⟨0⟩] lookedUp) := by
  have ht : lookedUp.WellOwned := by
    refine ⟨Arena.wellOwned_runAll _, fun r hr => ?_⟩
    obtain rfl : ⟨2⟩ = r :=
      Option.some.inj ((by decide +kernel : some ⟨2⟩ = lookedUp.root).trans hr)
    decide +kernel
  have hlive : passes (assertLive ⟨2⟩ lookedUp) (fun _ t => !t.coerces ⟨2⟩ ⟨0⟩
      && (t.slot ⟨2⟩).list?.isSome
      && passes (insertionTarget (t.paths.size + t.arena.size + 2) ⟨2⟩ t) fun q t' =>
        !t'.wraps q && t'.parentNode q == some ⟨2⟩) = true := by decide +kernel
  obtain ⟨_, t₁, hlive, htest⟩ := ok_of_passes hlive
  simp only [Bool.and_eq_true, Bool.not_eq_true'] at htest
  obtain ⟨⟨hco, hlist⟩, htarget⟩ := htest
  obtain ⟨q, t₂, htarget, hsplice⟩ := ok_of_passes htarget
  simp only [Bool.and_eq_true, Bool.not_eq_true', beq_iff_eq] at hsplice
  obtain ⟨hreplaced, hstatements, hinserted⟩ := reached_lookedUp.edits_refused ht
    (p := ⟨2⟩) (n := ⟨1⟩) (by decide +kernel) hlive
  have howned : lookedUp.arena.parentOf (some ⟨0⟩) ≠ none := by decide +kernel
  have hout : ¬ ReflTransGen lookedUp.arena.OwnedBy ⟨0⟩ ⟨1⟩ := fun hin => by
    have hwithin := (isWithin_iff ht.arena.owned).2 hin
    revert hwithin
    decide +kernel
  have hunfit {o : Option NodeId} {nodes : List (Option NodeId)} (hmem : some ⟨0⟩ ∈ nodes) :
      lookedUp.arena.Unfit o nodes := .inl ⟨⟨0⟩, hmem, .inr (.inl howned)⟩
  obtain ⟨hone, -, hmultiple⟩ := hreplaced ⟨0⟩ hout (hunfit (by simp)) (fun hroot => by
    revert hroot
    decide +kernel) fun hco' => by
      cases hco.symm.trans hco'
  obtain ⟨hbefore, -, hinline⟩ := hinserted [some ⟨3⟩, some ⟨0⟩] (by simp) fun q' t' hrun => by
    obtain ⟨rfl, rfl⟩ : q = q' ∧ t₂ = t' := by
      simpa using htarget.symm.trans hrun
    exact ⟨hsplice.1, hunfit (by simp)⟩
  refine ⟨hone, (hmultiple [some ⟨3⟩] (by decide +kernel)).1, ?_, hbefore, ?_⟩
  · exact hstatements [some ⟨3⟩, some ⟨0⟩]
      (hunfit (by simp)) (fun x hx => by simp at hx) (by decide +kernel)
  · exact hinline (by simpa [Option.isSome_iff_ne_none] using hlist) (by decide)

def callAndEmpty : Arena := runAll [
  .alloc .identifier [.str "f", .node none],
  .alloc .identifier [.str "x", .node none],
  .alloc .callExpression [.node (some ⟨0⟩), .list [some ⟨1⟩]],
  .alloc .expressionStatement [.node (some ⟨2⟩)],
  .alloc .emptyStatement [],
  .alloc .program [.str "module", .list [], .list [some ⟨3⟩, some ⟨4⟩]]]

def argumentFound : Tree :=
  final (follow ⟨0⟩ "body.0.expression.arguments.0"
    (final (getRootPath (ofArena callAndEmpty (some ⟨5⟩) { noScope := true }))))

/-- An argument is wrapped before what is to come next to it is looked at: the empty statement is
refused, and what is left of the argument is a placeholder. -/
theorem insertBefore_attachedStatement : ∃ w t', argumentFound.at? w = some ⟨1⟩
    ∧ argumentFound.node ⟨3⟩ = some ⟨1⟩
    ∧ insertBefore ⟨3⟩ [some ⟨4⟩] argumentFound = .error (.shape (.alreadyAttached ⟨4⟩)) t'
    ∧ t'.at? w ≠ some ⟨1⟩ ∧ t'.node ⟨3⟩ ≠ some ⟨1⟩ := by
  have hfails : (match insertBefore ⟨3⟩ [some ⟨4⟩] argumentFound with
      | .error (.shape (.alreadyAttached x)) t => x == ⟨4⟩
        && t.at? [.entry "body" 0, .field "expression", .entry "arguments" 0] != some ⟨1⟩
        && t.node ⟨3⟩ != some ⟨1⟩
      | _ => false) = true := by decide +kernel
  split at hfails
  · next x t' hrun =>
    simp only [Bool.and_eq_true, beq_iff_eq, bne_iff_ne] at hfails
    obtain ⟨⟨rfl, hat⟩, hnode⟩ := hfails
    exact ⟨_, t', by decide +kernel, by decide +kernel, hrun, hat, hnode⟩
  · cases hfails

end Tree

end ScopedTree
