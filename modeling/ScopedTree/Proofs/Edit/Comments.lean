import ScopedTree.Proofs.Edit.Updates

/-!
# Where comments go

Writes of fields, crawls and insertions leave the comments of all nodes where they are. A node that
takes the place of another is given its comments; where several do, they are first spread over
these.

* `Arena.commentsOf`, `Arena.Told`   the comments of a node; nodes go on with given comments;
* `Arena.handed`, `Arena.spread`     the comments once those of a node went to another, or to two;
* `Tree.Tells`, `Tree.Tells.crawls`  a path goes on with its node, and nodes with their comments;
* `Tree.ends_replaceNode_tells`      what a replacement does to comments;
* `Tree.ends_insertAfter_comments`   an insertion after a statement does nothing to them;
* `Tree.comments_replaceWithMultiple`   **when comments are spread over the statements that replace
  one**.
-/

namespace ScopedTree

/-! ## comments of nodes -/

namespace Arena

variable {a b : Arena} {c : NodeId → NodeComments} {m n x first last : NodeId}

/-- The comments of a node. -/
def commentsOf (a : Arena) (m : NodeId) : NodeComments := (a.get? m).elim {} (·.comments)

/-- The comments once `x` was given those of `n`, behind its own. -/
def handed (c : NodeId → NodeComments) (n x m : NodeId) : NodeComments :=
  if m = x then (if x = n then {} else c x).absorb (c n) else if m = n then {} else c m

/-- The comments once those of `n` were spread: `first` is given the leading and inner ones and
`last` the trailing ones, behind their own. -/
def spread (c : NodeId → NodeComments) (n first last m : NodeId) : NodeComments :=
  let own := if m = n then {} else c m
  { leading := own.leading ++ if m = first then (c n).leading else []
    trailing := own.trailing ++ if m = last then (c n).trailing else []
    inner := own.inner ++ if m = first then (c n).inner else [] }

theorem handed_of_empty (h : c n = {}) (x : NodeId) : handed c n x = c := by
  funext m
  unfold handed
  rw [h, NodeComments.absorb_empty]
  split
  · next hm =>
    subst hm
    split
    · next hn => rw [hn, h]
    · rfl
  · split
    · next hn => rw [hn, h]
    · rfl

theorem spread_self (hfirst : n ≠ first) :
    spread c n first last n = { trailing := if n = last then (c n).trailing else [] } := by
  simp [spread, hfirst]

/-- The nodes of `a` go on as nodes of their type, and the comments are `c`. -/
structure Told (a : Arena) (c : NodeId → NodeComments) (b : Arena) : Prop where
  type : ∀ m ty, a.type? (some m) = some ty → b.type? (some m) = some ty
  comments : ∀ m, b.commentsOf m = c m

theorem told_self (h : ∀ m, a.commentsOf m = c m) : Told a c a := ⟨fun _ _ h => h, h⟩

theorem commentsOf_update (a : Arena) (id m : NodeId) (f : Node → Node) :
    (a.update (some id) f).commentsOf m
      = if m = id then (a.get? id).elim {} fun k => (f k).comments else a.commentsOf m := by
  unfold commentsOf
  rw [get?_update]
  split
  · cases a.get? id <;> rfl
  · rfl

theorem type?_update (a : Arena) (id : Option NodeId) {f : Node → Node}
    (hf : ∀ n, (f n).type = n.type) (m : NodeId) :
    (a.update id f).type? (some m) = a.type? (some m) := by
  cases id with
  | none => rfl
  | some id =>
    unfold type?
    rw [look_some, look_some, get?_update]
    split
    · next he =>
      subst he
      cases a.get? m with
      | none => rfl
      | some k => exact congrArg some (hf k)
    · rfl

theorem Told.valueless (a : Arena) (c : NodeId → NodeComments) : Valueless (Told a c) := by
  intro b id f hf h
  refine ⟨fun m ty hm => ?_, fun m => ?_⟩
  · rw [type?_update b id fun n => (hf n).1]
    exact h.type m ty hm
  · have hsame : SameComments b (b.update id f) := (SameComments.refl b).update id fun n => (hf n).2
    exact (hsame.elim m).trans (h.comments m)

theorem ends_build_told (h : ∀ m, b.commentsOf m = c m) (ty : NodeType)
    (fields : List (String × Value)) :
    Ends (build ty fields b) (fun x b' => Told b c b' ∧ b'.type? (some x) = some ty ∧ c x = {})
      fun _ _ => True := by
  refine ends_bind.2 (ends_ask.2 ⟨fun values _ => ?_, fun _ _ => trivial⟩)
  refine ends_bind.2 (ends_ask.2 ⟨fun _ _ => ?_, fun _ _ => trivial⟩)
  rw [ends_modifyGet]
  generalize hk : ({ type := ty, values } : Node) = k
  have hget (m : NodeId) : ({ b with nodes := b.nodes.push k } : Arena).get? m
      = if m = ⟨b.size⟩ then some k else b.get? m := get?_push b k m
  have hnone : b.get? ⟨b.size⟩ = none := Array.getElem?_eq_none (Nat.le_refl _)
  have hempty : c ⟨b.size⟩ = {} := by
    rw [← h]
    unfold commentsOf
    rw [hnone]
    rfl
  have hself : Told { b with nodes := b.nodes.push k } c { b with nodes := b.nodes.push k } := by
    refine told_self fun m => ?_
    unfold commentsOf
    rw [hget]
    split
    · next hm =>
      subst hk hm
      exact hempty.symm
    · exact h m
  have hset := (Told.valueless _ c).setParents (k.children.map some) (some ⟨b.size⟩) hself
  refine ⟨⟨fun m ty' hm => hset.type m ty' ?_, hset.comments⟩, hset.type _ ty ?_, hempty⟩
  · unfold type? at hm ⊢
    rw [look_some] at hm ⊢
    rw [hget, if_neg]
    · exact hm
    · rintro rfl
      rw [hnone] at hm
      cases hm
  · unfold type?
    rw [look_some, hget, if_pos rfl, ← hk]
    rfl

theorem isSome_get?_of_type (h : Told a c b) (hx : (a.type? (some x)).isSome) :
    (b.get? x).isSome := by
  obtain ⟨ty, hx⟩ := Option.isSome_iff_exists.1 hx
  obtain ⟨k, hk, -⟩ := Option.map_eq_some_iff.1 (h.type x ty hx)
  exact Option.isSome_iff_exists.2 ⟨k, hk⟩

theorem Told.recomment (h : Told a c b) (hx : (a.type? (some x)).isSome)
    (g : NodeComments → NodeComments) :
    Told a (Function.update c x (g (c x)))
      (b.update (some x) fun k => { k with comments := g k.comments }) := by
  obtain ⟨k, hk⟩ := Option.isSome_iff_exists.1 (isSome_get?_of_type h hx)
  refine ⟨fun m ty hm => ?_, fun m => ?_⟩
  · rw [type?_update]
    · exact h.type m ty hm
    · exact fun _ => rfl
  · have hown : k.comments = c x := by
      rw [← h.comments x]
      unfold commentsOf
      rw [hk]
      rfl
    rw [commentsOf_update, Function.update_apply, hk, ← h.comments m]
    split
    · exact congrArg g hown
    · rfl

theorem Told.handComments (h : Told a c b) (hn : (a.type? (some n)).isSome)
    (hx : (a.type? (some x)).isSome) : Told a (handed c n x) (b.handComments n x) := by
  have htold : (b.get? n).elim {} (·.comments) = c n := h.comments n
  have hall := (h.recomment hn fun _ => {}).recomment hx (·.absorb (c n))
  have heq : handed c n x = Function.update (Function.update c n {}) x
      ((Function.update c n {} x).absorb (c n)) := by
    funext m
    simp only [handed, Function.update_apply]
  rw [heq]
  unfold Arena.handComments
  rw [htold]
  exact hall

/-- What is done to nodes before one is replaced by several. -/
theorem Told.spread (h : Told a c b) (hn : (a.type? (some n)).isSome)
    (hfirst : (a.type? (some first)).isSome) (hlast : (a.type? (some last)).isSome) :
    Told a (spread c n first last)
      (((b.update (some n) ({ · with comments := {} })).update (some first) fun k =>
        { k with comments := k.comments.absorb { c n with trailing := [] } }).update
          (some last) fun k =>
          { k with comments := { k.comments with trailing := k.comments.trailing
            ++ (c n).trailing } }) := by
  have hall := ((h.recomment hn fun _ => {}).recomment hfirst
    (·.absorb { c n with trailing := [] })).recomment
    hlast fun d => { d with trailing := d.trailing ++ (c n).trailing }
  refine ⟨hall.type, fun m => (hall.comments m).trans ?_⟩
  unfold Arena.spread
  simp only [Function.update_apply, NodeComments.absorb]
  by_cases hml : m = last <;> by_cases hmf : m = first <;> by_cases hmn : m = n <;> simp_all

end Arena

namespace Tree

open Arena

variable {t t' t₁ : Tree} {a : Arena} {c : NodeId → NodeComments} {p q : PathId}
  {n m x : NodeId} {α : Type}

/-! ## paths and comments -/

/-- The path `p` holds `n`, the nodes of `a` go on as nodes of their type, and the comments are `c`.
-/
structure Tells (a : Arena) (c : NodeId → NodeComments) (p : PathId) (n : NodeId)
    (t : Tree) : Prop where
  told : a.Told c t.arena
  node : t.node p = some n

namespace Tells

theorem congr (h : Tells a c p n t) (harena : t'.arena = t.arena) (hnode : t'.node p = t.node p) :
    Tells a c p n t' := ⟨harena ▸ h.told, hnode.trans h.node⟩

theorem note (h : Tells a c p n t) (q : PathId) {f : PathData → PathData}
    (hf : ∀ d, (f d).node = d.node) :
    Tells a c p n (t.updatePath q f) := h.congr rfl (t.path_updatePath_congr q p f PathData.node hf)

theorem pushes (h : Tells a c p n t) {d : PathData} (hpush : t.Pushes t' d) : Tells a c p n t' :=
  h.congr hpush.arena (congrArg PathData.node (hpush.path_old (lt_of_node h.node)))

theorem getRootPath : Stays (Tells a c p n) Tree.getRootPath := by
  intro t h
  unfold Tree.getRootPath
  rw [run_get_bind]
  cases t.rootPath with
  | some q => exact h
  | none =>
    refine h.congr rfl (congrArg PathData.node ?_)
    show (t.paths.push _)[p.index]?.getD _ = t.paths[p.index]?.getD _
    rw [Array.getElem?_push_lt (lt_of_node h.node), Array.getElem?_eq_getElem]

theorem getOrCreatePath (parentPath : Option PathId) (o : Option NodeId) (slot : Slot) :
    Stays (Tells a c p n) (Tree.getOrCreatePath parentPath o slot) := by
  cases parentPath with
  | none => exact getRootPath
  | some q =>
    intro t h
    obtain ⟨p', -, hn, hrun⟩ | ⟨t', hrun, hpush⟩ := getOrCreatePath_cases t q o slot
    · rw [hrun]
      refine h.congr rfl ?_
      by_cases hp : p = p'
      · subst hp
        exact (congrArg PathData.node (path_updatePath_self t _ (lt_of_node h.node))).trans hn.symm
      · exact congrArg PathData.node (path_updatePath_ne t _ hp)
    · rw [hrun]
      exact h.pushes hpush

theorem looked : Looked (Tells a c p n) where
  note _ q _ hf h := h.note q fun d => congrArg (·.1.1) (hf d).1
  root := getRootPath
  child parentPath o slot _ := getOrCreatePath parentPath o slot

theorem charted : Charted (Tells a c p n) where
  toLooked := looked
  resync q := looked.stays_resync fun _ _ hf => stays_modify fun _ h => h.note q hf

theorem tableless : Tableless (Tells a c p n) where
  paths := charted
  scope _ _ _ _ h := h.congr rfl rfl
  bindings _ _ _ h := h.congr rfl rfl
  newScope _ _ _ _ h := h.congr rfl rfl

/-- Crawls leave the path with its node, and nodes with their comments. -/
theorem crawls : Crawls (Tells a c p n) 0 where
  __ := tableless.names
  stack _ q _ hf h := h.note q fun d => congrArg (·.1.1) (hf d)
  next _ _ := Nat.zero_le _
  depth _ _ h := h.congr rfl rfl
  push _ _ _ h := h.congr rfl rfl
  pop _ _ _ h := h.congr rfl rfl
  update _ _ _ _ _ h := h.congr rfl rfl

theorem queueNewPath (q : PathId) (priority : Bool) :
    Stays (Tells a c p n) (Tree.queueNewPath q priority) :=
  stays_queueNewPath (fun _ _ _ _ h => h.congr rfl rfl) q priority

theorem invalidate (h : Tells a c p n t) (d : Departure) : Tells a c p n (Tree.invalidate d t) :=
  crawls.invalidate (fun _ q h => h.note q fun _ => rfl) (fun _ _ _ h => h.congr rfl rfl) d t h

theorem shiftEntries (owner : Option NodeId) (list : String) (start : Nat) (move : Nat → Nat)
    (except : Option PathId) : Stays (Tells a c p n)
    (Tree.shiftEntries owner list start move except) := by
  refine stays_modify fun t h => ?_
  generalize t.cachedPaths owner = ps
  induction ps generalizing t with
  | nil => exact h
  | cons q ps ih =>
    refine ih _ ?_
    dsimp only
    split
    · exact h
    · refine h.note q fun d => ?_
      split
      · split <;> rfl
      · rfl

/-! ## writes -/

theorem edit {x : ArenaM α} (hx : Stays (a.Told c) x) : Stays (Tells a c p n) (TreeM.edit x) := by
  intro t h
  have htold := hx t.arena h.told
  unfold TreeM.edit
  dsimp only
  cases hr : x t.arena with
  | ok y b =>
    rw [hr] at htold
    exact ⟨htold, h.node⟩
  | error e b =>
    rw [hr] at htold
    exact ⟨htold, h.node⟩

theorem takeFrom (id old : Option NodeId) : Stays (Tells a c p n) (Tree.takeFrom id old) := by
  unfold Tree.takeFrom
  refine stays_get.bind fun t => ?_
  split
  · exact edit ((Told.valueless a c).take id)
  · exact stays_pure _

theorem writeSlot (q : PathId) (x : NodeId) : Stays (Tells a c p n)
    (Tree.writeSlot q (some x)) := by
  unfold Tree.writeSlot
  refine stays_get.bind fun t => ?_
  dsimp only
  split
  · exact Stays.bind (stays_modify fun _ h => h.congr rfl rfl) fun _ => stays_pure _
  · exact edit ((Told.valueless a c).setChild _ _ _)
  · exact edit ((Told.valueless a c).listSet _ _ _ _)

theorem refill (h : Tells a c p n t) {f : PathData → PathData} (hf : ∀ d, (f d).node = some x) :
    Tells a c p x (t.updatePath p f) :=
  ⟨h.told, (congrArg PathData.node (path_updatePath_self t f (lt_of_node h.node))).trans (hf _)⟩

theorem insertEntries (q : PathId) (owner : Option NodeId) (list : String) (i : Nat)
    (nodes : List (Option NodeId)) : Stays (Tells a c p n)
    (Tree.insertEntries q owner list i nodes) :=
  (edit ((Told.valueless a c).listInsert _ _ _ _)).bind fun _ =>
    (shiftEntries _ _ _ _ _).bind fun _ =>
    (Stays.mapM (fun _ => crawls.paths.entry _ _ _ _) _).bind fun ps =>
      (Stays.forM (fun k => (crawls.registerSubtree k).bind fun _ => queueNewPath k true) ps).bind
        fun _ => stays_pure _

theorem ends_build (h : Tells a c p n t) (ty : NodeType) (fields : List (String × Value)) :
    Ends (TreeM.edit (build ty fields) t) (fun x t' => Tells t.arena c p n t'
      ∧ t'.arena.type? (some x) = some ty ∧ c x = {}) fun _ _ => True := by
  refine (ends_edit (ends_build_told h.told.comments ty fields)).mono ?_
  rintro x _ ⟨b, ⟨htold, hx, hempty⟩, rfl⟩
  exact ⟨⟨htold, h.node⟩, hx, hempty⟩

theorem renew (h : Tells a c p n t) : Tells t.arena c p n t := ⟨told_self h.told.comments, h.node⟩

end Tells

/-- **A node that takes the place of another is given its comments.** -/
theorem ends_replaceNode_tells (h : Tells a c p n t) (hn : (a.type? (some n)).isSome)
    (hx : (a.type? (some x)).isSome) :
    Ends (replaceNode p x t) (fun _ t' => Tells a (handed c n x) p x t') fun _ _ => True := by
  have hrest (s : Tree) (hs : Tells a (handed c n x) p x s) : Ends ((do
      registerSubtree p
      requeue p : TreeM Unit) s) (fun _ t' => Tells a (handed c n x) p x t') fun _ _ => True :=
    (stays_iff.1 ((Tells.crawls.registerSubtree p).bind fun _ => (Tells.charted.modifyPath p _).bind
      fun _ => Tells.queueNewPath p true) s hs).imp (fun _ _ h => h) fun _ _ _ => trivial
  have hwrite (enclosing : Option ScopeId) {t : Tree} (h : Tells a c p n t) : Ends ((do
      let _ ← writeSlot p (some x)
      moveComments (some n) (some x)
      modify (·.updatePath p ({ · with node := some x, scope := none, stale := false }))
      modify (Tree.invalidate { old := n, keep := some x, holder := some p, enclosing })
      registerSubtree p
      requeue p : TreeM Unit) t) (fun _ t' => Tells a (handed c n x) p x t') fun _ _ => True := by
    refine ends_bind.2 ((stays_iff.1 (Tells.writeSlot p x) t h).imp (fun _ t₁ h₁ => ?_) fun _ _
      _ => trivial)
    rw [run_moveComments, run_modify_bind, run_modify_bind]
    have hmoved : Tells a (handed c n x) p n { t₁ with arena := t₁.arena.handComments n x } :=
      ⟨h₁.told.handComments hn hx, h₁.node⟩
    have hfilled : Tells a (handed c n x) p x
        ({ t₁ with arena := t₁.arena.handComments n x }.updatePath p
        ({ · with node := some x, scope := none, stale := false })) := hmoved.refill fun _ => rfl
    have hforgot := hfilled.invalidate { old := n, keep := some x, holder := some p, enclosing }
    generalize Tree.invalidate _ _ = s at hforgot ⊢
    exact hrest s hforgot
  unfold replaceNode
  rw [run_get_bind, h.node]
  have htake : Stays (Tells a c p n) (if some x != some n then takeFrom (some x) (some n)
      else pure ⟨⟩) := by
    split
    · exact Tells.takeFrom _ _
    · exact stays_pure _
  refine ends_guard ((stays_iff.1 htake t h).imp (fun _ t₁ h₁ => ?_) fun _ _ _ => trivial)
  dsimp only
  rw [run_get_bind]
  cases t₁.parentPath p with
  | none => exact hwrite none h₁
  | some parent =>
    dsimp only
    split
    · exact hwrite none h₁
    · exact ends_bind.2 ((stays_iff.1 (Tells.crawls.scopeOf parent) t₁ h₁).imp
        (fun enclosing _ h₂ => hwrite enclosing h₂) fun _ _ _ => trivial)

/-! ## statements in place of statements -/

theorem type?_of_isA {group : Alias} (h : a.isA (some m) group = true) :
    ∃ ty, a.type? (some m) = some ty ∧ ty.isA group = true := by
  unfold Arena.isA at h
  cases hty : a.type? (some m) with
  | none =>
    rw [hty] at h
    cases h
  | some ty =>
    rw [hty] at h
    exact ⟨ty, rfl, h⟩

theorem ends_replaceSome_tells (h : Tells a c p n t) (hn : a.isA (some n) .statement = true)
    (hx : a.isA (some x) .statement = true) : Ends (replaceSome p x t)
      (fun _ t' => Tells a (if x = n then c else handed c n x) p x t') fun _ _ => True := by
  obtain ⟨ty, hn, hstmt⟩ := type?_of_isA hn
  obtain ⟨ty', hx, hstmt'⟩ := type?_of_isA hx
  unfold replaceSome
  refine ends_bind.2 ((stays_iff.1 (Tells.charted.assertLive p) t h).imp (fun _ t₁ h₁ => ?_)
    fun _ _ _ => trivial)
  rw [run_get_bind]
  dsimp only
  rw [h₁.node]
  by_cases hxn : x = n
  · subst hxn
    rw [if_pos (beq_self_eq_true _), if_pos rfl]
    exact h₁
  · obtain ⟨k, hk, hty⟩ := Option.map_eq_some_iff.1 (h₁.told.type x ty' hx)
    have hk : t₁.arena.get? x = some k := hk
    have hplain : k.type.isA .expression = false := by
      rw [hty]
      exact not_isA_expression_of_statement hstmt'
    have hnode : t₁.nodeIsA p .expression = false := by
      unfold nodeIsA Arena.isA
      rw [h₁.node, h₁.told.type n ty hn]
      exact not_isA_expression_of_statement hstmt
    rw [if_neg (by simpa using Ne.symm hxn), if_neg hxn, hk]
    dsimp only
    rw [hplain, hnode]
    simp only [Bool.and_false, Bool.false_and, Bool.false_eq_true, if_false]
    split
    · trivial
    · exact ends_replaceNode_tells h₁ (by rw [hn]; rfl) (by rw [hx]; rfl)

/-! ## insertions after a statement -/

/-- The path holds something other than an expression, and the comments are `c`. -/
def NoExpression (c : NodeId → NodeComments) (p : PathId) (t : Tree) : Prop :=
  ∃ a n ty, Tells a c p n t ∧ a.type? (some n) = some ty ∧ ty.isA .expression = false

theorem NoExpression.nodeIsA (h : NoExpression c p t) : t.nodeIsA p .expression = false := by
  obtain ⟨a, n, ty, h, hty, hplain⟩ := h
  unfold Tree.nodeIsA Arena.isA
  rw [h.node, h.told.type n ty hty]
  exact hplain

theorem NoExpression.assertLive (h : NoExpression c p t) :
    Ends (Tree.assertLive p t) (fun _ t' => NoExpression c p t') fun _ _ => True := by
  obtain ⟨a, n, ty, h, hty⟩ := h
  exact (stays_iff.1 (Tells.charted.assertLive p) t h).imp (fun _ _ h' => ⟨a, n, ty, h', hty⟩)
    fun _ _ _ => trivial

theorem NoExpression.ends_insertionTarget {fuel : Nat} (h : NoExpression c p t) :
    Ends (insertionTarget fuel p t) (fun q t' => NoExpression c q t') fun _ _ => True := by
  induction fuel generalizing p t with
  | zero => trivial
  | succ fuel ih =>
    unfold insertionTarget
    refine ends_bind.2 (h.assertLive.mono fun _ t₁ h₁ => ?_)
    rw [run_get_bind]
    cases hq : t₁.statementWrapper? p with
    | none => exact h₁
    | some q =>
      obtain ⟨a, n, ty, h₁, -⟩ := h₁
      obtain ⟨-, hq⟩ := Option.filter_eq_some_iff.1 hq
      -- a statement made for an expression, or a label, is no expression
      have hwrap {ty : NodeType} (hty : t₁.nodeIs q ty = true)
          (hplain : ty.isA .expression = false) :
          NoExpression c q t₁ := by
        cases hm : t₁.node q with
        | none =>
          unfold Tree.nodeIs at hty
          rw [hm] at hty
          cases hty
        | some m =>
          unfold Tree.nodeIs at hty
          rw [hm] at hty
          exact ⟨t₁.arena, m, ty, ⟨told_self h₁.told.comments, hm⟩, by
            simpa [Arena.is] using hty, hplain⟩
      rcases (Bool.or_eq_true _ _).mp hq with hty | hty
      · exact ih (hwrap hty (by decide))
      · exact ih (hwrap hty (by decide))

theorem Tells.ends_detachForWrap (h : Tells a c p n t) : Ends (detachForWrap p t)
    (fun _ t' => ∃ b x, Tells b c p x t' ∧ (b.type? (some x)).isSome ∧ c x = {})
    fun _ _ => True := by
  unfold detachForWrap
  refine ends_bind.2 ((stays_iff.1 (Tells.charted.assertLive p) t h).imp (fun _ t₁ h₁ => ?_)
    fun _ _ _ => trivial)
  rw [run_get_bind]
  refine ends_bind.2 ((h₁.ends_build .noop []).mono ?_)
  rintro x t₂ ⟨h₂, hx, hempty⟩
  refine ends_bind.2 ((stays_iff.1 (Tells.writeSlot p x) t₂ h₂.renew).imp (fun _ t₃ h₃ => ?_)
    fun _ _ _ => trivial)
  exact ⟨t₂.arena, x, h₃.refill fun _ => rfl, by rw [hx]; rfl, hempty⟩

theorem Tells.ends_insertIntoBody (h : Tells a c p n t) (before after : List (Option NodeId)) :
    Ends (insertIntoBody p before after t) (fun _ t' => ∀ m, t'.arena.commentsOf m = c m)
      fun _ _ => True := by
  unfold insertIntoBody
  refine ends_bind.2 (h.ends_detachForWrap.mono ?_)
  rintro _ t₁ ⟨b, x, h₁, hx, hempty⟩
  rw [run_get_bind]
  refine ends_bind.2 ((h₁.ends_build .blockStatement _).mono ?_)
  rintro block t₂ ⟨h₂, hblock, -⟩
  obtain ⟨ty, hx⟩ := Option.isSome_iff_exists.1 hx
  have hx₂ : (t₂.arena.type? (some x)).isSome := by
    rw [h₂.told.type x ty (h₁.told.type x ty hx)]
    rfl
  refine ends_bind.2
    ((ends_replaceNode_tells h₂.renew hx₂ (by rw [hblock]; rfl)).mono fun _ t₃ h₃ => ?_)
  rw [handed_of_empty hempty] at h₃
  exact h₃.told.comments

/-- **To insert after what is no expression leaves all comments where they are.** -/
theorem ends_insertAfter_comments (h : NoExpression c p t) (nodes : List (Option NodeId)) :
    Ends (insertAfter p nodes t) (fun _ t' => ∀ m, t'.arena.commentsOf m = c m)
    fun _ _ => True := by
  unfold insertAfter insertWith
  refine ends_bind.2 (h.assertLive.mono fun _ t₁ h₁ => ?_)
  split
  · obtain ⟨a, n, ty, h₁, -⟩ := h₁
    exact h₁.told.comments
  · rw [run_get_bind, run_get_bind]
    refine ends_bind.2 (h₁.ends_insertionTarget.mono fun q t₂ h₂ => ?_)
    have hplain := h₂.nodeIsA
    obtain ⟨a, n, ty, h₂, -⟩ := h₂
    have hbeside (list : String) (i : Nat) : Ends (insertBeside q list i nodes t₂)
        (fun _ t' => ∀ m, t'.arena.commentsOf m = c m) fun _ _ => True := by
      unfold insertBeside
      rw [run_get_bind]
      cases t₂.parentPath q with
      | none => trivial
      | some parent =>
        exact (stays_iff.1 (Tells.insertEntries parent _ list i nodes) t₂ h₂).imp
          (fun _ _ h => h.told.comments)
          fun _ _ _ => trivial
    have hbody : Ends ((if t₂.isStatementBody q then insertIntoBody q [] nodes
          else throw (t₂.errorAt q "cannot insert statements next to this node") :
            TreeM (List PathId)) t₂)
        (fun _ t' => ∀ m, t'.arena.commentsOf m = c m) fun _ _ => True := by
      split
      · exact h₂.ends_insertIntoBody [] nodes
      · trivial
    unfold insertAfterHere
    rw [run_get_bind, if_neg (by rw [hplain]; exact Bool.false_ne_true)]
    cases t₂.slot q with
    | entry list i => exact hbeside list (i + 1)
    | root => exact hbody
    | field name => exact hbody

/-! ## several statements in place of one -/

section Several

variable {first : NodeId} {rest : List NodeId} {ps : List PathId} (hn : t.node p = some n)
  (hstmt : ∀ m ∈ n :: first :: rest, t.arena.isA (some m) .statement = true)

include hn hstmt

theorem ends_replaceWithMultiple_comments :
    Ends (replaceWithMultiple p ((first :: rest).map some) t) (fun _ t' => ∀ m,
      t'.arena.commentsOf m
      = if first = n then spread t.arena.commentsOf n first (rest.getLastD first) m
        else handed (spread t.arena.commentsOf n first (rest.getLastD first)) n first m)
          fun _ _ => True := by
  have hlast : (rest.map some).getLast?.getD (some first) = some (rest.getLastD first) := by
    rw [List.getLast?_map, List.getLastD_eq_getLast?]
    cases rest.getLast? <;> rfl
  have hmem : rest.getLastD first ∈ n :: first :: rest := by
    rw [List.getLastD_eq_getLast?]
    cases hr : rest.getLast? with
    | none => simp
    | some m => simp [List.mem_of_getLast? hr]
  have htype (m : NodeId) (hm : m ∈ n :: first :: rest) : (t.arena.type? (some m)).isSome := by
    obtain ⟨ty, hty, -⟩ := type?_of_isA (hstmt m hm)
    rw [hty]
    rfl
  have hfirst : first ∈ n :: first :: rest := by simp
  have hself : n ∈ n :: first :: rest := by simp
  generalize rest.getLastD first = last at hlast hmem
  unfold replaceWithMultiple
  have h : Tells t.arena t.arena.commentsOf p n t := ⟨told_self fun _ => rfl, hn⟩
  refine ends_bind.2 ((stays_iff.1 (Tells.charted.assertLive p) t h).imp (fun _ t₁ h₁ => ?_)
    fun _ _ _ => trivial)
  rw [List.map_cons]
  dsimp only
  rw [run_get_bind, h₁.node, hlast]
  unfold spreadComments
  rw [run_modify_bind]
  have hold : (t₁.arena.look (some n)).elim {} (·.comments) = t.arena.commentsOf n :=
    h₁.told.comments n
  dsimp only
  rw [hold]
  have hspread : Tells t.arena (spread t.arena.commentsOf n first last) p n
      { t₁ with arena := _ } :=
    ⟨h₁.told.spread (htype n hself) (htype first hfirst) (htype last hmem), h₁.node⟩
  refine ends_bind.2 ((ends_replaceSome_tells hspread (hstmt n hself) (hstmt first hfirst)).mono
    fun _ t₂ h₂ => ?_)
  have hcomments (m : NodeId) : t₂.arena.commentsOf m
      = if first = n then spread t.arena.commentsOf n first last m
        else handed (spread t.arena.commentsOf n first last) n first m := by
    rw [h₂.told.comments m]
    split <;> rfl
  split
  · exact hcomments
  · obtain ⟨ty, hty, hplain⟩ := type?_of_isA (hstmt first hfirst)
    have hafter : NoExpression _ p t₂ :=
      ⟨_, first, ty, h₂, hty, not_isA_expression_of_statement hplain⟩
    refine ends_bind.2 ((ends_insertAfter_comments hafter _).mono fun _ t₃ h₃ m => ?_)
    rw [h₃ m]
    split <;> rfl

/-- **When comments are spread over the statements that replace one.** Where the edit succeeds, the
leading and inner comments of the old statement are behind those of the first one given and the
trailing comments behind those of the last one, and all others are where they were, unless the old
statement comes last, behind others, and has trailing comments: these then end up at the first
statement. -/
theorem comments_replaceWithMultiple
    (hrun : replaceWithMultiple p ((first :: rest).map some) t = .ok ps t') :
    (∀ m, t'.arena.commentsOf m = spread t.arena.commentsOf n first (rest.getLastD first) m)
      ↔ (rest.getLastD first = n → first = n ∨ (t.arena.commentsOf n).trailing = []) := by
  have hall := (ends_replaceWithMultiple_comments hn hstmt).of_ok hrun
  generalize rest.getLastD first = last at hall ⊢
  by_cases hfirst : first = n
  · simp only [hfirst, if_pos] at hall ⊢
    exact iff_of_true hall fun _ => .inl trivial
  have hself : spread t.arena.commentsOf n first last n = _ := spread_self (Ne.symm hfirst)
  simp only [if_neg hfirst] at hall
  by_cases hlast : n = last ∧ (t.arena.commentsOf n).trailing ≠ []
  · -- the trailing comments come back to the old statement, which then hands them on
    obtain ⟨rfl, htrailing⟩ := hlast
    refine iff_of_false (fun h => htrailing ?_) fun h => (h rfl).elim hfirst htrailing
    have hgone : (handed (spread t.arena.commentsOf n first n) n first n).trailing = [] := by
      simp [handed, Ne.symm hfirst]
    rw [← hall, h, hself] at hgone
    simpa using hgone
  · have hempty : spread t.arena.commentsOf n first last n = {} := by
      rw [hself]
      split
      · next he =>
        rw [not_and, not_not] at hlast
        rw [hlast he]
      · rfl
    refine iff_of_true (fun m => ?_) fun he => .inr ?_
    · rw [hall, handed_of_empty hempty]
    · rw [not_and, not_not] at hlast
      exact hlast he.symm

end Several

/-- The second of two statements that were looked up has a comment on either side. -/
def remarked : Tree :=
  { lookedUp with arena := lookedUp.arena.update (some ⟨1⟩) ({ · with comments :=
      { leading := [{ kind := .block, value := "a" }],
        trailing := [{ kind := .line, value := "b" }] } }) }

/-- A statement is put behind the one with the comments. -/
theorem comments_remarked : ∃ ps t', replaceWithMultiple ⟨2⟩ [some ⟨1⟩, some ⟨3⟩]
    remarked = .ok ps t'
    ∧ ∀ m, t'.arena.commentsOf m = spread remarked.arena.commentsOf ⟨1⟩ ⟨1⟩ ⟨3⟩ m := by
  obtain ⟨ps, t', hrun⟩ := exists_ok_of_passes
    (r := replaceWithMultiple ⟨2⟩ [some ⟨1⟩, some ⟨3⟩] remarked) (by decide +kernel)
  have hstmt : ∀ m ∈ [(⟨1⟩ : NodeId), ⟨1⟩, ⟨3⟩], remarked.arena.isA (some m) .statement = true := by
    decide +kernel
  have hrun' : replaceWithMultiple ⟨2⟩ (((⟨1⟩ : NodeId) :: [⟨3⟩]).map some) remarked = .ok ps t' :=
    hrun
  exact ⟨ps, t', hrun,
    (comments_replaceWithMultiple (by decide +kernel) hstmt hrun').2 fun _ => .inl rfl⟩

/-- A statement is put before the one with the comments, and takes its trailing comment along. -/
theorem misplaced_remarked : ∃ ps t', replaceWithMultiple ⟨2⟩ [some ⟨3⟩, some ⟨1⟩]
    remarked = .ok ps t'
    ∧ (remarked.arena.commentsOf ⟨1⟩).trailing = [{ kind := .line, value := "b" }]
    ∧ (t'.arena.commentsOf ⟨1⟩).trailing = []
    ∧ (t'.arena.commentsOf ⟨3⟩).trailing = [{ kind := .line, value := "b" }] := by
  have hok : passes (replaceWithMultiple ⟨2⟩ [some ⟨3⟩, some ⟨1⟩] remarked) (fun _ t =>
      decide ((t.arena.commentsOf ⟨1⟩).trailing = [])
        && decide ((t.arena.commentsOf ⟨3⟩).trailing = [{ kind := .line, value := "b" }]))
        = true := by
    decide +kernel
  obtain ⟨ps, t', hrun, hok⟩ := ok_of_passes hok
  obtain ⟨hlast, hfirst⟩ := (Bool.and_eq_true _ _).mp hok
  exact ⟨ps, t', hrun, by decide +kernel, of_decide_eq_true hlast, of_decide_eq_true hfirst⟩

end Tree

end ScopedTree
