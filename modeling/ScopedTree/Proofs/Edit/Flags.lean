import ScopedTree.Proofs.Edit.Bodies

/-!
# Flags of arrow functions in a tree in use

* `PathCall.swap?`       what a call puts in place of another node;
* `PathCall.Plain`       calls that replace, remove and insert without rewriting an expression;
* `PathCall.Plain.ends_flags`     what one call makes of the flags;
* `Tree.Reached.flagsFit_steps`   **flags go on to fit as long as bodies keep their kind**.
-/

namespace ScopedTree

open ScopedTree.Tree Arena

variable {t t' t₁ t₂ : Tree} {p : PathId} {n x : NodeId} {c : PathCall}
  {steps : List (PathCall × Tree)}

/-! ## what a call replaces -/

namespace Tree

def swapRemoved? (p : PathId) (t : Tree) : Option Swap :=
  swapOnRemoval? (t.paths.size + t.arena.size + 2) p t

/-- Where the comments of the node at a path are handed on to those that take its place. -/
def spreadAt (p : PathId) (x : NodeId) (rest : List (Option NodeId)) (t : Tree) : Tree :=
  let t := final (assertLive p t)
  final (spreadComments (t.node p) (some x) (rest.getLast?.getD (some x)) t)

def swapSeveral? (p : PathId) (t : Tree) : List (Option NodeId) → Option Swap
  | [] => swapRemoved? p (final (assertLive p t))
  | none :: _ => none
  | some x :: rest => swapAt? p x (t.spreadAt p x rest)

/-- Nodes are inserted into a list next to a node that is no expression. -/
def InsertsEntries (p : PathId) (t : Tree) : Prop :=
  Ends (insertionPlace p t) (fun q t₁ => t₁.nodeIsA q .expression = false
    ∧ (t₁.slot q).list?.isSome)
    fun _ _ => True

theorem ends_remove_flags (h : t.Rooted 0) (ha : t.arena.WellOwned) (hn : t.node p = some n)
    (hturned : ∀ w ∈ swapRemoved? p t, w.turned = false) :
    Ends (remove p t) (fun _ t' => FlagsAfter t.arena (∀ w ∈ swapRemoved? p t, w.Kept) t') fun _
    _ => True := by
  unfold remove
  rw [run_get_bind]
  exact ends_removeUpTo_flags _ h ha hn hturned

theorem ends_replaceWithNone_flags (h : t.Rooted 0) (ha : t.arena.WellOwned)
    (hn : t.node p = some n) (hturned : ∀ w ∈ swapRemoved? p (final (assertLive p t)),
      w.turned = false) :
    Ends (replaceWith p none t) (fun _ t' => FlagsAfter t.arena
      (∀ w ∈ swapRemoved? p (final (assertLive p t)), w.Kept) t') fun _ _ => True := by
  unfold replaceWith
  dsimp only
  cases hlive : assertLive p t with
  | error e t₁ => exact ends_bind.2 (by rw [hlive]; trivial)
  | ok _ t₁ =>
    rw [hlive] at hturned
    obtain ⟨⟨owner, h₁⟩, -⟩ := exists_moored h ha hn hlive
    rw [run_bind_of_ok hlive, run_get_bind, h₁.stands.node]
    rw [← h₁.arena] at ha ⊢
    exact ends_remove_flags h₁.rooted ha h₁.stands.node hturned

theorem Held.spreadComments {a : Arena} {owner : Option NodeId} (h : Held a owner n p x t)
    (old first last : Option NodeId) : Held a owner n p x
    (final (spreadComments old first last t)) := by
  have hstep {t : Tree} (h : Held a owner n p x t) (id : Option NodeId)
      (f : NodeComments → NodeComments) :
      Held a owner n p x { t with arena := t.arena.update id fun k =>
        { k with comments := f k.comments } } :=
    h.of_content (Alike.update _ id fun _ => ⟨rfl, rfl⟩)
      (content_update_of_eq (f := fun k => { k with comments := f k.comments }) (fun _ => rfl) id)
  let comments := (t.arena.look old).elim {} (·.comments)
  exact hstep (hstep (hstep h old fun _ => {}) first (·.absorb { comments with trailing := [] }))
    last
    fun c => { c with trailing := c.trailing ++ comments.trailing }

theorem run_replaceWithMultiple (hlive : assertLive p t = .ok () t₁) (x : NodeId)
    (rest : List (Option NodeId)) : replaceWithMultiple p (some x :: rest) t = (do
      replaceSome p x
      if rest.isEmpty then return [p]
      return p :: (← insertAfter p rest) : TreeM (List PathId)) (t.spreadAt p x rest) := by
  have hfinal : final (assertLive p t) = t₁ := by rw [hlive]; rfl
  unfold replaceWithMultiple spreadAt
  rw [run_bind_of_ok hlive, hfinal]
  rfl

theorem ends_replaceWithMultiple_flags (h : t.Rooted 0) (ha : t.arena.WellOwned)
    (hn : t.node p = some n) {nodes : List (Option NodeId)}
    (hturned : ∀ w ∈ swapSeveral? p t nodes, w.turned = false)
    (hlist : ∀ x rest, nodes = some x :: rest → rest = []
      ∨ InsertsEntries p (final (replaceSome p x (t.spreadAt p x rest))))
    (hsome : nodes.head? ≠ some none) :
    Ends (replaceWithMultiple p nodes t) (fun _ t' => FlagsAfter t.arena
      (∀ w ∈ swapSeveral? p t nodes, w.Kept) t') fun _ _ => True := by
  cases hlive : assertLive p t with
  | error e t₁ => exact ends_bind.2 (by rw [hlive]; trivial)
  | ok _ t₁ =>
    obtain ⟨⟨owner, h₁⟩, -⟩ := exists_moored h ha hn hlive
    have hfinal : final (assertLive p t) = t₁ := by rw [hlive]; rfl
    rw [← h₁.arena] at ha ⊢
    rw [← h₁.arena] at h₁
    match nodes with
    | [] =>
      unfold swapSeveral? at hturned ⊢
      rw [hfinal] at hturned ⊢
      unfold replaceWithMultiple
      rw [run_bind_of_ok hlive]
      exact ends_bind.2 ((ends_remove_flags h₁.rooted ha h₁.stands.node hturned).mono
        fun _ _ h => h)
    | none :: rest => exact absurd rfl hsome
    | some x :: rest =>
      have h₂ : Held t₁.arena owner n p n (t.spreadAt p x rest) := by
        unfold spreadAt
        rw [hfinal]
        exact (h₁.held ha).spreadComments _ _ _
      have hlist := hlist x rest rfl
      unfold swapSeveral? at hturned ⊢
      dsimp only at hturned ⊢
      rw [run_replaceWithMultiple hlive]
      generalize t.spreadAt p x rest = t₂ at *
      have hput := ends_replaceSome_flags h₂.moored.rooted h₂.owned h₂.moored.stands.node hturned
      cases hrun : replaceSome p x t₂ with
      | error e t₃ => exact ends_bind.2 (by rw [hrun]; trivial)
      | ok _ t₃ =>
        have h₃ := Fitting.then ha h₂.trades.keepsArrows (hput.of_ok hrun)
        rw [run_bind_of_ok hrun]
        split
        · exact h₃
        · next hrest =>
          have hentries := hlist.resolve_left (by simpa using hrest)
          rw [hrun] at hentries
          refine ends_bind.2 ((insertsHere_after.ends_list h₃.1 hentries).mono fun _ t₄ h₄ => ?_)
          exact ⟨h₄.1, fun hfits => h₄.2.trans (h₃.2 hfits)⟩

end Tree

namespace PathCall

/-- What the call puts in place of another node. -/
def swap? : PathCall → Tree → Option Swap
  | edit (.replaceWith p (some x)), t => swapAt? p x t
  | edit (.replaceWith p none), t => swapRemoved? p (final (Tree.assertLive p t))
  | edit (.remove p), t => swapRemoved? p t
  | edit (.insertBefore p nodes), t | edit (.insertAfter p nodes), t => swapBeside? p nodes t
  | replaceWithMultiple p nodes, t => swapSeveral? p t nodes
  | _, _ => none

/-- What the call is asked to do: nodes that it writes by itself fit, it replaces nodes that are
there, it inserts next to nodes that are no expressions, and all but the first of several nodes that
take the place of one go into its list. It does not hoist. -/
def Asked (t : Tree) : PathCall → Prop
  | edit (.hoist _) | replaceInline _ _ | replaceWithStatements _ _ => False
  | edit (.write w) => (w.run t.arena).FlagsFit
  | edit (.replaceWith p _) | edit (.remove p) => (t.node p).isSome
  | edit (.insertBefore p _) | edit (.insertAfter p _) => (t.node p).isSome
    ∧ Ends (insertionPlace p t) (fun q t₁ => t₁.nodeIsA q .expression = false) fun _ _ => True
  | replaceWithMultiple p nodes => (t.node p).isSome ∧ nodes.head? ≠ some none
    ∧ ∀ x rest, nodes = some x :: rest → rest = []
      ∨ InsertsEntries p (final (replaceSome p x (t.spreadAt p x rest)))
  | _ => True

/-- The call is one of those, and no statement has to be made an expression. -/
structure Plain (c : PathCall) (t : Tree) : Prop where
  asked : c.Asked t
  turned : ∀ w ∈ c.swap? t, w.turned = false

theorem Plain.known (h : c.Plain t) : c.Known t.paths.size := by
  have hlt {p : PathId} (hp : (t.node p).isSome) : p.index < t.paths.size := by
    obtain ⟨n, hn⟩ := Option.isSome_iff_exists.1 hp
    exact lt_of_node hn
  cases c with
  | edit e =>
    cases e with
    | replaceWith p node => exact hlt h.asked
    | hoist p => exact h.asked.elim
    | _ => trivial
  | replaceWithMultiple p nodes => exact hlt h.asked.1
  | replaceInline p nodes => exact h.asked.elim
  | replaceWithStatements p nodes => exact h.asked.elim
  | _ => trivial

/-- **A call leaves all flags fitting if and only if no body of an arrow function gives way to one
of the other kind.** -/
theorem Plain.ends_flags (hc : c.Plain t) (h : t.Rooted 0) (ha : t.arena.WellOwned) :
    Ends (c.run t) (fun _ t' => FlagsAfter t.arena (∀ w ∈ c.swap? t, w.Kept) t')
    fun _ _ => True := by
  have hturned := hc.turned
  have hasked := hc.asked
  -- calls that replace nothing
  have hnone {t' : Tree} (h' : Fitting t.arena t') :
      FlagsAfter t.arena (∀ w ∈ (none : Option Swap), w.Kept) t' :=
    h'.flagsAfter ha fun _ hw => nomatch hw
  have hlooked {x : TreeM Unit} (hx : Stays (Fitting t.arena) x) :
      Ends (x t) (fun _ t' => FlagsAfter t.arena (∀ w ∈ (none : Option Swap), w.Kept) t')
      fun _ _ => True :=
    (stays_iff.1 hx t (.refl ha)).imp (fun _ _ => hnone) fun _ _ _ => trivial
  have hfitting {α : Type} {x : TreeM α} (hx : Leads (Fitting t.arena) (fun _ _ => True) x) :
      Ends (discard x t) (fun _ t' => FlagsAfter t.arena (∀ w ∈ (none : Option Swap), w.Kept) t')
        fun _ _ => True :=
    ends_map.2 ((hx t (.refl ha)).mono fun _ _ => hnone)
  have hcrawls := (Fitting.nodal t.arena).crawls
  have hpaths := hcrawls.paths
  have hnode {p : PathId} (hp : (t.node p).isSome) := Option.isSome_iff_exists.1 hp
  cases c with
  | edit e =>
    cases e with
    | write w => exact ⟨⟨ha.owned.run w, ha.shaped.run w⟩, fun _ =>
      iff_of_true hasked fun _ hw => nomatch hw⟩
    | find p key => exact hlooked (hpaths.follow p key).discard
    | scope p => exact hlooked (hcrawls.scopeOf p).discard
    | replaceWith p node =>
      obtain ⟨n, hn⟩ := hnode hasked
      cases node with
      | none => exact ends_replaceWithNone_flags h ha hn hturned
      | some x => exact ends_replaceSome_flags h ha hn hturned
    | insertBefore p nodes =>
      obtain ⟨n, hn⟩ := hnode hasked.1
      exact ends_map.2 (insertsHere_before.ends_flags h ha hn hasked.2)
    | insertAfter p nodes =>
      obtain ⟨n, hn⟩ := hnode hasked.1
      exact ends_map.2 (insertsHere_after.ends_flags h ha hn hasked.2)
    | ensureBlock p =>
      exact ends_map.2 ((ends_ensureBlock_keepsArrows h ha p).mono fun _ _ => hnone)
    | pushContainer p key nodes => exact hfitting (Fitting.pushContainer p key nodes)
    | unshiftContainer p key nodes => exact hfitting (Fitting.unshiftContainer p key nodes)
    | remove p =>
      obtain ⟨n, hn⟩ := hnode hasked
      exact ends_remove_flags h ha hn hturned
    | hoist p => exact hasked.elim
  | replaceWithMultiple p nodes =>
    obtain ⟨n, hn⟩ := hnode hasked.1
    exact ends_map.2 (ends_replaceWithMultiple_flags h ha hn hturned hasked.2.2 hasked.2.1)
  | replaceInline p nodes => exact hasked.elim
  | replaceWithStatements p nodes => exact hasked.elim
  | root => exact hlooked hpaths.root.discard
  | pathFor id => exact hlooked (hpaths.pathFor id).discard
  | entries p key => exact hlooked (hpaths.entries p key).discard
  | resync p => exact hlooked (hpaths.resync p)
  | assertLive p => exact hlooked (hpaths.assertLive p)
  | request r p => exact hlooked (hpaths.request r p)
  | clear id =>
    have hbare : Alike t.arena (t.arena.update id Node.bare) :=
      Alike.update _ id fun _ => ⟨rfl, rfl⟩
    exact hnone (.of_content (hbare.wellOwned ha) hbare.size.ge
      (content_update_of_eq (f := Node.bare) (fun _ => rfl) id))
  | crawl s => exact hlooked (hcrawls.crawl s)
  | declare s id init kind unique =>
    exact ends_map.2 ((Fitting.declare h ha s id init kind unique).mono fun _ _ => hnone)

end PathCall

/-! ## runs of calls -/

namespace Tree

/-- Calls one after the other, each with the tree that it leaves. -/
def Performs : Tree → List (PathCall × Tree) → Prop
  | _, [] => True
  | t, (c, t') :: steps => c.Plain t ∧ c.run t = .ok () t' ∧ Performs t' steps

/-- No body of an arrow function gives way to one of the other kind. -/
def KindsKept : Tree → List (PathCall × Tree) → Prop
  | _, [] => True
  | t, (c, t') :: steps => (∀ w ∈ c.swap? t, w.Kept) ∧ KindsKept t' steps

theorem Rooted.flagsFit_run (h : t.Rooted 0) (ha : t.arena.WellOwned) (hfits : t.arena.FlagsFit)
    (hsteps : t.Performs steps) : (∀ s ∈ steps, s.2.arena.FlagsFit) ↔ t.KindsKept steps := by
  induction steps generalizing t with
  | nil => exact iff_of_true (fun _ hs => absurd hs List.not_mem_nil) trivial
  | cons s steps ih =>
    obtain ⟨c, t'⟩ := s
    obtain ⟨hc, hrun, hsteps⟩ := hsteps
    obtain ⟨ha', hiff⟩ := (hc.ends_flags h ha).of_ok hrun
    have h' : t'.Rooted 0 := by
      have hkept := Rooted.mono (Nat.zero_le _) (Rooted.call hc.known t h.all)
      rwa [hrun] at hkept
    rw [List.forall_mem_cons]
    have hstep := hiff hfits
    constructor
    · rintro ⟨hfits', hrest⟩
      exact ⟨hstep.1 hfits', (ih h' ha' hfits' hsteps).1 hrest⟩
    · rintro ⟨hkept, hrest⟩
      have hfits' := hstep.2 hkept
      exact ⟨hfits', (ih h' ha' hfits' hsteps).2 hrest⟩

/-- **The flags of arrow functions follow the bodies exactly as long as bodies keep their kind.** In
a tree in use the flags of all arrow functions say whether the bodies are expressions. Nodes are
made, replaced, removed and inserted, bodies are made blocks, names are declared, and paths are
looked up. Then the flags go on to do so after every call if and only if no call puts a block in
place of a body that is an expression, or something else in place of a block. -/
theorem Reached.flagsFit_steps (h : t.Reached) (ha : t.arena.WellOwned) (hfits : t.arena.FlagsFit)
    (hsteps : t.Performs steps) : (∀ s ∈ steps, s.2.arena.FlagsFit) ↔ t.KindsKept steps :=
  h.rooted.flagsFit_run ha hfits hsteps

/-- The program `x => x;`, another expression and a block. -/
def besideArrow : Arena := Arena.runAll [
  .alloc .identifier [.str "x", .node none],
  .alloc .identifier [.str "x", .node none],
  .alloc .arrowFunctionExpression
    [.list [some ⟨0⟩], .node (some ⟨1⟩), .node none, .node none, .bool false, .bool true],
  .alloc .expressionStatement [.node (some ⟨2⟩)],
  .alloc .program [.str "module", .list [], .list [some ⟨3⟩]],
  .alloc .nullLiteral [],
  .alloc .blockStatement [.list [], .list []]]

def bodyFound : Tree :=
  { final ((PathCall.edit (.find ⟨0⟩ "body.0.expression.body")).run (final (PathCall.root.run
      (ofArena besideArrow (some ⟨4⟩) { noScope := true })))) with arena := besideArrow }

theorem reached_bodyFound : bodyFound.Reached :=
  .arena _ (.call _ trivial (.call _ trivial (.start _ _ _)))

/-- The body is replaced and then made a block. -/
theorem flagsFit_bodyFound : ∃ t₁ t₂, replaceWith ⟨3⟩ (some ⟨5⟩) bodyFound = .ok () t₁
    ∧ (PathCall.edit (.ensureBlock ⟨2⟩)).run t₁ = .ok () t₂ ∧ t₁.arena.FlagsFit
    ∧ t₂.arena.FlagsFit := by
  have hok : passes (replaceWith ⟨3⟩ (some ⟨5⟩) bodyFound) (fun _ t =>
      passes ((PathCall.edit (.ensureBlock ⟨2⟩)).run t) fun _ _ => true) = true := by decide +kernel
  obtain ⟨_, t₁, hput, hok⟩ := ok_of_passes hok
  obtain ⟨_, t₂, hblock⟩ := exists_ok_of_passes hok
  have hplain : (PathCall.edit (.replaceWith ⟨3⟩ (some ⟨5⟩))).Plain bodyFound :=
    ⟨(by decide +kernel : (bodyFound.node ⟨3⟩).isSome = true), by decide +kernel⟩
  let steps : List (PathCall × Tree) :=
    [(.edit (.replaceWith ⟨3⟩ (some ⟨5⟩)), t₁), (.edit (.ensureBlock ⟨2⟩), t₂)]
  have hsteps : bodyFound.Performs steps :=
    ⟨hplain, hput, ⟨trivial, fun _ hw => nomatch hw⟩, hblock, trivial⟩
  have hkept : bodyFound.KindsKept steps := ⟨by decide +kernel, fun _ hw => (nomatch hw), trivial⟩
  have hall := (reached_bodyFound.flagsFit_steps (wellOwned_runAll _)
    (by decide +kernel) hsteps).2 hkept
  exact ⟨t₁, t₂, hput, hblock, hall _ (List.mem_cons_self ..),
    hall _ (List.mem_cons_of_mem _ (List.mem_cons_self ..))⟩

/-- A block that takes the place of an expression as the body of an arrow function leaves the flag
set. -/
theorem unfit_bodyFound : bodyFound.Reached ∧ bodyFound.arena.FlagsFit
    ∧ ∃ t', replaceWith ⟨3⟩ (some ⟨6⟩) bodyFound = .ok () t'
      ∧ t'.at? [.entry "body" 0, .field "expression"] = some ⟨2⟩
      ∧ t'.arena.arrowBody ⟨2⟩ = some ⟨6⟩ ∧ ¬ t'.arena.FlagFits ⟨2⟩ ⟨6⟩ := by
  have hok : passes (replaceWith ⟨3⟩ (some ⟨6⟩) bodyFound) (fun _ t =>
      decide (t.at? [.entry "body" 0, .field "expression"] = some ⟨2⟩)
        && decide (t.arena.arrowBody ⟨2⟩ = some ⟨6⟩) && decide ¬ t.arena.FlagFits ⟨2⟩ ⟨6⟩)
        = true := by
    decide +kernel
  obtain ⟨_, t', hrun, hok⟩ := ok_of_passes hok
  simp only [Bool.and_eq_true, decide_eq_true_eq] at hok
  exact ⟨reached_bodyFound, by decide +kernel, t', hrun, hok.1.1, hok.1.2, hok.2⟩

end Tree

end ScopedTree
