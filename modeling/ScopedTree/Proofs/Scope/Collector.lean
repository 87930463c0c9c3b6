import ScopedTree.Proofs.Pass.Handlers
import ScopedTree.Proofs.Pass.Refine
import ScopedTree.Proofs.Scope.Collect
import ScopedTree.Proofs.Scope.Resolve

/-!
# What a crawl collects

The pass of a crawl is to be the recursive walk that notes the nodes it enters. What it collects are
the reads and writes among them.

* `collectorDispatch`     the handlers of a crawl, with their keys read;
* `collectorWalk`         the walk that notes what it enters;
* `Tree.Announced`        the names that a node declares, and its label, are known;
* `Tree.Gathered`         what was collected belongs to what was entered;
* `Tree.Lasting`          facts that no handler undoes;
* `Collecting`            the state between two handlers of a node, before its children
  (`Collecting.enter`) and after them (`Collecting.exit`).
-/

namespace ScopedTree

open ScopedTree.Tree Arena

def collectorKeys : List VisitKey :=
  [.ofType (.ofGroup .forLoop), .ofType (.ofGroup .declaration), .ofCheck .blockScoped,
   .ofCheck .referencedIdentifier, .ofType (.ofGroup .forXStatement),
   .ofType (.ofGroup .exportDeclaration), .ofType (.ofType .labeledStatement),
   .ofType (.ofType .assignmentExpression), .ofType (.ofType .updateExpression),
   .ofType (.ofType .unaryExpression)]

/-- The handlers of a crawl with their keys read. -/
def collectorDispatch : Dispatch Collected where
  typed := List.zipWith (fun e k => ⟨k, e.phase, e.run⟩) collector.entries collectorKeys

theorem keysRead_collector : KeysRead collector.entries collectorKeys := by
  have hread : ∀ (key : String) (k : VisitKey) (e : VisitorEntry Collected), e.key = some key →
      ('|' ∉ key.toList ∧ VisitKey.ofName? (trimBlank key) = some k) →
      ∃ key, e.key = some key ∧ '|' ∉ key.toList
        ∧ VisitKey.ofName? (trimBlank key) = some k := fun key k e he h => ⟨key, he, h⟩
  refine .cons (hread "For" _ _ rfl (by decide)) <|
    .cons (hread "Declaration" _ _ rfl (by decide)) <|
    .cons (hread "BlockScoped" _ _ rfl (by decide)) <|
    .cons (hread "ReferencedIdentifier" _ _ rfl (by decide)) <|
    .cons (hread "ForXStatement" _ _ rfl (by decide)) <|
    .cons (hread "ExportDeclaration" _ _ rfl (by decide)) <|
    .cons (hread "LabeledStatement" _ _ rfl (by decide)) <|
    .cons (hread "AssignmentExpression" _ _ rfl (by decide)) <|
    .cons (hread "UpdateExpression" _ _ rfl (by decide)) <|
    .cons (hread "UnaryExpression" _ _ rfl (by decide)) .nil

theorem dispatch_collector : collector.dispatch = .ok collectorDispatch :=
  collector.dispatch_eq keysRead_collector

def collectorEngine : Engine Collected where
  dispatch := collectorDispatch
  assign := assignWith restartScope

theorem engineOf_collector (t : Tree) :
    engineOf collector (assignWith restartScope) t = .ok collectorEngine t := by
  unfold engineOf
  rw [dispatch_collector]
  rfl

theorem ends_collect {α : Type} {t : Tree} {f : Engine Collected → PassM Collected α}
    {Q : Collected → Tree → Prop} {E : TreeError → Tree → Prop} : Ends (collect f t) Q E
    ↔ Ends (f collectorEngine ⟨t, {}⟩) (fun _ s => Q s.own s.tree) fun e s => E e s.tree := by
  unfold collect
  rw [run_bind_of_ok (engineOf_collector t), ends_bind, ends_runPass]
  exact Iff.rfl

theorem traversePath_eq {σ : Type} {e : Engine σ} {t : Tree} {r n : NodeId} {p : PathId}
    {above : List NodeId} {s : ScopeId} {G : Ground r} (ht : G.Firm t) (hp : G.Place t p n above)
    (hscope : (t.path p).scope = some s) (hdetached : (t.scope s).detached = false) (steps : Nat)
    (own : σ) : e.traversePath steps p ⟨t, own⟩
      = (e.visitNode steps p (some n) >>= fun _ => pure ()) ⟨t, own⟩ := by
  have hensure : e.ensureScope p t = .ok ⟨⟩ t := by
    unfold Engine.ensureScope
    rw [run_get_bind]
    simp only [hscope, hdetached, Bool.false_eq_true, if_false]
    rfl
  have hstart : (do assertLive p; e.ensureScope p : TreeM Unit) t = .ok ⟨⟩ t := by
    rw [run_bind_of_ok (G.assertLive ht hp), hensure]
  unfold Engine.traversePath
  rw [run_onTree_bind hstart, run_ask_bind, G.node hp]

/-- The walk that notes the lines of the nodes it enters, the latest first. -/
def collectorWalk (a : Arena) : Walker (List (List NodeId)) where
  takes := collectorDispatch.shouldVisit a
  denied := collectorDispatch.isDenied
  arrive _ _ x := x
  call phase above n := fun x =>
    .ok (.go []) (match phase with | .enter => (n :: above) :: x | .exit => x)

/-! ## what is collected -/

namespace Tree

variable {a : Arena} {t t' : Tree} {r n m : NodeId} {p q : PathId} {above line : List NodeId}
  {x : List (List NodeId)} {c : Collected} {γ : Gaps}

/-- A path whose scope can be found: its line is known and not too long. -/
def Standing (t : Tree) (r : NodeId) (p : PathId) : Prop :=
  ∃ line, t.OnLine r p line ∧ line.length ≤ Limits.traversal + 3

theorem Standing.grows (h : t.Standing r p) (hg : t.Grows t') : t'.Standing r p := by
  obtain ⟨line, hline, hlen⟩ := h
  exact ⟨line, hline.grows hg, hlen⟩

theorem Below.standing (hp : t.Place r p n above) (key : String)
    (hq : t.Below p q (t.arena.child? (some n) key)) (hlen : above.length ≤ Limits.traversal + 1) :
    t.Standing r q := by
  cases hc : t.arena.child? (some n) key with
  | none =>
    rw [hc] at hq
    exact ⟨n :: above, .inr ⟨hq.node, p, n, above, hq.parentPath, hq.lt, hp, rfl⟩, by simp; omega⟩
  | some m =>
    rw [hc] at hq
    have hqp := Below.place hp hq (mem_children_of_child? hc)
    exact ⟨m :: n :: above, hqp.onLine, by simp; omega⟩

/-- The names that a node declares are in the table of the scope that they belong to, and its label
occurs. -/
structure Announced (a : Arena) (n : NodeId) (above : List NodeId) (t : Tree) : Prop where
  names : ∀ h, a.Homes n above h → t.OwnsAll h n
  label : a.is (some n) .labeledStatement → ∀ l, a.name? (a.child? (some n) "label") = some l →
    t.Occurs l

theorem Announced.adds (h : Announced a n above t) (ha : t.Adds t') : Announced a n above t' :=
  ⟨fun b hb => (h.names b hb).adds ha, fun hn l hl => ha.occurs l (h.label hn l hl)⟩

/-- What was collected belongs to the lines that were entered, all reads among those were collected,
and all names that they declare are known. -/
structure Gathered (a : Arena) (r : NodeId) (x : List (List NodeId)) (t : Tree) (c : Collected) :
    Prop where
  entered : ∀ line ∈ x, ∃ p n above, line = n :: above ∧ t.Place r p n above
    ∧ ((t.path p).scope = none → a.blocks line = [])
  reads : ∀ p ∈ c.references, ∃ n above, t.Place r p n above ∧ (n :: above) ∈ x ∧ a.isRead n above
  noted : ∀ n above, (n :: above) ∈ x → a.isRead n above →
    ∃ p ∈ c.references, t.Place r p n above
  announced : ∀ n above, (n :: above) ∈ x → Announced a n above t
  assignments : ∀ p ∈ c.assignments, ∃ n above, t.Place r p n above ∧ (n :: above) ∈ x
    ∧ a.is (some n) .assignmentExpression
  assigned : ∀ n above, (n :: above) ∈ x → a.is (some n) .assignmentExpression →
    ∃ p ∈ c.assignments, t.Place r p n above
  violations : ∀ p ∈ c.violations, t.Standing r p

theorem gathered_nil (a : Arena) (r : NodeId) (t : Tree) : Gathered a r [] t {} where
  entered _ h := nomatch h
  reads _ h := nomatch h
  noted _ _ h := nomatch h
  announced _ _ h := nomatch h
  assignments _ h := nomatch h
  assigned _ _ h := nomatch h
  violations _ h := nomatch h

theorem Gathered.mono (h : Gathered a r x t c) (ha : t.Adds t') : Gathered a r x t' c where
  entered line hline := by
    obtain ⟨p, n, above, rfl, hp, hnone⟩ := h.entered line hline
    refine ⟨p, n, above, rfl, hp.grows ha.grows, fun h' => hnone ?_⟩
    cases hs : (t.path p).scope with
    | none => rfl
    | some s =>
      rw [ha.scope p s hs] at h'
      cases h'
  reads p hp := by
    obtain ⟨n, above, hpl, hin⟩ := h.reads p hp
    exact ⟨n, above, hpl.grows ha.grows, hin⟩
  noted n above hin hread := by
    obtain ⟨p, hp, hpl⟩ := h.noted n above hin hread
    exact ⟨p, hp, hpl.grows ha.grows⟩
  announced n above hin := (h.announced n above hin).adds ha
  assignments p hp := by
    obtain ⟨n, above, hpl, hin⟩ := h.assignments p hp
    exact ⟨n, above, hpl.grows ha.grows, hin⟩
  assigned n above hin hn := by
    obtain ⟨p, hp, hpl⟩ := h.assigned n above hin hn
    exact ⟨p, hp, hpl.grows ha.grows⟩
  violations p hp := (h.violations p hp).grows ha.grows

/-- A node is entered, and what its handlers collected is what its place calls for. -/
theorem Gathered.enter (h : Gathered a r x t c) (hp : t.Place r p n above) {c' : Collected}
    (hscope : (t.path p).scope = none → a.blocks (n :: above) = [])
    (hreads : c'.references = if a.isRead n above then c.references ++ [p] else c.references)
    (hassign : c'.assignments
      = if a.is (some n) .assignmentExpression then c.assignments ++ [p] else c.assignments)
    (hannounced : Announced a n above t)
    (hviolations : ∀ q ∈ c'.violations, t.Standing r q) :
    Gathered a r ((n :: above) :: x) t c' where
  entered line hline := by
    rcases List.mem_cons.1 hline with rfl | hline
    · exact ⟨p, n, above, rfl, hp, hscope⟩
    · exact h.entered line hline
  reads q hq := by
    have hold : q ∈ c.references →
        ∃ m up, t.Place r q m up ∧ (m :: up) ∈ (n :: above) :: x ∧ a.isRead m up := by
      intro hq
      obtain ⟨m, up, hpl, hin, hread⟩ := h.reads q hq
      exact ⟨m, up, hpl, List.mem_cons_of_mem _ hin, hread⟩
    rw [hreads] at hq
    split at hq
    · next hread =>
      rcases List.mem_append.1 hq with hq | hq
      · exact hold hq
      · obtain rfl := List.mem_singleton.1 hq
        exact ⟨n, above, hp, List.mem_cons_self .., hread⟩
    · exact hold hq
  noted m up hin hread := by
    rw [hreads]
    rcases List.mem_cons.1 hin with heq | hin
    · obtain ⟨rfl, rfl⟩ := List.cons.inj heq
      rw [if_pos hread]
      exact ⟨p, List.mem_append_right _ (List.mem_singleton_self p), hp⟩
    · obtain ⟨q, hq, hpl⟩ := h.noted m up hin hread
      refine ⟨q, ?_, hpl⟩
      split
      · exact List.mem_append_left _ hq
      · exact hq
  announced m up hin := by
    rcases List.mem_cons.1 hin with heq | hin
    · obtain ⟨rfl, rfl⟩ := List.cons.inj heq
      exact hannounced
    · exact h.announced m up hin
  assigned m up hin hm := by
    rw [hassign]
    rcases List.mem_cons.1 hin with heq | hin
    · obtain ⟨rfl, rfl⟩ := List.cons.inj heq
      rw [if_pos hm]
      exact ⟨p, List.mem_append_right _ (List.mem_singleton_self p), hp⟩
    · obtain ⟨q, hq, hpl⟩ := h.assigned m up hin hm
      refine ⟨q, ?_, hpl⟩
      split
      · exact List.mem_append_left _ hq
      · exact hq
  assignments q hq := by
    have hold : q ∈ c.assignments → ∃ m up, t.Place r q m up ∧ (m :: up) ∈ (n :: above) :: x
        ∧ a.is (some m) .assignmentExpression := by
      intro hq
      obtain ⟨m, up, hpl, hin, hm⟩ := h.assignments q hq
      exact ⟨m, up, hpl, List.mem_cons_of_mem _ hin, hm⟩
    rw [hassign] at hq
    split at hq
    · next hn =>
      rcases List.mem_append.1 hq with hq | hq
      · exact hold hq
      · obtain rfl := List.mem_singleton.1 hq
        exact ⟨n, above, hp, List.mem_cons_self .., hn⟩
    · exact hold hq
  violations := hviolations

end Tree

/-! ## the handlers of a node -/

section Handlers

variable {a : Arena} {r n : NodeId} {p : PathId} {above : List NodeId} {s₀ s : Pass Collected}
  {refs asg : List PathId} {γ : Gaps} {φ ψ : Tree → Prop}

/-- Facts that no handler undoes. -/
def Tree.Lasting (φ : Tree → Prop) : Prop := ∀ t t', Tree.Advances t t' → φ t → φ t'

/-- The state between two handlers of a node: `refs` and `asg` are the reads and the assignments
collected so far, and `φ` is what the handlers brought about. -/
structure Collecting (a : Arena) (r : NodeId) (γ : Gaps) (s₀ : Pass Collected)
    (refs asg : List PathId) (φ : Tree → Prop) (s : Pass Collected) : Prop where
  registered : Registered a r γ s.tree
  advances : s₀.tree.Advances s.tree
  references : s.own.references = refs
  assignments : s.own.assignments = asg
  violations : ∀ q ∈ s.own.violations, s.tree.Standing r q
  facts : φ s.tree
  lasting : Tree.Lasting φ

theorem Collecting.unchanged (h : Collecting a r γ s₀ refs asg φ s) (hp : s₀.tree.Place r p n above)
    (hskip : (s₀.tree.path p).shouldSkip = false) (hstop : (s₀.tree.path p).shouldStop = false) :
    Engine.changed s.tree p (some n) = false := by
  have hflags := h.advances.control.flags p
  have hnode : (s.tree.path p).node = some n := (hp.grows h.advances.grows).node
  unfold Engine.changed
  dsimp only
  rw [hnode, PathData.shouldSkip_of_flags hflags, PathData.shouldStop_of_flags hflags, hskip, hstop,
    (h.registered.inScope.coherent.inUse p).1]
  simp

theorem Collecting.onTree {α : Type} {f : TreeM α} {Q : α → Tree → Prop}
    (h : Collecting a r γ s₀ refs asg φ s)
    (hf : Goes (Registered a r γ) (a.Warrants r) f s.tree Q) :
    Ends (PassM.onTree f s)
      (fun y s' => Collecting a r γ s₀ refs asg φ s' ∧ s.tree.Advances s'.tree ∧ Q y s'.tree)
      fun e _ => a.Warrants r e := by
  refine ends_onTree.2 (Ends.imp hf ?_ fun _ _ he => he)
  rintro y t' ⟨ht', ha, hQ⟩
  exact ⟨⟨ht', h.advances.trans ha, h.references, h.assignments,
    fun q hq => (h.violations q hq).grows ha.grows, h.lasting _ _ ha h.facts, h.lasting⟩, ha, hQ⟩

theorem Collecting.violation {q : PathId} (h : Collecting a r γ s₀ refs asg φ s)
    (hq : s.tree.Standing r q) : Collecting a r γ s₀ refs asg φ
      ⟨s.tree, { s.own with violations := s.own.violations ++ [q] }⟩ := by
  refine ⟨h.registered, h.advances, h.references, h.assignments, fun q' hq' => ?_, h.facts,
    h.lasting⟩
  rcases List.mem_append.1 hq' with hq' | hq'
  · exact h.violations q' hq'
  · obtain rfl := List.mem_singleton.1 hq'
    exact hq

theorem ends_note {σ : Type} {f : σ → σ} {s : Pass σ} {Q : Unit → Pass σ → Prop}
    {E : TreeError → Pass σ → Prop} : Ends (PassM.note f s) Q E ↔ Q () ⟨s.tree, f s.own⟩ := Iff.rfl

theorem Collecting.followTarget (h : Collecting a r γ s₀ refs asg φ s)
    (hp : s.tree.Place r p n above) (hlen : above.length ≤ Limits.traversal + 1) {key : String}
    (hkey : '.' ∉ key.toList) :
    Ends (PassM.onTree (follow p key) s)
      (fun q s' => Collecting a r γ s₀ refs asg φ s' ∧ s'.tree.Standing r q)
      fun e _ => a.Warrants r e := by
  refine (h.onTree (h.registered.follow hp hkey)).mono ?_
  rintro q s' ⟨h', ha, hq⟩
  refine ⟨h', Below.standing (hp.grows ha.grows) key ?_ hlen⟩
  rw [h'.registered.arena]
  exact hq

theorem ends_field (t : Tree) (p : PathId) (name : String) :
    Ends (field p name t) (fun _ t' => t' = t) fun e _ => ∃ err, e = .shape err := by
  unfold field
  rw [ends_bind, ends_get]
  cases (do (← t.arena.node (t.node p)).field name : Except ShapeError Value) with
  | error e => exact ⟨e, rfl⟩
  | ok v => exact rfl

section Turns

variable {ty : NodeType} {phase : Phase} {x : DispatchEntry Collected}
  {rest : List (DispatchEntry Collected)}
  {Q : Bool → Pass Collected → Prop}

theorem Collecting.turn (h : Collecting a r γ s₀ refs asg φ s) (refs' asg' : List PathId)
    (hp : s₀.tree.Place r p n above)
    (hskip : (s₀.tree.path p).shouldSkip = false) (hstop : (s₀.tree.path p).shouldStop = false)
    (hrun : x.phase = phase → x.key.covers ty → x.key.passes s.tree p →
      Ends (x.run p s) (fun _ s' => Collecting a r γ s₀ refs' asg' φ s') fun e _ => a.Warrants r e)
    (hleft : ¬ (x.phase = phase ∧ x.key.covers ty ∧ x.key.passes s.tree p) →
      refs' = refs ∧ asg' = asg)
    (hrest : ∀ s', Collecting a r γ s₀ refs' asg' φ s' →
      Ends (Engine.runHandlers p (some n) (Engine.turns p ty phase rest) s') Q
        fun e _ => a.Warrants r e) :
    Ends (Engine.runHandlers p (some n) (Engine.turns p ty phase (x :: rest)) s) Q
      fun e _ => a.Warrants r e := by
  refine Engine.ends_turns_cons (J := Collecting a r γ s₀ refs' asg' φ) (fun hph hc hpass => ?_)
    (fun hn => ?_) hrest
  · exact (hrun hph hc hpass).mono fun _ s' h' => ⟨h'.unchanged hp hskip hstop, h'⟩
  · obtain ⟨rfl, rfl⟩ := hleft hn
    exact h

theorem Collecting.treeTurn {key : VisitKey} {ph : Phase} {f : PathId → TreeM Unit}
    (h : Collecting a r γ s₀ refs asg φ s) (hp : s₀.tree.Place r p n above)
    (hskip : (s₀.tree.path p).shouldSkip = false) (hstop : (s₀.tree.path p).shouldStop = false)
    (hψ : Tree.Lasting ψ)
    (hf : ph = phase → key.covers ty → key.passes s.tree p →
      Goes (Registered a r γ) (a.Warrants r) (f p) s.tree fun _ t' => ψ t')
    (hleft : ¬ (ph = phase ∧ key.covers ty ∧ key.passes s.tree p) → ψ s.tree)
    (hrest : ∀ s', Collecting a r γ s₀ refs asg (fun t => φ t ∧ ψ t) s' →
      Ends (Engine.runHandlers p (some n) (Engine.turns p ty phase rest) s') Q
        fun e _ => a.Warrants r e) :
    Ends (Engine.runHandlers p (some n)
      (Engine.turns p ty phase (⟨key, ph, fun p => PassM.onTree (f p)⟩ :: rest)) s) Q
      fun e _ => a.Warrants r e := by
  have hboth : Tree.Lasting fun t => φ t ∧ ψ t :=
    fun t t' ha hφ => ⟨h.lasting t t' ha hφ.1, hψ t t' ha hφ.2⟩
  refine Engine.ends_turns_cons (J := Collecting a r γ s₀ refs asg fun t => φ t ∧ ψ t)
    (fun hph hc hpass => ?_) (fun hn => ?_) hrest
  · refine (h.onTree (hf hph hc hpass)).mono fun _ s' ⟨h', _, hψ'⟩ => ?_
    have h'' : Collecting a r γ s₀ refs asg (fun t => φ t ∧ ψ t) s' :=
      { h' with facts := ⟨h'.facts, hψ'⟩, lasting := hboth }
    exact ⟨h''.unchanged hp hskip hstop, h''⟩
  · exact { h with facts := ⟨h.facts, hleft hn⟩, lasting := hboth }

theorem Collecting.plainTurn {key : VisitKey} {ph : Phase} {f : PathId → TreeM Unit}
    (h : Collecting a r γ s₀ refs asg φ s) (hp : s₀.tree.Place r p n above)
    (hskip : (s₀.tree.path p).shouldSkip = false) (hstop : (s₀.tree.path p).shouldStop = false)
    (hf : ph = phase → key.covers ty → key.passes s.tree p →
      Goes (Registered a r γ) (a.Warrants r) (f p) s.tree fun _ _ => True)
    (hrest : ∀ s', Collecting a r γ s₀ refs asg φ s' →
      Ends (Engine.runHandlers p (some n) (Engine.turns p ty phase rest) s') Q
        fun e _ => a.Warrants r e) :
    Ends (Engine.runHandlers p (some n)
      (Engine.turns p ty phase (⟨key, ph, fun p => PassM.onTree (f p)⟩ :: rest)) s) Q
      fun e _ => a.Warrants r e := by
  refine h.turn refs asg hp hskip hstop (fun hph hc hpass => ?_) (fun _ => ⟨rfl, rfl⟩) hrest
  exact (h.onTree (hf hph hc hpass)).mono fun _ _ h' => h'.1

theorem isBlockScoped_of_lexical (hty : a.type? (some n) = some ty)
    (h : a.is (some n) .classDeclaration ∨ a.isLet (some n)) :
    VirtualType.blockScoped.mayCover ty = true ∧ a.isBlockScoped (some n) = true := by
  refine ⟨?_, ?_⟩
  · have hkind : a.is (some n) .classDeclaration ∨ a.is (some n) .variableDeclaration :=
      h.imp_right isLet_variableDeclaration
    simp only [Arena.is, hty, Option.some_beq_some, beq_iff_eq] at hkind
    rcases hkind with rfl | rfl <;> rfl
  · unfold isBlockScoped
    rcases h with h | h <;> simp [h]

theorem lasting_ownsAll {c : NodeId → Prop} : Tree.Lasting fun t => ∀ h, c h → t.OwnsAll h n :=
  fun _ _ ha hall h hc => (hall h hc).adds ha.toAdds

theorem Collecting.passes_ofCheck (h : Collecting a r γ s₀ refs asg φ s)
    (hp : s₀.tree.Place r p n above) (v : VirtualType) :
    (VisitKey.ofCheck v).passes s.tree p = v.admits a n above := by
  rw [← h.registered.arena,
    ← VirtualType.matches_eq h.registered.inScope.coherent (hp.grows h.advances.grows)]
  rfl

/-- The turns of the two handlers that register declarations. Its homes own what the node declares.
-/
theorem Collecting.declarationTurns (h : Collecting a r γ s₀ refs asg φ s)
    (hp : s₀.tree.Place r p n above) (hskip : (s₀.tree.path p).shouldSkip = false)
    (hstop : (s₀.tree.path p).shouldStop = false) (hlen : above.length ≤ Limits.traversal + 1)
    (hty : a.type? (some n) = some ty) (hrest : ∀ s',
      Collecting a r γ s₀ refs asg (fun t => φ t ∧ ∀ b, a.Homes n above b → t.OwnsAll b n) s' →
        Ends (Engine.runHandlers p (some n) (Engine.turns p ty .enter rest) s') Q
          fun e _ => a.Warrants r e) :
    Ends (Engine.runHandlers p (some n) (Engine.turns p ty .enter
        (⟨.ofType (.ofGroup .declaration), .enter, fun p => PassM.onTree (collectDeclaration p)⟩
          :: ⟨.ofCheck .blockScoped, .enter, fun p => PassM.onTree (collectBlockScoped p)⟩
          :: rest)) s) Q
      fun e _ => a.Warrants r e := by
  have hisA : a.isA (some n) .declaration = ty.isA .declaration := by simp [isA, hty]
  refine h.treeTurn hp hskip hstop (ψ := fun t => ∀ h, ((a.isA (some n) .declaration
      ∧ ¬ a.isA (some n) .exportDeclaration) ∧ ¬ a.is (some n) .classDeclaration
      ∧ ¬ a.isLet (some n))
      ∧ a.functionHome above = some h → t.OwnsAll h n) lasting_ownsAll (fun _ hc _ => ?_)
    (fun hn h hh => absurd ⟨rfl, hisA.symm.trans hh.1.1.1, rfl⟩ hn) fun s₁ h₁ => ?_
  · exact (h.registered.collectDeclaration (hp.grows h.advances.grows) hlen (hisA.trans hc)).mono
      fun _ _ _ _ hall h hh => hall hh.1.1.2 hh.1.2.1 hh.1.2.2 h hh.2
  refine h₁.treeTurn hp hskip hstop (ψ := fun t => ∀ h, (a.is (some n) .classDeclaration
      ∨ a.isLet (some n)) ∧ a.blockHome above = some h → t.OwnsAll h n) lasting_ownsAll
    (fun _ _ hpass => ?_) (fun hn h hh => ?_) fun s₂ h₂ => hrest s₂ ?_
  · exact (h₁.registered.collectBlockScoped (hp.grows h₁.advances.grows) hlen
      ((h₁.passes_ofCheck hp .blockScoped).symm.trans hpass)).mono
      fun _ _ _ _ hall h hh => hall hh.1 h hh.2
  · obtain ⟨hcovers, hscoped⟩ := isBlockScoped_of_lexical hty hh.1
    exact absurd ⟨rfl, hcovers, (h₁.passes_ofCheck hp .blockScoped).trans hscoped⟩ hn
  · obtain ⟨⟨hφ, hhoisted⟩, hlexical⟩ := h₂.facts
    have hlasting : Tree.Lasting fun t => φ t ∧ ∀ b, a.Homes n above b → t.OwnsAll b n :=
      fun t t' ha hφ => ⟨h.lasting t t' ha hφ.1, fun b hb => (hφ.2 b hb).adds ha.toAdds⟩
    refine { h₂ with facts := ⟨hφ, fun b hb => ?_⟩, lasting := hlasting }
    cases hb with
    | hoisted hn hplain hh => exact hhoisted b ⟨⟨hn, hplain⟩, hh⟩
    | lexical hn hh => exact hlexical b ⟨hn, hh⟩

theorem Collecting.readTurn (h : Collecting a r γ s₀ refs asg φ s) (hp : s₀.tree.Place r p n above)
    (hskip : (s₀.tree.path p).shouldSkip = false) (hstop : (s₀.tree.path p).shouldStop = false)
    (hty : a.type? (some n) = some ty)
    (hrest : ∀ s', Collecting a r γ s₀ (if a.isRead n above then refs ++ [p] else refs) asg φ s' →
      Ends (Engine.runHandlers p (some n) (Engine.turns p ty .enter rest) s') Q
      fun e _ => a.Warrants r e) :
    Ends (Engine.runHandlers p (some n) (Engine.turns p ty .enter
        (⟨.ofCheck .referencedIdentifier, .enter, fun p =>
          PassM.note fun c => { c with references := c.references ++ [p] }⟩ :: rest)) s) Q
      fun e _ => a.Warrants r e := by
  have hread : a.isRead n above = true ↔ VirtualType.referencedIdentifier.mayCover ty = true
      ∧ (VisitKey.ofCheck .referencedIdentifier).passes s.tree p = true := by
    unfold Arena.isRead
    rw [hty, Option.any_some, ← h.passes_ofCheck hp .referencedIdentifier, Bool.and_eq_true]
  refine h.turn _ asg hp hskip hstop (fun _ hc hpass => ?_)
    (fun hn => ⟨if_neg fun hr => hn ⟨rfl, hread.1 hr⟩, rfl⟩) hrest
  rw [if_pos (hread.2 ⟨hc, hpass⟩)]
  exact { h with references := congrArg (· ++ [p]) h.references }

theorem Collecting.assignmentTurn (h : Collecting a r γ s₀ refs asg φ s)
    (hp : s₀.tree.Place r p n above) (hskip : (s₀.tree.path p).shouldSkip = false)
    (hstop : (s₀.tree.path p).shouldStop = false) (hty : a.type? (some n) = some ty) (hrest : ∀ s',
      Collecting a r γ s₀ refs (if a.is (some n) .assignmentExpression then asg ++ [p]
        else asg) φ s' →
        Ends (Engine.runHandlers p (some n) (Engine.turns p ty .enter rest) s') Q
          fun e _ => a.Warrants r e) :
    Ends (Engine.runHandlers p (some n) (Engine.turns p ty .enter
        (⟨.ofType (.ofType .assignmentExpression), .enter, fun p =>
          PassM.note fun c => { c with assignments := c.assignments ++ [p] }⟩ :: rest)) s) Q
      fun e _ => a.Warrants r e := by
  have his : a.is (some n) .assignmentExpression = (NodeType.assignmentExpression == ty) := by
    simp only [Arena.is, hty]
    exact BEq.comm
  refine h.turn refs _ hp hskip hstop (fun _ hc _ => ?_)
    (fun hn => ⟨rfl, if_neg fun hasg => hn ⟨rfl, his.symm.trans hasg, rfl⟩⟩) hrest
  rw [if_pos (his.trans hc)]
  exact { h with assignments := congrArg (· ++ [p]) h.assignments }

theorem Collecting.noteOperand (h : Collecting a r γ s₀ refs asg φ s)
    (hp : s₀.tree.Place r p n above) (hlen : above.length ≤ Limits.traversal + 1) :
    Ends ((PassM.onTree (follow p "argument") >>= fun q =>
        PassM.note fun c => { c with violations := c.violations ++ [q] } : PassM Collected Unit) s)
      (fun _ s' => Collecting a r γ s₀ refs asg φ s') fun e _ => a.Warrants r e := by
  refine ends_bind.2 ((h.followTarget (hp.grows h.advances.grows) hlen (by decide)).mono ?_)
  rintro q s' ⟨h', hq⟩
  exact ends_note.2 (h'.violation hq)

/-- The handlers of a crawl before the children of a node. -/
theorem Collecting.enter (h : Collecting a r γ s₀ refs asg φ s) (hp : s₀.tree.Place r p n above)
    (hskip : (s₀.tree.path p).shouldSkip = false) (hstop : (s₀.tree.path p).shouldStop = false)
    (hlen : above.length ≤ Limits.traversal + 1) (hty : a.type? (some n) = some ty) :
    Ends (Engine.runHandlers p (some n) (Engine.turns p ty .enter collectorDispatch.typed) s)
      (fun b s' => b = false ∧ Collecting a r γ s₀ (if a.isRead n above then refs ++ [p] else refs)
        (if a.is (some n) .assignmentExpression then asg ++ [p] else asg)
        (fun t => φ t ∧ Announced a n above t) s')
      fun e _ => a.Warrants r e := by
  have hisA : ∀ group, a.isA (some n) group = ty.isA group := fun group => by simp [isA, hty]
  have his : a.is (some n) .labeledStatement = (NodeType.labeledStatement == ty) := by
    simp only [Arena.is, hty]
    exact BEq.comm
  have hpl : ∀ {refs asg s φ}, Collecting a r γ s₀ refs asg φ s → s.tree.Place r p n above :=
    fun h => hp.grows h.advances.grows
  refine h.plainTurn hp hskip hstop (fun _ hc _ => ?_) fun s₁ h₁ => ?_
  · exact Goes.forM _ _ h.registered fun key hkey t' ht' ha =>
      ht'.collectLoopVar ((hpl h).grows ha.grows) hlen ((hisA _).trans hc) (by
        rcases List.mem_cons.1 hkey with rfl | hkey
        · decide
        · obtain rfl := List.mem_singleton.1 hkey
          decide)
  refine h₁.declarationTurns hp hskip hstop hlen hty fun s₂ h₂ => ?_
  refine h₂.readTurn hp hskip hstop hty fun s₃ h₃ => ?_
  -- the targets of loops over entries or keys
  refine h₃.turn _ _ hp hskip hstop (fun _ _ _ => ?_) (fun _ => ⟨rfl, rfl⟩) fun s₄ h₄ => ?_
  · refine ends_bind.2 ((h₃.followTarget (hpl h₃) hlen (by decide)).mono ?_)
    rintro q s' ⟨h', hq⟩
    rw [run_ask_bind]
    split
    · exact ends_note.2 (h'.violation hq)
    · exact h'
  -- exports are looked at when they are left
  refine h₄.plainTurn hp hskip hstop (fun hph => absurd hph (by decide)) fun s₅ h₅ => ?_
  refine h₅.treeTurn hp hskip hstop (ψ := fun t => a.is (some n) .labeledStatement → ∀ l,
      a.name? (a.child? (some n) "label") = some l → t.Occurs l)
    (fun t t' ha hall hn l hl => ha.occurs l (hall hn l hl)) (fun _ hc _ => ?_)
    (fun hn hlabel => absurd ⟨rfl, his.symm.trans hlabel, rfl⟩ hn) fun s₆ h₆ => ?_
  · exact (h₅.registered.collectLabel (hpl h₅) hlen (his.trans hc)).mono fun _ _ _ _ hall _ => hall
  refine h₆.assignmentTurn hp hskip hstop hty fun s₇ h₇ => ?_
  refine h₇.turn _ _ hp hskip hstop (fun _ _ _ => h₇.noteOperand hp hlen) (fun _ => ⟨rfl, rfl⟩)
    fun s₈ h₈ => ?_
  refine h₈.turn _ _ hp hskip hstop (fun _ _ _ => ?_) (fun _ => ⟨rfl, rfl⟩) fun s' h' => ⟨rfl, ?_⟩
  · refine ends_bind.2 (ends_onTree.2 ((ends_field _ _ _).imp ?_ ?_))
    · rintro v _ rfl
      split
      · exact h₈.noteOperand hp hlen
      · exact h₈
    · rintro e _ ⟨err, rfl⟩
      exact a.warrants_shape r err
  · have hlasting : Tree.Lasting fun t => φ t ∧ Announced a n above t :=
      fun t t' ha hφ => ⟨h.lasting t t' ha hφ.1, hφ.2.adds ha.toAdds⟩
    obtain ⟨⟨hφ, hhomes⟩, hlabel⟩ := h'.facts
    exact { h' with facts := ⟨hφ, hhomes, hlabel⟩, lasting := hlasting }

/-- The handlers of a crawl after the children of a node, of which a declaration was registered. -/
theorem Collecting.exit (h : Collecting a r γ s₀ refs asg φ s) (hp : s₀.tree.Place r p n above)
    (hskip : (s₀.tree.path p).shouldSkip = false) (hstop : (s₀.tree.path p).shouldStop = false)
    (hlen : above.length ≤ Limits.traversal + 1) (hty : a.type? (some n) = some ty)
    (hdeclared : ∀ m, a.child? (some n) "declaration" = some m → ∀ h, a.Homes m (n :: above) h →
      s.tree.OwnsAll h m) :
    Ends (Engine.runHandlers p (some n) (Engine.turns p ty .exit collectorDispatch.typed) s)
      (fun b s' => b = false ∧ Collecting a r γ s₀ refs asg φ s') fun e _ => a.Warrants r e := by
  have hexports : Engine.turns p ty .exit collectorDispatch.typed = Engine.turns p ty .exit
      [⟨.ofType (.ofGroup .exportDeclaration), .exit, fun p => PassM.onTree (collectExport p)⟩] :=
      rfl
  rw [hexports]
  refine h.plainTurn hp hskip hstop (fun _ hc _ => ?_) fun s' h' => ⟨rfl, h'⟩
  refine h.registered.collectExport (hp.grows h.advances.grows) hlen ?_ hdeclared
  rw [isA, hty]
  exact hc

end Turns

end Handlers

end ScopedTree
