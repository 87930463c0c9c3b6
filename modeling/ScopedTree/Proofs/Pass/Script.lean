import ScopedTree.Pass.Run
import ScopedTree.Proofs.Pass.Refine
import ScopedTree.Proofs.Path.Virtual

/-!
# Visitors that do not edit

Handlers that only change a state of their own, ask things of the pass or fail, and the walk that
such a visitor stands for.

* `Act`, `Act.handler`   what a handler does at a node, and the handler;
* `Script`               a visitor of such handlers, with its keys read;
* `Script.acts`          what is done at a node in a phase, in order;
* `Script.walker`        the recursive walk of a script.
-/

namespace ScopedTree

open ScopedTree.Tree

variable {σ : Type}

/-! ## requests -/

/-- What a handler asks of the pass it runs in. -/
inductive Request where
  /-- leave the children and the exit of the node out -/
  | skip
  /-- leave the children in a field out -/
  | skipKey (key : String)
  /-- end the pass -/
  | stop
  deriving DecidableEq

namespace Request

def on (p : PathId) : Request → TreeM Unit
  | skip => Tree.skip p
  | skipKey key => Tree.skipKey p key
  | stop => Tree.stop p

def key? : Request → Option String
  | skipKey key => some key
  | _ => none

def mark (d : PathData) : Request → PathData
  | skip => { d with shouldSkip := true }
  | skipKey key =>
    { d with skipKeys := if d.skipKeys.contains key then d.skipKeys else key :: d.skipKeys }
  | stop => { d with shouldStop := true, shouldSkip := true }

def marks (requests : List Request) (d : PathData) : PathData := requests.foldl mark d

variable {requests : List Request} {request : Request} {d : PathData} {p : PathId} {t : Tree}

theorem on_eq : request.on p t = .ok ⟨⟩ (t.updatePath p (mark · request)) := by
  cases request <;> rfl

theorem updatePath_updatePath (t : Tree) (p : PathId) (f g : PathData → PathData) :
    (t.updatePath p f).updatePath p g = t.updatePath p fun d => g (f d) := by
  have hpaths : (t.paths.modify p.index f).modify p.index g
      = t.paths.modify p.index fun d => g (f d) := by
    refine Array.ext_getElem? fun i => ?_
    simp only [Array.getElem?_modify]
    split <;> simp [Function.comp_def]
  unfold updatePath
  rw [hpaths]

theorem updatePath_id (t : Tree) (p : PathId) : t.updatePath p (fun d => d) = t :=
  t.updatePath_eq_self _ rfl

theorem forM_on_eq (requests : List Request) (t : Tree) :
    requests.forM (·.on p) t = .ok ⟨⟩ (t.updatePath p (marks requests)) := by
  induction requests generalizing t with
  | nil =>
    show EStateM.Result.ok _ t = _
    exact congrArg _ (updatePath_id t p).symm
  | cons request requests ih =>
    rw [List.forM, run_bind_of_ok on_eq, ih, updatePath_updatePath]
    rfl

theorem position_marks : (marks requests d).position = d.position := by
  induction requests generalizing d with
  | nil => rfl
  | cons request requests ih => exact ih.trans (by cases request <;> rfl)

theorem contexts_marks : (marks requests d).contexts = d.contexts := by
  induction requests generalizing d with
  | nil => rfl
  | cons request requests ih => exact ih.trans (by cases request <;> rfl)

theorem scope_marks : (marks requests d).scope = d.scope := by
  induction requests generalizing d with
  | nil => rfl
  | cons request requests ih => exact ih.trans (by cases request <;> rfl)

theorem shouldStop_marks :
    (marks requests d).shouldStop = (d.shouldStop || requests.contains stop) := by
  induction requests generalizing d with
  | nil => simp [marks]
  | cons request requests ih =>
    refine ih.trans ?_
    cases request <;> simp [mark]

theorem shouldSkip_marks : (marks requests d).shouldSkip
    = (d.shouldSkip || requests.contains stop || requests.contains skip) := by
  induction requests generalizing d with
  | nil => simp [marks]
  | cons request requests ih =>
    refine ih.trans ?_
    cases request <;> simp [mark]

theorem contains_skipKeys_marks (key : String) : (marks requests d).skipKeys.contains key
    = (d.skipKeys ++ requests.filterMap key?).contains key := by
  induction requests generalizing d with
  | nil => simp [marks]
  | cons request requests ih =>
    refine ih.trans ?_
    cases request with
    | skip => simp [mark, key?]
    | stop => simp [mark, key?]
    | skipKey name =>
      by_cases hmem : name ∈ d.skipKeys
      · by_cases heq : key = name
        · simp [mark, key?, hmem, heq]
        · simp [mark, key?, hmem, heq]
      · by_cases heq : key = name
        · simp [mark, key?, hmem, heq]
        · simp [mark, key?, hmem, heq]

end Request

/-! ## acts -/

/-- What a handler does that leaves the tree alone: the state it leaves, what it asks of the pass,
and the error that it fails with, if it does. -/
structure Reaction (σ : Type) where
  own : σ
  requests : List Request := []
  failure : Option TreeError := none

/-- What a handler does at a node, given its state. -/
abbrev Act (σ : Type) := NodeId → σ → Reaction σ

/-- The handler that does it. -/
def Act.handler (act : Act σ) : Handler σ := fun p => do
  match ← PassM.ask (·.node p) with
  | none => return
  | some n =>
    let reaction ← modifyGet fun s => (act n s.own, { s with own := (act n s.own).own })
    PassM.onTree (reaction.requests.forM (·.on p))
    match reaction.failure with
    | none => return
    | some e => throw e

theorem Act.handler_eq (act : Act σ) {p : PathId} {n : NodeId} {s : Pass σ}
    (hn : s.tree.node p = some n) : act.handler p s
      = match (act n s.own).failure with
        | none => .ok ⟨⟩ ⟨s.tree.updatePath p (Request.marks (act n s.own).requests),
          (act n s.own).own⟩
        | some e => .error e
          ⟨s.tree.updatePath p (Request.marks (act n s.own).requests), (act n s.own).own⟩ := by
  unfold Act.handler
  rw [run_ask_bind, hn]
  dsimp only
  rw [run_modifyGet_bind, run_onTree_bind (Request.forM_on_eq _ _)]
  cases (act n s.own).failure <;> rfl

/-! ## scripts -/

/-- A visitor whose handlers leave the tree alone, with its keys read. -/
structure Script (σ : Type) where
  /-- What is done at every node. -/
  general : List (Phase × Act σ) := []
  /-- What is done at the nodes that fit a key. -/
  typed : List (VisitKey × Phase × Act σ) := []
  denied : List NodeType := []

namespace Script

def dispatch (v : Script σ) : Dispatch σ where
  general := v.general.map fun x => (x.1, Act.handler x.2)
  typed := v.typed.map fun x => ⟨x.1, x.2.1, Act.handler x.2.2⟩
  denied := v.denied

/-- Whether the node `n`, below the nodes `above`, passes the check of a key. -/
def fits (a : Arena) (above : List NodeId) (n : NodeId) (key : Option VisitKey) : Bool :=
  key.all fun key => key.check?.all (·.admits a n above)

/-- What may be done at nodes of a type: first what is done at every node. -/
def cues (v : Script σ) (ty : NodeType) (phase : Phase) : List (Option VisitKey × Act σ) :=
  ((v.general.filter (·.1 == phase)).map fun x => (none, x.2))
    ++ (v.typed.filter fun x => x.2.1 == phase && x.1.covers ty).map fun x => (some x.1, x.2.2)

/-- What is done at a node in a phase, in order. -/
def acts (v : Script σ) (a : Arena) (phase : Phase) (above : List NodeId) (n : NodeId) :
    List (Act σ) :=
  (a.type? (some n)).elim [] fun ty =>
    ((v.cues ty phase).filter fun cue => fits a above n cue.1).map (·.2)

/-- The state of a walk, with the level of the deepest node visited so far. -/
structure Walked (σ : Type) where
  own : σ
  deepest : Nat := 0

/-- Does things at a node one after the other until one of them asks to skip or to stop, or fails.
The fields to be left out are gathered. -/
def play (n : NodeId) : List String → List (Act σ) → EStateM TreeError (Walked σ) Verdict
  | skipped, [] => return .go skipped
  | skipped, act :: acts => do
    let reaction ← modifyGet fun x => (act n x.own, { x with own := (act n x.own).own })
    match reaction.failure with
    | some e => throw e
    | none =>
      if reaction.requests.contains .stop then return .stop
      else if reaction.requests.contains .skip then return .skip
      else play n (skipped ++ reaction.requests.filterMap Request.key?) acts

def walkerOn (v : Script σ) (a : Arena) (takes : NodeId → Bool) : Walker (Walked σ) where
  takes
  denied := v.denied.contains
  arrive above n x :=
    if v.dispatch.shouldVisit a n then { x with deepest := max x.deepest above.length } else x
  call phase above n := play n [] (v.acts a phase above n)

/-- The walk of a script to all children. A node counts as visited if there is something to be done
at it, or if it has children. -/
def walker (v : Script σ) (a : Arena) : Walker (Walked σ) := v.walkerOn a fun _ => true

section Arrive

variable {v : Script σ} {a : Arena} {takes : NodeId → Bool} {above : List NodeId} {n : NodeId}
  {x : Walked σ}

theorem arrive_of_idle (h : v.dispatch.shouldVisit a n = false) :
    (v.walkerOn a takes).arrive above n x = x := if_neg (by simp [h])

theorem length_le_deepest_arrive (h : v.dispatch.shouldVisit a n = true) :
    above.length ≤ ((v.walkerOn a takes).arrive above n x).deepest := by
  show _ ≤ (if _ then _ else _ : Walked σ).deepest
  rw [if_pos h]
  exact le_max_right _ _

theorem deepest_le_arrive : x.deepest ≤ ((v.walkerOn a takes).arrive above n x).deepest := by
  show _ ≤ (if _ then _ else _ : Walked σ).deepest
  split
  · exact le_max_left _ _
  · exact Nat.le_refl _

theorem own_arrive : ((v.walkerOn a takes).arrive above n x).own = x.own := by
  show (if _ then _ else _ : Walked σ).own = _
  split <;> rfl

end Arrive

end Script

end ScopedTree
