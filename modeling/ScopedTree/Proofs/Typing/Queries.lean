import ScopedTree.Proofs.Constant.Evaluate
import ScopedTree.Proofs.Typing.Infer

/-!
# What was asked before makes no difference to what a type says

Types are noted on the paths that a query for a type comes by. Later queries find them there, and
what they say is what would have been said had nothing been asked before.

* `TypeQuery`                     queries for types, and for paths;
* `Tree.AllFindable`              the levels are enough for each type that is asked for;
* `Tree.Noted.runTypeQueries`     queries keep the notes right;
* `Tree.typeOf_says_same`         **what the type at a path says does not depend on the queries
  before**;
* `Tree.typeOf_repeats`           how often it says so does.
-/

namespace ScopedTree

/-- A query for a path, or for the type at one. -/
inductive TypeQuery where
  | find (p : PathId) (key : String)
  | typeOf (p : PathId)
  | isBaseType (p : PathId) (name : String) (lenient : Bool)
  | couldBeBaseType (p : PathId) (name : String)
  | isGenericType (p : PathId) (name : String)

namespace TypeQuery

def run : TypeQuery → TreeM Unit
  | find p key => discard (Tree.follow p key)
  | typeOf p => discard (Tree.typeOf p)
  | isBaseType p name lenient => discard (Tree.isBaseType p name lenient)
  | couldBeBaseType p name => discard (Tree.couldBeBaseType p name)
  | isGenericType p name => discard (Tree.isGenericType p name)

def subject? : TypeQuery → Option PathId
  | find _ _ => none
  | typeOf p | isBaseType p _ _ | couldBeBaseType p _ | isGenericType p _ => some p

end TypeQuery

namespace Tree

open Arena

variable {a : Arena} {t₀ t t' : Tree} {r : NodeId} {s₀ : ScopeId} {p p' : PathId} {F : Finding}

/-- The tree after some queries, failed ones too. -/
def runTypeQueries (queries : List TypeQuery) (t : Tree) : Tree :=
  queries.foldl (fun t query => final (query.run t)) t

/-- The type of a place that is there is found without looking too many nodes on. -/
def Findable (t₀ : Tree) (r : NodeId) (t : Tree) (p : PathId) : Prop :=
  p.index < t.paths.size ∧ (t₀.foundLevels? r Limits.inference (t.node p) (t.emptyType p)).isSome
    = true

instance (t₀ : Tree) (r : NodeId) (t : Tree) (p : PathId) : Decidable (t₀.Findable r t p) :=
  inferInstanceAs (Decidable (_ ∧ _))

/-- The types that some queries ask for are found without looking too many nodes on. -/
def AllFindable (t₀ : Tree) (r : NodeId) : List TypeQuery → Tree → Prop
  | [], _ => True
  | query :: queries, t => (∀ p ∈ query.subject?, t₀.Findable r t p)
    ∧ t₀.AllFindable r queries (final (query.run t))

def Unnoted (t : Tree) : Prop := ∀ p, (t.path p).inferred = none

theorem Crawled.noted (hc : Crawled a r t₀) (hcomplete : t₀.arena.Complete)
    (hfresh : t₀.Unnoted) : Noted r t₀ t₀ := by
  obtain ⟨_, hl, -⟩ := hc.linked
  exact ⟨.refl hl.inScope.coherent hcomplete, fun p _ _ hx _ => nomatch (hfresh p).symm.trans hx⟩

section Queries

variable (hc : Crawled t₀.arena r t₀) (hroot : t₀.arena.is (some r) .program = true)
  (ha : t₀.arena.Unnested)

include hc hroot ha

theorem Noted.exists_typeOf (h : Noted r t₀ t) (hp : t₀.Findable r t p) : ∃ F x t',
    t₀.foundLevels? r Limits.inference (t.node p) (t.emptyType p) = some F ∧ typeOf p t = .ok x t'
      ∧ Noted r t₀ t' ∧ TypeOf F x t' := by
  obtain ⟨hlt, hF⟩ := hp
  obtain ⟨F, hF⟩ := Option.isSome_iff_exists.1 hF
  obtain ⟨x, t', hrun, h', -, hx⟩ := (typing_typeOf hc hroot ha h hlt hF).exists_ok
  exact ⟨F, x, t', hF, hrun, h', hx⟩

theorem Noted.query (h : Noted r t₀ t) {query : TypeQuery}
    (hquery : ∀ p ∈ query.subject?, t₀.Findable r t p) :
    Noted r t₀ (final (query.run t)) := by
  have htype (p : PathId) (hp : t₀.Findable r t p) {α : Type} {f : Option NodeId → TreeM α}
      (hf : ∀ x t, final (f x t) = t) : Noted r t₀ (final (discard (typeOf p >>= f) t)) := by
    obtain ⟨F, x, t', -, hrun, h', -⟩ := h.exists_typeOf hc hroot ha hp
    rw [final_discard, run_bind_of_ok hrun, hf]
    exact h'
  cases query with
  | find p key =>
    rw [TypeQuery.run, final_discard]
    have hext := uncovers_follow h.coherent p key
    exact h.later (h.here.uncovers hext) hext.inferred
  | typeOf p =>
    obtain ⟨F, x, t', -, hrun, h', -⟩ := h.exists_typeOf hc hroot ha (hquery p rfl)
    rw [TypeQuery.run, final_discard, hrun]
    exact h'
  | isBaseType p name lenient =>
    refine htype p (hquery p rfl) fun x t => ?_
    rw [run_get_bind]
    split <;> rfl
  | couldBeBaseType p name =>
    refine htype p (hquery p rfl) fun x t => ?_
    rw [run_get_bind]
    cases t.arena.type? x with
    | none => rfl
    | some ty => cases ty <;> rfl
  | isGenericType p name => exact htype p (hquery p rfl) fun _ _ => rfl

/-- Any queries keep the notes right. -/
theorem Noted.runTypeQueries (queries : List TypeQuery) (h : Noted r t₀ t)
    (hqueries : t₀.AllFindable r queries t) :
    Noted r t₀ (t.runTypeQueries queries) := by
  induction queries generalizing t with
  | nil => exact h
  | cons query queries ih => exact ih (h.query hc hroot ha hqueries.1) hqueries.2

end Queries

/-- **What the type at a path says does not depend on the queries before.** -/
theorem typeOf_says_same (ha : a.WellOwned) (hcomplete : a.Complete) (hnotes : a.Unnested)
    (hr : a.is (some r) .program = true) {options : Options}
    (h : scopeOfRoot (ofArena a (some r) options) = .ok (some s₀) t₀) (hfresh : t₀.Unnoted)
    (queries queries' : List TypeQuery) (hqueries : t₀.AllFindable r queries t₀)
    (hqueries' : t₀.AllFindable r queries' t₀) (hp : t₀.Findable r (t₀.runTypeQueries queries) p)
    (hlt : p'.index < (t₀.runTypeQueries queries').paths.size)
    (hnode : (t₀.runTypeQueries queries').node p' = (t₀.runTypeQueries queries).node p)
    (hempty : (t₀.runTypeQueries queries').emptyType p' = (t₀.runTypeQueries queries).emptyType p) :
    ∃ x t x' t', typeOf p (t₀.runTypeQueries queries) = .ok x t
      ∧ typeOf p' (t₀.runTypeQueries queries') = .ok x' t'
      ∧ (∀ k, t.arena.HasKind x k ↔ t'.arena.HasKind x' k)
      ∧ ∀ ty, ty.isA .flowBase = true → t.arena.is x ty = t'.arena.is x' ty := by
  obtain ⟨hc, -⟩ := crawled_scopeOfRoot ha hr h
  obtain ⟨_, hl, -⟩ := hc.linked
  obtain rfl := hl.arena
  have hnoted := hc.noted hcomplete hfresh
  have hp' : t₀.Findable r (t₀.runTypeQueries queries') p' := by
    refine ⟨hlt, ?_⟩
    rw [hnode, hempty]
    exact hp.2
  obtain ⟨F, x, t, hF, hrun, -, hx⟩ :=
    (hnoted.runTypeQueries hc hr hnotes queries hqueries).exists_typeOf hc hr hnotes hp
  obtain ⟨F', x', t', hF', hrun', -, hx'⟩ :=
    (hnoted.runTypeQueries hc hr hnotes queries' hqueries').exists_typeOf hc hr hnotes hp'
  rw [hnode, hempty] at hF'
  obtain rfl := Option.some.inj (hF.symm.trans hF')
  refine ⟨x, t, x', t', hrun, hrun', fun k => ?_, fun ty hty => ?_⟩
  · obtain ⟨u, rfl, hsaid⟩ := hx
    obtain ⟨u', rfl, hsaid'⟩ := hx'
    rw [hsaid.kinds, hsaid'.kinds]
  · rw [Bool.eq_iff_iff, hx.is_iff hty, hx'.is_iff hty]

theorem unnoted_of_all (h : t.paths.all (·.inferred.isNone) = true) : t.Unnoted := by
  intro p
  unfold Tree.path
  cases hd : t.paths[p.index]? with
  | none => rfl
  | some d =>
    have hmem := Array.mem_of_getElem? hd
    exact Option.isNone_iff_eq_none.1 (Array.all_eq_true_iff_forall_mem.1 h d hmem)

/-- The program `var x = null; c ? x : "s"; (c ? x : true) || x`. -/
def nullUnions : Arena := runAll [
  .alloc .identifier [.str "x", .node none],
  .alloc .nullLiteral [],
  .alloc .variableDeclarator [.node (some ⟨0⟩), .node (some ⟨1⟩)],
  .alloc .variableDeclaration [.str "var", .list [some ⟨2⟩]],
  .alloc .identifier [.str "c", .node none],
  .alloc .identifier [.str "x", .node none],
  .alloc .stringLiteral [.str "s"],
  .alloc .conditionalExpression [.node (some ⟨4⟩), .node (some ⟨5⟩), .node (some ⟨6⟩)],
  .alloc .expressionStatement [.node (some ⟨7⟩)],
  .alloc .identifier [.str "c", .node none],
  .alloc .identifier [.str "x", .node none],
  .alloc .booleanLiteral [.bool true],
  .alloc .conditionalExpression [.node (some ⟨9⟩), .node (some ⟨10⟩), .node (some ⟨11⟩)],
  .alloc .identifier [.str "x", .node none],
  .alloc .logicalExpression [.str "||", .node (some ⟨12⟩), .node (some ⟨13⟩)],
  .alloc .expressionStatement [.node (some ⟨14⟩)],
  .alloc .program [.str "module", .list [], .list [some ⟨3⟩, some ⟨8⟩, some ⟨15⟩]]]

/-- The type of the last expression, at the path 9, says the same with the type of the one before,
at the path 6, asked for first and without. -/
theorem typeOf_says_same_nullUnions : ∃ t₀ x t x' t',
    scopeOfRoot (ofArena nullUnions (some ⟨16⟩) {}) = .ok (some ⟨0⟩) t₀
      ∧ typeOf ⟨9⟩ (t₀.runTypeQueries [.typeOf ⟨6⟩]) = .ok x t
      ∧ typeOf ⟨9⟩ (t₀.runTypeQueries []) = .ok x' t'
      ∧ (∀ k, t.arena.HasKind x k ↔ t'.arena.HasKind x' k)
      ∧ ∀ ty, ty.isA .flowBase = true → t.arena.is x ty = t'.arena.is x' ty := by
  have hok : passes (scopeOfRoot (ofArena nullUnions (some ⟨16⟩) {})) (fun o t =>
      decide (o = some ⟨0⟩ ∧ t.paths.all (·.inferred.isNone) = true ∧ t.Findable ⟨16⟩ t ⟨6⟩
        ∧ t.Findable ⟨16⟩ (t.runTypeQueries [.typeOf ⟨6⟩]) ⟨9⟩ ∧ 9 < t.paths.size
        ∧ t.node ⟨9⟩ = (t.runTypeQueries [.typeOf ⟨6⟩]).node ⟨9⟩
        ∧ t.emptyType ⟨9⟩ = (t.runTypeQueries [.typeOf ⟨6⟩]).emptyType ⟨9⟩)) = true := by
    decide +kernel
  obtain ⟨o, t₀, hrun, hok⟩ := ok_of_passes hok
  rw [decide_eq_true_eq] at hok
  obtain ⟨rfl, hall, hfirst, hsecond, hlt, hnode, hempty⟩ := hok
  have hqueries : t₀.AllFindable ⟨16⟩ [.typeOf ⟨6⟩] t₀ :=
    ⟨fun p hp => Option.some.inj hp ▸ hfirst, trivial⟩
  obtain ⟨x, t, x', t', hsaid⟩ := typeOf_says_same (wellOwned_runAll _)
    (by decide +kernel) (by decide +kernel)
    (by decide +kernel) hrun (unnoted_of_all hall) [.typeOf ⟨6⟩] [] hqueries trivial hsecond hlt
    hnode hempty
  exact ⟨t₀, x, t, x', t', hrun, hsaid⟩

/-- How often it says so does: the null that the variable has is in the second union twice if it was
put into the first one before. -/
theorem typeOf_repeats : ∃ t₀ x t x' t',
    scopeOfRoot (ofArena nullUnions (some ⟨16⟩) {}) = .ok (some ⟨0⟩) t₀
      ∧ typeOf ⟨9⟩ t₀ = .ok x t ∧ (t.arena.items x "types").length = 2
      ∧ typeOf ⟨9⟩ (t₀.runTypeQueries [.typeOf ⟨6⟩]) = .ok x' t'
      ∧ (t'.arena.items x' "types").length = 3 := by
  have hok : passes (scopeOfRoot (ofArena nullUnions (some ⟨16⟩) {})) (fun o t =>
      decide (o = some ⟨0⟩) && passes (typeOf ⟨9⟩ t) (fun x t =>
        (t.arena.items x "types").length == 2)
        && passes (typeOf ⟨9⟩ (t.runTypeQueries [.typeOf ⟨6⟩])) fun x t =>
        (t.arena.items x "types").length == 3)
      = true := by
    decide +kernel
  obtain ⟨o, t₀, hrun, hok⟩ := ok_of_passes hok
  simp only [Bool.and_eq_true, decide_eq_true_eq] at hok
  obtain ⟨⟨rfl, hfresh⟩, hlate⟩ := hok
  obtain ⟨x, t, hfresh, hx⟩ := ok_of_passes hfresh
  obtain ⟨x', t', hlate, hx'⟩ := ok_of_passes hlate
  exact ⟨t₀, x, t, x', t', hrun, hfresh, eq_of_beq hx, hlate, eq_of_beq hx'⟩

end Tree

end ScopedTree
