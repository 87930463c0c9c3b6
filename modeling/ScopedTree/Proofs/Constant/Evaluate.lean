import ScopedTree.Edit.Replace
import ScopedTree.Proofs.Constant.Memos
import ScopedTree.Proofs.Scope.Crawls

/-!
# Evaluating a program

After the first crawl of a program, values are found and remembered along with paths. As long as
nothing is edited, what is remembered is right.

* `Tree.Query`               looking for a path, or evaluating what is at one;
* `Tree.Unremembering`       no value is remembered;
* `Tree.ends_evaluate`       an evaluation finds the value of the node;
* `Tree.Remembers.runQueries`   queries keep what is remembered right.
-/

namespace ScopedTree.Tree

open Arena

variable {a : Arena} {t₀ t t' : Tree} {r n : NodeId} {p : PathId} {s₀ : ScopeId}

/-! ## queries -/

inductive Query where
  | find (p : PathId) (key : String)
  | evaluate (p : PathId)

def Query.run : Query → TreeM Unit
  | find p key => discard (Tree.follow p key)
  | evaluate p => discard (Tree.evaluate p)

/-- The tree after some queries, failed ones too. -/
def runQueries (queries : List Query) (t : Tree) : Tree :=
  queries.foldl (fun t query => final (query.run t)) t

/-! ## nothing is remembered at first -/

/-- No value is remembered. -/
def Unremembering (t : Tree) : Prop :=
  ∀ b record, t.binding? b = some record → record.hasValue = false

theorem Unremembering.congr (h : t.Unremembering) (hb : t'.bindings = t.bindings) :
    t'.Unremembering := by
  intro b record hr
  unfold binding? at hr
  rw [hb] at hr
  exact h b record hr

theorem pathless_unremembering : Pathless Unremembering := fun _ _ hsame h => h.congr hsame.bindings

theorem tableless_unremembering : Tableless Unremembering where
  paths := pathless_unremembering.charted
  scope _ _ _ _ h := h.congr rfl
  bindings _ _ hdevelops h :=
    hdevelops.all (fun _ hnew => hnew.hasValue) (fun _ _ _ _ hb hbecomes => hbecomes.hasValue hb) h
  newScope _ _ _ _ h := h.congr rfl

theorem crawls_unremembering : Crawls Unremembering 0 where
  __ := tableless_unremembering.names
  stack := pathless_unremembering.stack
  next _ _ := Nat.zero_le _
  depth _ _ h := h.congr rfl
  push _ _ _ h := h.congr rfl
  pop _ _ _ h := h.congr rfl
  update _ _ _ _ _ h := h.congr rfl

theorem Crawled.remembers (hc : Crawled a r t) (h : t.Unremembering) : Remembers r t t where
  coherent := by
    obtain ⟨_, hl, _⟩ := hc.linked
    exact hl.inScope.coherent
  same := .refl t
  scopes := rfl
  records _ := rfl
  memos b record hb hhas := nomatch (h b record hb).symm.trans hhas

theorem crawled_scopeOfRoot (ha : a.WellOwned) (hr : a.is (some r) .program) {options : Options}
    (h : scopeOfRoot (ofArena a (some r) options) = .ok (some s₀) t₀) :
    Crawled a r t₀ ∧ t₀.Unremembering := by
  have hroot := isScope_of_program hr
  obtain ⟨o, ho, _⟩ := is_some.1 hr
  have hon : options.noScope = false := by
    cases hon : options.noScope with
    | false => rfl
    | true => cases ((ends_scopeOfRoot_off ha (by rw [ho]; rfl) hon).of_ok h).1
  refine ⟨((ends_scopeOfRoot ha hroot hon).of_ok h).1, ?_⟩
  have hkeeps := crawls_unremembering.paths.root.bind fun p => crawls_unremembering.scopeOf p
  have hnone : (ofArena a (some r) options).Unremembering :=
    fun b record hb => by simp [binding?, ofArena] at hb
  have hfinal := hkeeps _ hnone
  change Unremembering (final (scopeOfRoot (ofArena a (some r) options))) at hfinal
  rw [h] at hfinal
  exact hfinal

/-! ## queries keep what is remembered right -/

/-- **An evaluation finds the value of the node.** -/
theorem ends_evaluate (hc : Crawled a r t₀) (hroot : a.is (some r) .program)
    (h : Remembers r t₀ t) (p : PathId) :
    Ends (evaluate p t)
      (fun x t' => Remembers r t₀ t' ∧ ∀ v, x = .known v → t₀.Means (t.node p) v)
      fun _ t' => Remembers r t₀ t' := by
  unfold evaluate
  rw [run_bind_of_ok (assertLive_eq h.coherent p)]
  have hright : Evaluation.Right t₀ {} := fun _ _ hmem => nomatch hmem
  have hlevels := Evaluation.evaluates_evalLevels hc hroot Limits.evaluation t p h {} hright
  refine ends_bind.2 (hlevels.mono ?_)
  rintro ⟨value, e⟩ t₁ ⟨h', _, _, hvalue⟩
  cases value with
  | none => exact ⟨h', fun _ hv => nomatch hv⟩
  | some value =>
    refine Ends.mono (Q := fun x t' => t' = t₁ ∧ ∀ v, x = .known v → v = value) ?_
      fun x t' ⟨ht', hx⟩ => ?_
    · dsimp only
      split
      · exact ⟨rfl, fun v hv => (Evaluated.known.inj hv).symm⟩
      · exact ⟨rfl, fun _ hv => nomatch hv⟩
    · rw [ht']
      refine ⟨h', fun v hv => ?_⟩
      rw [hx v hv]
      exact hvalue value rfl

theorem Remembers.query (hc : Crawled a r t₀) (hroot : a.is (some r) .program)
    (h : Remembers r t₀ t) (query : Query) : Remembers r t₀ (final (query.run t)) := by
  cases query with
  | find p key =>
    rw [Query.run, final_discard]
    exact h.morePaths (extends_follow h.coherent p key)
  | evaluate p =>
    rw [Query.run, final_discard]
    have hevaluate := ends_evaluate hc hroot h p
    cases hrun : evaluate p t with
    | ok x t' => exact (hevaluate.of_ok hrun).1
    | error e t' => exact hevaluate.of_error hrun

/-- Any queries keep what is remembered right. -/
theorem Remembers.runQueries (hc : Crawled a r t₀) (hroot : a.is (some r) .program)
    (queries : List Query) (h : Remembers r t₀ t) : Remembers r t₀ (t.runQueries queries) := by
  induction queries generalizing t with
  | nil => exact h
  | cons query queries ih => exact ih (h.query hc hroot query)

def findsBool (b : Bool) (x : Evaluated) : Bool :=
  match x with
  | .known (.bool c) => b == c
  | _ => false

theorem eq_of_findsBool {b : Bool} {x : Evaluated} (h : findsBool b x = true) :
    x = .known (.bool b) := by
  unfold findsBool at h
  split at h
  · rw [eq_of_beq h]
  · cases h

end ScopedTree.Tree
