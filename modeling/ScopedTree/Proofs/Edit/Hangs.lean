import ScopedTree.Proofs.Edit.Endures
import ScopedTree.Proofs.Edit.Forget

/-!
# Where scopes come to hang

An edit puts scopes out of use and makes new ones. A scope that was there comes to hang elsewhere
only when the one that it hung on goes out of use.

* `Tree.Hangs`               a scope left its place only with the scope around it gone;
* `Tree.Hangs.invalidate`    forgetting a subtree does that;
* `Tree.Hangs.endures`       and so do all edits.
-/

namespace ScopedTree.Tree

def Listed (t : Tree) : Prop := ∀ i s, t.scopeOfNode.get? i = some s → s.index < t.scopes.size

/-- Known scopes keep their blocks and stay out of use once they are, and one that hangs elsewhere
hung on a scope that is out of use now. -/
structure Hangs (t t' : Tree) : Prop where
  size : t.scopes.size ≤ t'.scopes.size
  listed : t'.Listed
  block : ∀ s, s.index < t.scopes.size → (t'.scope s).block = (t.scope s).block
  detached : ∀ s, (t.scope s).detached = true → (t'.scope s).detached = true
  parent : ∀ s, s.index < t.scopes.size → (t'.scope s).parent = (t.scope s).parent
    ∨ ∃ c, (t.scope s).parent = some c ∧ (t'.scope c).detached = true

variable {t₀ t t' : Tree} {s : ScopeId}

theorem lt_of_detached (h : (t.scope s).detached = true) : s.index < t.scopes.size := by
  by_contra hlt
  rw [scope_of_size_le (Nat.le_of_not_lt hlt)] at h
  cases h

namespace Hangs

protected theorem refl (h : t.Listed) : t.Hangs t :=
  ⟨Nat.le_refl _, h, fun _ _ => rfl, fun _ h => h, fun _ _ => .inl rfl⟩

protected theorem trans (h : t₀.Hangs t) (h' : t.Hangs t') : t₀.Hangs t' where
  size := h.size.trans h'.size
  listed := h'.listed
  block s hs := (h'.block s (hs.trans_le h.size)).trans (h.block s hs)
  detached s hs := h'.detached s (h.detached s hs)
  parent s hs := by
    rcases h.parent s hs with heq | ⟨c, hc, hd⟩
    · rw [← heq]
      exact h'.parent s (hs.trans_le h.size)
    · exact .inr ⟨c, hc, h'.detached c hd⟩

theorem congr (h : t₀.Hangs t) (hs : t'.scopes = t.scopes) (hn : t'.scopeOfNode = t.scopeOfNode) :
    t₀.Hangs t' := by
  have hscope : t'.scope = t.scope := by
    unfold Tree.scope
    rw [hs]
  refine ⟨?_, fun i s hi => ?_, ?_, ?_, ?_⟩
  · rw [hs]
    exact h.size
  · rw [hn] at hi
    rw [hs]
    exact h.listed i s hi
  · rw [hscope]
    exact h.block
  · rw [hscope]
    exact h.detached
  · rw [hscope]
    exact h.parent

theorem of_hook (hl : t'.Listed) (hsize : t.scopes.size ≤ t'.scopes.size)
    (hook : ∀ s, s.index < t.scopes.size → (t'.scope s).hook = (t.scope s).hook) : t.Hangs t' where
  size := hsize
  listed := hl
  block s hs := congrArg (·.1) (hook s hs)
  detached s hs := (congrArg (·.2.2) (hook s (lt_of_detached hs))).trans hs
  parent s hs := .inl (congrArg (·.2.1) (hook s hs))

theorem updateScope (h : t₀.Hangs t) (s : ScopeId) {f : ScopeData → ScopeData}
    (hf : ∀ d, (f d).hook = d.hook) : t₀.Hangs (t.updateScope s f) := by
  refine h.trans (of_hook (fun i c hi => ?_) (size_scopes_updateScope t s f).ge fun c _ =>
    t.scope_updateScope_congr s c f ScopeData.hook hf)
  rw [size_scopes_updateScope]
  exact h.listed i c hi

theorem pushScope (h : t₀.Hangs t) (n : NodeId) (d : ScopeData) : t₀.Hangs { t with
    scopes := t.scopes.push d
    scopeOfNode := t.scopeOfNode.put n.index ⟨t.scopes.size⟩ } := by
  refine h.trans (of_hook (fun i c hi => ?_) ?_ fun c hc => ?_)
  · rw [Array.size_push]
    have hi : (t.scopeOfNode.put n.index ⟨t.scopes.size⟩).get? i = some c := hi
    rw [IndexTable.get?_put] at hi
    split at hi
    · obtain rfl := Option.some.inj hi
      exact Nat.lt_succ_self _
    · exact Nat.lt_succ_of_lt (h.listed i c hi)
  · rw [Array.size_push]
    exact Nat.le_succ _
  · show ((t.scopes.push d)[c.index]?.getD _).hook = (t.scopes[c.index]?.getD _).hook
    rw [Array.getElem?_push_lt hc, Array.getElem?_eq_getElem hc]

theorem pathless (t₀ : Tree) : Pathless t₀.Hangs :=
  fun _ _ hsame h => h.congr hsame.scopes hsame.scopeOfNode

theorem tableless (t₀ : Tree) : Tableless t₀.Hangs where
  paths := (pathless t₀).charted
  scope _ s _ hf h := h.updateScope s fun d => congrArg (·.1) (hf d)
  bindings _ _ _ h := h.congr rfl rfl
  newScope _ n d _ h := h.pushScope n d

theorem crawls (t₀ : Tree) : Crawls t₀.Hangs 0 where
  __ := (tableless t₀).names
  stack := (pathless t₀).stack
  next _ _ := Nat.zero_le _
  depth _ _ h := h.congr rfl rfl
  push _ _ _ h := h.congr rfl rfl
  pop _ _ _ h := h.congr rfl rfl
  update _ _ _ _ _ h := h.congr rfl rfl

/-! ## forgetting a subtree -/

theorem mem_scopesAmong {nodes : List NodeId} (h : s ∈ t.scopesAmong nodes) :
    ∃ i, t.scopeOfNode.get? i = some s := by
  obtain ⟨id, _, hs⟩ := List.mem_filterMap.1 h
  exact ⟨id.index, (Option.filter_eq_some_iff.1 hs).1⟩

theorem cleared (h : t₀.Hangs t) (d : Departure) : t₀.Hangs (d.cleared t) := by
  have hsize := size_cleared d t
  refine h.trans ⟨hsize.ge, fun i s hs => ?_, fun s hs => ?_, fun s hs => ?_, fun s hs => ?_⟩
  · rw [(cleared_eq d t).scopeOfNode] at hs
    rw [hsize]
    exact h.listed i s hs
  · rw [scope_cleared d t hs]
  · rw [scope_cleared d t (lt_of_detached hs)]
    show ((t.scope s).detached || _) = true
    rw [hs, Bool.true_or]
  · rw [scope_cleared d t hs]
    by_cases hmoves : s ∈ d.kept t ∧ (t.scope s).parent.any (d.gone t).contains
    · obtain ⟨c, hc, hgone⟩ := (Option.any_eq_true _ _).1 hmoves.2
      obtain ⟨i, hi⟩ := mem_scopesAmong (List.contains_iff_mem.1 hgone)
      refine .inr ⟨c, hc, ?_⟩
      rw [scope_cleared d t (h.listed i c hi)]
      show ((t.scope c).detached || _) = true
      rw [hgone, Bool.or_true]
    · exact .inl (if_neg hmoves)

theorem unlist (h : t₀.Hangs t) (keep : ScopeId → Bool) :
    t₀.Hangs { t with scopeOfNode := t.scopeOfNode.filter keep } where
  size := h.size
  listed i s hs := by
    have hs : (t.scopeOfNode.filter keep).get? i = some s := hs
    rw [IndexTable.get?_filter] at hs
    exact h.listed i s (Option.filter_eq_some_iff.1 hs).1
  block := h.block
  detached := h.detached
  parent := h.parent

theorem invalidate (h : t₀.Hangs t) (d : Departure) : t₀.Hangs (Tree.invalidate d t) := by
  rw [invalidate_eq]
  exact ((crawls t₀).settled d t (h.cleared d)).unlist _

/-- **All edits do that.** -/
theorem endures (t₀ : Tree) : Endures t₀.Hangs 0 where
  toCrawls := crawls t₀
  pathless := pathless t₀
  nodes _ _ _ h := h.congr rfl rfl
  registry _ _ _ _ h := h.congr rfl rfl
  counter _ p _ _ _ _ h := h.updateScope p fun _ => rfl
  queue _ _ _ _ h := h.congr rfl rfl
  forget d _ h := h.invalidate d

end Hangs

end ScopedTree.Tree
