import ScopedTree.Edit.Invalidate
import ScopedTree.Proofs.Scope.Crawls

/-!
# What is forgotten with a subtree

When a subtree leaves, its scopes go out of use and the bindings that its names reach forget their
uses in it.

* `Departure.gone`, `Departure.kept`   the scopes that go out of use, and those that come along;
* `Departure.cleared`        the tree when these are settled, before any binding is touched;
* `Departure.affected`       the bindings that the names of the subtrees reach;
* `Tree.scope_cleared`       where scopes hang then.
-/

namespace ScopedTree

/-- A use or declaration that a binding keeps record of stands at the path. -/
def Binding.Lists (b : Binding) (p : PathId) : Prop :=
  p ∈ b.referencePaths ∨ p ∈ b.constantViolations ∨ p ∈ b.redeclarations.map (·.1)

namespace Departure

/-- The scopes that go out of use with the subtree that leaves. -/
def gone (d : Departure) (t : Tree) : List ScopeId := t.scopesAmong (t.arena.preorder (some d.old))

/-- The scopes of the subtree that takes its place which stay in use. -/
def kept (d : Departure) (t : Tree) : List ScopeId :=
  (Tree.detachScopes (d.gone t) t).scopesAmong (t.arena.preorder d.keep)

/-- The tree with paths marked and scopes settled. -/
def cleared (d : Departure) (t : Tree) : Tree :=
  let marked := Tree.markRemovedBelow d (t.arena.preorder (some d.old)) t
  Tree.reattachScopes (d.gone t) (d.kept t) d.enclosing (Tree.detachScopes (d.gone t) marked)

/-- The bindings that the names of the two subtrees reach. -/
def affected (d : Departure) (t : Tree) : List BindingId :=
  (d.cleared t).affectedBindings (t.arena.preorder (some d.old) ++ t.arena.preorder d.keep)
    d.enclosing (d.gone t) (d.kept t)

/-- The bindings in turn forget their uses; those without a declaration are gathered. -/
def prune (d : Departure) (gone : List ScopeId) (ids : List BindingId)
    (x : Tree × List Tree.Destroyed) : Tree × List Tree.Destroyed :=
  ids.foldl (fun (t, destroyed) id =>
    let (t, lost) := Tree.pruneBinding d gone t id
    (t, destroyed ++ lost.toList)) x

def settled (d : Departure) (t : Tree) : Tree :=
  let x := d.prune (d.gone t) (d.affected t) (d.cleared t, [])
  x.2.foldl (fun t x => Tree.destroy x t) x.1

end Departure

namespace Tree

variable {t t' t₀ : Tree} {d : Departure} {s c : ScopeId} {b : BindingId} {record : Binding}
  {p q : PathId}

/-! ## scopes -/

theorem scope_foldl_updateScope {f : ScopeData → ScopeData} (hf : ∀ x, f (f x) = f x)
    (scopes : List ScopeId) (t : Tree) (c : ScopeId) :
    (scopes.foldl (fun t s => t.updateScope s f) t).scope c
      = if c ∈ scopes ∧ c.index < t.scopes.size then f (t.scope c) else t.scope c := by
  induction scopes generalizing t with
  | nil => simp
  | cons s scopes ih =>
    rw [List.foldl_cons, ih, size_scopes_updateScope, scope_updateScope]
    by_cases hc : c.index < t.scopes.size
    · by_cases hs : c = s
      · subst hs
        simp [hc, hf]
      · simp [hc, hs]
    · have hs : ¬ (c = s ∧ s.index < t.scopes.size) := by
        rintro ⟨rfl, h⟩
        exact hc h
      simp [hc, hs]

theorem size_foldl_updateScope (f : ScopeData → ScopeData) (scopes : List ScopeId) (t : Tree) :
    (scopes.foldl (fun t s => t.updateScope s f) t).scopes.size = t.scopes.size := by
  induction scopes generalizing t with
  | nil => rfl
  | cons s scopes ih => rw [List.foldl_cons, ih, size_scopes_updateScope]

theorem sameButPaths_markRemovedBelow (d : Departure) (nodes : List NodeId) (t : Tree) :
    t.SameButPaths (markRemovedBelow d nodes t) := by
  refine .foldl (fun t id => .foldl (fun t p => ?_) _ t) nodes t
  split
  · exact .updatePath t p _
  · rfl

theorem SameButPaths.scope (h : t.SameButPaths t') (s : ScopeId) : t'.scope s = t.scope s := by
  unfold Tree.scope
  rw [h.scopes]

theorem SameButPaths.scopesAmong (h : t.SameButPaths t') (nodes : List NodeId) :
    t'.scopesAmong nodes = t.scopesAmong nodes := by
  unfold Tree.scopesAmong
  rw [h.scopeOfNode, funext h.scope]

theorem scope_detachScopes (scopes : List ScopeId) (t : Tree) (c : ScopeId) :
    (detachScopes scopes t).scope c = if c ∈ scopes ∧ c.index < t.scopes.size
      then { t.scope c with detached := true } else t.scope c := by
  unfold detachScopes
  rw [scope_foldl_updateScope]
  exact fun _ => rfl

theorem scope_reattachScopes (gone kept : List ScopeId) (enclosing : Option ScopeId) (t : Tree)
    (c : ScopeId) : (reattachScopes gone kept enclosing t).scope c
      = if (c ∈ kept ∧ c.index < t.scopes.size) ∧ (t.scope c).parent.any gone.contains
        then { t.scope c with parent := enclosing } else t.scope c := by
  unfold reattachScopes
  rw [scope_foldl_updateScope]
  · by_cases hkept : c ∈ kept ∧ c.index < t.scopes.size
    · rw [if_pos hkept]
      simp only [hkept, true_and]
    · rw [if_neg hkept, if_neg fun h => hkept h.1]
  · intro x
    by_cases h : x.parent.any gone.contains
    · rw [if_pos h]
      dsimp only
      split <;> rfl
    · rw [if_neg h, if_neg h]

theorem size_detachScopes (scopes : List ScopeId) (t : Tree) :
    (detachScopes scopes t).scopes.size = t.scopes.size := size_foldl_updateScope _ scopes t

theorem size_cleared (d : Departure) (t : Tree) : (d.cleared t).scopes.size = t.scopes.size := by
  have hsame := sameButPaths_markRemovedBelow d (t.arena.preorder (some d.old)) t
  unfold Departure.cleared reattachScopes
  rw [size_foldl_updateScope, size_detachScopes, hsame.scopes]

/-- **Where scopes hang once a subtree left**: those of the subtree are out of use, and of those
that come along the ones that hung on them hang on the scope around. -/
theorem scope_cleared (d : Departure) (t : Tree) (hc : c.index < t.scopes.size) :
    (d.cleared t).scope c = { t.scope c with
      detached := (t.scope c).detached || (d.gone t).contains c
      parent := if c ∈ d.kept t ∧ (t.scope c).parent.any (d.gone t).contains then d.enclosing
        else (t.scope c).parent } := by
  have hsame := sameButPaths_markRemovedBelow d (t.arena.preorder (some d.old)) t
  have hsize : c.index < (markRemovedBelow d (t.arena.preorder (some d.old)) t).scopes.size := by
    rwa [hsame.scopes]
  unfold Departure.cleared
  rw [scope_reattachScopes, size_detachScopes, scope_detachScopes, hsame.scope]
  by_cases hgone : c ∈ d.gone t
  · simp only [hgone, hsize, and_true, if_true, List.contains_eq_mem, decide_true, Bool.or_true]
    split <;> rfl
  · simp only [hgone, hsize, and_true, if_false, List.contains_eq_mem, decide_false,
      Bool.or_false]
    split <;> rfl

/-! ## uses -/

theorem lists_forgetUses {drops : PathId → Bool} (h : (forgetUses drops record).Lists p) :
    record.Lists p ∧ drops p = false := by
  rcases h with h | h | h
  · obtain ⟨hmem, hdrop⟩ := List.mem_filter.1 h
    exact ⟨.inl hmem, by simpa using hdrop⟩
  · obtain ⟨hmem, hdrop⟩ := List.mem_filter.1 h
    exact ⟨.inr (.inl hmem), by simpa using hdrop⟩
  · obtain ⟨x, hx, rfl⟩ := List.mem_map.1 h
    obtain ⟨hmem, hdrop⟩ := List.mem_filter.1 hx
    exact ⟨.inr (.inr (List.mem_map_of_mem hmem)), by simpa using hdrop⟩

theorem lists_succeed {kind : BindingKind} {id : NodeId} (h : (succeed record q kind id).Lists p) :
    record.Lists p := by
  have hcleared (c : Bool) : (if c then record.clearMemo else record).referencePaths
      = record.referencePaths
      ∧ (if c then record.clearMemo else record).redeclarations = record.redeclarations := by
    cases c <;> exact ⟨rfl, rfl⟩
  rcases h with h | h | h
  · exact .inl ((hcleared _).1 ▸ h)
  · exact .inr (.inl (List.mem_of_mem_filter h))
  · obtain ⟨x, hx, rfl⟩ := List.mem_map.1 h
    exact .inr (.inr (List.mem_map_of_mem ((hcleared _).2 ▸ List.mem_of_mem_filter hx)))

theorem lists_reference (h : (record.reference q).Lists p) : record.Lists p ∨ p = q := by
  unfold Binding.reference at h
  split at h
  · exact .inl h
  · rcases h with h | h | h
    · rcases List.mem_append.1 h with h | h
      · exact .inl (.inl h)
      · exact .inr (List.mem_singleton.1 h)
    · exact .inl (.inr (.inl h))
    · exact .inl (.inr (.inr h))

/-- Paths and nodes are what they were. -/
structure SamePaths (t t' : Tree) : Prop where
  paths : t'.paths = t.paths
  arena : t'.arena = t.arena

@[refl] theorem SamePaths.refl (t : Tree) : t.SamePaths t := ⟨rfl, rfl⟩

theorem SamePaths.trans {t'' : Tree} (h : t.SamePaths t') (h' : t'.SamePaths t'') :
    t.SamePaths t'' := ⟨h'.paths.trans h.paths, h'.arena.trans h.arena⟩

theorem SamePaths.path (h : t.SamePaths t') (p : PathId) : t'.path p = t.path p := by
  unfold Tree.path
  rw [h.paths]

theorem SamePaths.drops (h : t.SamePaths t') (d : Departure) : d.drops t' = d.drops t := by
  funext p
  unfold Departure.drops Tree.node
  rw [h.path, h.arena]

/-- What becomes of a binding: there is none, it goes with its scope, or it comes to list nothing
that is to be forgotten, and then its declaration may be lost. -/
theorem pruneBinding_cases (d : Departure) (gone : List ScopeId) (t : Tree) (b : BindingId) :
    (t.binding? b = none ∧ pruneBinding d gone t b = (t, none))
      ∨ (∃ scope name, pruneBinding d gone t b = (t, some ⟨scope, name, b, []⟩))
      ∨ ∃ t' record record' lost, pruneBinding d gone t b = (t', lost) ∧ t.binding? b = some record
        ∧ t.SamePaths t' ∧ (∀ c, t'.binding? c = if c = b then some record' else t.binding? c)
        ∧ (∀ p, record'.Lists p → record.Lists p ∧ d.drops t p = false)
        ∧ ∀ x, lost = some x → x.id = b ∧ ∀ p ∈ x.reads, d.drops t p = false := by
  unfold pruneBinding
  cases hrec : t.binding? b with
  | none => exact .inl ⟨rfl, rfl⟩
  | some record =>
    refine .inr ?_
    dsimp only
    by_cases hgone : gone.contains record.scope
    · rw [if_pos hgone]
      exact .inl ⟨_, _, rfl⟩
    · rw [if_neg hgone]
      have hput (r : Binding) (c : BindingId) : (t.updateBinding b fun _ => r).binding? c
          = if c = b then some r else t.binding? c := by
        rw [binding?_updateBinding, hrec]
        rfl
      refine .inr ?_
      split
      · exact ⟨_, record, forgetUses (d.drops t) record, none, rfl, rfl, ⟨rfl, rfl⟩, hput _,
          fun p hp => lists_forgetUses hp, fun _ h => nomatch h⟩
      · split
        · next q kind id _ =>
          refine ⟨_, record, succeed (forgetUses (d.drops t) record) q kind id, none, rfl, rfl,
            ⟨rfl, rfl⟩, fun c => ?_, fun p hp => lists_forgetUses (lists_succeed hp),
            fun _ h => nomatch h⟩
          rw [binding?_updateBinding, hput, hput, if_pos rfl]
          by_cases hc : c = b
          · rw [if_pos hc, if_pos hc]
            rfl
          · rw [if_neg hc, if_neg hc, if_neg hc]
        · refine ⟨_, record, forgetUses (d.drops t) record, _, rfl, rfl, ⟨rfl, rfl⟩, hput _,
            fun p hp => lists_forgetUses hp, fun x hx => ?_⟩
          obtain rfl := Option.some.inj hx
          exact ⟨rfl, fun p hp => (lists_forgetUses (.inl hp)).2⟩

/-- What bindings list once all affected ones had their turn. -/
structure Pruned (d : Departure) (ids : List BindingId) (t : Tree) (x : Tree × List Destroyed) :
    Prop where
  same : t.SamePaths x.1
  lists : ∀ b record p, x.1.binding? b = some record → record.Lists p →
    (∃ record₀, t.binding? b = some record₀ ∧ record₀.Lists p)
      ∧ (b ∈ ids → d.drops t p = false ∨ ∃ y ∈ x.2, y.id = b)
  reads : ∀ y ∈ x.2, ∀ p ∈ y.reads, d.drops t p = false

theorem Pruned.step {ids : List BindingId} {x : Tree × List Destroyed} (h : Pruned d ids t x)
    (gone : List ScopeId) (b : BindingId) : Pruned d (ids ++ [b]) t
      ((pruneBinding d gone x.1 b).1, x.2 ++ (pruneBinding d gone x.1 b).2.toList) := by
  have hdrops := h.same.drops d
  have hold : ∀ c record p, x.1.binding? c = some record → record.Lists p → c ≠ b →
      ∀ ys, (∃ record₀, t.binding? c = some record₀ ∧ record₀.Lists p)
        ∧ (c ∈ ids ++ [b] → d.drops t p = false ∨ ∃ y ∈ x.2 ++ ys, y.id = c) := by
    intro c record p hrec hp hc ys
    obtain ⟨h₀, hin⟩ := h.lists c record p hrec hp
    refine ⟨h₀, fun hmem => ?_⟩
    rcases List.mem_append.1 hmem with hmem | hmem
    · exact (hin hmem).imp_right fun ⟨y, hy, hid⟩ => ⟨y, List.mem_append_left _ hy, hid⟩
    · exact absurd (List.mem_singleton.1 hmem) hc
  rcases pruneBinding_cases d gone x.1 b with ⟨hnone, heq⟩ | ⟨scope, name, heq⟩
    | ⟨t', record, record', lost, heq, hrec, hsame, hput, hlists, hlost⟩
  · rw [heq]
    refine ⟨h.same, fun c record p hrec hp => ?_, fun y hy => h.reads y (by simpa using hy)⟩
    refine hold c record p hrec hp ?_ []
    rintro rfl
    rw [hnone] at hrec
    cases hrec
  · rw [heq]
    refine ⟨h.same, fun c record p hrec hp => ?_, fun y hy => ?_⟩
    · by_cases hc : c = b
      · refine ⟨(h.lists c record p hrec hp).1, fun _ => .inr ⟨⟨scope, name, b, []⟩, ?_, hc.symm⟩⟩
        exact List.mem_append_right _ (List.mem_singleton_self _)
      · exact hold c record p hrec hp hc _
    · rcases List.mem_append.1 hy with hy | hy
      · exact h.reads y hy
      · obtain rfl := List.mem_singleton.1 hy
        exact fun _ hp => nomatch hp
  · rw [heq]
    refine ⟨h.same.trans hsame, fun c r p hr hp => ?_, fun y hy => ?_⟩
    · rw [hput] at hr
      by_cases hc : c = b
      · rw [if_pos hc] at hr
        obtain rfl := Option.some.inj hr
        obtain ⟨hp₀, hdrop⟩ := hlists p hp
        subst hc
        exact ⟨(h.lists c record p hrec hp₀).1, fun _ => .inl (by rw [← hdrops]; exact hdrop)⟩
      · rw [if_neg hc] at hr
        exact hold c r p hr hp hc _
    · rcases List.mem_append.1 hy with hy | hy
      · exact h.reads y hy
      · have hy' : lost = some y := by simpa using hy
        intro p hp
        rw [← hdrops]
        exact (hlost y hy').2 p hp

theorem pruned_prune (d : Departure) (gone : List ScopeId) (ids done : List BindingId)
    {x : Tree × List Destroyed} (h : Pruned d done t x) :
    Pruned d (done ++ ids) t (d.prune gone ids x) := by
  induction ids generalizing done x with
  | nil =>
    rw [List.append_nil]
    exact h
  | cons b ids ih =>
    have hrest := ih (done ++ [b]) (h.step gone b)
    rw [List.append_assoc] at hrest
    exact hrest

/-- What bindings list once those without a declaration were destroyed: nothing new but reads that
have to be resolved again. -/
structure Destroys (reads : PathId → Prop) (t t' : Tree) : Prop where
  same : t.SamePaths t'
  dead : ∀ b, t.binding? b = none → t'.binding? b = none
  lists : ∀ b record p, t'.binding? b = some record → record.Lists p →
    (∃ record₀, t.binding? b = some record₀ ∧ record₀.Lists p) ∨ reads p

namespace Destroys

variable {reads : PathId → Prop}

protected theorem refl (t : Tree) : Destroys reads t t :=
  ⟨.refl t, fun _ h => h, fun _ record _ hrec hp => .inl ⟨record, hrec, hp⟩⟩

protected theorem trans {t'' : Tree} (h : Destroys reads t t') (h' : Destroys reads t' t'') :
    Destroys reads t t'' where
  same := h.same.trans h'.same
  dead b hb := h'.dead b (h.dead b hb)
  lists b record p hrec hp := by
    rcases h'.lists b record p hrec hp with ⟨record', hrec', hp'⟩ | hp'
    · exact h.lists b record' p hrec' hp'
    · exact .inr hp'

theorem of_bindings (hsame : t.SamePaths t') (h : t'.bindings = t.bindings) :
    Destroys reads t t' where
  same := hsame
  dead b hb := by
    unfold Tree.binding?
    rw [h]
    exact hb
  lists b record p hrec hp := by
    unfold Tree.binding? at hrec
    rw [h] at hrec
    exact .inl ⟨record, hrec, hp⟩

theorem reference (hq : reads q) (b : BindingId) :
    Destroys reads t (t.updateBinding b (·.reference q)) where
  same := ⟨rfl, rfl⟩
  dead c hc := by
    rw [binding?_updateBinding]
    split
    · next h => rw [← h, hc]; rfl
    · exact hc
  lists c record p hrec hp := by
    rw [binding?_updateBinding] at hrec
    split at hrec
    · next hc =>
      obtain ⟨record₀, hrec₀, rfl⟩ := Option.map_eq_some_iff.1 hrec
      rcases lists_reference hp with hp | rfl
      · exact .inl ⟨record₀, hc ▸ hrec₀, hp⟩
      · exact .inr hq
    · exact .inl ⟨record, hrec, hp⟩

theorem addGlobal (s : ScopeId) (id : Option NodeId) :
    Stays (Destroys reads t) (Tree.addGlobal s id) := by
  have hscope (c : ScopeId) (f : ScopeData → ScopeData) (t' : Tree) (h : Destroys reads t t') :
      Destroys reads t (t'.updateScope c f) := h.trans (of_bindings ⟨rfl, rfl⟩ rfl)
  unfold Tree.addGlobal
  refine stays_get.bind fun t' => ?_
  split
  · exact (stays_modify fun t' => hscope _ _ t').bind fun _ => stays_modify (hscope _ _)
  · exact stays_pure _

theorem resolveAgain (s : ScopeId) (name : String) (hq : reads q) :
    Destroys reads t (Tree.resolveAgain s name q t) := by
  unfold Tree.resolveAgain
  split
  · exact reference hq _
  · have h := addGlobal s (t.node q) t (.refl t : Destroys reads t t)
    cases hrun : Tree.addGlobal s (t.node q) t with
    | ok _ t' =>
      rw [hrun] at h
      exact h
    | error _ t' =>
      rw [hrun] at h
      exact h

theorem binding?_destroyBinding (t : Tree) (b c : BindingId) :
    (t.destroyBinding b).binding? c = if c = b then none else t.binding? c := by
  show (t.bindings.modify b.index fun _ => none)[c.index]?.join = _
  rw [Array.getElem?_modify]
  by_cases h : c = b
  · subst h
    rw [if_pos rfl, if_pos rfl]
    cases t.bindings[c.index]? <;> rfl
  · have hi : b.index ≠ c.index := fun hi => h (by cases b; cases c; simp_all)
    rw [if_neg hi, if_neg h]
    rfl

/-- **Of a binding that is destroyed nothing stays**, and its reads are resolved again. -/
theorem destroy (x : Destroyed) (hx : ∀ p ∈ x.reads, reads p) (t : Tree) :
    Destroys reads t (Tree.destroy x t) ∧ (Tree.destroy x t).binding? x.id = none := by
  have hfold : ∀ (l : List PathId) (u : Tree), (∀ p ∈ l, reads p) →
      Destroys reads u (l.foldl (fun u p => Tree.resolveAgain x.scope x.name p u) u) := by
    intro l
    induction l with
    | nil => exact fun u _ => .refl u
    | cons p l ih =>
      intro u hl
      exact (resolveAgain x.scope x.name (hl p (List.mem_cons_self ..))).trans
        (ih _ fun q hq => hl q (List.mem_cons_of_mem _ hq))
  let left : Tree := t.updateScope x.scope fun d =>
    if d.bindings.get? x.name == some x.id then { d with bindings := d.bindings.drop x.name } else d
  have hleft : Destroys reads t left := of_bindings ⟨rfl, rfl⟩ rfl
  have hdrop : Destroys reads left (left.destroyBinding x.id) := by
    refine ⟨⟨rfl, rfl⟩, fun b hb => ?_, fun b record p hrec hp => .inl ⟨record, ?_, hp⟩⟩
    · rw [binding?_destroyBinding, hb, ite_self]
    · rw [binding?_destroyBinding] at hrec
      split at hrec
      · cases hrec
      · exact hrec
  have hreads := hfold x.reads (left.destroyBinding x.id) hx
  refine ⟨(hleft.trans hdrop).trans hreads, hreads.dead x.id ?_⟩
  rw [binding?_destroyBinding, if_pos rfl]

theorem destroyAll (xs : List Destroyed) (hxs : ∀ x ∈ xs, ∀ p ∈ x.reads, reads p) (t : Tree) :
    Destroys reads t (xs.foldl (fun t x => Tree.destroy x t) t)
      ∧ ∀ x ∈ xs, (xs.foldl (fun t x => Tree.destroy x t) t).binding? x.id = none := by
  induction xs generalizing t with
  | nil => exact ⟨.refl t, fun _ h => nomatch h⟩
  | cons x xs ih =>
    obtain ⟨hhead, hdead⟩ := destroy x (hxs x (List.mem_cons_self ..)) t
    obtain ⟨htail, hall⟩ := ih (fun y hy => hxs y (List.mem_cons_of_mem _ hy)) (Tree.destroy x t)
    refine ⟨hhead.trans htail, fun y hy => ?_⟩
    rcases List.mem_cons.1 hy with rfl | hy
    · exact htail.dead _ hdead
    · exact hall y hy

end Destroys

/-! ## all of it -/

theorem SameButPaths.detachScopes (h : t.SameButPaths t') (scopes : List ScopeId) :
    (Tree.detachScopes scopes t).SameButPaths (Tree.detachScopes scopes t') := by
  unfold Tree.detachScopes
  induction scopes generalizing t t' with
  | nil => exact h
  | cons s scopes ih =>
    refine ih { h with scopes := ?_ }
    exact congrArg (·.modify s.index ({ · with detached := true })) h.scopes

theorem invalidate_eq (d : Departure) (t : Tree) :
    invalidate d t = { d.settled t with
      scopeOfNode := (d.settled t).scopeOfNode.filter fun s => !(d.gone t).contains s } := by
  have hsame := sameButPaths_markRemovedBelow d (t.arena.preorder (some d.old)) t
  have hgone : (markRemovedBelow d (t.arena.preorder (some d.old)) t).scopesAmong
      (t.arena.preorder (some d.old)) = d.gone t := hsame.scopesAmong _
  have hkept : (detachScopes (d.gone t)
      (markRemovedBelow d (t.arena.preorder (some d.old)) t)).scopesAmong
      (t.arena.preorder d.keep) = d.kept t := (hsame.detachScopes _).scopesAmong _
  unfold invalidate
  simp only [hgone, hkept]
  rfl

theorem foldl_updateScope (f : ScopeId → ScopeData → ScopeData) (scopes : List ScopeId) (t : Tree) :
    ∃ scopes', scopes.foldl (fun t s => t.updateScope s (f s)) t
      = { t with scopes := scopes' } := by
  induction scopes generalizing t with
  | nil => exact ⟨t.scopes, rfl⟩
  | cons s scopes ih =>
    obtain ⟨scopes', h⟩ := ih (t.updateScope s (f s))
    exact ⟨scopes', h⟩

theorem exists_cleared (d : Departure) (t : Tree) : ∃ scopes,
    d.cleared t = { markRemovedBelow d (t.arena.preorder (some d.old)) t with scopes } := by
  obtain ⟨detached, hdetached⟩ := foldl_updateScope (fun _ => ({ · with detached := true }))
    (d.gone t) (markRemovedBelow d (t.arena.preorder (some d.old)) t)
  obtain ⟨attached, hattached⟩ := foldl_updateScope
    (fun _ x => if x.parent.any (d.gone t).contains then { x with parent := d.enclosing } else x)
    (d.kept t) (detachScopes (d.gone t) (markRemovedBelow d (t.arena.preorder (some d.old)) t))
  refine ⟨attached, hattached.trans ?_⟩
  unfold detachScopes
  rw [hdetached]

theorem cleared_eq (d : Departure) (t : Tree) :
    SameButPaths { t with scopes := (d.cleared t).scopes } (d.cleared t) := by
  have hmark := sameButPaths_markRemovedBelow d (t.arena.preorder (some d.old)) t
  obtain ⟨scopes, heq⟩ := exists_cleared d t
  rw [heq]
  exact { hmark with scopes := rfl }

theorem pruned_cleared (d : Departure) (t : Tree) : Pruned d (d.affected t) (d.cleared t)
    (d.prune (d.gone t) (d.affected t) (d.cleared t, [])) :=
  pruned_prune d (d.gone t) (d.affected t) [] ⟨.refl _,
    fun _ record _ hrec hp => ⟨⟨record, hrec, hp⟩, fun h => nomatch h⟩, fun _ h => nomatch h⟩

theorem samePaths_settled (d : Departure) (t : Tree) : (d.cleared t).SamePaths (d.settled t) := by
  have hpruned := pruned_cleared d t
  exact hpruned.same.trans (Destroys.destroyAll _ hpruned.reads _).1.same

theorem Names.pruneBinding {P : Tree → Prop} (h : Names P) (d : Departure)
    (gone : List ScopeId) (t : Tree) (b : BindingId) (ht : P t) :
    P (pruneBinding d gone t b).1 := by
  unfold Tree.pruneBinding
  split
  · exact ht
  · next x hx =>
    have hforget : P (t.updateBinding b fun _ => forgetUses (d.drops t) x) := by
      refine h.record t b (fun y hy => ?_) ht
      cases hx.symm.trans hy
      exact .pruned _
    dsimp only
    split
    · exact ht
    · split
      · exact hforget
      · split
        · refine h.record _ b (fun y hy => ?_) hforget
          rw [binding?_updateBinding, if_pos rfl, hx] at hy
          cases hy
          exact .succeeded ..
        · exact hforget

theorem Names.resolveAgain {P : Tree → Prop} (h : Names P) (s : ScopeId) (name : String)
    (p : PathId) (t : Tree) (ht : P t) : P (resolveAgain s name p t) := by
  unfold Tree.resolveAgain
  split
  · exact h.reference t _ p ht
  · have hadd := h.addGlobal s (t.node p) t ht
    split
    · next heq =>
      rw [heq] at hadd
      exact hadd
    · next heq =>
      rw [heq] at hadd
      exact hadd

theorem Names.destroy {P : Tree → Prop} (h : Names P) (x : Destroyed) (t : Tree) (ht : P t) :
    P (destroy x t) := by
  have hreads (ps : List PathId) (u : Tree) (hu : P u) :
      P (ps.foldl (fun u p => Tree.resolveAgain x.scope x.name p u) u) := by
    induction ps generalizing u with
    | nil => exact hu
    | cons p ps ih => exact ih _ (h.resolveAgain _ _ p u hu)
  exact hreads x.reads _ (h.retire t _ _ _ ht)

theorem Names.prune {P : Tree → Prop} (h : Names P) (d : Departure) (gone : List ScopeId)
    (ids : List BindingId) (x : Tree × List Destroyed) (hx : P x.1) : P (d.prune gone ids x).1 := by
  induction ids generalizing x with
  | nil => exact hx
  | cons b ids ih => exact ih _ (h.pruneBinding d gone x.1 b hx)

theorem Names.settled {P : Tree → Prop} (h : Names P) (d : Departure) (t : Tree)
    (ht : P (d.cleared t)) : P (d.settled t) := by
  have hdestroyed (xs : List Destroyed) (u : Tree) (hu : P u) :
      P (xs.foldl (fun t x => Tree.destroy x t) u) := by
    induction xs generalizing u with
    | nil => exact hu
    | cons x xs ih => exact ih _ (h.destroy x u hu)
  exact hdestroyed _ _ (h.prune d _ _ _ ht)

theorem keeps_markRemovedBelow {P : Tree → Prop} (hmark : ∀ t p, P t → P (t.markRemoved p))
    (d : Departure) (nodes : List NodeId) (t : Tree) (ht : P t) :
    P (markRemovedBelow d nodes t) := by
  have hpaths (ps : List PathId) : ∀ t, P t → P (ps.foldl (fun t p =>
      if some p != d.holder && !(t.path p).removed && d.inOld t.arena (t.node p)
        then t.markRemoved p
      else t) t) := by
    induction ps with
    | nil => exact fun _ h => h
    | cons p ps ih =>
      intro t h
      refine ih _ ?_
      dsimp only
      split
      · exact hmark t p h
      · exact h
  unfold markRemovedBelow
  induction nodes generalizing t with
  | nil => exact ht
  | cons n nodes ih => exact ih _ (hpaths _ t ht)

/-- What crawls keep is kept when a subtree is forgotten, if paths may be marked and scopes matter
only for what their names are. -/
theorem Names.invalidate {P : Tree → Prop} (h : Names P) (hmark : ∀ t p, P t → P (t.markRemoved p))
    (hscopes : ∀ t scopes scopeOfNode, P t → P { t with scopes, scopeOfNode })
    (d : Departure) (t : Tree) (ht : P t) : P (invalidate d t) := by
  have hcleared : P (d.cleared t) := by
    obtain ⟨scopes, heq⟩ := exists_cleared d t
    rw [heq]
    exact hscopes _ scopes _ (keeps_markRemovedBelow hmark d _ t ht)
  rw [invalidate_eq]
  exact hscopes _ (d.settled t).scopes _ (h.settled d t hcleared)

end Tree

end ScopedTree
