import ScopedTree.Proofs.Edit.Known

/-!
# What edits keep

What writes at all places, crawls and the forgetting of subtrees keep is kept by every edit, whether
it succeeds or fails.

* `PathEdit`                what is done to a tree from outside;
* `PathEdit.Known`            it writes at known paths;
* `Tree.Edits.run`            keeps what edits at known paths keep;
* `Tree.Bears`                properties that passes and edits at any path keep where they succeed;
* `Tree.Endures`              a property that does not depend on places at all.
-/

namespace ScopedTree

/-- What is done to a tree from outside: nodes are made, paths are looked up, scopes are asked for
and places are edited. -/
inductive PathEdit where
  | write (w : Arena.Write)
  | find (p : PathId) (key : String)
  | scope (p : PathId)
  | replaceWith (p : PathId) (node : Option NodeId)
  | insertBefore (p : PathId) (nodes : List (Option NodeId))
  | insertAfter (p : PathId) (nodes : List (Option NodeId))
  | ensureBlock (p : PathId)
  | pushContainer (p : PathId) (key : String) (nodes : List (Option NodeId))
  | unshiftContainer (p : PathId) (key : String) (nodes : List (Option NodeId))
  | remove (p : PathId)
  | hoist (p : PathId)

theorem Stays.discard {P : Tree → Prop} {α : Type} {x : TreeM α} (h : Stays P x) :
    Stays P (Functor.discard x) := by
  show Stays P (Function.const α PUnit.unit <$> x)
  rw [map_eq_pure_bind]
  exact h.bind fun _ => stays_pure _

namespace PathEdit

def run : PathEdit → TreeM Unit
  | write w => modify fun t => { t with arena := w.run t.arena }
  | find p key => discard (Tree.follow p key)
  | scope p => discard (Tree.scopeOf p)
  | replaceWith p node => Tree.replaceWith p node
  | insertBefore p nodes => discard (Tree.insertBefore p nodes)
  | insertAfter p nodes => discard (Tree.insertAfter p nodes)
  | ensureBlock p => discard (Tree.ensureBlock p)
  | pushContainer p key nodes => discard (Tree.pushContainer p key nodes)
  | unshiftContainer p key nodes => discard (Tree.unshiftContainer p key nodes)
  | remove p => Tree.remove p
  | hoist p => discard (Tree.hoist p)

/-- The edit replaces or hoists only what stands at a path below `m`. All other edits find the paths
that they write at themselves. -/
def Known (m : Nat) : PathEdit → Prop
  | replaceWith p _ | hoist p => p.index < m
  | _ => True

theorem exists_known (e : PathEdit) : ∃ m, e.Known m := by
  cases e with
  | replaceWith p node => exact ⟨_, Nat.lt_succ_self _⟩
  | hoist p => exact ⟨_, Nat.lt_succ_self _⟩
  | _ => exact ⟨0, trivial⟩

end PathEdit

namespace Tree

theorem Edits.run {P : Nat → Tree → Prop} {E : Nat → TreeError → Tree → Prop} {m : Nat}
    (h : Edits P E) {e : PathEdit} (he : e.Known m) :
    Leads (P m) (E m) e.run := by
  cases e with
  | write w => exact (h.modifyArena _).leads (h.le m)
  | find p key => exact (((h.paths m).follow p key).leads (h.le m)).discard
  | scope p => exact (h.scopeOf p).discard
  | replaceWith p node => exact h.replaceWith p he node
  | insertBefore p nodes => exact (h.insertBefore p nodes).discard
  | insertAfter p nodes => exact (h.insertAfter p nodes).discard
  | ensureBlock p => exact (h.ensureBlock p).discard
  | pushContainer p key nodes => exact (h.pushContainer p key nodes).discard
  | unshiftContainer p key nodes => exact (h.unshiftContainer p key nodes).discard
  | remove p => exact h.remove p
  | hoist p => exact (h.hoist p he).discard

/-- Properties, one for each state that a run may start from, that passes and edits keep where they
succeed, whichever paths are known. What fails leaves at least `E`. -/
structure Bears {ι : Type} (P : ι → Tree → Prop) (E : ι → TreeError → Tree → Prop) : Prop
    extends Sweeps P E where
  edits : ∀ i, Edits (fun _ => P i) fun _ => E i

theorem Bears.run {ι : Type} {P : ι → Tree → Prop} {E : ι → TreeError → Tree → Prop} (h : Bears P E)
    (i : ι) (e : PathEdit) :
    Leads (P i) (E i) e.run := by
  obtain ⟨m, he⟩ := e.exists_known
  exact (h.edits i).run he

/-- A property that is kept by writes to nodes and by crawls, when names are claimed and counters of
tried names go up, when a path is queued and when a subtree is forgotten. -/
structure Endures (P : Tree → Prop) (k : Nat) : Prop extends Crawls P k where
  pathless : Pathless P
  nodes : ∀ t arena root, P t → P { t with arena, root }
  registry : ∀ t names name, t.options.registry = some names → P t →
    P { t with options := { t.options with registry := some (names ++ [name]) } }
  counter : ∀ t p base n (uids : ScopeData → List String), t.uidCounter p base ≤ n → P t →
    P (t.updateScope p fun d => { d with uidCounters := d.uidCounters.put base n, uids := uids d })
  queue : ∀ t p priority id, P t → P (t.queueOn p priority id)
  forget : ∀ d t, P t → P (invalidate d t)

namespace Endures

variable {P : Tree → Prop} {k : Nat} (h : Endures P k)

include h

theorem edits : Edits (fun _ => P) fun _ _ => P where
  names _ := h.toNames
  le _ _ _ ht := ht
  crawl s := h.sweeps.crawl () s
  registerSubtree p := h.sweeps.registerSubtree () p
  mono _ _ _ _ := ⟨id, fun _ => id⟩
  known m t ht := ⟨max m t.paths.size, le_max_left .., le_max_right .., ht⟩
  child m t p owner slot _ ht :=
    (stays_iff.1 (h.pathless.getOrCreatePath (some p) owner slot) t ht).mono fun q _ ht' =>
      ⟨max m (q.index + 1), le_max_left .., Nat.lt_of_succ_le (le_max_right ..), ht'⟩
  arena _ t a := h.nodes t a t.root
  slide _ t p f _ := h.pathless t _ (.updatePath t p f)
  fill _ t p _ f _ _ _ := h.pathless t _ (.updatePath t p f)
  fillRoot _ t p x f _ _ _ ht := h.pathless _ _ (.updatePath _ p f) (h.nodes t t.arena (some x) ht)
  registry _ := h.registry
  counter _ := h.counter
  queue _ := h.queue
  forget _ := h.forget
  clear _ t _ := h.pathless.tracked.lists t t.rootPath _

theorem bears : Bears (fun _ : Unit => P) fun _ _ => P where
  toSweeps := h.sweeps
  edits _ := h.edits

end Endures

end Tree

end ScopedTree
