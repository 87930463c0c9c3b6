import ScopedTree.Path.Virtual
import ScopedTree.Proofs.Path.Ground

/-!
# Virtual types by place

The check behind a virtual type looks at a node and the nodes above it only.

* `VirtualType.admits`   the check, for a node and the nodes above;
* `Ground.matches_eq`    the check at a path is that at its place.
-/

namespace ScopedTree

open ScopedTree.Tree

/-- Whether the node `n`, below the nodes `above`, passes the check. -/
def VirtualType.admits (v : VirtualType) (a : Arena) (n : NodeId) (above : List NodeId) : Bool :=
  let node := some n
  let owner := above.head?
  let grand := above.tail.head?
  match v with
  | referencedIdentifier =>
    let hostTag := a.is node .jsxIdentifier && !a.is owner .jsxMemberExpression
      && (a.name? node).any isHostTag
    (a.look node).isSome && !hostTag && a.isReferenced node owner grand
  | bindingIdentifier => a.is node .identifier && a.isBinding node owner
  | scope => a.isScope node owner
  | blockScoped => a.isBlockScoped node
  | var => a.isVar node
  | referenced => a.isReferenced node owner grand

variable {t : Tree} {r n : NodeId} {p : PathId} {above : List NodeId}

theorem Ground.grandparentNode (G : Ground r) (ht : G.Firm t) (hp : G.Place t p n above) :
    t.grandparentNode p = above.tail.head? := by
  unfold Tree.grandparentNode
  cases above with
  | nil =>
    rw [(G.top ht hp).1]
    rfl
  | cons m above =>
    obtain ⟨q, hq, _, hqp⟩ := G.parent ht hp
    rw [hq]
    exact G.parentNode ht hqp

/-- The check at a path that a pass came by is that at its place. -/
theorem Ground.matches_eq (G : Ground r) (ht : G.Firm t) (hp : G.Place t p n above)
    (v : VirtualType) :
    v.matches t p = v.admits t.arena n above := by
  have hnode := G.node hp
  have howner := G.parentNode ht hp
  have hgrand := G.grandparentNode ht hp
  cases v <;>
    simp only [VirtualType.matches, VirtualType.admits, isReferencedIdentifier, Tree.isReferenced,
      hnode, howner, hgrand]

theorem VirtualType.matches_eq (ht : t.Coherent r) (hp : t.Place r p n above) (v : VirtualType) :
    v.matches t p = v.admits t.arena n above := (Ground.coherent r).matches_eq ht hp v

end ScopedTree
