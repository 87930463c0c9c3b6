import ScopedTree.Proofs.Path.Coherent
import ScopedTree.Scope.Lookup

/-!
# Lines and blocks

A line is a node with the nodes above it, nearest first. The nodes on it that own a scope decide
where a name is looked up and where a declaration goes.

* `Arena.blocks`         the nodes on a line that own a scope;
* `Arena.functionHome`   where `var`s and functions go, `Arena.blockHome` the rest;
* `Tree.OnLine`          the line of a path, also of one that holds no node.
-/

namespace ScopedTree

namespace Arena

/-- The nodes on a line that own a scope. -/
def blocks (a : Arena) : List NodeId → List NodeId
  | [] => []
  | n :: above => if a.isScope (some n) above.head? then n :: a.blocks above else a.blocks above

/-- The first block of a line that passes a test, else the outermost one. -/
def home (a : Arena) (test : NodeType → Bool) (line : List NodeId) : Option NodeId :=
  ((a.blocks line).find? fun b => (a.type? (some b)).any test) <|> (a.blocks line).getLast?

/-- The block of a line that functions and `var`s are declared in. -/
def functionHome (a : Arena) (line : List NodeId) : Option NodeId :=
  a.home (·.isA .functionParent) line

/-- The block of a line that classes, `let`s and `const`s are declared in. -/
def blockHome (a : Arena) (line : List NodeId) : Option NodeId :=
  a.home (fun ty => ty.isA .blockParent || ty == .catchClause) line

variable {a : Arena} {r n b : NodeId} {above line : List NodeId}

theorem blocks_cons_of_scope (h : a.isScope (some n) above.head?) :
    a.blocks (n :: above) = n :: a.blocks above := by
  rw [blocks, if_pos h]

theorem blocks_cons_of_not_scope (h : ¬ a.isScope (some n) above.head?) :
    a.blocks (n :: above) = a.blocks above := by
  rw [blocks, if_neg h]

theorem blocks_head (h : (a.blocks line).head? = some b) :
    ∃ below above, line = below ++ b :: above ∧ a.isScope (some b) above.head?
      ∧ a.blocks line = b :: a.blocks above := by
  induction line with
  | nil => simp [blocks] at h
  | cons n above ih =>
    by_cases hn : a.isScope (some n) above.head?
    · rw [blocks_cons_of_scope hn] at h ⊢
      obtain rfl : n = b := by simpa using h
      exact ⟨[], above, rfl, hn, rfl⟩
    · rw [blocks_cons_of_not_scope hn] at h ⊢
      obtain ⟨below, above', rfl, hb, heq⟩ := ih h
      exact ⟨n :: below, above', rfl, hb, heq⟩

theorem Under.drop {below : List NodeId} (h : a.Under r n above)
    (hline : n :: above = below ++ b :: line) : a.Under r b line := by
  induction h generalizing below with
  | root =>
    cases below with
    | nil =>
      obtain ⟨rfl, rfl⟩ := List.cons.inj hline
      exact .root
    | cons m below =>
      have hlen := congrArg List.length (List.cons.inj hline).2
      simp at hlen
  | @child p c above hp hc ih =>
    cases below with
    | nil =>
      obtain ⟨rfl, rfl⟩ := List.cons.inj hline
      exact .child hp hc
    | cons m below => exact ih (List.cons.inj hline).2

end Arena

namespace Tree

open Arena

variable {t t' : Tree} {r n m : NodeId} {p q : PathId} {above line line' : List NodeId}

/-- The line of a path: its node and those above it, or for a path without a node the line of the
path above. -/
def OnLine (t : Tree) (r : NodeId) (p : PathId) (line : List NodeId) : Prop :=
  (∃ n above, t.Place r p n above ∧ line = n :: above)
    ∨ t.node p = none ∧ ∃ q n above, t.parentPath p = some q ∧ p.index < t.paths.size
      ∧ t.Place r q n above ∧ line = n :: above

theorem Place.onLine (h : t.Place r p n above) : t.OnLine r p (n :: above) :=
  .inl ⟨n, above, h, rfl⟩

theorem OnLine.lt (h : t.OnLine r p line) : p.index < t.paths.size := by
  rcases h with ⟨_, _, h, _⟩ | ⟨_, _, _, _, _, h, _⟩
  · exact h.lt
  · exact h

theorem OnLine.under (h : t.OnLine r p line) :
    ∃ n above, line = n :: above ∧ t.arena.Under r n above := by
  rcases h with ⟨n, above, h, rfl⟩ | ⟨_, _, n, above, _, _, h, rfl⟩ <;>
    exact ⟨n, above, rfl, h.under⟩

theorem OnLine.grows (h : t.OnLine r p line) (hg : t.Grows t') : t'.OnLine r p line := by
  rcases h with ⟨n, above, h, rfl⟩ | ⟨hn, q, n, above, hq, hp, h, rfl⟩
  · exact (h.grows hg).onLine
  · exact .inr ⟨(hg.node p hp).trans hn, q, n, above, (hg.parentPath p hp).trans hq,
      hp.trans_le hg.size, h.grows hg, rfl⟩

theorem Coherent.exists_line (ht : t.Coherent r) (hp : p.index < t.paths.size) :
    ∃ line, t.OnLine r p line := by
  cases hn : t.node p with
  | some n =>
    obtain ⟨above, h⟩ := ht.exists_place hn
    exact ⟨_, h.onLine⟩
  | none =>
    cases hq : t.parentPath p with
    | none =>
      have hr := (ht.root_of_parentPath hp hq).2.2.2
      rw [hn] at hr
      cases hr
    | some q =>
      obtain ⟨_, m, hm, _⟩ := ht.parent_of_parentPath hp hq
      obtain ⟨above, h⟩ := ht.exists_place hm
      exact ⟨_, .inr ⟨hn, q, m, above, hq, hp, h, rfl⟩⟩

theorem OnLine.unique (ht : t.Coherent r) (h : t.OnLine r p line) (h' : t.OnLine r p line') :
    line = line' := by
  have hplace : ∀ {q : PathId} {n n' : NodeId} {above above' : List NodeId},
      t.Place r q n above → t.Place r q n' above' → n :: above = n' :: above' := by
    intro q n n' above above' h h'
    obtain rfl := Option.some.inj (h.node.symm.trans h'.node)
    rw [h.under.unique ht.arena.owned h'.under]
  rcases h with ⟨n, above, h, rfl⟩ | ⟨hn, q, n, above, hq, _, h, rfl⟩
  · rcases h' with ⟨n', above', h', rfl⟩ | ⟨hn', _⟩
    · exact hplace h h'
    · exact absurd (h.node.symm.trans hn') (by simp)
  · rcases h' with ⟨n', above', h', rfl⟩ | ⟨_, q', n', above', hq', _, h', rfl⟩
    · exact absurd (hn.symm.trans h'.node) (by simp)
    · obtain rfl := Option.some.inj (hq.symm.trans hq')
      exact hplace h h'

end Tree

end ScopedTree
