import ScopedTree.Path.Execution
import ScopedTree.Proofs.Path.Branches

/-!
# The order of execution within a function

Within one function the guessed order of two paths is that of their nodes in the post-order walk of
the tree: what a node contains runs before it, and what stands earlier runs before what stands
later.

* `Arena.functionAround`      the nearest function of a node;
* `Tree.orderWithin_eq`       the order of two paths is that of their nodes;
* `Tree.executionOrder_eq`    it is what is guessed for paths in one function;
* `Tree.Reached.executionOrder_postorder`   **the guess is the post-order**, for all nodes of one
  function.
-/

namespace ScopedTree

open Arena Relation

/-- The nearest function of a line of nodes, or else the root. -/
def Arena.functionAround (a : Arena) (r : NodeId) (line : List NodeId) : NodeId :=
  (line.find? fun n => a.isA (some n) .function).getD r

/-- Two nodes below the root have the same function around them; a function counts as its own. -/
def Arena.SameFunction (a : Arena) (r n m : NodeId) : Prop :=
  ∃ above above', a.Under r n above ∧ a.Under r m above'
    ∧ a.functionAround r (n :: above) = a.functionAround r (m :: above')

namespace Arena.SameFunction

variable {a : Arena} {r n m k : NodeId}

theorem symm (h : a.SameFunction r n m) : a.SameFunction r m n := by
  obtain ⟨above, above', hn, hm, heq⟩ := h
  exact ⟨above', above, hm, hn, heq.symm⟩

theorem trans (ha : a.Owned) (h : a.SameFunction r n m) (h' : a.SameFunction r m k) :
    a.SameFunction r n k := by
  obtain ⟨above, above', hn, hm, heq⟩ := h
  obtain ⟨above₂, above₂', hm', hk, heq'⟩ := h'
  obtain rfl := hm.unique ha hm'
  exact ⟨above, above₂', hn, hk, heq.trans heq'⟩

theorem mem_postorder (ha : a.Owned) (h : a.SameFunction r n m)
    (hne : n ≠ m) : n ∈ a.postorder r := by
  obtain ⟨above, above', hn, hm, -⟩ := h
  have hn := hn.reaches_root ha
  have hlt : r.index < a.size := by
    rcases reflTransGen_iff_eq_or_transGen.1 hn with rfl | hn
    · rcases reflTransGen_iff_eq_or_transGen.1 (hm.reaches_root ha) with rfl | hm
      · exact absurd rfl hne
      · exact lt_of_below ha hm
    · exact lt_of_below ha hn
  exact (Arena.mem_postorder ha hlt).2 hn

end Arena.SameFunction

namespace Tree

variable {t : Tree} {k : Nat} {p q e c c' : PathId} {a b r n m m' o : NodeId}
  {above ns : List NodeId} {ofCalls : PathId → PathId → TreeM (Option ExecutionOrder)}

/-! ## the branches that are compared -/

theorem branchBelow_append {l rest : List PathId} (he : e ∉ l ++ [c]) :
    branchBelow e (l ++ c :: e :: rest) = some c := by
  have hkeep : ∀ x ∈ l ++ [c], (x != e) = true := fun x hx => bne_iff_ne.2 fun hxe => he (hxe ▸ hx)
  have hsplit : l ++ c :: e :: rest = (l ++ [c]) ++ e :: rest := by simp
  unfold branchBelow
  rw [hsplit, List.takeWhile_append_of_pos hkeep, List.takeWhile_cons_of_neg
    (by simp), List.append_nil, List.getLast?_concat]

theorem branchBelow_self (rest : List PathId) : branchBelow e (e :: rest) = none := by
  unfold branchBelow
  rw [List.takeWhile_cons_of_neg (by simp)]
  rfl

theorem find?_contains_append {l rest other : List PathId} (hl : ∀ x ∈ l, x ∉ other)
    (he : e ∈ other) :
    (l ++ e :: rest).find? other.contains = some e := by
  have hskip : l.find? other.contains = none := by
    refine List.find?_eq_none.2 fun x hx => ?_
    rw [List.contains_iff_mem]
    exact hl x hx
  rw [List.find?_append, hskip, Option.none_or, List.find?_cons_of_pos (by simpa using he)]

theorem Fresh.not_mem_ancestry (ha : t.arena.Owned) (hrooted : t.Rooted k) (hp : t.Fresh p n)
    {l : List PathId} (hl : t.ancestry p = l ++ t.ancestry e) : ∀ x ∈ l, x ∉ t.ancestry e :=
    fun x hx hxe =>
  (List.nodup_append.1 (hl ▸ hp.ancestry_nodup ha hrooted)).2.2 x hx x hxe rfl

theorem orderWithin_of_above (h : p ∈ t.ancestry q) : t.orderWithin p q = .after := by
  unfold orderWithin
  rw [if_pos (by simpa using h)]

theorem orderWithin_of_below (ha : t.arena.Owned) (hrooted : t.Rooted k) (hp : t.Fresh p a)
    (hpq : p ∉ t.ancestry q) (hqp : q ∈ t.ancestry p) : t.orderWithin p q = .before := by
  obtain ⟨-, l, -, -, hl⟩ := hp.of_mem_ancestry ha hrooted hqp
  have hfound : (t.ancestry p).find? (t.ancestry q).contains = some q := by
    rw [hl]
    exact find?_contains_append (hp.not_mem_ancestry ha hrooted hl) (Fresh.self_mem_ancestry t q)
  have hnone : branchBelow q (t.ancestry q) = none := branchBelow_self _
  unfold orderWithin
  rw [if_neg (by simpa using hpq), hfound]
  dsimp only
  rw [hnone]
  cases branchBelow q (t.ancestry p) <;> rfl

theorem Branch.branchBelow_eq (ha : t.arena.Owned) (hrooted : t.Rooted k) (h : t.Branch p n e o c m)
    (hp : t.Fresh p n) : branchBelow e (t.ancestry p) = some c := by
  obtain ⟨l, hl⟩ := h.ancestry
  rw [hl]
  refine branchBelow_append fun he => ?_
  exact hp.not_mem_ancestry ha hrooted (hl.trans (List.append_cons ..)) e he
    (Fresh.self_mem_ancestry t e)

theorem orderWithin_of_fork (ha : t.arena.Owned) (hrooted : t.Rooted k) (hp : t.Fresh p a)
    (hq : t.Fresh q b) (hpq : p ∉ t.ancestry q) (hc : t.Branch p a e o c m)
    (hc' : t.Branch q b e o c' m') (hne : c ≠ c') :
    t.orderWithin p q = if t.comesBefore c c' then .before else .after := by
  obtain ⟨l, hl⟩ := hc.ancestry
  obtain ⟨l', hl'⟩ := hc'.ancestry
  rw [List.append_cons] at hl hl'
  have hapart : ∀ x ∈ l ++ [c], x ∉ t.ancestry q := fun x hx hxq => by
    have hxp : x ∈ t.ancestry p := hl ▸ List.mem_append_left _ hx
    exact hp.not_mem_ancestry ha hrooted hl x hx (hc.common ha hrooted hc' hne hp hq hxp hxq)
  have hfound : (t.ancestry p).find? (t.ancestry q).contains = some e := by
    rw [hl]
    exact find?_contains_append hapart (hl' ▸ List.mem_append_right _ (Fresh.self_mem_ancestry t e))
  unfold orderWithin
  rw [if_neg (by simpa using hpq), hfound]
  dsimp only
  rw [hc.branchBelow_eq ha hrooted hp, hc'.branchBelow_eq ha hrooted hq]

/-- **The order of two paths is that of their nodes** in the post-order. -/
theorem orderWithin_eq (ha : t.arena.Owned) (hrooted : t.Rooted k) (hr : t.root = some r)
    (hp : t.Fresh p a) (hq : t.Fresh q b) :
    t.orderWithin p q = if [a, b].Sublist (t.arena.postorder r) then .before else .after := by
  have hnodup := nodup_postorder ha r
  have hwithin {p : PathId} {n : NodeId} (hp : t.Fresh p n) : ReflTransGen t.arena.OwnedBy n r := by
    obtain ⟨above, hu⟩ := hp.under hr
    exact hu.reaches_root ha
  by_cases hpq : p ∈ t.ancestry q
  · rw [orderWithin_of_above hpq, if_neg]
    rcases reflTransGen_iff_eq_or_transGen.1 ((hq.mem_ancestry_iff ha hrooted hp).1
      hpq) with rfl | hba
    · exact fun hsub => pair_asymm hnodup hsub hsub
    · exact pair_asymm hnodup (below_precedes ha hba (hwithin hp))
  rcases hp.fork ha hrooted hq with hmem | hqp | ⟨e, o, c, m, c', m', hc, hc', hne⟩
  · exact absurd hmem hpq
  · have hab : TransGen t.arena.OwnedBy a b := by
      rcases reflTransGen_iff_eq_or_transGen.1 ((hp.mem_ancestry_iff ha hrooted hq).1
        hqp) with rfl | hab
      · exact absurd ((hq.mem_ancestry_iff ha hrooted hp).2 .refl) hpq
      · exact hab
    rw [orderWithin_of_below ha hrooted hp hpq hqp, if_pos (below_precedes ha hab (hwithin hq))]
  · obtain ⟨s, hs⟩ := hc.serves
    obtain ⟨s', hs'⟩ := hc'.serves
    have hnodes := hc.nodes_ne ha hc' hne
    rw [orderWithin_of_fork ha hrooted hp hq hpq hc hc' hne]
    refine if_congr ((hs.comesBefore_iff ha hs' hnodes).trans ⟨fun hsub => ?_, fun hsub => ?_⟩) rfl
      rfl
    · exact branches_precede ha hsub hc.within hc'.within (hwithin hc.owner)
    · rcases pair_total (ha.nodup_children o) (ha.mem_children (hs.owned ha))
        (ha.mem_children (hs'.owned ha)) hnodes with h | h
      · exact h
      · exact absurd (branches_precede ha h hc'.within hc.within (hwithin hc.owner))
          (pair_asymm hnodup hsub)

/-! ## paths in one function -/

theorem Fresh.functionOrRoot_eq (ha : t.arena.Owned) (hrooted : t.Rooted k) (hp : t.Fresh p n)
    (hr : t.root = some r) (hu : t.arena.Under r n above) :
    ∃ f, functionOrRoot p t = .ok f t ∧ t.Fresh f (t.arena.functionAround r (n :: above)) := by
  have hrun (p : PathId) :
      functionOrRoot p t = (t.find p (t.nodeIsA · .function)).elim (getRootPath t)
      fun f => .ok f t := by
    unfold functionOrRoot
    rw [run_get_bind]
    cases t.find p (t.nodeIsA · .function) <;> rfl
  have hself {p : PathId} {n : NodeId} (hp : t.Fresh p n) :
      t.nodeIsA p .function = t.arena.isA (some n) .function := by
    unfold nodeIsA
    rw [hp.node]
  simp only [hrun, Tree.find, functionAround]
  induction hp generalizing above with
  | @top p r' hp hr' hn =>
    obtain rfl := Option.some.inj (hr.symm.trans hr')
    obtain rfl := hu.root_above ha
    have htop : t.Fresh p r := .top hp hr' hn
    rw [htop.ancestry_top ha hrooted hp, List.find?_singleton, List.find?_singleton, hself htop]
    cases t.arena.isA (some r) .function with
    | true => exact ⟨p, rfl, htop⟩
    | false => exact ⟨p, run_getRootPath hp, htop⟩
  | @child q p o n s hq h ih =>
    obtain ⟨above', hu'⟩ := hq.under hr
    obtain rfl := hu.unique ha (hu'.child (mem_children_of_readSlot h.inner h.holds))
    rw [hq.ancestry_child ha hrooted h, List.find?_cons, List.find?_cons, hself (hq.child h)]
    cases t.arena.isA (some n) .function with
    | true => exact ⟨p, rfl, hq.child h⟩
    | false => exact ih hu'

/-- **Paths in one function are ordered within it**, whatever is known about calls. -/
theorem orderWith_eq (ha : t.arena.Owned) (hrooted : t.Rooted k) (hr : t.root = some r)
    (hp : t.Fresh p a) (hq : t.Fresh q b) (hsame : t.arena.SameFunction r a b) :
    orderWith ofCalls p q t = .ok (t.orderWithin p q) t := by
  obtain ⟨above, above', hu, hu', hsame⟩ := hsame
  obtain ⟨f, hf, hfresh⟩ := hp.functionOrRoot_eq ha hrooted hr hu
  obtain ⟨f', hf', hfresh'⟩ := hq.functionOrRoot_eq ha hrooted hr hu'
  obtain rfl : f = f' := hfresh.unique ha (hsame ▸ hfresh')
  unfold orderWith
  rw [run_bind_of_ok (hp.resync_eq ha hrooted), run_bind_of_ok (hq.resync_eq ha hrooted),
    run_bind_of_ok hf', run_bind_of_ok hf, if_pos (beq_self_eq_true f)]
  rfl

theorem executionOrder_eq (ha : t.arena.Owned) (hrooted : t.Rooted k) (hr : t.root = some r)
    (hp : t.Fresh p a) (hq : t.Fresh q b) (hsame : t.arena.SameFunction r a b) :
    executionOrder p q t = .ok (t.orderWithin p q) t := orderWith_eq ha hrooted hr hp hq hsame

/-- As far as can be guessed `p` runs before `q`; to ask changes nothing. -/
def RunsBefore (t : Tree) (p q : PathId) : Prop := executionOrder p q t = .ok .before t

/-- **The guessed order of nodes in one function is the post-order.** In a tree in use the nodes of
which have single owners, paths of some nodes below the root are looked up. Take two of the nodes
with the same nearest function, where a function counts as its own and the root stands for none. The
path of the one is guessed to run before that of the other exactly if the one comes first in the
walk that visits the children of a node, in the order of fields and entries, before the node; else
it runs after. So of two nodes exactly one runs before the other, the order is transitive, and a
node runs after itself and after all that it contains. -/
theorem Reached.executionOrder_postorder (h : t.Reached) (ha : t.arena.WellOwned)
    (hr : t.root = some r) (hns : ∀ n ∈ ns, t.InReach n) :
    ∃ (path : NodeId → PathId) (t' : Tree), lookUp ns t = .ok (ns.map fun n => some (path n)) t'
      ∧ ∀ a ∈ ns, ∀ b ∈ ns, t.arena.SameFunction r a b →
        executionOrder (path a) (path b) t'
            = .ok (if [a, b].Sublist (t.arena.postorder r) then .before else .after) t'
          ∧ (a ≠ b → Xor (t'.RunsBefore (path a) (path b)) (t'.RunsBefore (path b) (path a)))
          ∧ (∀ c ∈ ns, t.arena.SameFunction r b c → t'.RunsBefore (path a) (path b) →
              t'.RunsBefore (path b) (path c) → t'.RunsBefore (path a) (path c))
          ∧ (ReflTransGen t.arena.OwnedBy b a → executionOrder (path a) (path b) t'
            = .ok .after t') := by
  obtain ⟨path, t', hrun, ht', hfresh⟩ := h.ends_lookUp ha hns
  have howned := ha.owned
  have hnodup := nodup_postorder howned r
  have horder (a : NodeId) (ha : a ∈ ns) (b : NodeId) (hb : b ∈ ns)
      (hsame : t.arena.SameFunction r a b) :
      executionOrder (path a) (path b) t'
        = .ok (if [a, b].Sublist (t.arena.postorder r) then .before else .after) t' := by
    rw [← ht'.arena] at howned hsame ⊢
    have hr := ht'.root.trans hr
    rw [executionOrder_eq howned ht'.rooted hr (hfresh a ha) (hfresh b hb) hsame,
      orderWithin_eq howned ht'.rooted hr (hfresh a ha) (hfresh b hb)]
  have hbefore (a : NodeId) (ha : a ∈ ns) (b : NodeId) (hb : b ∈ ns)
      (hsame : t.arena.SameFunction r a b) :
      t'.RunsBefore (path a) (path b) ↔ [a, b].Sublist (t.arena.postorder r) := by
    unfold RunsBefore
    rw [horder a ha b hb hsame]
    split <;> simp_all
  refine ⟨path, t', hrun, fun a ha b hb hsame =>
    ⟨horder a ha b hb hsame, fun hne => ?_, fun c hc hsame' => ?_,
    fun hba => ?_⟩⟩
  · rw [hbefore a ha b hb hsame, hbefore b hb a ha hsame.symm]
    rcases pair_total hnodup (hsame.mem_postorder howned hne)
      (hsame.symm.mem_postorder howned hne.symm) hne with h | h
    · exact .inl ⟨h, pair_asymm hnodup h⟩
    · exact .inr ⟨h, pair_asymm hnodup h⟩
  · rw [hbefore a ha b hb hsame, hbefore b hb c hc hsame',
      hbefore a ha c hc (hsame.trans howned hsame')]
    exact pair_trans hnodup
  · rw [horder a ha b hb hsame, if_neg]
    obtain ⟨above, -, hu, -⟩ := hsame
    rcases reflTransGen_iff_eq_or_transGen.1 hba with rfl | hba
    · exact fun hsub => pair_asymm hnodup hsub hsub
    · exact pair_asymm hnodup (below_precedes howned hba (hu.reaches_root howned))

def callWithFunction : Arena := runAll [
  .alloc .identifier [.str "f", .node none],
  .alloc .identifier [.str "x", .node none],
  .alloc .expressionStatement [.node (some ⟨1⟩)],
  .alloc .blockStatement [.list [], .list [some ⟨2⟩]],
  .alloc .functionExpression
    [.node none, .list [], .node (some ⟨3⟩), .node none, .node none, .bool false, .bool false],
  .alloc .identifier [.str "y", .node none],
  .alloc .callExpression [.node (some ⟨0⟩), .list [some ⟨4⟩, some ⟨5⟩]],
  .alloc .expressionStatement [.node (some ⟨6⟩)],
  .alloc .program [.str "module", .list [], .list [some ⟨7⟩]]]

theorem under_callWithFunction : callWithFunction.Under ⟨8⟩ ⟨0⟩ [⟨6⟩, ⟨7⟩, ⟨8⟩]
    ∧ callWithFunction.Under ⟨8⟩ ⟨5⟩ [⟨6⟩, ⟨7⟩, ⟨8⟩] ∧ callWithFunction.Under ⟨8⟩ ⟨6⟩ [⟨7⟩, ⟨8⟩]
    ∧ callWithFunction.Under ⟨8⟩ ⟨4⟩ [⟨6⟩, ⟨7⟩, ⟨8⟩]
    ∧ callWithFunction.Under ⟨8⟩ ⟨2⟩ [⟨3⟩, ⟨4⟩, ⟨6⟩, ⟨7⟩, ⟨8⟩] := by
  have hcall : callWithFunction.Under ⟨8⟩ ⟨6⟩ [⟨7⟩, ⟨8⟩] :=
    .child (.child .root (by decide +kernel)) (by decide +kernel)
  have hfunction : callWithFunction.Under ⟨8⟩ ⟨4⟩ [⟨6⟩, ⟨7⟩, ⟨8⟩] :=
    .child hcall (by decide +kernel)
  exact ⟨.child hcall (by decide +kernel), .child hcall (by decide +kernel), hcall, hfunction,
    .child (.child hfunction (by decide +kernel)) (by decide +kernel)⟩

/-- The callee runs before the second argument, and both before the call; the function, which comes
between them, has an order of its own. -/
theorem executionOrder_callWithFunction : ∃ (path : NodeId → PathId) (t' : Tree),
    lookUp [⟨0⟩, ⟨5⟩, ⟨6⟩, ⟨4⟩, ⟨2⟩] (ofArena callWithFunction (some ⟨8⟩))
        = .ok ([⟨0⟩, ⟨5⟩, ⟨6⟩, ⟨4⟩, ⟨2⟩].map fun n => some (path n)) t'
      ∧ t'.RunsBefore (path ⟨0⟩) (path ⟨5⟩) ∧ t'.RunsBefore (path ⟨0⟩) (path ⟨6⟩)
      ∧ executionOrder (path ⟨6⟩) (path ⟨5⟩) t' = .ok .after t'
      ∧ t'.RunsBefore (path ⟨2⟩) (path ⟨4⟩) := by
  obtain ⟨hf, hy, hcall, hfunction, hx⟩ := under_callWithFunction
  have hreach {n : NodeId} {above : List NodeId} (hu : callWithFunction.Under ⟨8⟩ n above)
      (hlen : above.length ≤ Limits.chain) : (ofArena callWithFunction (some ⟨8⟩)).InReach n :=
    ⟨⟨8⟩, above, rfl, hu, hlen⟩
  have hns : ∀ n ∈ [⟨0⟩, ⟨5⟩, ⟨6⟩, ⟨4⟩, ⟨2⟩], (ofArena callWithFunction (some ⟨8⟩)).InReach n := by
    simp only [List.forall_mem_cons, List.not_mem_nil, IsEmpty.forall_iff, implies_true, and_true]
    exact ⟨hreach hf (by decide), hreach hy (by decide), hreach hcall (by decide),
      hreach hfunction (by decide), hreach hx (by decide)⟩
  obtain ⟨path, t', hrun, horder⟩ :=
    (Reached.start callWithFunction (some ⟨8⟩) {}).executionOrder_postorder
    (wellOwned_runAll _) rfl hns
  have hfy := horder ⟨0⟩ (by simp) ⟨5⟩ (by simp) ⟨_, _, hf, hy, by decide +kernel⟩
  have hycall := horder ⟨5⟩ (by simp) ⟨6⟩ (by simp) ⟨_, _, hy, hcall, by decide +kernel⟩
  have hcally := horder ⟨6⟩ (by simp) ⟨5⟩ (by simp) ⟨_, _, hcall, hy, by decide +kernel⟩
  have hxfunction := horder ⟨2⟩ (by simp) ⟨4⟩ (by simp) ⟨_, _, hx, hfunction, by decide +kernel⟩
  have hbefore : t'.RunsBefore (path ⟨0⟩) (path ⟨5⟩) :=
    hfy.1.trans (by rw [if_pos (by decide +kernel)])
  refine ⟨path, t', hrun, hbefore, ?_, hcally.2.2.2 ?_,
    hxfunction.1.trans (by rw [if_pos (by decide +kernel)])⟩
  · exact hfy.2.2.1 ⟨6⟩ (by simp) ⟨_, _, hy, hcall, by decide +kernel⟩ hbefore
      (hycall.1.trans (by rw [if_pos (by decide +kernel)]))
  · exact .single ((wellOwned_runAll _).owned.owner_of_child _ _ (under_cons.1 hy).2)

end Tree

end ScopedTree
