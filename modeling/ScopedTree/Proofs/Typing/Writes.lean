import ScopedTree.Proofs.Typing.Sources

/-!
# Which writes count

The guess whether one path runs before another is the same whenever it is asked for after the crawl:
it can be said by the nodes of the crawled tree.

* `Arena.functionOf`        the nearest function at a node or above;
* `Tree.orderLevelsOf`      the order of two nodes;
* `Tree.runsFirst`          what is written by a node may have been written when another runs;
* `Tree.orders_orderLevels`   **the order of two paths is that of their nodes**.
-/

namespace ScopedTree

namespace Arena

variable {a : Arena} {r n : NodeId} {above : List NodeId} {fuel : Nat}

/-- The nearest function at a node or above it, or else the root, looking at most so many nodes up.
-/
def functionOf (a : Arena) (r : NodeId) : Nat → NodeId → NodeId
  | 0, _ => r
  | fuel + 1, n =>
    if a.isA (some n) .function || n == r then n
      else (a.parentOf (some n)).elim r (a.functionOf r fuel)

theorem Under.functionOf_eq (ha : a.Owned) (h : a.Under r n above) (hfuel : above.length < fuel) :
    a.functionOf r fuel n = a.functionAround r (n :: above) := by
  induction h generalizing fuel with
  | root =>
    obtain ⟨fuel, rfl⟩ := Nat.exists_eq_succ_of_ne_zero (Nat.ne_zero_of_lt hfuel)
    rw [functionOf, if_pos (by simp)]
    unfold functionAround
    rw [List.find?_singleton]
    split <;> rfl
  | @child p c above hp hc ih =>
    obtain ⟨fuel, rfl⟩ := Nat.exists_eq_succ_of_ne_zero (Nat.ne_zero_of_lt hfuel)
    have hne : c ≠ r := by
      rintro rfl
      cases (hp.child hc).root_above ha
    rw [functionOf]
    unfold functionAround
    rw [List.find?_cons]
    cases a.isA (some c) .function with
    | true => rfl
    | false =>
      have hown : a.parentOf (some c) = some p := ha.owner_of_child p c hc
      rw [if_neg (by simpa using hne), hown]
      exact ih (by simpa using hfuel)

end Arena

namespace Tree

open Arena

section Order

variable (t : Tree) (r : NodeId)

/-- The nearest function at a node or above it, or else the root. -/
def functionOf (n : NodeId) : NodeId := t.arena.functionOf r (Limits.traversal + 1) n

def orderInside (m n : NodeId) : ExecutionOrder :=
  if [m, n].Sublist (t.arena.postorder r) then .before else .after

/-- The order in which `order` puts a node and all of some calls, unless they disagree. Calls inside
the called function itself do not count. -/
def commonOrderOf (order : NodeId → NodeId → ExecutionOrder) (f m : NodeId) :
    List PathId → Option ExecutionOrder → Option ExecutionOrder
  | [], found => found
  | call :: calls, found =>
    if (t.find call fun q => t.node q == some f).isSome then commonOrderOf order f m calls found
    else
      (t.node call).bind fun c =>
        if found.any (· != order m c) then none
          else commonOrderOf order f m calls (some (order m c))

/-- The order of a node and a function declaration, known if the function is never used or only
called, and all calls agree. -/
def orderOfCallsOf (order : NodeId → NodeId → ExecutionOrder)
    (m f : NodeId) : Option ExecutionOrder :=
  if !t.arena.is (some f) .functionDeclaration then none
  else (t.fieldName? (some f) "id").bind fun name => (t.bindingAt? f name).bind fun b =>
    if b.references = 0 then some .before
    else if !b.referencePaths.all t.isCallee then none
    else t.commonOrderOf order f m b.referencePaths none

/-- The order of two nodes, where functions are looked into with `ofCalls`. -/
def orderStep (ofCalls : NodeId → NodeId → Option ExecutionOrder) (m n : NodeId) : ExecutionOrder :=
  if t.functionOf r m = t.functionOf r n then t.orderInside r m n
  else (ofCalls m (t.functionOf r n)).getD (t.orderInside r m (t.functionOf r n))

/-- The order of two nodes, going through at most so many functions. -/
def orderLevelsOf : Nat → NodeId → NodeId → ExecutionOrder
  | 0 => t.orderStep r fun _ _ => none
  | fuel + 1 => t.orderStep r (t.orderOfCallsOf (orderLevelsOf fuel))

/-- Whether what is written at `w` may have been written when `n` is reached. -/
def runsFirst (w n : NodeId) : Bool :=
  t.orderLevelsOf r Limits.inference (t.sourceOf w) n == .before

end Order

variable {t₀ t t' : Tree} {r n m f : NodeId} {p q : PathId} {name : String} {fuel : Nat}
  {order : PathId → PathId → TreeM ExecutionOrder} {order₀ : NodeId → NodeId → ExecutionOrder}
  {ofCalls : PathId → PathId → TreeM (Option ExecutionOrder)}
  {ofCalls₀ : NodeId → NodeId → Option ExecutionOrder}

namespace Later

variable (h : Later r t₀ t)

include h

theorem orderWithin (hp : t.node p = some m) (hq : t.node q = some n) :
    t.orderWithin p q = t₀.orderInside r m n := by
  rw [orderWithin_eq h.coherent.arena.owned h.coherent.rooted h.coherent.root (h.coherent.fresh hp)
    (h.coherent.fresh hq), h.postorder]
  rfl

variable (hc : Crawled t₀.arena r t₀)

include hc

theorem functionOrRoot (hp : t.node p = some n) :
    ∃ f, Tree.functionOrRoot p t = .ok f t ∧ t.node f = some (t₀.functionOf r n) := by
  obtain ⟨above, hu, -⟩ := h.exists_under hp
  obtain ⟨f, hrun, hf⟩ := (h.coherent.fresh hp).functionOrRoot_eq h.coherent.arena.owned
    h.coherent.rooted h.coherent.root (h.under_iff.2 hu)
  refine ⟨f, hrun, hf.node.trans (congrArg some ?_)⟩
  rw [h.functionAround hu]
  exact (hu.functionOf_eq h.start.arena.owned (Nat.lt_succ_of_le (hc.shallow n above hu))).symm

omit hc in
theorem isCallee (hp : p.index < t₀.paths.size) : t.isCallee p = t₀.isCallee p := by
  unfold Tree.isCallee
  rw [h.slot p hp, h.parentNode hp]
  cases hm : t₀.parentNode p with
  | none => rfl
  | some m => rw [h.retains.is (h.parent_lt hp hm)]

omit hc in
theorem fieldName? (hp : t.node p = some n) (key : String) :
    t.fieldName? (some n) key = t₀.fieldName? (some n) key := by
  unfold Tree.fieldName?
  rw [h.child? hp]
  cases hm : t₀.arena.child? (some n) key with
  | none => rfl
  | some m => exact h.retains.name? (h.start.arena.owned.owner_of_child n m
    (mem_children_of_child? hm)).lt

end Later

def Orders (t : Tree) (order : PathId → PathId → TreeM ExecutionOrder)
    (order₀ : NodeId → NodeId → ExecutionOrder) :
    Prop := ∀ p q m n, t.node p = some m → t.node q = some n → order p q t = .ok (order₀ m n) t

theorem shouldVisit_of_fieldName? {key : String} (hname : t.fieldName? (some n) key = some name) :
    collectorDispatch.shouldVisit t.arena n = true := by
  unfold Tree.fieldName? at hname
  cases hm : t.arena.child? (some n) key with
  | none =>
    rw [hm] at hname
    cases hname
  | some m => exact shouldVisit_of_child (mem_children_of_child? hm)

theorem Crawled.node_of_reference (hc : Crawled t₀.arena r t₀) {b : Binding}
    (hb : t₀.bindingAt? n name = some b) (hp : p ∈ b.referencePaths) : ∃ c, t₀.node p = some c := by
  obtain ⟨_, hl, -⟩ := hc.linked
  obtain ⟨q, -, hb⟩ := Option.bind_eq_some_iff.1 hb
  obtain ⟨s, -, hb⟩ := Option.bind_eq_some_iff.1 hb
  obtain ⟨id, -, hb⟩ := Option.bind_eq_some_iff.1 hb
  obtain ⟨-, hlinked⟩ := hl.linked id b hb
  rcases hlinked p hp with ⟨_, _, c, _, _, he⟩ | ⟨c, above, s, hpl, -⟩
  · exact ⟨c, he.place.node⟩
  · exact ⟨c, hpl.node⟩

section Forms

variable (h : Later r t₀ t)

include h

theorem run_commonOrder (horder : t.Orders order order₀) (hp : t.node p = some m)
    {calls : List PathId} (hcalls : ∀ c ∈ calls, ∃ n, t₀.node c = some n)
    (found : Option ExecutionOrder) :
    commonOrder order (some f) p calls found t
    = .ok (t₀.commonOrderOf order₀ f m calls found) t := by
  induction calls generalizing found with
  | nil => rfl
  | cons call calls ih =>
    obtain ⟨c, hc⟩ := hcalls call (List.mem_cons_self ..)
    have ih := ih fun c hc => hcalls c (List.mem_cons_of_mem _ hc)
    have hc' := (h.node (lt_of_node hc)).trans hc
    unfold commonOrder commonOrderOf
    rw [run_get_bind, h.find_node hc]
    split
    · exact ih found
    · rw [run_bind_of_ok (horder p call m c hp hc'), hc, Option.bind_some]
      split
      · rfl
      · exact ih _

variable (hc : Crawled t₀.arena r t₀) (hroot : t₀.arena.is (some r) .program)

include hc hroot

theorem run_orderOfCalls (horder : t.Orders order order₀) (hp : t.node p = some m)
    (hq : t.node q = some f) :
    orderOfCalls order p q t = .ok (t₀.orderOfCallsOf order₀ m f) t := by
  have hlt := h.lt hq
  unfold orderOfCalls orderOfCallsOf
  rw [run_get_bind, hq, h.retains.is hlt, h.fieldName? hq]
  cases hdecl : t₀.arena.is (some f) .functionDeclaration with
  | false => rfl
  | true =>
    rw [if_neg (by simp), if_neg (by simp)]
    cases hname : t₀.fieldName? (some f) "id" with
    | none => rfl
    | some name =>
      dsimp only [Option.bind_some]
      have hne : f ≠ r := by
        rintro rfl
        exact absurd (is_unique hdecl hroot) (by decide)
      obtain ⟨s, hrun, hbinding⟩ := h.bindingAt? hc hq hne (shouldVisit_of_fieldName? hname) name
      rw [run_bind_of_ok hrun, run_get_bind, hbinding]
      cases hb : t₀.bindingAt? f name with
      | none => rfl
      | some b =>
        dsimp only [Option.bind_some]
        have hnodes := fun c => hc.node_of_reference (p := c) hb
        have hcallees : b.referencePaths.all t.isCallee = b.referencePaths.all t₀.isCallee := by
          rw [Bool.eq_iff_iff, List.all_eq_true, List.all_eq_true]
          refine forall₂_congr fun c hc => ?_
          obtain ⟨n, hn⟩ := hnodes c hc
          rw [h.isCallee (lt_of_node hn)]
        rw [hcallees]
        split
        · rfl
        · split
          · rfl
          · exact run_commonOrder h horder hp hnodes none

omit hroot in
theorem orders_orderWith (hcalls : ∀ p q m f, t.node p = some m → t.node q = some f →
      ofCalls p q t = .ok (ofCalls₀ m f) t) : t.Orders (orderWith ofCalls)
      (t₀.orderStep r ofCalls₀) := by
  intro p q m n hp hq
  obtain ⟨f, hf, hfn⟩ := h.functionOrRoot hc hq
  obtain ⟨g, hg, hgn⟩ := h.functionOrRoot hc hp
  have hsame : (g == f) = decide (t₀.functionOf r m = t₀.functionOf r n) := by
    rw [Bool.eq_iff_iff, beq_iff_eq, decide_eq_true_eq]
    constructor
    · rintro rfl
      exact Option.some.inj (hgn.symm.trans hfn)
    · intro heq
      exact h.coherent.unique g f _ hgn (heq ▸ hfn)
  unfold orderWith orderStep
  rw [run_bind_of_ok (resync_eq h.coherent p), run_bind_of_ok (resync_eq h.coherent q),
    run_bind_of_ok hf, run_bind_of_ok hg, hsame]
  by_cases hcase : t₀.functionOf r m = t₀.functionOf r n
  · rw [if_pos (by simpa using hcase), if_pos hcase, run_get_bind, h.orderWithin hp hq]
    rfl
  · rw [if_neg (by simpa using hcase), if_neg hcase, run_bind_of_ok (hcalls p f m _ hp hfn)]
    cases ofCalls₀ m (t₀.functionOf r n) with
    | some order => rfl
    | none =>
      dsimp only
      rw [run_get_bind, h.orderWithin hp hfn]
      rfl

/-- **The order of two paths is that of their nodes.** -/
theorem orders_orderLevels (fuel : Nat) : t.Orders (orderLevels fuel)
    (t₀.orderLevelsOf r fuel) := by
  induction fuel with
  | zero => exact orders_orderWith h hc fun _ _ _ _ _ _ => rfl
  | succ fuel ih => exact orders_orderWith h hc fun _ _ _ _ hp hq =>
    run_orderOfCalls h hc hroot ih hp hq

end Forms

end Tree

end ScopedTree
