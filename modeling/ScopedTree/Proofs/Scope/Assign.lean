import ScopedTree.Proofs.Scope.Scoped

/-!
# Assigning scopes

A path is assigned the scope of its line, after the paths above it. A node that comes up with a
scope of its own for the first time gets one, and that is crawled.

* `Tree.withScope`          a tree with one more scope;
* `Tree.Assigns`            what is needed of the crawl of a new scope;
* `Tree.Assigns.upTo`       a path is assigned the scope of its line;
* `Tree.Assigns.scopeOf`    the scope of a path is that of its line.
-/

namespace ScopedTree.Tree

open Arena

variable {t t' : Tree} {r n : NodeId} {p q : PathId} {s : ScopeId} {above line : List NodeId}
  {o : Option ScopeId}

/-! ## a new scope -/

/-- A tree with one more scope, that of the node `n` at `p`. -/
def withScope (t : Tree) (p : PathId) (n : NodeId) (o : Option ScopeId) : Tree :=
  { t with
    paths := t.paths.modify p.index ({ · with scope := some ⟨t.scopes.size⟩ })
    scopes := t.scopes.push { block := n, path := p, parent := o, crawled := true }
    scopeOfNode := t.scopeOfNode.put n.index ⟨t.scopes.size⟩ }

theorem path_withScope (t : Tree) (p : PathId) (n : NodeId) (o : Option ScopeId) (q : PathId) :
    (t.withScope p n o).path q
      = (t.updatePath p ({ · with scope := some ⟨t.scopes.size⟩ })).path q := rfl

theorem scope_withScope (t : Tree) (p : PathId) (n : NodeId) (o : Option ScopeId) (s : ScopeId) :
    (t.withScope p n o).scope s = if s = ⟨t.scopes.size⟩
      then { block := n, path := p, parent := o, crawled := true } else t.scope s := by
  show (t.scopes.push _)[s.index]?.getD _ = _
  rw [Array.getElem?_push]
  by_cases h : s = ⟨t.scopes.size⟩
  · subst h
    simp
  · have hi : s.index ≠ t.scopes.size := fun hi => h (by cases s; simp_all)
    rw [if_neg hi, if_neg h]
    rfl

theorem scope_withScope_of_lt (h : s.index < t.scopes.size) :
    (t.withScope p n o).scope s = t.scope s := by
  rw [scope_withScope, if_neg]
  rintro rfl
  exact absurd h (Nat.lt_irrefl _)

theorem scope_withScope_new : (t.withScope p n o).scope ⟨t.scopes.size⟩
    = { block := n, path := p, parent := o, crawled := true } := by
  rw [scope_withScope, if_pos rfl]

theorem size_withScope : (t.withScope p n o).scopes.size = t.scopes.size + 1 := Array.size_push ..

theorem samePlaces_withScope : t.SamePlaces (t.withScope p n o) :=
  ⟨rfl, rfl, rfl, rfl, rfl, Array.size_modify,
    fun q => t.path_updatePath_congr p q _ PathData.position fun _ => rfl⟩

theorem Scoped.scope_eq_none (ht : t.Scoped r) (hp : t.Place r p n above)
    (hscope : t.arena.isScope (some n) above.head?) (hnew : t.scopeOfNode.get? n.index = none) :
    (t.path p).scope = none := by
  cases hs : (t.path p).scope with
  | none => rfl
  | some s =>
    have hh := ht.path p _ s hp.onLine hs
    have hb : (t.scope s).block = n := by
      have h := hh.1
      rw [blocks_cons_of_scope hscope] at h
      exact Option.some.inj h
    have hf := ht.found s (hh.2 s rfl)
    rw [hb, hnew] at hf
    cases hf

theorem advances_withScope (ht : t.Scoped r) (hp : t.Place r p n above)
    (hscope : t.arena.isScope (some n) above.head?) (hnew : t.scopeOfNode.get? n.index = none) :
    t.Advances (t.withScope p n o) where
  grows := samePlaces_withScope.grows
  control := ⟨rfl, rfl, rfl, fun q => t.path_updatePath_congr p q _ PathData.control fun _ => rfl⟩
  records := keepsRecords_of_eq rfl
  size := by
    rw [size_withScope]
    exact Nat.le_succ _
  static s hs := by rw [scope_withScope_of_lt hs]
  scopeOfNode i s hs := by
    show (t.scopeOfNode.put n.index _).get? i = _
    rw [IndexTable.get?_put, if_neg]
    · exact hs
    · rintro rfl
      rw [hnew] at hs
      cases hs
  scope q s hs := by
    rw [path_withScope, path_updatePath]
    split
    · next hq =>
      rw [hq.1, ht.scope_eq_none hp hscope hnew] at hs
      cases hs
    · exact hs
  lists s name hs := by
    unfold Lists at hs ⊢
    rw [scope_withScope]
    split
    · next heq =>
      rw [scope_of_size_le (by rw [heq])] at hs
      cases hs
    · exact hs
  occurs name hn := by
    unfold Occurs at hn ⊢
    rw [scope_withScope]
    split
    · next heq =>
      rw [scope_of_size_le (by rw [heq])] at hn
      cases hn
    · exact hn

theorem holds_withScope (hscope : t.arena.isScope (some n) above.head?) :
    (t.withScope p n o).Holds (n :: above) (some ⟨t.scopes.size⟩) := by
  refine ⟨?_, fun s hs => ?_⟩
  · show _ = (t.arena.blocks _).head?
    rw [blocks_cons_of_scope hscope, Option.map_some, scope_withScope_new]
    rfl
  · obtain rfl := Option.some.inj hs
    rw [size_withScope]
    exact Nat.lt_succ_self _

/-- The scope of a node that has none yet may be added. -/
theorem Scoped.withScope (ht : t.Scoped r) (hp : t.Place r p n above)
    (hscope : t.arena.isScope (some n) above.head?) (hlen : above.length ≤ Limits.traversal + 2)
    (hnew : t.scopeOfNode.get? n.index = none) (ho : t.Holds above o) :
    (t.withScope p n o).Scoped r := by
  have ha : t.Advances (t.withScope p n o) := advances_withScope ht hp hscope hnew
  have hcases : ∀ s : ScopeId, s.index < (t.withScope p n o).scopes.size →
      s = ⟨t.scopes.size⟩ ∨ s.index < t.scopes.size := by
    intro s hs
    rw [size_withScope] at hs
    rcases Nat.lt_succ_iff_lt_or_eq.1 hs with h | h
    · exact .inr h
    · exact .inl (by cases s; simp_all)
  have hget : ∀ i, (t.withScope p n o).scopeOfNode.get? i
      = if i = n.index then some ⟨t.scopes.size⟩ else t.scopeOfNode.get? i :=
    fun i => t.scopeOfNode.get?_put n.index i _
  refine ⟨samePlaces_withScope.coherent ht.coherent, ht.on, fun i s hs => ?_, fun s hs => ?_,
    fun s hs => ?_, fun s s' hs hpar => ?_, fun s hs => ?_, fun q line s hq hs => ?_⟩
  · rw [hget] at hs
    split at hs
    · next hi =>
      obtain rfl := Option.some.inj hs
      rw [scope_withScope_new, size_withScope]
      exact ⟨Nat.lt_succ_self _, hi.symm⟩
    · obtain ⟨hlt, hi⟩ := ht.listed i s hs
      rw [scope_withScope_of_lt hlt]
      exact ⟨hlt.trans_le ha.size, hi⟩
  · rcases hcases s hs with rfl | hlt
    · rw [scope_withScope_new, hget, if_pos rfl]
    · rw [scope_withScope_of_lt hlt]
      exact ha.scopeOfNode _ _ (ht.found s hlt)
  · rcases hcases s hs with rfl | hlt
    · rw [scope_withScope_new]
      exact ⟨above, hp.grows ha.grows, hscope, hlen, ho.advances ha⟩
    · rw [scope_withScope_of_lt hlt]
      obtain ⟨above', hp', hscope', hlen', hpar⟩ := ht.stands s hlt
      exact ⟨above', hp'.grows ha.grows, hscope', hlen', hpar.advances ha⟩
  · rcases hcases s hs with rfl | hlt
    · rw [scope_withScope_new] at hpar
      exact ho.2 s' hpar
    · rw [scope_withScope_of_lt hlt] at hpar
      exact ht.parent s s' hlt hpar
  · rcases hcases s hs with rfl | hlt
    · rw [scope_withScope_new]
      exact ⟨rfl, rfl⟩
    · rw [scope_withScope_of_lt hlt]
      exact ht.settled s hlt
  · have hold : ∀ {s}, (t.path q).scope = some s → (t.withScope p n o).Holds line (some s) := by
      intro s hs
      have hlt : q.index < t.paths.size := by
        by_contra hge
        rw [path_of_size_le (Nat.le_of_not_lt hge)] at hs
        cases hs
      obtain ⟨line', hq'⟩ := ht.coherent.exists_line hlt
      obtain rfl := hq.unique (samePlaces_withScope.coherent ht.coherent) (hq'.grows ha.grows)
      exact (ht.path q line s hq' hs).advances ha
    rw [path_withScope, path_updatePath] at hs
    split at hs
    · next hqp =>
      obtain rfl := Option.some.inj hs
      have hq' : (t.withScope p n o).OnLine r q (n :: above) := by
        rw [hqp.1]
        exact (hp.grows ha.grows).onLine
      rw [hq.unique (samePlaces_withScope.coherent ht.coherent) hq']
      exact holds_withScope hscope
    · exact hold hs

/-! ## the scope of a path -/

/-- What is needed of the crawl of a new scope while `P` is kept; `New` are the nodes that may come
up without a scope. -/
structure Assigns (P : Tree → Prop) (E : TreeError → Prop) (r : NodeId)
    (crawl : ScopeId → TreeM Unit) (New : NodeId → List NodeId → Prop) : Prop where
  inScope : ∀ t, P t → t.Scoped r
  move : ∀ t p o, P t → (t.updatePath p ({ · with scope := o })).Scoped r →
    P (t.updatePath p ({ · with scope := o }))
  crawl : ∀ t p n above o, P t → t.Place r p n above → t.arena.isScope (some n) above.head? →
    New n above → above.length ≤ Limits.traversal + 2 → t.scopeOfNode.get? n.index = none →
    t.Holds above o → Goes P E (crawl ⟨t.scopes.size⟩) (t.withScope p n o) fun _ _ => True

/-- Every node on a line that owns a scope has it or may come up without. -/
def Covered (t : Tree) (New : NodeId → List NodeId → Prop) (line : List NodeId) : Prop :=
  ∀ below n above, line = below ++ n :: above → t.arena.isScope (some n) above.head? →
    t.scopeOfNode.get? n.index = none → New n above

variable {P : Tree → Prop} {E : TreeError → Prop} {crawl : ScopeId → TreeM Unit}
  {New : NodeId → List NodeId → Prop}

theorem Covered.advances (h : t.Covered New line) (ha : t.Advances t') : t'.Covered New line := by
  intro below n above hline hscope hnone
  rw [ha.grows.arena] at hscope
  refine h below n above hline hscope ?_
  cases hs : t.scopeOfNode.get? n.index with
  | none => rfl
  | some s =>
    rw [ha.scopeOfNode _ s hs] at hnone
    cases hnone

theorem Covered.tail {m : NodeId} (h : t.Covered New (m :: line)) : t.Covered New line :=
  fun below n above hline => h (m :: below) n above (congrArg (m :: ·) hline)

theorem Scoped.scope_of_holds (ht : t.Scoped r) (hp : t.OnLine r p line) (ho : t.Holds line o)
    (hs : (t.path p).scope = some s) : o = some s :=
  ht.holds_unique ho (ht.path p line s hp hs)

theorem advances_updatePath (ht : t.Scoped r) (hp : t.OnLine r p line) (ho : t.Holds line o) :
    t.Advances (t.updatePath p ({ · with scope := o })) where
  grows := (t.samePlaces_updatePath p ({ · with scope := o }) fun _ => rfl).grows
  control := t.sameControl_updatePath p ({ · with scope := o }) fun _ => rfl
  records := keepsRecords_of_eq rfl
  size := Nat.le_refl _
  static _ _ := rfl
  scopeOfNode _ _ h := h
  scope q s hs := by
    rw [path_updatePath]
    split
    · next hq =>
      rw [hq.1] at hs
      exact ht.scope_of_holds hp ho hs
    · exact hs
  lists _ _ h := h
  occurs _ h := h

theorem Scoped.updatePath (ht : t.Scoped r) (hp : t.OnLine r p line) (ho : t.Holds line o) :
    (t.updatePath p ({ · with scope := o })).Scoped r := by
  have ha := advances_updatePath ht hp ho
  have hc := (t.samePlaces_updatePath p ({ · with scope := o }) fun _ => rfl).coherent ht.coherent
  refine ⟨hc, ht.on, ht.listed, ht.found, fun s hs => ?_, ht.parent, ht.settled,
    fun q line' s hq hs => ?_⟩
  · obtain ⟨above, hpl, hscope, hlen, hpar⟩ := ht.stands s hs
    exact ⟨above, hpl.grows ha.grows, hscope, hlen, hpar⟩
  · have hlt : q.index < t.paths.size := by
      have h := hq.lt
      rwa [size_updatePath] at h
    obtain ⟨line'', hq'⟩ := ht.coherent.exists_line hlt
    obtain rfl := hq.unique hc (hq'.grows ha.grows)
    rw [path_updatePath] at hs
    split at hs
    · next h =>
      have hs' : o = some s := hs
      obtain rfl := hq'.unique ht.coherent (h.1 ▸ hp)
      exact hs' ▸ ho
    · exact ht.path q line' s hq' hs

theorem Assigns.finish (h : Assigns P E r crawl New) (hP : P t) (hp : t.OnLine r p line)
    (ho : t.Holds line o) :
    Goes P E (do
      modify (·.updatePath p ({ · with scope := o }))
      match o with
      | none => return
      | some s =>
        if !((← get).scope s).crawled then
          modify (·.updateScope s ({ · with crawled := true }))
          crawl s) t fun _ t' => t'.Holds line (t'.path p).scope := by
  have ht := h.inScope t hP
  have ha := advances_updatePath ht hp ho
  have hP' := h.move t p o hP (ht.updatePath hp ho)
  have hend : (t.updatePath p ({ · with scope := o })).Holds line
      ((t.updatePath p ({ · with scope := o })).path p).scope := by
    rw [path_updatePath_self _ _ hp.lt]
    exact ho.advances ha
  refine (goes_modify (Q := fun _ t' => t' = t.updatePath p ({ · with scope := o })) hP'
    ha rfl).bind
    fun _ t' _ _ heq => ?_
  subst heq
  cases o with
  | none => exact goes_pure hP' hend
  | some s =>
    refine goes_get ?_
    have hcr : ((t.updatePath p ({ · with scope := some s })).scope s).crawled = true :=
      (ht.settled s (ho.2 s rfl)).1
    rw [hcr]
    exact goes_pure hP' hend

theorem updateScope_eq_self {f : ScopeData → ScopeData} (h : f (t.scope s) = t.scope s) :
    t.updateScope s f = t := by
  have hs : t.scopes.modify s.index f = t.scopes := by
    refine Array.ext_getElem? fun i => ?_
    rw [Array.getElem?_modify]
    split
    · next hi =>
      subst hi
      cases hc : t.scopes[s.index]? with
      | none => rfl
      | some d =>
        have hd : t.scope s = d := by simp [scope, hc]
        rw [hd] at h
        rw [Option.map_some, h]
    · rfl
  unfold updateScope
  rw [hs]

theorem Scoped.path_of_get (ht : t.Scoped r) (hn : t.node p = some n)
    (hs : t.scopeOfNode.get? n.index = some s) : (t.scope s).path = p ∧ (t.scope s).block = n := by
  obtain ⟨hlt, hi⟩ := ht.listed n.index s hs
  have hb : (t.scope s).block = n := by
    cases hb : (t.scope s).block
    cases n
    simp_all
  obtain ⟨_, hpl, _⟩ := ht.stands s hlt
  rw [hb] at hpl
  exact ⟨ht.coherent.unique _ _ n hpl.node hn, hb⟩

theorem withScope_eq (t : Tree) (p : PathId) (n : NodeId) (o : Option ScopeId) :
    ((({ t with
        scopes := t.scopes.push { block := n, path := p, parent := o }
        scopeOfNode := t.scopeOfNode.put n.index ⟨t.scopes.size⟩ } : Tree).updatePath p
          ({ · with scope := some ⟨t.scopes.size⟩ })).updateScope ⟨t.scopes.size⟩
        ({ · with crawled := true })) = t.withScope p n o := by
  have hscopes : (t.scopes.push { block := n, path := p, parent := o }).modify t.scopes.size
      ({ · with crawled := true })
        = t.scopes.push { block := n, path := p, parent := o, crawled := true } := by
    refine Array.ext_getElem? fun i => ?_
    rw [Array.getElem?_modify, Array.getElem?_push, Array.getElem?_push]
    by_cases hi : i = t.scopes.size
    · simp [hi]
    · simp [hi, Ne.symm hi]
  unfold updateScope updatePath withScope
  rw [hscopes]

theorem Assigns.place (h : Assigns P E r crawl New) (hP : P t) (hp : t.Place r p n above)
    (ho : t.Holds above o) (hlen : above.length ≤ Limits.traversal + 2)
    (hnew : t.Covered New (n :: above)) :
    Goes P E (do
      let scope ← scopeFor p o
      modify (·.updatePath p ({ · with scope }))
      match scope with
      | none => return
      | some s =>
        if !((← get).scope s).crawled then
          modify (·.updateScope s ({ · with crawled := true }))
          crawl s) t fun _ t' => t'.Holds (n :: above) (t'.path p).scope := by
  have ht := h.inScope t hP
  have hparent : (t.path p).parent = above.head? := ht.coherent.parentNode hp
  unfold scopeFor
  rw [bind_assoc]
  refine goes_get ?_
  simp only [show (t.path p).node = some n from hp.node, hparent]
  cases hscope : t.arena.isScope (some n) above.head? with
  | false =>
    simp only [Bool.not_false, if_true]
    rw [pure_bind]
    refine h.finish hP hp.onLine ?_
    rw [Holds, blocks_cons_of_not_scope (by simp [hscope])]
    exact ho
  | true =>
    simp only [Bool.not_true, Bool.false_eq_true, if_false]
    cases hs : t.scopeOfNode.get? n.index with
    | some s =>
      obtain ⟨hpath, hblock⟩ := ht.path_of_get hp.node hs
      have hself : t.updateScope s ({ · with path := p }) = t :=
        updateScope_eq_self (by rw [← hpath])
      have hholds : t.Holds (n :: above) (some s) := by
        refine ⟨?_, fun c hc => ?_⟩
        · rw [blocks_cons_of_scope hscope, Option.map_some, hblock]
          rfl
        · obtain rfl := Option.some.inj hc
          exact (ht.listed n.index s hs).1
      have hrun : ∀ {β : Type} (f : Option ScopeId → TreeM β),
          ((do modify (·.updateScope s ({ · with path := p })); return some s : TreeM _) >>= f) t
            = f (some s) t := by
        intro β f
        show f (some s) (t.updateScope s ({ · with path := p })) = _
        rw [hself]
      unfold Goes
      rw [hrun]
      exact h.finish hP hp.onLine hholds
    | none =>
      have hcrawl := h.crawl t p n above o hP hp hscope (hnew [] n above rfl hscope hs) hlen hs ho
      have ha : t.Advances (t.withScope p n o) := advances_withScope ht hp hscope hs
      have hpath : ((t.withScope p n o).path p).scope = some ⟨t.scopes.size⟩ := by
        rw [path_withScope, path_updatePath_self _ _ hp.lt]
      unfold Goes
      simp only [ends_bind, ends_modify, ends_pure, ends_get]
      rw [if_pos (by simp [scope, updatePath])]
      simp only [ends_bind, ends_modify]
      rw [withScope_eq]
      refine Ends.mono hcrawl ?_
      rintro _ t' ⟨hP', ha', _⟩
      refine ⟨hP', ha.trans ha', ?_⟩
      rw [ha'.scope p _ hpath]
      exact (holds_withScope hscope).advances ha'

theorem Assigns.liveAbove (h : Assigns P E r crawl New) (hP : P t) {q : PathId}
    (hq : t.OnLine r q line) {assign : TreeM Unit}
    (hassign : Goes P E assign t fun _ t' => t'.Holds line (t'.path q).scope)
    {next : Option ScopeId → TreeM Unit} {R : Unit → Tree → Prop}
    (hnext : ∀ o t', P t' → t.Advances t' → t'.Holds line o → Goes P E (next o) t' R) :
    Goes P E (match t.liveScope? q with
      | some s => do next (← pure (some s))
      | none => do
        assign
        next (← pure ((← get).path q).scope)) t R := by
  have ht := h.inScope t hP
  rw [ht.liveScope? hq]
  cases hs : (t.path q).scope with
  | some s => exact hnext _ t hP (.refl t) (ht.path q line s hq hs)
  | none => exact hassign.bind fun _ t' hP' ha hh => hnext _ t' hP' ha hh

/-- A path is assigned the scope of its line. -/
theorem Assigns.upTo (h : Assigns P E r crawl New) (fuel : Nat) (t : Tree) (p : PathId)
    (line : List NodeId) (hP : P t) (hp : t.OnLine r p line) (hfuel : p.index < fuel)
    (hlen : line.length ≤ Limits.traversal + 3) (hnew : t.Covered New line) :
    Goes P E (assignUpTo crawl fuel p) t fun _ t' => t'.Holds line (t'.path p).scope := by
  induction fuel generalizing t p line with
  | zero => exact absurd hfuel (Nat.not_lt_zero _)
  | succ fuel ih =>
    have ht := h.inScope t hP
    unfold assignUpTo
    refine goes_get ?_
    simp only [ht.on, Bool.false_eq_true, if_false]
    rcases hp with ⟨n, above, hp, rfl⟩ | ⟨hnode, q, n, above, hq, hlt, hqp, rfl⟩
    · cases above with
      | nil =>
        rw [(ht.coherent.top hp).1]
        simp only [pure_bind]
        exact h.place hP hp ⟨rfl, by simp⟩ (Nat.zero_le _) hnew
      | cons m above =>
        obtain ⟨q, hq, hlt, _, hqp⟩ := ht.coherent.parent hp
        rw [hq]
        refine h.liveAbove hP hqp.onLine
          (ih t q _ hP hqp.onLine (by omega) (by simp at hlen ⊢; omega)
          hnew.tail) fun o t' hP' ha ho => ?_
        exact h.place hP' (hp.grows ha.grows) ho (by simp at hlen ⊢; omega) (hnew.advances ha)
    · have hpq : q.index < p.index := (ht.coherent.parent_of_parentPath hlt hq).1
      rw [hq]
      refine h.liveAbove hP hqp.onLine (ih t q _ hP hqp.onLine (by omega) hlen hnew)
        fun o t' hP' ha ho => ?_
      have hp' : t'.OnLine r p (n :: above) :=
        OnLine.grows (.inr ⟨hnode, q, n, above, hq, hlt, hqp, rfl⟩) ha.grows
      have hnode' : (t'.path p).node = none := (ha.grows.node p hlt).trans hnode
      unfold scopeFor
      rw [bind_assoc]
      refine goes_get ?_
      simp only [hnode', pure_bind]
      exact h.finish hP' hp' ho

theorem Assigns.assignWith (h : Assigns P E r crawl New) (hP : P t) (hp : t.OnLine r p line)
    (hlen : line.length ≤ Limits.traversal + 3) (hnew : t.Covered New line) :
    Goes P E (assignWith crawl p) t fun _ t' => t'.Holds line (t'.path p).scope := by
  unfold Tree.assignWith
  exact goes_get (h.upTo _ t p line hP hp (Nat.lt_succ_of_lt hp.lt) hlen hnew)

/-- The scope of a path is that of its line. -/
theorem Assigns.scopeOf (h : Assigns P E r crawl New) (hP : P t) (hp : t.OnLine r p line)
    (hlen : line.length ≤ Limits.traversal + 3) (hnew : t.Covered New line) :
    Goes P E (scopeOfWith crawl p) t fun o t' => t'.Holds line o ∧ (t'.path p).scope = o := by
  have ht := h.inScope t hP
  unfold scopeOfWith
  refine goes_get ?_
  rw [ht.liveScope? hp]
  cases hs : (t.path p).scope with
  | some s => exact goes_pure hP ⟨ht.path p line s hp hs, hs⟩
  | none =>
    refine (h.assignWith hP hp hlen hnew).bind fun _ t' hP' _ hh => ?_
    exact goes_get (goes_pure hP' ⟨hh, rfl⟩)

end ScopedTree.Tree
