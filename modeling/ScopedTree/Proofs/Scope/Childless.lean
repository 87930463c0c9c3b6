import ScopedTree.Proofs.Scope.Entered

/-!
# Scopes without anything inside

A node without children declares nothing, and a crawl of its scope finds nothing.

* `Arena.bindingIds_of_childless`   it binds nothing;
* `Engine.visitFields_childless`    a pass below it does nothing;
* `Tree.crawlLevels_childless`      the crawl of its scope only makes paths.
-/

namespace ScopedTree

open ScopedTree.Tree Arena

/-! ## nothing bound -/

namespace Arena

variable {a : Arena} {n m : NodeId} {o : Node} {outer : Bool}

/-- A node without children that is no identifier binds nothing. -/
theorem bindingIds_of_childless (ho : a.get? n = some o) (hc : o.children = [])
    (hty : o.type ≠ .identifier) : a.bindingIds (some n) outer = [] := by
  have hnone : (a.bindingTargets outer o).reduceOption = [] := by
    refine List.eq_nil_iff_forall_not_mem.2 fun m hm => ?_
    have hm' := mem_children_of_bindingTargets (List.reduceOption_mem_iff.1 hm)
    rw [hc] at hm'
    cases hm'
  have hlevels : a.bindingLevels outer (a.size + 1) [n] = [] := by
    rw [bindingLevels.eq_3 _ _ _ _ (by simp)]
    have hfound : ([n].filterMap fun id => (a.get? id).bind fun n =>
        if (n.type == .identifier) = true then n.name?.map (·, id) else none) = [] := by
      simp [ho, hty]
    have hnext : ([n].flatMap fun id =>
        (a.get? id).elim [] fun n => (a.bindingTargets outer n).reduceOption) = [] := by
      rw [List.flatMap_singleton, ho]
      exact hnone
    rw [hfound, hnext]
    cases a.size <;> rfl
  unfold bindingIds
  rw [Option.toList_some, hlevels]
  rfl

theorem child?_of_childless (hc : a.children (some n) = []) (key : String) :
    a.child? (some n) key = none := by
  cases h : a.child? (some n) key with
  | none => rfl
  | some m =>
    have hm := mem_children_of_child? h
    rw [hc] at hm
    cases hm

end Arena

/-! ## nothing visited -/

namespace Engine

variable {σ : Type} {e : Engine σ} {t : Tree} {s : Pass σ} {n : NodeId} {p : PathId} {o : Node}

theorem childQueue_childless (ho : t.arena.get? n = some o) (hc : o.children = []) (hs : o.Shaped)
    {f : Field} (hf : f ∈ o.type.fields) : e.childQueue p (some n) f t = .ok [] t := by
  obtain ⟨v, hv, _⟩ := hs.value?_of_mem hf
  have hempty : ∀ m, some m ∉ v.handles := by
    intro m hm
    have hmem := mem_children_of_value? hv (n := m) (by simpa [Value.children] using hm)
    rw [hc] at hmem
    cases hmem
  have hfield : (do (← t.arena.node (some n)).field f.name : Except ShapeError Value) = .ok v := by
    have hnode : t.arena.node (some n) = .ok o := Arena.node_ok.2 ho
    simp [hnode, bind, Except.bind, Node.field, hv]
  unfold childQueue
  rw [run_get_bind, hfield, show (TreeM.ofShape (.ok v) : TreeM Value) = pure v from rfl, pure_bind]
  cases v with
  | node child =>
    cases child with
    | none => rfl
    | some m => exact absurd (List.mem_singleton_self _) (hempty m)
  | list items =>
    have hnone : (List.range items.length).filter (fun i =>
        items[i]?.join.any (e.dispatch.shouldVisit t.arena)) = [] := by
      refine List.filter_eq_nil_iff.2 fun i _ hi => ?_
      cases hm : items[i]?.join with
      | none => simp [hm] at hi
      | some m =>
        exact hempty m (List.mem_of_getElem? (Option.join_eq_some_iff.1 hm))
    simp only [hnone]
    rfl
  | _ => rfl

/-- A pass below a node without children does nothing. -/
theorem visitFields_childless (ht : s.tree.arena.get? n = some o) (hc : o.children = [])
    (hs : o.Shaped) (hn : s.tree.node p = some n) (hremoved : (s.tree.path p).removed = false) :
    ∀ (steps : Nat) (fields : List Field), fields.length < steps →
      (∀ f ∈ fields, f ∈ o.type.fields) → e.visitFields steps p (some n) fields s = .ok false s
  | 0, _, hlt, _ => absurd hlt (Nat.not_lt_zero _)
  | steps + 1, [], _, _ => by
    unfold visitFields
    rfl
  | steps + 1, f :: fields, hlt, hall => by
    have ih := visitFields_childless ht hc hs hn hremoved steps fields (Nat.lt_of_succ_lt_succ hlt)
      fun g hg => hall g (List.mem_cons_of_mem _ hg)
    have hnode : ((s.tree.path p).node != some n) = false := by
      rw [show (s.tree.path p).node = some n from hn]
      exact bne_self_eq_false _
    rw [visitFields, run_ask_bind]
    simp only [hremoved, hnode, Bool.or_self, Bool.false_eq_true, if_false]
    split
    · exact ih
    · rw [run_onTree_bind (childQueue_childless ht hc hs (hall f (List.mem_cons_self ..)))]
      exact ih

theorem visitNode_childless (ht : s.tree.arena.get? n = some o) (hc : o.children = [])
    (hs : o.Shaped) (hn : s.tree.node p = some n) (hremoved : (s.tree.path p).removed = false)
    {steps : Nat} (hsteps : 10 ≤ steps) :
    Ends (e.visitNode steps p (some n) s) (fun b s' => b = false ∧ s' = s)
      fun err _ => err = .depthLimit ∧ Limits.traversal ≤ s.tree.depth := by
  cases steps with
  | zero => exact absurd hsteps (by decide)
  | succ steps =>
    rw [visitNode, run_ask_bind]
    simp only [id_eq]
    split
    · next hdepth => exact ⟨rfl, hdepth⟩
    · have hty : ((s.tree.arena.type? (some n)).map (·.childFields)).getD []
          = o.type.childFields := by simp [Arena.type?, ht]
      rw [run_modifyTree_bind, hty]
      have hlen := o.type.length_childFields_le
      have hfields := visitFields_childless (e := e)
        (s := ⟨{ s.tree with depth := s.tree.depth + 1 },
        s.own⟩) ht hc hs hn hremoved steps o.type.childFields (by omega)
        fun f hf => (List.mem_filter.1 hf).1
      have ha : PassM.attempt (e.visitFields steps p (some n) o.type.childFields)
          ⟨{ s.tree with depth := s.tree.depth + 1 }, s.own⟩
            = .ok (.ok false) ⟨{ s.tree with depth := s.tree.depth + 1 }, s.own⟩ := by
        unfold PassM.attempt
        rw [hfields]
      rw [run_bind_of_ok ha]
      exact ⟨rfl, rfl⟩

end Engine

/-! ## nothing crawled -/

namespace Tree

variable {t t' : Tree} {r n : NodeId} {p q : PathId} {s : ScopeId} {above : List NodeId}
  {kind : BindingKind}

theorem NodeType.kind_params : ∀ ty : NodeType, ty.isA .function = true →
    (ty.field? "params").any (·.kind == .list) = true := by
  intro ty
  cases ty <;> decide

theorem registerBinding_eq (h : ∀ n, t.node p = some n → ¬ t.arena.is (some n) .variableDeclaration
    ∧ t.arena.bindingIds (some n) true = []) : registerBinding s kind p t = .ok ⟨⟩ t := by
  have hids : t.arena.bindingIds (t.node p) true = [] := by
    cases hn : t.node p with
    | none =>
      unfold bindingIds
      cases t.arena.size <;> rfl
    | some n => exact (h n hn).2
  have hvar : t.nodeIs p .variableDeclaration = false := by
    unfold nodeIs
    cases hn : t.node p with
    | none => rfl
    | some n => simpa using (h n hn).1
  unfold registerBinding
  rw [run_get_bind]
  unfold registerBindingLevels
  rw [run_get_bind, hvar]
  simp only [Bool.false_eq_true, if_false]
  unfold declareNames
  rw [run_get_bind, hids]
  rfl

section Ground

variable {G : Ground r}

theorem step_guard {c : Prop} [Decidable c] {x : TreeM PUnit} {next : PUnit → TreeM Unit}
    {E : TreeError → Tree → Prop} (ht : G.Firm t) (hx : c → Ends (x t) (fun _ t' => G.Step t t') E)
    (hnext : ∀ t', G.Step t t' → Ends (next ⟨⟩ t') (fun _ t'' => G.Step t t'') E) :
    Ends ((if c then x >>= next else next ⟨⟩) t) (fun _ t' => G.Step t t') E := by
  split
  · next hc => exact ends_bind.2 ((hx hc).mono fun _ t' h => hnext t' h)
  · exact hnext t (.refl ht)

theorem registerLoopHead_childless (hb : (t.scope s).block = n)
    (hc : t.arena.children (some n) = []) (key : String) : registerLoopHead s key t = .ok ⟨⟩ t := by
  unfold registerLoopHead
  rw [run_get_bind]
  simp only [hb, child?_of_childless hc]
  rfl

theorem registerParams_childless (ht : G.Firm t) (hp : G.Place t p n above) {o : Node}
    (ho : t.arena.get? n = some o) (hc : t.arena.children (some n) = [])
    (hfun : o.type.isA .function = true) :
    Ends ((do (← entries p "params").forM (registerBinding s .param) : TreeM Unit) t)
      (fun _ t' => G.Step t t') fun _ _ => False := by
  refine ends_bind.2 ((entries_ground ht hp ho (by decide)).imp ?_ ?_)
  · rintro qs t' ⟨hstep, hqs⟩
    have hnone : ∀ q ∈ qs, t'.node q = none := by
      intro q hq
      obtain ⟨item, hitem, -, hnode⟩ := forall₂_exists_of_mem_right hqs hq
      cases item with
      | none => exact hnode
      | some m =>
        have hm := mem_children_of_items hitem
        rw [hc] at hm
        cases hm
    have hrun : ∀ l : List PathId, (∀ q ∈ l, t'.node q = none) →
        l.forM (registerBinding s .param) t' = .ok ⟨⟩ t' := by
      intro l hl
      induction l with
      | nil => rfl
      | cons q l ih =>
        have hq := hl q (List.mem_cons_self ..)
        rw [List.forM, run_bind_of_ok (registerBinding_eq fun n hn =>
          absurd (hq.symm.trans hn) (by simp))]
        exact ih fun q' hq' => hl q' (List.mem_cons_of_mem _ hq')
    rw [hrun qs hnone]
    exact hstep
  · rintro e t' ⟨_, hnolist⟩
    obtain ⟨f, hf, hk⟩ := (Option.any_eq_true _ _).1 (NodeType.kind_params o.type hfun)
    exact hnolist f hf (by simpa using hk)

theorem registerHeads_childless (ht : G.Firm t) (hp : G.Place t (t.scope s).path n above)
    (hb : (t.scope s).block = n) (hc : t.arena.children (some n) = []) :
    Ends (registerHeads s t) (fun _ t' => G.Step t t') fun _ _ => False := by
  obtain ⟨o, ho⟩ := G.exists_get? ht hp
  have hoc : o.children = [] := by
    rw [children_some, ho] at hc
    exact hc
  have htype : t.arena.type? (some n) = some o.type := by simp [type?, ho]
  have hcatch : ∀ t', G.Step t t' →
      Ends ((if (o.type == .catchClause) = true then
        registerBinding s .catchParam (t.scope s).path else pure () : TreeM Unit) t')
        (fun _ t'' => G.Step t t'') fun _ _ => False := by
    intro t' h
    split
    · next hty =>
      have hty : o.type = .catchClause := by simpa using hty
      rw [registerBinding_eq fun m hm => ?_]
      · exact h
      · obtain rfl := Option.some.inj ((G.node (G.place h.grows hp)).symm.trans hm)
        rw [G.sameArena h.grows]
        refine ⟨?_, bindingIds_of_childless ho hoc (by simp [hty])⟩
        simp [Arena.is, htype, hty]
    · exact h
  have hrest : Ends (((if o.type.isA .function = true then
        (do (← entries (t.scope s).path "params").forM (registerBinding s .param)) >>= fun _ =>
          if (o.type == .catchClause) = true then registerBinding s .catchParam (t.scope s).path
          else pure ()
      else if (o.type == .catchClause) = true then registerBinding s .catchParam (t.scope s).path
          else pure () : TreeM Unit)) t) (fun _ t' => G.Step t t') fun _ _ => False :=
    step_guard ht (fun hfun => registerParams_childless ht hp ho hc hfun) hcatch
  have hloop := registerLoopHead_childless hb hc
  unfold registerHeads
  rw [run_get_bind]
  simp only [hb, htype, child?_of_childless hc, Option.isSome_none, Bool.false_eq_true, if_false]
  split
  · rw [run_bind_of_ok (hloop "init"), run_bind_of_ok (hloop "left")]
    split <;> simpa only [bind_assoc] using hrest
  · split <;> simpa only [bind_assoc] using hrest

theorem restartScope_childless (ht : G.Firm t) (hp : G.Place t p n above) {o : Option ScopeId}
    (hnot : ∀ c, (t.scope c).parent ≠ some s)
    (hd : t.scope s = { block := n, path := p, parent := o, crawled := true })
    (hc : t.arena.children (some n) = []) :
    Ends (restartScope s t) (fun _ t' => G.Step t t') fun _ _ => False := by
  have hself : t.updateScope s emptied = t := by
    refine updateScope_eq_self ?_
    rw [hd]
    unfold emptied
    dsimp only
    split <;> rfl
  have hreset : [s].forM resetScope t = .ok ⟨⟩ t := by
    rw [List.forM, run_bind_of_ok ((resetScope_eq (by rw [hd])).trans (by rw [hself]))]
    rfl
  have hheads := registerHeads_childless (s := s) ht (by rw [hd]; exact hp) (by rw [hd]) hc
  unfold restartScope
  rw [run_get_bind, descendantScopes_eq_nil hnot, run_bind_of_ok hreset]
  exact ends_bind.2 (hheads.mono fun _ _ h => h)

theorem collect_childless (ht : G.Firm t) (hp : G.Place t p n above)
    (hscope : (t.path p).scope = some s) (hdetached : (t.scope s).detached = false)
    (hc : t.arena.children (some n) = []) {steps : Nat} (hsteps : 10 ≤ steps) :
    Ends (collect (fun engine => engine.traversePath steps p) t) (fun c t' => c = {} ∧ t' = t)
      fun e _ => e = .depthLimit ∧ Limits.traversal ≤ t.depth := by
  obtain ⟨o, ho⟩ := G.exists_get? ht hp
  have hoc : o.children = [] := by
    rw [children_some, ho] at hc
    exact hc
  have hnode := Engine.visitNode_childless (e := collectorEngine) (s := ⟨t, {}⟩) (p := p) ho hoc
    ((G.arena ht).shaped n o ho) (G.node hp) (G.inUse ht hp).1 hsteps
  refine ends_collect.2 ?_
  rw [traversePath_eq ht hp hscope hdetached]
  refine ends_bind.2 (hnode.imp ?_ fun _ _ he => he)
  rintro _ s' ⟨_, rfl⟩
  exact ⟨rfl, rfl⟩

/-- **The crawl of a new scope without anything inside only makes paths**, unless it is too deep. -/
theorem crawlLevels_childless (ht : G.Firm t) (hp : G.Place t p n above) {o : Option ScopeId}
    (hnot : ∀ c, (t.scope c).parent ≠ some s)
    (hd : t.scope s = { block := n, path := p, parent := o, crawled := true })
    (hscope : (t.path p).scope = some s) (hc : t.arena.children (some n) = []) (fuel : Nat) :
    Ends (crawlLevels fuel s t) (fun _ t' => G.Step t t')
      fun e _ => e = .depthLimit ∧ Limits.traversal ≤ t.depth := by
  have hrestart : Ends (restartScope s t) (fun _ t' => G.Step t t')
      fun e _ => e = .depthLimit ∧ Limits.traversal ≤ t.depth :=
    (restartScope_childless ht hp hnot hd hc).imp (fun _ _ h => h) fun _ _ h => h.elim
  cases fuel with
  | zero => exact hrestart
  | succ fuel =>
    unfold crawlLevels
    refine ends_bind.2 (hrestart.mono fun _ t' h => ?_)
    have hsame : t'.scope s = { block := n, path := p, parent := o, crawled := true } := by
      rw [← hd]
      unfold Tree.scope
      rw [h.names.scopes]
    have hc' : t'.arena.children (some n) = [] := by rw [G.sameArena h.grows, hc]
    have hsteps : 10 ≤ t'.passSteps := by
      have hmul : 513 * 16 ≤ t'.passSteps := Nat.mul_le_mul_left _ (Nat.le_add_left ..)
      omega
    have hcollect := collect_childless h.firm (G.place h.grows hp)
      ((h.names.scope p).trans hscope) (by rw [hsame]) hc' hsteps
    rw [ends_bind, ends_get, hsame]
    refine ends_bind.2 (hcollect.imp ?_ fun _ _ ⟨he, hdepth⟩ => ⟨he, h.control.depth ▸ hdepth⟩)
    rintro _ _ ⟨rfl, rfl⟩
    exact h

end Ground

end Tree

end ScopedTree
