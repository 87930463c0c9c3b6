import ScopedTree.Proofs.Scope.Childless
import ScopedTree.Proofs.Scope.Resolve

/-!
# Uses are linked

When all declarations are known, what was collected is resolved: assignments, then reads, then other
writes.

* `Tree.Linked`                  what is known of bindings and globals while uses are resolved;
* `Tree.Linked.assigns`          new scopes change nothing about it;
* `Tree.Linked.linkAssignment`, `Tree.Linked.linkReference`, `Tree.Linked.linkViolation`
                                 one use;
* `Tree.Registered.link`         all uses.
-/

namespace ScopedTree.Tree

open Arena

variable {a : Arena} {t t' : Tree} {r n : NodeId} {p : PathId} {s c : ScopeId} {b : BindingId}
  {name : String} {above line : List NodeId} {done : List PathId} {o : Option BindingId}

/-- A read was noted: by its binding, or as a global. -/
def Counts (t : Tree) (p : PathId) (name : String) : Option BindingId → Prop
  | some b => ∃ record, t.binding? b = some record ∧ p ∈ record.referencePaths
  | none => ∃ s, s.index < t.scopes.size ∧ name ∈ t.globals s

/-- A use of a name that no scope around it binds. -/
def Unbound (t : Tree) (r : NodeId) (name : String) : Prop :=
  ∃ p, t.Reads r p name none ∨ t.Targets r p name none

theorem Unbound.keeps (hu : t.Unbound r name) (h : t.KeepsTables t') (ht : t.Scoped r) :
    t'.Unbound r name := by
  obtain ⟨p, hp⟩ := hu
  exact ⟨p, hp.imp (fun hr => hr.keeps h ht) fun hr => hr.keeps h ht⟩

/-- The state of a tree while uses are resolved; the reads in `done` were. -/
structure Linked (a : Arena) (r : NodeId) (done : List PathId) (t : Tree) : Prop where
  arena : t.arena = a
  inScope : t.Scoped r
  bound : t.Bound (a.Enters r)
  linked : ∀ b record, t.binding? b = some record → record.referencePaths.Nodup
    ∧ ∀ p ∈ record.referencePaths, (∃ k, t.CountsExport r p k record.name b)
    ∨ t.Reads r p record.name (some b)
  counted : ∀ p ∈ done, ∃ name o, t.Reads r p name o ∧ t.Counts p name o ∧ t.Occurs name
  globals : ∀ s name, name ∈ (t.scope s).globals.names → t.Unbound r name
  root : a.isScope (some r) none
  noted : ∀ s name, t.Lists s name → t.Occurs name

theorem Registered.linked (ht : Registered a r .none t) : Linked a r [] t where
  arena := ht.arena
  inScope := ht.inScope
  bound := ht.bound
  linked b record hr := by
    obtain ⟨hnd, hrefs⟩ := ht.exports not_false b record hr
    exact ⟨hnd, fun p hp => .inl ((hrefs p hp).imp fun _ h => h.2)⟩
  counted _ h := nomatch h
  globals s name h := by
    rw [ht.globals not_false s] at h
    cases h
  root := ht.root
  noted s name hl := ht.noted s name hl not_false

theorem Linked.occurs_of_getBinding? (ht : Linked a r done t) (hb : t.getBinding? s name = some b) :
    t.Occurs name := by
  obtain ⟨c, _, hc⟩ := List.exists_of_findSome?_eq_some hb
  rw [ht.bound.ownBinding?] at hc
  exact ht.noted c name (Option.isSome_iff_exists.2 ⟨b, hc⟩)

/-! ## what a step may change -/

theorem Scoped.programScope_lt (ht : t.Scoped r) (hs : s.index < t.scopes.size) :
    (t.programScope s).index < t.scopes.size := by
  unfold Tree.programScope
  rw [List.getLast?_eq_some_getLast (t.scopeChain_ne_nil s)]
  exact (ht.index_le_of_mem_chain _ s hs _ (List.getLast_mem _)).trans_lt hs

/-- A step that leaves the tables alone: records take in nothing but reads of theirs, and new
globals are unbound. -/
structure Steps (r : NodeId) (t t' : Tree) : Prop where
  tables : t.KeepsTables t'
  records : ∀ b record', t'.binding? b = some record' → ∃ record, t.binding? b = some record
    ∧ record'.name = record.name ∧ record'.scope = record.scope
    ∧ (record.referencePaths.Nodup → record'.referencePaths.Nodup)
    ∧ ∀ p ∈ record'.referencePaths, p ∈ record.referencePaths ∨ t.Reads r p record.name (some b)
  reads : ∀ b record, t.binding? b = some record → ∃ record', t'.binding? b = some record'
    ∧ record.referencePaths ⊆ record'.referencePaths
  added : ∀ s name, name ∈ (t'.scope s).globals.names →
    name ∈ (t.scope s).globals.names ∨ t.Unbound r name
  kept : ∀ s, s.index < t.scopes.size → (t.scope s).globals.names ⊆ (t'.scope s).globals.names

theorem Counts.steps (hc : t.Counts p name o) (h : Steps r t t') (ht : t.Scoped r) :
    t'.Counts p name o := by
  cases o with
  | some b =>
    obtain ⟨record, hr, hp⟩ := hc
    obtain ⟨record', hr', hsub⟩ := h.reads b record hr
    exact ⟨record', hr', hsub hp⟩
  | none =>
    obtain ⟨s, hs, hname⟩ := hc
    refine ⟨s, hs.trans_le h.tables.size, ?_⟩
    unfold Tree.globals at hname ⊢
    rw [h.tables.programScope ht hs]
    exact h.kept _ (ht.programScope_lt hs) hname

theorem Linked.steps (ht : Linked a r done t) (h : Steps r t t') (hs : t'.Scoped r)
    (hb : t'.Bound (a.Enters r)) : Linked a r done t' where
  arena := h.tables.grows.arena.trans ht.arena
  inScope := hs
  bound := hb
  linked b record' hr' := by
    obtain ⟨record, hr, hname, _, hnd, hrefs⟩ := h.records b record' hr'
    obtain ⟨hnd', hlinked⟩ := ht.linked b record hr
    rw [hname]
    refine ⟨hnd hnd', fun p hp => ?_⟩
    rcases hrefs p hp with hp | hp
    · exact (hlinked p hp).imp (fun ⟨k, he⟩ => ⟨k, he.keeps (h.tables.keepsFirst k) ht.inScope⟩)
        fun hr => hr.keeps h.tables ht.inScope
    · exact .inr (hp.keeps h.tables ht.inScope)
  counted p hp := by
    obtain ⟨name, o, hr, hc, hoccurs⟩ := ht.counted p hp
    exact ⟨name, o, hr.keeps h.tables ht.inScope, hc.steps h ht.inScope,
      h.tables.occurs name hoccurs⟩
  globals s name hname := by
    rcases h.added s name hname with hname | hu
    · exact (ht.globals s name hname).keeps h.tables ht.inScope
    · exact hu.keeps h.tables ht.inScope
  root := ht.root
  noted s name hl := h.tables.occurs name (ht.noted s name (h.tables.lists hl))

theorem Linked.count (ht : Linked a r done t) (hr : t.Reads r p name o) (hc : t.Counts p name o)
    (hoccurs : t.Occurs name) : Linked a r (done ++ [p]) t where
  arena := ht.arena
  inScope := ht.inScope
  bound := ht.bound
  linked := ht.linked
  counted q hq := by
    rcases List.mem_append.1 hq with hq | hq
    · exact ht.counted q hq
    · obtain rfl := List.mem_singleton.1 hq
      exact ⟨name, o, hr, hc, hoccurs⟩
  globals := ht.globals
  root := ht.root
  noted := ht.noted

theorem KeepsNames.steps (h : t.KeepsNames t') : Steps r t t' where
  tables := h.keepsTables
  records b record hr := by
    rw [h.binding?] at hr
    exact ⟨record, hr, rfl, rfl, id, fun _ hp => .inl hp⟩
  reads b record hr := by
    rw [h.binding?]
    exact ⟨record, hr, List.Subset.refl _⟩
  added s name hname := by
    by_cases hlt : s.index < t.scopes.size
    · have hg : (t'.scope s).globals = (t.scope s).globals := congrArg (·.2) (h.names s hlt)
      rw [hg] at hname
      exact .inl hname
    · have hg : (t'.scope s).globals = [] := congrArg (·.2) (h.fresh s (Nat.le_of_not_lt hlt))
      rw [hg] at hname
      cases hname
  kept s hs := by
    have hg : (t'.scope s).globals = (t.scope s).globals := congrArg (·.2) (h.names s hs)
    rw [hg]
    exact List.Subset.refl _

theorem Linked.keepsNames (ht : Linked a r done t) (h : t.KeepsNames t') (hs : t'.Scoped r) :
    Linked a r done t' := ht.steps h.steps hs (h.keepsTables.bound h.bindings ht.bound)

theorem Linked.crawlNew (ht : Linked a r done t) {o : Option ScopeId} (hp : t.Place r p n above)
    (hscope : t.arena.isScope (some n) above.head?) (hchildless : a.children (some n) = [])
    (hlen : above.length ≤ Limits.traversal + 2) (hnew : t.scopeOfNode.get? n.index = none)
    (ho : t.Holds above o) (fuel : Nat) :
    Goes (Linked a r done) (fun e => e = .depthLimit ∧ Limits.traversal ≤ t.depth)
      (crawlLevels fuel ⟨t.scopes.size⟩) (t.withScope p n o) fun _ _ => True := by
  have hs := ht.inScope.withScope hp hscope hlen hnew ho
  have h := ht.keepsNames (keepsNames_withScope ht.inScope hp hscope hnew o) hs
  have ha : t.Advances (t.withScope p n o) := advances_withScope ht.inScope hp hscope hnew
  have hpath : ((t.withScope p n o).path p).scope = some ⟨t.scopes.size⟩ := by
    rw [path_withScope, path_updatePath_self _ _ hp.lt]
  have hc : (t.withScope p n o).arena.children (some n) = [] := by rw [h.arena, hchildless]
  refine (crawlLevels_childless (G := .coherent r) hs.coherent (hp.grows ha.grows)
    (hs.parent_ne_last size_withScope.symm) scope_withScope_new hpath hc fuel).imp ?_
    fun _ _ he => he
  intro _ t' hstep
  have hext := hstep.extends
  exact ⟨h.keepsNames hext.keepsNames (hs.keeps hext.sameScopes.toKeepsScopes hext.coherent),
    hext.sameScopes.advances, trivial⟩

/-- **New scopes that come up while uses are resolved change nothing about names.** -/
theorem Linked.assigns (a : Arena) (r : NodeId) (done : List PathId) (fuel : Nat) :
    Assigns (Linked a r done) (a.Warrants r) r (crawlLevels fuel)
      fun n _ => a.children (some n) = [] where
  inScope _ ht := ht.inScope
  move t p o ht hs := ht.keepsNames (t.keepsNames_updatePath p o) hs
  crawl _ _ _ _ _ ht hp hscope hchildless hlen hnew ho :=
    (ht.crawlNew hp hscope hchildless hlen hnew ho fuel).imp (fun _ _ h => h)
      fun _ _ he _ _ heq => nomatch he.1.symm.trans heq

theorem Linked.assignsQuietly (a : Arena) (r : NodeId) (done : List PathId) (depth : Nat) :
    Assigns (fun t => Linked a r done t ∧ t.depth = depth)
    (fun _ => Limits.traversal ≤ depth) r crawl
      fun n _ => a.children (some n) = [] where
  inScope _ ht := ht.1.inScope
  move t p o ht hs := ⟨ht.1.keepsNames (t.keepsNames_updatePath p o) hs, ht.2⟩
  crawl t p n above o ht hp hscope hchildless hlen hnew ho := by
    unfold Tree.crawl
    refine goes_get ((ht.1.crawlNew hp hscope hchildless hlen hnew ho _).imp ?_ fun _ _ he => ?_)
    · rintro _ t' ⟨ht', ha, _⟩
      exact ⟨⟨ht', ha.control.depth.trans ht.2⟩, ha, trivial⟩
    · rw [← ht.2]
      exact he.2

/-- A line of a tree without news: nodes that own a scope have it, unless they have no children. -/
theorem Linked.covered (ht : Linked a r done t) (hp : t.OnLine r p line)
    (hnew : ∀ n above, a.Under r n above → a.isScope (some n) above.head? →
      t.scopeOfNode.get? n.index = none → a.children (some n) = []) :
    t.Covered (fun n _ => a.children (some n) = []) line := by
  intro below n above heq hscope hnone
  obtain ⟨m, up, rfl, hu⟩ := hp.under
  have hn := hu.drop heq
  rw [ht.arena] at hn hscope
  exact hnew n above hn hscope hnone

/-! ## one step -/

theorem steps_updateBinding {f : Binding → Binding}
    (hf : ∀ record, t.binding? b = some record → (f record).name = record.name
      ∧ (f record).scope = record.scope
      ∧ (record.referencePaths.Nodup → (f record).referencePaths.Nodup)
      ∧ (∀ p ∈ (f record).referencePaths,
        p ∈ record.referencePaths ∨ t.Reads r p record.name (some b))
      ∧ record.referencePaths ⊆ (f record).referencePaths) :
    Steps r t (t.updateBinding b f) where
  tables := t.keepsTables_updateBinding b f
  records c record hr := by
    rw [binding?_updateBinding] at hr
    split at hr
    · next hc =>
      obtain ⟨old, hold, rfl⟩ := Option.map_eq_some_iff.1 hr
      obtain ⟨hname, hscope, hnd, hrefs, _⟩ := hf old hold
      rw [hc]
      exact ⟨old, hold, hname, hscope, hnd, hrefs⟩
    · exact ⟨record, hr, rfl, rfl, id, fun _ hp => .inl hp⟩
  reads c record hr := by
    rw [binding?_updateBinding]
    split
    · next hc =>
      rw [hc] at hr
      rw [hr]
      exact ⟨f record, rfl, (hf record hr).2.2.2.2⟩
    · exact ⟨record, hr, List.Subset.refl _⟩
  added _ _ h := .inl h
  kept _ _ := List.Subset.refl _

theorem Linked.updateBinding (ht : Linked a r done t) {f : Binding → Binding}
    (hsame : ∀ record, record.Precedes (f record) ∧ (f record).identifier = record.identifier
      ∧ (f record).kind = record.kind ∧ (f record).redeclarations = record.redeclarations
      ∧ (f record).path = record.path)
    (hrefs : ∀ record, t.binding? b = some record →
      (record.referencePaths.Nodup → (f record).referencePaths.Nodup)
      ∧ (∀ p ∈ (f record).referencePaths,
        p ∈ record.referencePaths ∨ t.Reads r p record.name (some b))
      ∧ record.referencePaths ⊆ (f record).referencePaths) :
    Linked a r done (t.updateBinding b f) := by
  have h := t.sameScopes_updateBinding b f fun record _ => (hsame record).1
  refine ht.steps (steps_updateBinding fun record hr => ?_)
    (ht.inScope.keeps h.toKeepsScopes (coherent_of_names ht.inScope.coherent _ _))
    (ht.bound.updateBinding f fun record hr => ?_)
  · exact ⟨(hsame record).1.name, (hsame record).1.scope, hrefs record hr⟩
  · obtain ⟨hle, hid, hkind, hre, hpath⟩ := hsame record
    obtain ⟨_, _, hj⟩ := ht.bound.found b record hr
    refine ⟨hle.scope, hle.name, ⟨?_, ?_⟩, ?_⟩
    · rw [hid, hle.name, hkind]
      exact hj.declared
    · rw [hre, hle.name]
      exact hj.redeclared
    · rw [hpath, hid]
      exact ht.bound.sited b record hr

theorem Linked.registerViolation (ht : Linked a r done t) (s : ScopeId) (p : PathId) :
    Goes (Linked a r done) (a.Warrants r) (registerViolation s p) t fun _ _ => True := by
  unfold Tree.registerViolation
  refine goes_get (Goes.forM _ t ht fun x _ t' ht' _ => ?_)
  obtain ⟨name, _⟩ := x
  unfold Goes
  rw [ends_modify]
  cases hb : t'.getBinding? s name with
  | none => exact ⟨ht', .refl _, trivial⟩
  | some b =>
    have hle (record : Binding) : record.Precedes (record.reassign p) := record.precedes_reassign p
    refine ⟨ht'.updateBinding (fun record => ⟨hle record, rfl, rfl, rfl, rfl⟩) fun record _ => ?_,
      (t'.sameScopes_updateBinding b _ fun record _ => hle record).advances, trivial⟩
    exact ⟨id, fun _ hp => .inl hp, List.Subset.refl _⟩

theorem Linked.reference (ht : Linked a r done t) (hr : t.Reads r p name (some b))
    (hb : ∃ record, t.binding? b = some record ∧ record.name = name) (hoccurs : t.Occurs name) :
    Linked a r (done ++ [p]) (t.updateBinding b (·.reference p)) := by
  obtain ⟨record, hrecord, hname⟩ := hb
  have hmem : ∀ record : Binding, p ∈ (record.reference p).referencePaths := by
    intro record
    unfold Binding.reference
    split
    · next hc => simpa using hc
    · exact List.mem_append_right _ (List.mem_singleton_self p)
  have h : Linked a r done (t.updateBinding b (·.reference p)) := by
    refine ht.updateBinding (fun record => ?_) fun record' hrecord' => ?_
    · refine ⟨record.precedes_reference p, ?_⟩
      unfold Binding.reference
      split <;> exact ⟨rfl, rfl, rfl, rfl⟩
    · obtain rfl := Option.some.inj (hrecord.symm.trans hrecord')
      unfold Binding.reference
      split
      · exact ⟨id, fun _ hq => .inl hq, List.Subset.refl _⟩
      · next hc =>
        have hnew : p ∉ record.referencePaths := fun hp => hc (by simpa using hp)
        refine ⟨fun hnd => ?_, fun q hq => ?_, List.subset_append_left _ _⟩
        · refine List.nodup_append.2 ⟨hnd, List.nodup_singleton _, fun x hx y hy heq => ?_⟩
          obtain rfl := List.mem_singleton.1 hy
          exact hnew (heq ▸ hx)
        · rcases List.mem_append.1 hq with hq | hq
          · exact .inl hq
          · obtain rfl := List.mem_singleton.1 hq
            rw [hname]
            exact .inr hr
  refine h.count (hr.keeps (t.keepsTables_updateBinding b _) ht.inScope) ⟨record.reference p, ?_,
    hmem record⟩ hoccurs
  rw [binding?_updateBinding, if_pos rfl, hrecord]
  rfl

/-! ## globals -/

theorem mem_names_of_has {α : Type} {table : Table α} (h : table.has name) :
    name ∈ table.names := by
  cases hg : table.get? name with
  | none =>
    unfold Table.has at h
    rw [show table.lookup name = none from hg] at h
    cases h
  | some x => exact List.mem_map_of_mem (f := (·.1)) (mem_of_get? hg)

theorem names_addGlobal (globals : Table NodeId) (id : NodeId) (x : String) :
    x ∈ (if globals.has name then globals else globals.put name id).names
      ↔ x ∈ globals.names ∨ x = name := by
  split
  · next h =>
    refine ⟨.inl, ?_⟩
    rintro (h' | rfl)
    · exact h'
    · exact mem_names_of_has h
  · rw [Table.names_put]
    split
    · next h =>
      refine ⟨.inl, ?_⟩
      rintro (h' | rfl)
      · exact h'
      · exact h
    · rw [List.mem_append, List.mem_singleton]

theorem steps_updateScope {f : ScopeData → ScopeData} (hstatic : ∀ d, (f d).static = d.static)
    (htable : ∀ d, (f d).bindings = d.bindings) (hrefs : ∀ d, d.references ⊆ (f d).references)
    (hglobals : ∀ d x, x ∈ (f d).globals.names → x ∈ d.globals.names ∨ t.Unbound r x)
    (hkept : ∀ d, d.globals.names ⊆ (f d).globals.names) : Steps r t (t.updateScope s f) where
  tables := t.keepsTables_updateScope s f hstatic htable hrefs
  records b record hr := ⟨record, hr, rfl, rfl, id, fun _ hp => .inl hp⟩
  reads b record hr := ⟨record, hr, List.Subset.refl _⟩
  added c x hx := by
    rw [scope_updateScope] at hx
    split at hx
    · next hc =>
      rw [hc.1]
      exact hglobals _ x hx
    · exact .inl hx
  kept c _ := by
    rw [scope_updateScope]
    split
    · next hc =>
      rw [hc.1]
      exact hkept _
    · exact List.Subset.refl _

theorem Linked.updateScope (ht : Linked a r done t) {f : ScopeData → ScopeData}
    (hstatic : ∀ d, (f d).static = d.static) (htable : ∀ d, (f d).bindings = d.bindings)
    (hrefs : ∀ d, d.references ⊆ (f d).references)
    (hglobals : ∀ d x, x ∈ (f d).globals.names → x ∈ d.globals.names ∨ t.Unbound r x)
    (hkept : ∀ d, d.globals.names ⊆ (f d).globals.names) : Linked a r done (t.updateScope s f) := by
  have h := t.sameScopes_updateScope_of_bindings s f hstatic htable hrefs
  have htables := t.keepsTables_updateScope s f hstatic htable hrefs
  exact ht.steps (steps_updateScope hstatic htable hrefs hglobals hkept)
    (ht.inScope.keeps h.toKeepsScopes (coherent_of_names ht.inScope.coherent _ _))
    (htables.bound rfl ht.bound)

theorem Linked.addGlobal (ht : Linked a r done t) (hs : s.index < t.scopes.size)
    (hname : a.name? (some n) = some name) (hu : t.Unbound r name) :
    Goes (Linked a r done) (a.Warrants r) (addGlobal s (some n)) t
      fun _ t' => t.KeepsTables t' ∧ name ∈ t'.globals s ∧ t'.Occurs name := by
  let f : ScopeData → ScopeData := withReference name
  let g : ScopeData → ScopeData := fun d =>
    { d with globals := if d.globals.has name then d.globals else d.globals.put name n }
  have ht₁ : Linked a r done (t.updateScope (t.programScope s) f) :=
    ht.updateScope (fun _ => rfl) (fun _ => rfl) (references_subset_withReference name)
      (fun _ _ hx => .inl hx) fun _ => List.Subset.refl _
  have hk₁ := t.keepsTables_updateScope (t.programScope s) f (fun _ => rfl) (fun _ => rfl)
    (references_subset_withReference name)
  have hoccurs := ht.inScope.occurs_noteReference (ht.arena ▸ ht.root) hs name
  generalize hT : t.updateScope (t.programScope s) f = t₁ at ht₁ hk₁
  rw [hT] at hoccurs
  have ht₂ : Linked a r done (t₁.updateScope (t.programScope s) g) := by
    refine ht₁.updateScope (fun _ => rfl) (fun _ => rfl) (fun _ _ h => h) (fun d x hx => ?_)
      fun d x hx => ?_
    · refine ((names_addGlobal d.globals n x).1 hx).imp_right ?_
      rintro rfl
      exact hu.keeps hk₁ ht.inScope
    · exact (names_addGlobal d.globals n x).2 (.inl hx)
  have hk₂ := t₁.keepsTables_updateScope (t.programScope s) g (fun _ => rfl) (fun _ => rfl)
    fun _ _ h => h
  have hrun : Tree.addGlobal s (some n) t = .ok ⟨⟩ (t₁.updateScope (t.programScope s) g) := by
    unfold Tree.addGlobal
    rw [run_get_bind, ht.arena, hname, ← hT]
    rfl
  have hsame₁ : t.SameScopes t₁ :=
    hT ▸ t.sameScopes_noteReference (t.programScope s) name
  have hsame₂ := t₁.sameScopes_updateScope_of_bindings (t.programScope s) g (fun _ => rfl)
    (fun _ => rfl) fun _ _ h => h
  have hsize : s.index < t₁.scopes.size := hs.trans_le hk₁.size
  unfold Goes
  rw [hrun]
  refine ⟨ht₂, (hsame₁.trans hsame₂).advances, hk₁.trans hk₂, ?_, hk₂.occurs name hoccurs⟩
  unfold Tree.globals
  rw [hk₂.programScope ht₁.inScope hsize, hk₁.programScope ht.inScope hs, scope_updateScope,
    if_pos ⟨rfl, (ht.inScope.programScope_lt hs).trans_le hk₁.size⟩]
  exact (names_addGlobal _ n name).2 (.inr rfl)

/-! ## uses -/

theorem Scoped.scopeOfWith_eq (ht : t.Scoped r) (hp : t.OnLine r p line)
    (hs : (t.path p).scope = some s) (crawl : ScopeId → TreeM Unit) :
    scopeOfWith crawl p t = .ok (some s) t := by
  unfold scopeOfWith
  rw [run_get_bind, ht.liveScope? hp, hs]
  rfl

/-- The targets of an assignment are resolved, and occur. -/
theorem Linked.linkAssignment (ht : Linked a r done t) (hp : t.Place r p n above)
    (hs : (t.path p).scope = some s) (hn : a.is (some n) .assignmentExpression)
    (crawl : ScopeId → TreeM Unit) :
    Goes (Linked a r done) (a.Warrants r) (linkAssignment (scopeOfWith crawl) p) t
      fun _ t' => ∀ name id, a.Binds false n name id → t'.Occurs name := by
  have hholds := ht.inScope.path p _ s hp.onLine hs
  unfold Tree.linkAssignment Goes
  rw [run_bind_of_ok (ht.inScope.scopeOfWith_eq hp.onLine hs crawl)]
  refine goes_get ?_
  rw [hp.node, ht.arena]
  refine (Goes.forM_each (S := fun (x : String × List NodeId) t' => x.2 ≠ [] → t'.Occurs x.1)
    (fun x _ _ h ha hne => ha.occurs x.1 (h hne)) _ t ht ?_).bind fun _ t' ht' _ hall => ?_
  rotate_left
  · refine (ht'.registerViolation s p).mono fun _ t'' _ ha _ name id hb => ?_
    obtain ⟨ids, hids, hid⟩ := hb.mem_bindingIds (ht.arena ▸ ht.inScope.coherent.arena.owned)
    exact ha.occurs name (hall _ hids (List.ne_nil_of_mem hid))
  rintro ⟨name, ids⟩ hids t' ht' ha
  refine goes_get ?_
  split
  · next hnone =>
    cases ids with
    | nil =>
      refine goes_get ?_
      exact goes_pure ht' fun h => absurd rfl h
    | cons id ids =>
      obtain ⟨m, hm, hb⟩ := mem_bindingIds hids (List.mem_cons_self ..)
      obtain rfl := Option.some.inj hm
      refine (ht'.addGlobal ((hholds.2 s rfl).trans_le ha.size) hb.name? ?_).mono
        fun _ _ _ _ hdone _ => hdone.2.2
      refine ⟨p, .inr ⟨n, above, s, id, hp.grows ha.grows, ?_, ?_, hholds.advances ha, ?_⟩⟩
      · rw [ht'.arena]
        exact hn
      · rw [ht'.arena]
        exact hb
      · simpa using hnone
  · next hsome =>
    cases hb : t'.getBinding? s name with
    | none => exact absurd (by rw [hb]; rfl) hsome
    | some b => exact goes_pure ht' fun _ => ht'.occurs_of_getBinding? hb

/-- A read is resolved and counts. -/
theorem Linked.linkReference (ht : Linked a r done t) (hp : t.Place r p n above)
    (hs : (t.path p).scope = some s) (hread : a.isRead n above)
    (hname : a.name? (some n) = some name) (crawl : ScopeId → TreeM Unit) :
    Ends (linkReference (scopeOfWith crawl) p t)
      (fun _ t' => Linked a r (done ++ [p]) t' ∧ t.Advances t') fun e _ => a.Warrants r e := by
  have hholds := ht.inScope.path p _ s hp.onLine hs
  have hreads : t.Reads r p name (t.getBinding? s name) := by
    refine ⟨n, above, s, hp, ?_, ?_, hholds, rfl⟩ <;> rw [ht.arena]
    · exact hread
    · exact hname
  unfold Tree.linkReference
  rw [run_bind_of_ok (ht.inScope.scopeOfWith_eq hp.onLine hs crawl)]
  dsimp only
  rw [run_get_bind, hp.node, ht.arena, hname]
  dsimp only
  cases hb : t.getBinding? s name with
  | some b =>
    rw [hb] at hreads
    refine ⟨ht.reference hreads ?_ (ht.occurs_of_getBinding? hb),
      (t.sameScopes_updateBinding b _ fun record _ => record.precedes_reference p).advances⟩
    obtain ⟨c, _, hc⟩ := List.exists_of_findSome?_eq_some hb
    rw [ht.bound.ownBinding?] at hc
    obtain ⟨record, hr, _, hname⟩ := ht.bound.listed c name b hc
    exact ⟨record, hr, hname⟩
  | none =>
    rw [hb] at hreads
    refine Ends.mono (ht.addGlobal (hholds.2 s rfl) hname ⟨p, .inl hreads⟩) ?_
    rintro _ t' ⟨ht', ha, hk, hglobal, hoccurs⟩
    exact ⟨ht'.count (hreads.keeps hk ht.inScope) ⟨s, (hholds.2 s rfl).trans_le ha.size, hglobal⟩
      hoccurs, ha⟩

/-- A write other than an assignment is resolved. Its scope may come up only now. -/
theorem Linked.linkViolation (ht : Linked a r done t) (hp : t.Standing r p) (fuel : Nat)
    (hnew : ∀ n above, a.Under r n above → a.isScope (some n) above.head? →
      t.scopeOfNode.get? n.index = none → a.children (some n) = []) :
    Goes (Linked a r done) (a.Warrants r) (linkViolation (scopeOfWith (crawlLevels fuel)) p) t
      fun _ _ => True := by
  obtain ⟨line, hline, hlen⟩ := hp
  unfold Tree.linkViolation
  refine ((Linked.assigns a r done fuel).scopeOf ht hline hlen (ht.covered hline hnew)).bind
    fun o t' ht' _ _ => ?_
  cases o with
  | none => exact goes_pure ht' trivial
  | some s => exact ht'.registerViolation s p

theorem Linked.linkReferences (crawl : ScopeId → TreeM Unit) : ∀ (ps done : List PathId) (t : Tree),
    Linked a r done t →
    (∀ p ∈ ps, ∃ n above s name, t.Place r p n above ∧ (t.path p).scope = some s
      ∧ a.isRead n above ∧ a.name? (some n) = some name) →
    Ends (ps.forM (Tree.linkReference (scopeOfWith crawl)) t)
      (fun _ t' => Linked a r (done ++ ps) t' ∧ t.Advances t') fun e _ => a.Warrants r e
  | [], done, t, ht, _ => by
    refine ⟨?_, .refl t⟩
    rw [List.append_nil]
    exact ht
  | p :: ps, done, t, ht, hps => by
    obtain ⟨n, above, s, name, hp, hs, hread, hname⟩ := hps p (List.mem_cons_self ..)
    refine ends_bind.2 ((ht.linkReference hp hs hread hname crawl).mono ?_)
    rintro _ t' ⟨ht', ha⟩
    have hrest := Linked.linkReferences crawl ps (done ++ [p]) t' ht' fun q hq => by
      obtain ⟨m, up, c, x, hq', hc, hx⟩ := hps q (List.mem_cons_of_mem _ hq)
      exact ⟨m, up, c, x, hq'.grows ha.grows, ha.scope q c hc, hx⟩
    refine hrest.mono ?_
    rintro _ t'' ⟨ht'', ha'⟩
    rw [List.append_assoc] at ht''
    exact ⟨ht'', ha.trans ha'⟩

theorem isRead_name (ha : a.Shaped) (h : a.isRead n above) : ∃ name,
    a.name? (some n) = some name := by
  unfold Arena.isRead at h
  cases ho : a.get? n with
  | none => simp [type?, ho] at h
  | some o =>
    have hty : o.type = .identifier ∨ o.type = .jsxIdentifier := by
      simpa [type?, ho, VirtualType.mayCover] using (Bool.and_eq_true_iff.1 h).1
    have hfield : (⟨"name", .str⟩ : Field) ∈ o.type.fields := by
      rcases hty with hty | hty <;> rw [hty] <;> decide
    obtain ⟨v, hv, hfit⟩ := (ha n o ho).value?_of_mem hfield
    cases v with
    | str name =>
      refine ⟨name, ?_⟩
      have hname : o.name? = o.text? "name" := by
        unfold Node.name?
        rcases hty with hty | hty <;> rw [hty]
      rw [Arena.name?, look_some, ho, Option.bind_some, hname]
      simp [Node.text?, hv]
    | _ => simp [Value.fits] at hfit

theorem Gathered.exists_scope {x : List (List NodeId)} {collected : Collected}
    (hg : Gathered a r x t collected) (hroot : a.isScope (some r) none) (ht : t.Coherent r)
    (harena : t.arena = a) (hin : (n :: above) ∈ x) (hp : t.Place r p n above) :
    ∃ s, (t.path p).scope = some s := by
  obtain ⟨q, m, up, heq, hq, hnone⟩ := hg.entered _ hin
  obtain ⟨rfl, rfl⟩ := List.cons.inj heq
  obtain rfl := ht.unique _ _ _ hq.node hp.node
  cases hs : (t.path q).scope with
  | some s => exact ⟨s, rfl⟩
  | none =>
    have hu := hp.under
    rw [harena] at hu
    have hlast := getLast_blocks hu hroot
    rw [hnone hs] at hlast
    cases hlast

/-- **All uses are resolved: what was collected is counted, and nothing else changes.** The names
that are assigned to occur. -/
theorem Registered.link (ht : Registered a r .none t) {x : List (List NodeId)}
    {collected : Collected} (hg : Gathered a r x t collected)
    (hnew : ∀ n above, a.Under r n above → a.isScope (some n) above.head? →
      t.scopeOfNode.get? n.index = none → a.children (some n) = []) (fuel : Nat) :
    Ends (link (scopeOfWith (crawlLevels fuel)) collected t)
      (fun _ t' => Linked a r collected.references t' ∧ t.Advances t'
        ∧ ∀ n above, (n :: above) ∈ x → a.is (some n) .assignmentExpression →
          ∀ name id, a.Binds false n name id → t'.Occurs name)
      fun e _ => a.Warrants r e := by
  have hshaped : a.Shaped := ht.arena ▸ ht.inScope.coherent.arena.shaped
  have hscope : ∀ {n above p}, (n :: above) ∈ x → t.Place r p n above →
      ∃ s, (t.path p).scope = some s :=
    fun hin hp => hg.exists_scope ht.root ht.inScope.coherent ht.arena hin hp
  unfold Tree.link
  have hassign : Goes (Linked a r []) (a.Warrants r)
      (collected.assignments.forM (Tree.linkAssignment (scopeOfWith (crawlLevels fuel)))) t
      fun _ t' => ∀ p ∈ collected.assignments, ∀ n above, t.Place r p n above →
        ∀ name id, a.Binds false n name id → t'.Occurs name := by
    refine Goes.forM_each (S := fun p t' => ∀ n above, t.Place r p n above →
      ∀ name id, a.Binds false n name id → t'.Occurs name)
      (fun _ _ _ h ha n above hpl name id hb => ha.occurs name (h n above hpl name id hb))
      _ t ht.linked fun p hp t' ht' ha => ?_
    obtain ⟨n, above, hpl, hin, hn⟩ := hg.assignments p hp
    obtain ⟨s, hs⟩ := hscope hin hpl
    refine (ht'.linkAssignment (hpl.grows ha.grows) (ha.scope p s hs) hn _).mono
      fun _ t'' _ _ hall m up hpl' => ?_
    obtain rfl := Option.some.inj (hpl.node.symm.trans hpl'.node)
    exact hall
  refine ends_bind.2 (Ends.mono hassign ?_)
  rintro _ t₁ ⟨ht₁, ha₁, hassigned⟩
  have hreads := Linked.linkReferences (crawlLevels fuel) collected.references [] t₁ ht₁
    fun p hp => by
    obtain ⟨n, above, hpl, hin, hread⟩ := hg.reads p hp
    obtain ⟨s, hs⟩ := hscope hin hpl
    obtain ⟨name, hname⟩ := isRead_name hshaped hread
    exact ⟨n, above, s, name, hpl.grows ha₁.grows, ha₁.scope p s hs, hread, hname⟩
  refine ends_bind.2 (hreads.mono ?_)
  rintro _ t₂ ⟨ht₂, ha₂⟩
  have hwrites : Goes (Linked a r collected.references) (a.Warrants r)
      (collected.violations.forM (Tree.linkViolation (scopeOfWith (crawlLevels fuel)))) t₂
      fun _ _ => True := by
    refine Goes.forM _ t₂ ht₂ fun p hp t' ht' ha => ?_
    have hall := (ha₁.trans ha₂).trans ha
    refine ht'.linkViolation ((hg.violations p hp).grows hall.grows) fuel
      fun n above hu hn hnone => ?_
    refine hnew n above hu hn ?_
    cases hs : t.scopeOfNode.get? n.index with
    | none => rfl
    | some s =>
      rw [hall.scopeOfNode _ s hs] at hnone
      cases hnone
  refine Ends.mono hwrites ?_
  rintro _ t₃ ⟨ht₃, ha₃, _⟩
  refine ⟨ht₃, (ha₁.trans ha₂).trans ha₃, fun n above hin hn name id hb => ?_⟩
  obtain ⟨p, hp, hpl⟩ := hg.assigned n above hin hn
  exact (ha₂.trans ha₃).occurs name (hassigned p hp n above hpl name id hb)

end ScopedTree.Tree
