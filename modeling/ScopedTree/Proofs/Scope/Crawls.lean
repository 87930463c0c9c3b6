import ScopedTree.Proofs.Pass.Keeps
import ScopedTree.Proofs.Scope.Collector
import ScopedTree.Proofs.Scope.Records

/-!
# What crawls keep

To crawl is to make scopes and to fill in names, in a pass that makes frames of its own. No scope
that is there changes its block, goes out of use or comes to hang elsewhere, and which names were
tried is not forgotten.

* `ScopeData.hook`        where a scope hangs;
* `ScopeData.lasting`     that, and which names were tried;
* `Tree.Names`            properties that the writes of a crawl keep;
* `Tree.Tableless`        those for which it does not matter which bindings scopes list;
* `Tree.Names.collector`  the handlers of a crawl keep them;
* `Tree.Sweeps`           properties that passes keep besides where they succeed;
* `Tree.Sweeps.crawl`, `Tree.Sweeps.scopeOf`, `Tree.Sweeps.registerSubtree`   so do crawls then;
* `Tree.Crawls`           among them are those that do not depend on frames to come.
-/

namespace ScopedTree

/-- Where a scope hangs: its block, the scope around it and whether it is out of use. -/
def ScopeData.hook (d : ScopeData) : NodeId × Option ScopeId × Bool :=
  (d.block, d.parent, d.detached)

/-- What outlives a crawl: where the scope hangs, and which names were tried. -/
def ScopeData.lasting (d : ScopeData) : (NodeId × Option ScopeId × Bool) × Table Nat :=
  (d.hook, d.uidCounters)

namespace Tree

/-- A property that is kept when paths are looked up, when scopes come, when they change but for
what lasts and for the bindings they list, when a binding changes that stays where it belongs, and
when names are declared and retired and scopes are reset. -/
structure Names (P : Tree → Prop) : Prop where
  paths : Charted P
  scope : ∀ t s {f : ScopeData → ScopeData},
    (∀ d, (f d).lasting = d.lasting ∧ (f d).bindings = d.bindings) → P t → P (t.updateScope s f)
  record : ∀ t b {f : Binding → Binding}, (∀ x, t.binding? b = some x → x.Becomes (f x)) → P t →
    P (t.updateBinding b f)
  declareName : ∀ s kind p name id, Stays P (Tree.declareName s kind p name id)
  resetScope : ∀ s, Stays P (Tree.resetScope s)
  retire : ∀ t s name b, P t → P (t.retire s name b)
  newScope : ∀ t (n : NodeId) d, d.bindings = [] → t.scopeOfNode.get? n.index = none → P t →
    P { t with
      scopes := t.scopes.push d
      scopeOfNode := t.scopeOfNode.put n.index ⟨t.scopes.size⟩ }

/-- A property for which it does not matter which bindings the scopes list: it is kept when paths
are looked up, when scopes come, when they change but for what lasts, and when records develop. -/
structure Tableless (P : Tree → Prop) : Prop where
  paths : Charted P
  scope : ∀ t s {f : ScopeData → ScopeData}, (∀ d, (f d).lasting = d.lasting) → P t →
    P (t.updateScope s f)
  bindings : ∀ t bindings, t.Develops bindings → P t → P { t with bindings }
  newScope : ∀ t (n : NodeId) d, t.scopeOfNode.get? n.index = none → P t →
    P { t with
      scopes := t.scopes.push d
      scopeOfNode := t.scopeOfNode.put n.index ⟨t.scopes.size⟩ }

/-- Besides, it does not depend on frames from `k` on. -/
structure Crawls (P : Tree → Prop) (k : Nat) : Prop extends Shelved P k, Names P

namespace Tableless

variable {P : Tree → Prop} (h : Tableless P)

include h

theorem updateBinding (t : Tree) (b : BindingId) {f : Binding → Binding}
    (hf : ∀ x, t.binding? b = some x → ∃ scope name,
      ({ x with scope, name } : Binding).Becomes (f x))
    (ht : P t) : P (t.updateBinding b f) := by
  refine h.bindings t _ (develops_modify fun o x ho hx => ?_) ht
  obtain ⟨y, rfl, rfl⟩ := Option.map_eq_some_iff.1 hx
  obtain ⟨scope, name, hy⟩ := hf y (by unfold Tree.binding?; rw [ho]; rfl)
  exact ⟨y, scope, name, rfl, hy⟩

theorem destroyBinding (t : Tree) (b : BindingId) (ht : P t) : P (t.destroyBinding b) :=
  h.bindings t _ (develops_modify fun _ _ _ hx => nomatch hx) ht

theorem declareName (s : ScopeId) (kind : BindingKind) (p : PathId) (name : String) (id : NodeId) :
    Stays P (Tree.declareName s kind p name id) := by
  have hnote : Stays P (Tree.noteReference s name) := stays_modify fun t => h.scope t _ fun _ => rfl
  have hmerge (b : BindingId) : Stays P (do
      modify (·.updateBinding b (Binding.merge kind p id))
      Tree.noteReference s name : TreeM Unit) :=
    (stays_modify fun t => h.updateBinding t b fun _ _ => ⟨_, _, .merged kind p id⟩).bind
      fun _ => hnote
  unfold Tree.declareName
  refine stays_get.bind fun t => ?_
  split
  · split
    · exact stays_pure _
    · refine (stays_modify fun t ht => ?_).bind fun _ => hnote
      exact h.scope _ s (fun _ => rfl) (h.bindings t _ (develops_push ⟨_, _, _, _, _, rfl⟩) ht)
  · split
    · exact stays_pure _
    · split
      · exact (stays_throw _).bind fun _ => hmerge _
      · exact hmerge _

theorem resetScope (s : ScopeId) : Stays P (Tree.resetScope s) := by
  refine stays_modify fun t ht => ?_
  refine h.scope _ s (fun d => ?_) ?_
  · dsimp only
    split <;> rfl
  · generalize (t.scope s).bindings = table
    induction table generalizing t with
    | nil => exact ht
    | cons x table ih => exact ih _ (h.destroyBinding t _ ht)

theorem retire (t : Tree) (s : ScopeId) (name : String) (b : BindingId) (ht : P t) :
    P (t.retire s name b) := by
  refine h.destroyBinding _ _ (h.scope t s (fun d => ?_) ht)
  split <;> rfl

theorem names : Names P where
  paths := h.paths
  scope t s _ hf := h.scope t s fun d => (hf d).1
  record t b _ hf := h.updateBinding t b fun x hx => ⟨_, _, hf x hx⟩
  declareName := h.declareName
  resetScope := h.resetScope
  retire := h.retire
  newScope t n d _ := h.newScope t n d

end Tableless

namespace Names

variable {P : Tree → Prop} (h : Names P)

include h

theorem reference (t : Tree) (b : BindingId) (p : PathId) (ht : P t) :
    P (t.updateBinding b (·.reference p)) := h.record t b (fun _ _ => .referenced p) ht

/-! ## names -/

theorem modifyScope (s : ScopeId) {f : ScopeData → ScopeData}
    (hf : ∀ d, (f d).lasting = d.lasting ∧ (f d).bindings = d.bindings) :
    Stays P (modify (·.updateScope s f) : TreeM Unit) :=
  stays_modify fun t => h.scope t s hf

theorem noteReference (s : ScopeId) (name : String) :
    Stays P (Tree.noteReference s name) :=
  stays_modify fun t => h.scope t _ fun _ => ⟨rfl, rfl⟩

theorem addGlobal (s : ScopeId) (id : Option NodeId) : Stays P (Tree.addGlobal s id) := by
  unfold Tree.addGlobal
  refine stays_get.bind fun t => ?_
  split
  · exact (h.noteReference s _).bind fun _ => h.modifyScope _ fun _ => ⟨rfl, rfl⟩
  · exact stays_pure _

theorem declareNames (s : ScopeId) (kind : BindingKind) (p : PathId) (target : Option NodeId) :
    Stays P (Tree.declareNames s kind p target) := by
  unfold Tree.declareNames
  refine stays_get.bind fun t => Stays.forM (fun x => ?_) _
  exact Stays.forM (fun id => h.declareName s kind p x.1 id) _

theorem entries (p : PathId) (key : String) : Stays P (Tree.entries p key) :=
  h.paths.entries p key

theorem follow (p : PathId) (key : String) : Stays P (Tree.follow p key) :=
  h.paths.follow p key

theorem registerBindingLevels (s : ScopeId) (kind : BindingKind) (fuel : Nat) (p : PathId) :
    Stays P (Tree.registerBindingLevels s kind fuel p) := by
  induction fuel generalizing p with
  | zero => exact stays_pure _
  | succ fuel ih =>
    unfold Tree.registerBindingLevels
    refine stays_get.bind fun t => ?_
    split
    · exact (h.entries p _).bind fun ps => Stays.forM ih ps
    · exact h.declareNames s kind p _

theorem registerBinding (s : ScopeId) (kind : BindingKind) (p : PathId) :
    Stays P (Tree.registerBinding s kind p) :=
  stays_get.bind fun _ => h.registerBindingLevels s kind _ p

theorem registerLabel (s : ScopeId) (p : PathId) : Stays P (Tree.registerLabel s p) :=
  stays_modify fun t ht => by
    split
    · exact h.scope t s (fun _ => ⟨rfl, rfl⟩) ht
    · exact ht

omit h in
theorem keyword (id : Option NodeId) : Stays P (Tree.keyword id) :=
  stays_get.bind fun _ => (stays_ofShape _).bind fun _ => stays_pure _

theorem registerDeclarationLevels (s : ScopeId) (fuel : Nat) (p : PathId) :
    Stays P (Tree.registerDeclarationLevels s fuel p) := by
  induction fuel generalizing p with
  | zero => exact stays_pure _
  | succ fuel ih =>
    unfold Tree.registerDeclarationLevels
    refine stays_get.bind fun t => ?_
    dsimp only
    split
    · exact stays_pure _
    · exact h.registerLabel s p
    · exact h.registerBinding s .hoisted p
    · exact (keyword _).bind fun kind =>
        (h.entries p _).bind fun ps => Stays.forM (h.registerBinding s _) ps
    · exact h.registerBinding s .letName p
    · exact (h.entries p _).bind fun ps => Stays.forM (h.registerBinding s .imported) ps
    · split
      · split
        · exact (h.follow p _).bind ih
        · exact stays_pure _
      · exact h.registerBinding s .unknown p

theorem registerDeclaration (s : ScopeId) (p : PathId) :
    Stays P (Tree.registerDeclaration s p) :=
  stays_get.bind fun _ => h.registerDeclarationLevels s _ p

theorem registerViolation (s : ScopeId) (p : PathId) :
    Stays P (Tree.registerViolation s p) := by
  unfold Tree.registerViolation
  refine stays_get.bind fun t => Stays.forM (fun x => stays_modify fun t ht => ?_) _
  split
  · exact h.record t _ (fun _ _ => .reassigned p) ht
  · exact ht

theorem registerLoopHead (s : ScopeId) (key : String) :
    Stays P (Tree.registerLoopHead s key) := by
  unfold Tree.registerLoopHead
  refine stays_get.bind fun t => ?_
  dsimp only
  split
  · exact (keyword _).bind fun kind => (h.follow _ key).bind fun p => h.registerBinding s _ p
  · exact stays_pure _

theorem registerHeads (s : ScopeId) : Stays P (Tree.registerHeads s) := by
  unfold Tree.registerHeads
  refine stays_get.bind fun t => ?_
  dsimp only
  split
  · exact stays_pure _
  · next ty _ =>
    have hloops : Stays P (do
        Tree.registerLoopHead s "init"
        Tree.registerLoopHead s "left") :=
      (h.registerLoopHead s "init").bind fun _ => h.registerLoopHead s "left"
    have hparams : Stays P
        (do (← Tree.entries (t.scope s).path "params").forM (Tree.registerBinding s .param)) :=
      (h.entries _ _).bind fun ps => Stays.forM (h.registerBinding s .param) ps
    have hcatch : Stays P (if (ty == .catchClause) = true then
        Tree.registerBinding s .catchParam (t.scope s).path else pure ()) := by
      split
      · exact h.registerBinding s .catchParam _
      · exact stays_pure _
    simp only [← bind_assoc]
    refine Stays.guard hloops fun _ => ?_
    by_cases hself : (ty == .functionExpression || ty == .classExpression) = true
    · rw [if_pos hself]
      exact Stays.guard (h.declareNames s .selfName _ _) fun _ =>
        Stays.guard hparams fun _ => hcatch
    · rw [if_neg hself]
      exact Stays.guard hparams fun _ => hcatch

theorem restartScope (s : ScopeId) : Stays P (Tree.restartScope s) :=
  stays_get.bind fun _ => (Stays.forM h.resetScope _).bind fun _ => Stays.forM h.registerHeads _

/-! ## scopes -/

theorem scopeFor (p : PathId) (parentScope : Option ScopeId) {E : TreeError → Tree → Prop} :
    Leads P E (Tree.scopeFor p parentScope) := by
  intro t ht
  unfold Tree.scopeFor
  rw [run_get_bind]
  cases hn : (t.path p).node with
  | none => exact ht
  | some n =>
    by_cases hscope : t.arena.isScope (some n) (t.path p).parent
    · cases hfound : t.scopeOfNode.get? n.index with
      | some s =>
        simp only [hscope, hfound]
        exact h.scope t _ (fun _ => ⟨rfl, rfl⟩) ht
      | none =>
        simp only [hscope, hfound]
        exact h.newScope t n _ rfl hfound ht
    · simp only [hscope]
      exact ht

section Assign

variable {E : TreeError → Tree → Prop} {crawl : ScopeId → TreeM Unit}
  (hcrawl : ∀ s, Leads P E (crawl s))

include hcrawl

theorem assignBelow (p : PathId) (parentScope : Option ScopeId) : Leads P E (do
    let scope ← Tree.scopeFor p parentScope
    modify (·.updatePath p ({ · with scope }))
    match scope with
    | none => return
    | some s =>
      if !((← get).scope s).crawled then
        modify (·.updateScope s ({ · with crawled := true }))
        crawl s : TreeM Unit) := by
  refine (h.scopeFor p parentScope).bind fun scope =>
    Leads.bind (leads_modify fun t => h.paths.note t p _ fun _ => ⟨rfl, rfl⟩) fun _ => ?_
  split
  · exact leads_pure _
  · refine leads_get.bind fun t => ?_
    split
    · exact Leads.bind (leads_modify fun t => h.scope t _ fun _ => ⟨rfl, rfl⟩) fun _ => hcrawl _
    · exact leads_pure _

theorem assignUpTo (fuel : Nat) (p : PathId) : Leads P E (Tree.assignUpTo crawl fuel p) := by
  induction fuel generalizing p with
  | zero => exact leads_pure _
  | succ fuel ih =>
    have hrest := h.assignBelow hcrawl p
    unfold Tree.assignUpTo
    refine leads_get.bind fun t => ?_
    split
    · exact leads_pure _
    · split
      · exact (leads_pure none).bind hrest
      · split
        · exact (leads_pure _).bind hrest
        · exact (ih _).bind fun _ => leads_get.bind fun t => (leads_pure _).bind hrest

theorem assignWith (p : PathId) : Leads P E (Tree.assignWith crawl p) :=
  leads_get.bind fun _ => h.assignUpTo hcrawl _ p

theorem scopeOfWith (p : PathId) : Leads P E (Tree.scopeOfWith crawl p) := by
  unfold Tree.scopeOfWith
  refine leads_get.bind fun t => ?_
  split
  · exact leads_pure _
  · exact (h.assignWith hcrawl p).bind fun _ => leads_get.bind fun t => leads_pure _

end Assign

/-! ## the handlers of a crawl -/

theorem quietScopeOf (p : PathId) : Stays P (Tree.quietScopeOf p) :=
  (h.scopeOfWith (fun s => (h.restartScope s).leads fun _ _ h => h) p).stays

theorem declaringScope (p : PathId) : Stays P (Tree.declaringScope p) := by
  unfold Tree.declaringScope
  refine (h.quietScopeOf p).bind fun s => ?_
  split
  · exact stays_pure _
  · refine stays_get.bind fun t => ?_
    split
    · exact stays_pure _
    · exact stays_pure _

theorem registerWith (target : Tree → ScopeId → ScopeId) (p : PathId) :
    Stays P (Tree.registerWith target p) := by
  unfold Tree.registerWith
  refine (h.declaringScope p).bind fun s => ?_
  split
  · exact stays_pure _
  · exact stays_get.bind fun t => h.registerDeclaration _ p

theorem collectLoopVar (p : PathId) (key : String) :
    Stays P (Tree.collectLoopVar p key) := by
  unfold Tree.collectLoopVar
  refine stays_get.bind fun t => ?_
  split
  · refine (h.follow p key).bind fun head => (h.quietScopeOf head).bind fun s => ?_
    split
    · exact stays_pure _
    · exact stays_get.bind fun t => h.registerBinding _ .loopVar head
  · exact stays_pure _

theorem collectDeclaration (p : PathId) : Stays P (Tree.collectDeclaration p) := by
  unfold Tree.collectDeclaration
  refine stays_get.bind fun t => ?_
  dsimp only
  split
  · exact h.registerWith _ p
  · exact stays_pure _

theorem collectBlockScoped (p : PathId) : Stays P (Tree.collectBlockScoped p) := by
  unfold Tree.collectBlockScoped
  refine stays_get.bind fun t => ?_
  split
  · exact h.registerWith _ p
  · exact stays_pure _

theorem collectExport (p : PathId) : Stays P (Tree.collectExport p) := by
  unfold Tree.collectExport
  refine stays_get.bind fun t => ?_
  split
  · exact stays_pure _
  · refine (h.quietScopeOf p).bind fun s => ?_
    split
    · exact stays_pure _
    · refine stays_modify fun t ht => ?_
      generalize t.exportedNames _ = names
      induction names generalizing t with
      | nil => exact ht
      | cons name names ih =>
        refine ih _ ?_
        dsimp only
        split
        · exact h.reference t _ p ht
        · exact ht

theorem collectLabel (p : PathId) : Stays P (Tree.collectLabel p) := by
  unfold Tree.collectLabel
  refine (h.quietScopeOf p).bind fun s => ?_
  split
  · exact stays_pure _
  · refine stays_get.bind fun t => ?_
    split
    · exact (h.noteReference _ _).bind fun _ => stays_get.bind fun t => h.registerDeclaration _ p
    · exact stays_get.bind fun t => h.registerDeclaration _ p

omit h in
theorem note {σ : Type} (f : σ → σ) : Stays (Pass.Has P) (PassM.note f) :=
  stays_modify fun _ ht => ht

/-- The handlers of a crawl. -/
theorem collector : ScopedTree.collectorEngine.dispatch.Each fun run =>
    ∀ p, Stays (Pass.Has P) (run p) := by
  refine ⟨fun x hx => (nomatch hx), fun x hx p => ?_⟩
  have htarget (key : String) : Stays (Pass.Has P) (do
      let q ← PassM.onTree (Tree.follow p key)
      PassM.note fun c => { c with violations := c.violations ++ [q] } : PassM Collected Unit) :=
    (PassM.stays_onTree (h.follow p key)).bind fun q => note fun c =>
      { c with violations := c.violations ++ [q] }
  have hentries : ∀ e ∈ ScopedTree.collector.entries, Stays (Pass.Has P) (e.run p) := by
    intro e he
    simp only [ScopedTree.collector, Visitor.enter, Visitor.exit, Visitor.add, List.nil_append,
      List.cons_append, List.mem_cons, List.not_mem_nil, or_false] at he
    rcases he with rfl | rfl | rfl | rfl | rfl | rfl | rfl | rfl | rfl | rfl
    · exact PassM.stays_onTree (Stays.forM (h.collectLoopVar p) _)
    · exact PassM.stays_onTree (h.collectDeclaration p)
    · exact PassM.stays_onTree (h.collectBlockScoped p)
    · exact note fun c => { c with references := c.references ++ [p] }
    · refine (PassM.stays_onTree (h.follow p "left")).bind fun q =>
        (PassM.stays_ask _).bind fun b => ?_
      split
      · exact note _
      · exact stays_pure _
    · exact PassM.stays_onTree (h.collectExport p)
    · exact PassM.stays_onTree (h.collectLabel p)
    · exact note fun c => { c with assignments := c.assignments ++ [p] }
    · exact htarget "argument"
    · refine (PassM.stays_onTree ?_).bind fun value => ?_
      · exact stays_get.bind fun t => stays_ofShape _
      · split
        · exact htarget "argument"
        · exact stays_pure _
  have hmem : x ∈ List.zipWith (fun e k => (⟨k, e.phase, e.run⟩ : DispatchEntry Collected))
      ScopedTree.collector.entries collectorKeys := hx
  rw [← List.map_uncurry_zip_eq_zipWith] at hmem
  obtain ⟨y, hy, rfl⟩ := List.mem_map.1 hmem
  exact hentries y.1 (List.of_mem_zip hy).1

end Names

/-! ## crawls -/

/-- The ways in which a scope is crawled while one is assigned: in full, or only for what its own
nodes declare while another crawl is under way. -/
def IsCrawl (crawl : ScopeId → TreeM Unit) : Prop := crawl = Tree.crawl ∨ crawl = Tree.restartScope

/-- Properties, one for each state that a run may start from, that are kept when names are filled
in. Passes that assign scopes keep them where they succeed, if their handlers and crawls do; a
program that fails leaves at least `E`. -/
structure Sweeps {ι : Type} (P : ι → Tree → Prop) (E : ι → TreeError → Tree → Prop) : Prop where
  names : ∀ i, Names (P i)
  le : ∀ i e t, P i t → E i e t
  note : ∀ i e t p f, PathData.Jots f → E i e t → E i e (t.updatePath p f)
  pass : ∀ {σ : Type} (d : Dispatch σ) (crawl : ScopeId → TreeM Unit),
    IsCrawl crawl → (∀ i s, Leads (P i) (E i) (crawl s)) →
    d.Each (fun run => ∀ i p, Leads (Pass.Has (P i)) (Pass.Fails (E i)) (run p)) →
    ∀ i steps, Engine.Passes { dispatch := d, assign := Tree.assignWith crawl } (P i) (E i) steps

namespace Sweeps

variable {ι : Type} {P : ι → Tree → Prop} {E : ι → TreeError → Tree → Prop} (h : Sweeps P E)

omit h in
theorem collect {P : Tree → Prop} {E : TreeError → Tree → Prop}
    {f : Engine Collected → PassM Collected α}
    (hf : Leads (Pass.Has P) (Pass.Fails E) (f ScopedTree.collectorEngine)) :
    Leads P E (Tree.collect f) := by
  intro t ht
  unfold Tree.collect
  rw [run_bind_of_ok (engineOf_collector t)]
  exact ((PassM.leads_runPass hf {}).bind fun x => leads_pure _) t ht

include h

/-- The pass of a crawl. -/
theorem collector (i : ι) (steps : Nat) : ScopedTree.collectorEngine.Passes (P i) (E i) steps :=
  h.pass ScopedTree.collectorEngine.dispatch Tree.restartScope (.inr rfl)
    (fun i s => ((h.names i).restartScope s).leads (h.le i))
    ⟨fun x hx i p => (((h.names i).collector.1 x hx) p).leads fun e s => h.le i e s.tree,
      fun x hx i p => (((h.names i).collector.2 x hx) p).leads fun e s => h.le i e s.tree⟩ i steps

section Link

variable {i : ι} {resolve : PathId → TreeM (Option ScopeId)}
  (hresolve : ∀ p, Leads (P i) (E i) (resolve p))

include hresolve

theorem linkAssignment (p : PathId) : Leads (P i) (E i) (Tree.linkAssignment resolve p) := by
  unfold Tree.linkAssignment
  refine (hresolve p).bind fun s => ?_
  split
  · exact leads_pure _
  · refine leads_get.bind fun t => Leads.bind (Stays.leads (Stays.forM (fun x => ?_) _) (h.le i))
      fun _ => ((h.names i).registerViolation _ p).leads (h.le i)
    refine stays_get.bind fun t => ?_
    split
    · exact (h.names i).addGlobal _ _
    · exact stays_pure _

theorem linkReference (p : PathId) : Leads (P i) (E i) (Tree.linkReference resolve p) := by
  unfold Tree.linkReference
  refine (hresolve p).bind fun s => ?_
  split
  · exact leads_pure _
  · refine leads_get.bind fun t => ?_
    split
    · exact leads_pure _
    · split
      · exact leads_modify fun t => (h.names i).reference t _ p
      · exact ((h.names i).addGlobal _ _).leads (h.le i)

theorem linkViolation (p : PathId) : Leads (P i) (E i) (Tree.linkViolation resolve p) := by
  unfold Tree.linkViolation
  refine (hresolve p).bind fun s => ?_
  split
  · exact leads_pure _
  · exact ((h.names i).registerViolation _ p).leads (h.le i)

theorem link (c : Collected) : Leads (P i) (E i) (Tree.link resolve c) :=
  (Leads.forM (h.linkAssignment hresolve) _).bind fun _ =>
    (Leads.forM (h.linkReference hresolve) _).bind fun _ => Leads.forM (h.linkViolation hresolve) _

end Link

/-- **A crawl leaves nodes alone, and where the known scopes hang.** -/
theorem crawlLevels (i : ι) (fuel : Nat) (s : ScopeId) :
    Leads (P i) (E i) (Tree.crawlLevels fuel s) := by
  have hrestart (s : ScopeId) : Leads (P i) (E i) (Tree.restartScope s) :=
    ((h.names i).restartScope s).leads (h.le i)
  induction fuel generalizing s with
  | zero => exact hrestart s
  | succ fuel ih =>
    unfold Tree.crawlLevels
    refine (hrestart s).bind fun _ => leads_get.bind fun t => ?_
    exact (collect ((h.collector i _).traversePath _)).bind fun c =>
      h.link ((h.names i).scopeOfWith ih) c

theorem crawl (i : ι) (s : ScopeId) : Leads (P i) (E i) (Tree.crawl s) :=
  leads_get.bind fun _ => h.crawlLevels i _ s

theorem scopeOf (i : ι) (p : PathId) : Leads (P i) (E i) (Tree.scopeOf p) :=
  (h.names i).scopeOfWith (h.crawl i) p

theorem registerSubtree (i : ι) (p : PathId) : Leads (P i) (E i) (Tree.registerSubtree p) := by
  unfold Tree.registerSubtree
  refine leads_get.bind fun t => ?_
  split
  · exact leads_pure _
  · split
    · exact (h.scopeOf i p).bind fun _ => leads_pure _
    · refine (h.scopeOf i _).bind fun _ => leads_get.bind fun t => ?_
      dsimp only
      refine (((h.names i).paths.modifyPath p _).leads (h.le i)).bind fun _ =>
        leads_attempt_bind (collect ?_) (fun c => ?_) fun e t ht => ?_
      · exact (PassM.leads_onTree (((h.names i).quietScopeOf p).leads (h.le i))).bind fun _ =>
          ((PassM.stays_ask _).leads fun e s => h.le i e s.tree).bind fun steps =>
            (h.collector i steps).visitPath p
      · exact (((h.names i).paths.modifyPath p _).leads (h.le i)).bind
          fun _ => h.link (h.scopeOf i) _
      · exact h.note i e t p _ (fun _ => ⟨rfl, rfl⟩) ht

end Sweeps

namespace Crawls

variable {P : Tree → Prop} {k : Nat} (h : Crawls P k)

include h

theorem sweeps : Sweeps (fun _ : Unit => P) fun _ _ => P where
  names _ := h.toNames
  le _ _ _ ht := ht
  note _ _ t p f := h.paths.note t p f
  pass d crawl _ hcrawl hd _ steps := by
    have hkeeps : Engine.Keeps { dispatch := d, assign := Tree.assignWith crawl } P k :=
      { shelved := h.toShelved
        assign := fun p => (h.toNames.assignWith (hcrawl ()) p).stays
        general := fun x hx p => (hd.1 x hx () p).stays
        typed := fun x hx p => (hd.2 x hx () p).stays }
    exact hkeeps.passes steps

theorem crawl (s : ScopeId) : Stays P (Tree.crawl s) := (h.sweeps.crawl () s).stays

theorem assign (p : PathId) : Stays P (Tree.assign p) :=
  (h.toNames.assignWith (h.sweeps.crawl ()) p).stays

theorem scopeOf (p : PathId) : Stays P (Tree.scopeOf p) := (h.sweeps.scopeOf () p).stays

theorem registerSubtree (p : PathId) : Stays P (Tree.registerSubtree p) :=
  (h.sweeps.registerSubtree () p).stays

end Crawls

end Tree

end ScopedTree
