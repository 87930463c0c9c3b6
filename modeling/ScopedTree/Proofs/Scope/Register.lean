import ScopedTree.Proofs.Path.Follow
import ScopedTree.Proofs.Scope.Assign
import ScopedTree.Proofs.Scope.Declares
import ScopedTree.Scope.Crawl

/-!
# Registering is justified

Whatever is registered while a tree is crawled was declared for the scope it comes into, and a
declaration is refused only where two of them clash.

* `Tree.Justified`, `Tree.Bound`   records, and the tables that lead to them;
* `Tree.KeepsNames`                all names are what they were;
* `Tree.ExportsTo`                 an export counts for the nearest binding there was;
* `Tree.Registered`                the state of a tree while a crawl collects;
* `Tree.Registered.declareName`    one name comes into a scope;
* `Tree.Registered.registerBinding`   the names that a node binds come into a scope.
-/

namespace ScopedTree

open Arena

def ScopeData.names (d : ScopeData) : Table BindingId × Table NodeId := (d.bindings, d.globals)

/-- An error that says a name was declared twice comes with a conflict. -/
def Arena.Warrants (a : Arena) (r : NodeId) (e : TreeError) : Prop :=
  ∀ name location, e = .duplicateDeclaration name location → Conflict (a.Enters r) name

theorem Arena.warrants_shape (a : Arena) (r : NodeId) (e : ShapeError) : a.Warrants r (.shape e) :=
  fun _ _ h => nomatch h

/-- The node declares the identifier: it binds it, or has it for its own name. -/
def Arena.Sites (a : Arena) (d : NodeId) (name : String) (id : NodeId) : Prop :=
  a.Binds true d name id ∨ ∃ m, a.child? (some d) "id" = some m ∧ a.Binds true m name id

namespace Tree

variable {a : Arena} {t t' : Tree} {r n m id : NodeId} {p q : PathId} {s c : ScopeId}
  {b : BindingId} {name : String} {kind : BindingKind} {above line : List NodeId} {o : Node}

/-! ## the tables -/

/-- What a record in the scope of the block `h` says was declared for it. -/
structure Justified (D : NodeId → BindingKind → String → NodeId → Prop) (h : NodeId)
    (record : Binding) : Prop where
  declared : D h record.kind record.name record.identifier
  redeclared : ∀ x ∈ record.redeclarations, ∃ id, D h x.2 record.name id

theorem Justified.mono {D D' : NodeId → BindingKind → String → NodeId → Prop} {h : NodeId}
    {record : Binding} (hj : Justified D h record)
    (hD : ∀ kind id, D h kind record.name id → D' h kind record.name id) :
    Justified D' h record :=
  ⟨hD _ _ hj.declared, fun x hx => (hj.redeclared x hx).imp fun _ => hD _ _⟩

/-- The tables of all scopes lead to the bindings, and those are justified and have the path of what
declares them. -/
structure Bound (D : NodeId → BindingKind → String → NodeId → Prop) (t : Tree) : Prop where
  listed : ∀ s name b, (t.scope s).bindings.get? name = some b →
    ∃ record, t.binding? b = some record ∧ record.scope = s ∧ record.name = name
  found : ∀ b record, t.binding? b = some record →
    record.scope.index < t.scopes.size ∧ (t.scope record.scope).bindings.get? record.name = some b
      ∧ Justified D (t.scope record.scope).block record
  sited : ∀ b record, t.binding? b = some record →
    ∃ d, t.node record.path = some d ∧ t.arena.Sites d record.name record.identifier

theorem Bound.placed {D : NodeId → BindingKind → String → NodeId → Prop} (ht : t.Bound D)
    (b : BindingId) (record : Binding) (hr : t.binding? b = some record) :
    record.path.index < t.paths.size := by
  obtain ⟨d, hd, _⟩ := ht.sited b record hr
  exact lt_of_node hd

/-- The path `p` is an export of a declaration of `name` inside the block `h`. -/
def Exports (t : Tree) (r : NodeId) (p : PathId) (name : String) (h : NodeId) : Prop :=
  ∃ n above, t.Place r p n above ∧ t.arena.isA (some n) .exportDeclaration
    ∧ name ∈ t.exportedNames (t.arena.child? (some n) "declaration")
    ∧ h ∈ t.arena.blocks (n :: above)

/-- The binding of a name nearest to a scope, among the first `k` bindings. -/
def earlyBinding? (t : Tree) (k : Nat) (s : ScopeId) (name : String) : Option BindingId :=
  (t.scopeChain s).findSome? fun c => (t.ownBinding? c name).filter (·.index < k)

/-- The path `p` is an export, in the scope `s`, that counts for `b`: the nearest of the first `k`
bindings of the name, among which is what the exported declaration bound in the scope that it
belongs to. -/
structure ExportsTo (t : Tree) (r : NodeId) (p : PathId) (s : ScopeId) (k : Nat) (name : String)
    (b : BindingId) (n m : NodeId) (above : List NodeId) : Prop where
  place : t.Place r p n above
  exports : t.arena.isA (some n) .exportDeclaration
  declaration : t.arena.child? (some n) "declaration" = some m
  names : name ∈ t.exportedNames (some m)
  holds : t.Holds (n :: above) (some s)
  nearest : t.earlyBinding? k s name = some b
  declared : ∀ id h, t.arena.Binds true m name id → t.arena.Homes m (n :: above) h →
    ∃ c ∈ t.scopeChain s, (t.scope c).block = h ∧ ∃ d, t.ownBinding? c name = some d ∧ d.index < k

def CountsExport (t : Tree) (r : NodeId) (p : PathId) (k : Nat) (name : String)
    (b : BindingId) : Prop :=
  ∃ s n m above, t.ExportsTo r p s k name b n m above

/-- The binding of the name in the scope is declared by the identifier, or it counts as written. -/
def Credits (t : Tree) (s : ScopeId) (name : String) (id : NodeId) : Prop :=
  ∃ b record, t.binding? b = some record ∧ record.scope = s ∧ record.name = name
    ∧ (record.identifier = id ∨ record.constantViolations ≠ [])

theorem Credits.keeps (h : t.Credits s name id) (ht : t.KeepsRecords t') :
    t'.Credits s name id := by
  obtain ⟨b, record, hr, hscope, hname, hid⟩ := h
  obtain ⟨record', hr', hle⟩ := ht b record hr
  refine ⟨b, record', hr', hle.scope.trans hscope, hle.name.trans hname, ?_⟩
  rcases hid with hid | hwritten
  · exact hle.declared.imp_left fun h => h.1.trans hid
  · exact .inr (hle.written hwritten)

/-- The scope has an entry for each name that a node binds. -/
def ListsAll (t : Tree) (s : ScopeId) (m : NodeId) : Prop :=
  ∀ name id, t.arena.Binds true m name id → t.Lists s name ∧ t.Credits s name id

/-- What is not accounted for: the uses, what the nodes of some scopes declare in them, and names
that are in a table and not known to occur yet. -/
structure Gaps where
  uses : Prop
  heads : ScopeId → Prop
  names : String → Prop

def Gaps.none : Gaps := ⟨False, fun _ => False, fun _ => False⟩

variable {γ : Gaps}

/-- One more scope is not accounted for. -/
def Gaps.except (γ : Gaps) (s : ScopeId) : Gaps := { γ with heads c := γ.heads c ∨ c = s }

def Gaps.naming (γ : Gaps) (name : String) : Gaps := { γ with names x := γ.names x ∨ x = name }

/-- The state of a tree while a crawl collects: what is bound is justified, what counts as a read so
far are exports, and what the nodes of scopes declare in them is there. -/
structure Registered (a : Arena) (r : NodeId) (γ : Gaps) (t : Tree) : Prop where
  arena : t.arena = a
  inScope : t.Scoped r
  bound : t.Bound (a.Enters r)
  exports : ¬ γ.uses → ∀ b record, t.binding? b = some record → record.referencePaths.Nodup
    ∧ ∀ p ∈ record.referencePaths, ∃ k ≤ t.bindings.size, t.CountsExport r p k record.name b
  globals : ¬ γ.uses → ∀ s, (t.scope s).globals = []
  heads : ∀ s, s.index < t.scopes.size → ¬ γ.heads s →
    ∀ m, a.Heads (t.scope s).block m → t.ListsAll s m
  root : a.isScope (some r) none
  noted : ∀ s name, t.Lists s name → ¬ γ.names name → t.Occurs name

theorem ListsAll.adds (h : t.ListsAll s m) (ha : t.Adds t') : t'.ListsAll s m := by
  intro name id hb
  rw [ha.grows.arena] at hb
  exact ⟨ha.lists s name (h name id hb).1, (h name id hb).2.keeps ha.records⟩

/-- The scope of a block has an entry for each name that a node binds. -/
def OwnsAll (t : Tree) (h m : NodeId) : Prop :=
  ∃ s, s.index < t.scopes.size ∧ (t.scope s).block = h ∧ t.ListsAll s m

theorem OwnsAll.adds {h : NodeId} (ho : t.OwnsAll h m) (ha : t.Adds t') : t'.OwnsAll h m := by
  obtain ⟨s, hs, hb, hlists⟩ := ho
  exact ⟨s, hs.trans_le ha.size, (block_of_static (ha.static s hs)).trans hb, hlists.adds ha⟩

theorem exportedNames_congr (h : t'.arena = t.arena) (d : Option NodeId) :
    t'.exportedNames d = t.exportedNames d := by
  unfold exportedNames fieldName?
  rw [h]

theorem Bound.ownBinding? {D : NodeId → BindingKind → String → NodeId → Prop} (ht : t.Bound D)
    (s : ScopeId) (name : String) :
    t.ownBinding? s name = (t.scope s).bindings.get? name := by
  unfold Tree.ownBinding?
  cases hb : (t.scope s).bindings.get? name with
  | none => rfl
  | some b =>
    obtain ⟨record, hr, _⟩ := ht.listed s name b hb
    simp [hr]

/-- Paths may have come, and scopes without names; all names are what they were. -/
structure KeepsNames (t t' : Tree) : Prop where
  grows : t.Grows t'
  size : t.scopes.size ≤ t'.scopes.size
  static : ∀ s, s.index < t.scopes.size → (t'.scope s).static = (t.scope s).static
  names : ∀ s, s.index < t.scopes.size → (t'.scope s).names = (t.scope s).names
  fresh : ∀ s, t.scopes.size ≤ s.index → (t'.scope s).names = ([], [])
  bindings : t'.bindings = t.bindings
  occurs : ∀ name, t.Occurs name → t'.Occurs name

theorem KeepsScopes.keepsNames (h : t.KeepsScopes t')
    (hnames : ∀ s, (t'.scope s).names = (t.scope s).names) (hb : t'.bindings = t.bindings) :
    t.KeepsNames t' := by
  refine ⟨h.grows, h.size.ge, fun s _ => h.static s, fun s _ => hnames s, fun s hs => ?_, hb,
    h.occurs⟩
  rw [hnames, scope_of_size_le hs]
  rfl

theorem Extends.keepsNames (h : t.Extends t' r) : t.KeepsNames t' := by
  refine h.sameScopes.toKeepsScopes.keepsNames (fun s => ?_) h.names.bindings
  unfold Tree.scope
  rw [h.names.scopes]

/-- The tables of the old scopes are what they were, new ones are empty, and the same bindings are
alive. -/
structure KeepsTables (t t' : Tree) : Prop where
  grows : t.Grows t'
  size : t.scopes.size ≤ t'.scopes.size
  static : ∀ s, s.index < t.scopes.size → (t'.scope s).static = (t.scope s).static
  tables : ∀ s, s.index < t.scopes.size → (t'.scope s).bindings = (t.scope s).bindings
  fresh : ∀ s, t.scopes.size ≤ s.index → (t'.scope s).bindings = []
  live : ∀ b, (t'.binding? b).isSome = (t.binding? b).isSome
  occurs : ∀ name, t.Occurs name → t'.Occurs name

theorem KeepsNames.binding? (h : t.KeepsNames t') (b : BindingId) :
    t'.binding? b = t.binding? b := by
  unfold Tree.binding?
  rw [h.bindings]

theorem KeepsNames.keepsTables (h : t.KeepsNames t') : t.KeepsTables t' where
  grows := h.grows
  size := h.size
  static := h.static
  tables s hs := congrArg (·.1) (h.names s hs)
  fresh s hs := congrArg (·.1) (h.fresh s hs)
  live b := by rw [h.binding?]
  occurs := h.occurs

theorem KeepsTables.block (h : t.KeepsTables t') (hs : s.index < t.scopes.size) :
    (t'.scope s).block = (t.scope s).block := block_of_static (h.static s hs)

theorem KeepsTables.trans {t'' : Tree} (h : t.KeepsTables t') (h' : t'.KeepsTables t'') :
    t.KeepsTables t'' where
  grows := h.grows.trans h'.grows
  size := h.size.trans h'.size
  static s hs := (h'.static s (hs.trans_le h.size)).trans (h.static s hs)
  tables s hs := (h'.tables s (hs.trans_le h.size)).trans (h.tables s hs)
  fresh s hs := by
    by_cases hlt : s.index < t'.scopes.size
    · exact (h'.tables s hlt).trans (h.fresh s hs)
    · exact h'.fresh s (Nat.le_of_not_lt hlt)
  live b := (h'.live b).trans (h.live b)
  occurs name hn := h'.occurs name (h.occurs name hn)

theorem KeepsTables.lists (h : t.KeepsTables t') (hl : t'.Lists s name) : t.Lists s name := by
  unfold Lists at hl ⊢
  by_cases hlt : s.index < t.scopes.size
  · rwa [h.tables s hlt] at hl
  · rw [h.fresh s (Nat.le_of_not_lt hlt)] at hl
    cases hl

theorem KeepsTables.ownBinding? (h : t.KeepsTables t') (hs : s.index < t.scopes.size)
    (name : String) :
    t'.ownBinding? s name = t.ownBinding? s name := by
  have hlive : (fun b => (t'.binding? b).isSome) = fun b => (t.binding? b).isSome := funext h.live
  unfold Tree.ownBinding?
  rw [h.tables s hs, hlive]

/-- Of the first `k` bindings the old scopes have those that they had. -/
structure KeepsFirst (k : Nat) (t t' : Tree) : Prop where
  grows : t.Grows t'
  size : t.scopes.size ≤ t'.scopes.size
  static : ∀ s, s.index < t.scopes.size → (t'.scope s).static = (t.scope s).static
  own : ∀ s name, s.index < t.scopes.size →
    (t'.ownBinding? s name).filter (·.index < k) = (t.ownBinding? s name).filter (·.index < k)

theorem KeepsTables.keepsFirst (h : t.KeepsTables t') (k : Nat) : KeepsFirst k t t' :=
  ⟨h.grows, h.size, h.static, fun s name hs => by rw [h.ownBinding? hs]⟩

theorem findSome?_congr {α β : Type} {l : List α} {f g : α → Option β} (h : ∀ x ∈ l, f x = g x) :
    l.findSome? f = l.findSome? g := by
  induction l with
  | nil => rfl
  | cons x l ih =>
    rw [List.findSome?_cons, List.findSome?_cons, h x (List.mem_cons_self ..),
      ih fun y hy => h y (List.mem_cons_of_mem _ hy)]

theorem KeepsFirst.own_eq_some {k : Nat} (h : KeepsFirst k t t') (hs : s.index < t.scopes.size)
    (hb : t.ownBinding? s name = some b) (hk : b.index < k) : t'.ownBinding? s name = some b := by
  have hown := h.own s name hs
  rw [hb, Option.filter_some_pos (by simpa using hk)] at hown
  exact (Option.filter_eq_some_iff.1 hown).1

theorem ExportsTo.keeps {k : Nat} (he : t.ExportsTo r p s k name b n m above)
    (h : KeepsFirst k t t') (ht : t.Scoped r) : t'.ExportsTo r p s k name b n m above := by
  have hs := he.holds.2 s rfl
  obtain ⟨hchain, hmem⟩ := ht.scopeChainFrom_of_static h.static Limits.chain s hs
  refine ⟨he.place.grows h.grows, ?_, ?_, ?_, he.holds.mono h.grows.arena h.size h.static, ?_,
    fun id block hb hh => ?_⟩
  · rw [h.grows.arena]
    exact he.exports
  · rw [h.grows.arena]
    exact he.declaration
  · rw [exportedNames_congr h.grows.arena]
    exact he.names
  · refine Eq.trans ?_ he.nearest
    unfold earlyBinding? scopeChain
    rw [hchain]
    exact findSome?_congr fun c hc => h.own c name (hmem c hc)
  · rw [h.grows.arena] at hb hh
    obtain ⟨c, hc, hblock, d, hd, hdk⟩ := he.declared id block hb hh
    refine ⟨c, ?_, (block_of_static (h.static c (hmem c hc))).trans hblock, d,
      h.own_eq_some (hmem c hc) hd hdk, hdk⟩
    unfold scopeChain
    rw [hchain]
    exact hc

theorem CountsExport.keeps {k : Nat} (he : t.CountsExport r p k name b) (h : KeepsFirst k t t')
    (ht : t.Scoped r) :
    t'.CountsExport r p k name b := by
  obtain ⟨s, n, m, above, he⟩ := he
  exact ⟨s, n, m, above, he.keeps h ht⟩

theorem KeepsTables.bound (h : t.KeepsTables t') (hb : t'.bindings = t.bindings)
    {D : NodeId → BindingKind → String → NodeId → Prop} (ht : t.Bound D) : t'.Bound D := by
  have hget : ∀ b, t'.binding? b = t.binding? b := fun b => by
    unfold binding?
    rw [hb]
  refine ⟨fun s name b hs => ?_, fun b record hr => ?_, fun b record hr => ?_⟩
  · by_cases hlt : s.index < t.scopes.size
    · rw [h.tables s hlt] at hs
      rw [hget]
      exact ht.listed s name b hs
    · rw [h.fresh s (Nat.le_of_not_lt hlt)] at hs
      cases hs
  · rw [hget] at hr
    obtain ⟨hlt, htable, hj⟩ := ht.found b record hr
    rw [h.tables _ hlt, h.block hlt]
    exact ⟨hlt.trans_le h.size, htable, hj⟩
  · rw [hget] at hr
    obtain ⟨d, hd, hsites⟩ := ht.sited b record hr
    rw [h.grows.arena]
    exact ⟨d, (h.grows.node _ (lt_of_node hd)).trans hd, hsites⟩

/-- All names are what they were, and what the nodes of new scopes declare is not accounted for. -/
theorem Registered.keepsNames {γ' : Gaps} (ht : Registered a r γ t) (h : t.KeepsNames t')
    (hs : t'.Scoped r) (huses : γ'.uses = γ.uses) (hnames : γ'.names = γ.names)
    (hheads : ∀ s, s.index < t'.scopes.size → ¬ γ'.heads s → s.index < t.scopes.size
      ∧ ¬ γ.heads s) :
    Registered a r γ' t' := by
  refine ⟨h.grows.arena.trans ht.arena, hs, h.keepsTables.bound h.bindings ht.bound,
    fun hγ b record hr => ?_, fun hγ s => ?_, fun s hlt hγ m hm => ?_, ht.root,
    fun s name hl hγ => h.occurs name (ht.noted s name (h.keepsTables.lists hl) (hnames ▸ hγ))⟩
  · rw [huses] at hγ
    rw [h.binding?] at hr
    refine ⟨(ht.exports hγ b record hr).1, fun p hp => ?_⟩
    obtain ⟨k, hk, he⟩ := (ht.exports hγ b record hr).2 p hp
    exact ⟨k, h.bindings ▸ hk, he.keeps (h.keepsTables.keepsFirst k) ht.inScope⟩
  · rw [huses] at hγ
    by_cases hlt : s.index < t.scopes.size
    · exact (congrArg (·.2) (h.names s hlt)).trans (ht.globals hγ s)
    · exact congrArg (·.2) (h.fresh s (Nat.le_of_not_lt hlt))
  · obtain ⟨hlt, hγ⟩ := hheads s hlt hγ
    rw [h.keepsTables.block hlt] at hm
    intro name id hb
    rw [h.grows.arena] at hb
    obtain ⟨hlists, hcredits⟩ := ht.heads s hlt hγ m hm name id hb
    refine ⟨?_, hcredits.keeps (keepsRecords_of_eq h.bindings)⟩
    unfold Lists at hlists ⊢
    rwa [show (t'.scope s).bindings = (t.scope s).bindings from congrArg (·.1) (h.names s hlt)]

theorem Registered.same (ht : Registered a r γ t) (h : t.KeepsScopes t') (hc : t'.Coherent r)
    (hnames : ∀ s, (t'.scope s).names = (t.scope s).names) (hb : t'.bindings = t.bindings) :
    Registered a r γ t' := by
  refine ht.keepsNames (h.keepsNames hnames hb) (ht.inScope.keeps h hc) rfl rfl
    fun s hs hγ => ⟨?_, hγ⟩
  rwa [h.size] at hs

theorem Registered.extends (ht : Registered a r γ t) (h : t.Extends t' r) :
    Registered a r γ t' := by
  refine ht.same h.sameScopes.toKeepsScopes h.coherent (fun s => ?_) h.names.bindings
  unfold Tree.scope
  rw [h.names.scopes]

theorem Registered.closed (ht : Registered a r (γ.except s) t)
    (hs : ∀ m, a.Heads (t.scope s).block m → t.ListsAll s m) : Registered a r γ t := by
  refine ⟨ht.arena, ht.inScope, ht.bound, ht.exports, ht.globals, fun c hc hγ m hm => ?_, ht.root,
    ht.noted⟩
  by_cases heq : c = s
  · rw [heq] at hm ⊢
    exact hs m hm
  · exact ht.heads c hc (fun h => heq (h.resolve_left hγ)) m hm

theorem Registered.goes {α : Type} {x : TreeM α} {Q : α → Tree → Prop} {E : TreeError → Prop}
    (ht : Registered a r γ t)
    (h : Ends (x t) (fun y t' => t.Extends t' r ∧ Q y t') fun e _ =>
      (∃ err, e = .shape err) ∧ E e) :
    Goes (Registered a r γ) (a.Warrants r) x t Q := by
  refine h.imp (fun y t' ⟨hext, hQ⟩ => ⟨ht.extends hext, hext.sameScopes.advances, hQ⟩) ?_
  rintro e t' ⟨⟨err, rfl⟩, _⟩
  exact a.warrants_shape r err

theorem Registered.updateScope (ht : Registered a r γ t) (s : ScopeId) (f : ScopeData → ScopeData)
    (hstatic : ∀ d, (f d).static = d.static) (hnames : ∀ d, (f d).names = d.names)
    (hrefs : ∀ d, d.references ⊆ (f d).references) : Registered a r γ (t.updateScope s f) :=
  ht.same (t.sameScopes_updateScope_of_bindings s f hstatic (fun d => congrArg (·.1) (hnames d))
    hrefs).toKeepsScopes (coherent_of_names ht.inScope.coherent _ _)
    (fun c => t.scope_updateScope_congr s c f ScopeData.names hnames) rfl

theorem Registered.naming (ht : Registered a r γ t) (name : String) :
    Registered a r (γ.naming name) t :=
  ⟨ht.arena, ht.inScope, ht.bound, ht.exports, ht.globals, ht.heads, ht.root,
    fun s x hl hγ => ht.noted s x hl fun h => hγ (.inl h)⟩

def withReference (name : String) (d : ScopeData) : ScopeData :=
  { d with references := if d.references.contains name then d.references else name :: d.references }

theorem mem_references_withReference (name x : String) (d : ScopeData) :
    x ∈ (withReference name d).references ↔ x = name ∨ x ∈ d.references := by
  unfold withReference
  dsimp only
  split
  · next h =>
    refine ⟨.inr, ?_⟩
    rintro (rfl | hx)
    · simpa using h
    · exact hx
  · exact List.mem_cons

theorem references_subset_withReference (name : String) (d : ScopeData) :
    d.references ⊆ (withReference name d).references :=
  fun x hx => (mem_references_withReference name x d).2 (.inr hx)

theorem noteReference_eq (s : ScopeId) (name : String) (t : Tree) :
    noteReference s name t = .ok ⟨⟩ (t.updateScope (t.programScope s) (withReference name)) := rfl

theorem Scoped.occurs_noteReference (ht : t.Scoped r) (hr : t.arena.isScope (some r) none)
    (hs : s.index < t.scopes.size) (name : String) :
    (t.updateScope (t.programScope s) (withReference name)).Occurs name := by
  unfold Occurs
  rw [ht.programScope_eq_zero hr hs, scope_updateScope, if_pos ⟨rfl, (Nat.zero_le _).trans_lt hs⟩]
  exact (mem_references_withReference name name _).2 (.inl rfl)

theorem sameScopes_noteReference (t : Tree) (s : ScopeId) (name : String) :
    t.SameScopes (t.updateScope s (withReference name)) :=
  t.sameScopes_updateScope_of_bindings s (withReference name) (fun _ => rfl) (fun _ => rfl)
    (references_subset_withReference name)

theorem Registered.noteReference (ht : Registered a r (γ.naming name) t)
    (hs : s.index < t.scopes.size) :
    Goes (Registered a r γ) (a.Warrants r) (noteReference s name) t fun _ t' => t'.Occurs name := by
  have hroot : t.arena.isScope (some r) none := ht.arena ▸ ht.root
  have hoccurs := ht.inScope.occurs_noteReference hroot hs name
  have hsame := t.sameScopes_noteReference (t.programScope s) name
  have ht' := ht.updateScope (t.programScope s) (withReference name) (fun _ => rfl) (fun _ => rfl)
    (references_subset_withReference name)
  unfold Goes
  rw [noteReference_eq]
  refine ⟨⟨ht'.arena, ht'.inScope, ht'.bound, ht'.exports, ht'.globals, ht'.heads, ht'.root,
    fun c x hl hγ => ?_⟩, hsame.advances, hoccurs⟩
  by_cases hx : x = name
  · rw [hx]
    exact hoccurs
  · exact ht'.noted c x hl fun h => hγ (h.resolve_right hx)

/-! ## one name -/

def withBinding (t : Tree) (s : ScopeId) (name : String) (record : Binding) : Tree :=
  { t with bindings := t.bindings.push (some record) }.updateScope s fun d =>
    { d with bindings := d.bindings.put name ⟨t.bindings.size⟩ }

theorem sameScopes_withBinding (t : Tree) (s : ScopeId) (name : String) (record : Binding) :
    t.SameScopes (t.withBinding s name record) := by
  have hrecords : t.KeepsRecords { t with bindings := t.bindings.push (some record) } := by
    intro b old hold
    refine ⟨old, ?_, .refl old⟩
    have hlt := lt_of_binding? hold
    unfold binding? at hold ⊢
    rw [Array.getElem?_push, if_neg (Nat.ne_of_lt hlt)]
    exact hold
  have hbare : t.SameScopes { t with bindings := t.bindings.push (some record) } :=
    sameScopes_of_names rfl (fun _ => rfl) (fun _ _ h => h) (fun _ h => h) hrecords
  refine hbare.trans (sameScopes_updateScope _ s _ (fun _ => rfl) (fun other h => ?_) fun _ h => h)
  dsimp only
  rw [Table.get?_put]
  split
  · rfl
  · exact h

theorem binding?_withBinding (t : Tree) (s : ScopeId) (name : String) (record : Binding)
    (b : BindingId) : (t.withBinding s name record).binding? b
      = if b = ⟨t.bindings.size⟩ then some record else t.binding? b := by
  show (t.bindings.push _)[b.index]?.join = _
  rw [Array.getElem?_push]
  by_cases h : b = ⟨t.bindings.size⟩
  · subst h
    simp
  · have hi : b.index ≠ t.bindings.size := fun hi => h (by cases b; simp_all)
    rw [if_neg hi, if_neg h]
    rfl

theorem get?_withBinding (hs : s.index < t.scopes.size) (name other : String) (record : Binding)
    (c : ScopeId) : ((t.withBinding s name record).scope c).bindings.get? other
      = if c = s ∧ other = name then some ⟨t.bindings.size⟩
        else (t.scope c).bindings.get? other := by
  have hscope : (t.withBinding s name record).scope c
      = if c = s ∧ s.index < t.scopes.size then
          { t.scope s with bindings := (t.scope s).bindings.put name ⟨t.bindings.size⟩ }
        else t.scope c := t.scope_updateScope s c _
  rw [hscope]
  by_cases hc : c = s
  · subst hc
    simp [hs, Table.get?_put]
  · simp [hc]

theorem keepsFirst_withBinding (hs : s.index < t.scopes.size)
    (hnone : (t.scope s).bindings.get? name = none) (record : Binding) {k : Nat}
    (hk : k ≤ t.bindings.size) : KeepsFirst k t (t.withBinding s name record) := by
  have h := t.sameScopes_withBinding s name record
  refine ⟨h.grows, h.size.ge, fun c _ => h.static c, fun c other _ => ?_⟩
  unfold Tree.ownBinding?
  rw [get?_withBinding hs]
  split
  · next hc =>
    rw [hc.1, hc.2, hnone]
    simpa using fun _ => hk
  · have hlive (b : BindingId) : (((t.withBinding s name record).binding? b).isSome
        && decide (b.index < k)) = ((t.binding? b).isSome && decide (b.index < k)) := by
      rw [binding?_withBinding]
      split
      · next hb => simp [hb, Nat.not_lt.2 hk]
      · rfl
    rw [Option.filter_filter, Option.filter_filter, funext hlive]

theorem Registered.withBinding (ht : Registered a r γ t) (hs : s.index < t.scopes.size)
    (hnone : (t.scope s).bindings.get? name = none)
    (hD : a.Enters r (t.scope s).block kind name id)
    (hp : ∃ d, t.node p = some d ∧ t.arena.Sites d name id) :
    Registered a r (γ.naming name)
      (t.withBinding s name { identifier := id, name, scope := s, path := p, kind }) := by
  have h := t.sameScopes_withBinding s name { identifier := id, name, scope := s, path := p, kind }
  have hlt : ∀ b record, t.binding? b = some record → b ≠ ⟨t.bindings.size⟩ := by
    rintro b record hr rfl
    exact Nat.lt_irrefl _ (lt_of_binding? hr)
  refine ⟨ht.arena, ht.inScope.keeps h.toKeepsScopes (coherent_of_names ht.inScope.coherent _ _),
    ⟨fun c other b hb => ?_, fun b record hr => ?_, fun b record hr => ?_⟩,
    fun hγ b record hr => ?_,
    fun hγ c => ?_, fun c hc hγ m hm => ?_, ht.root, fun c x hl hγ => ?_⟩
  · rw [get?_withBinding hs] at hb
    split at hb
    · next hc =>
      obtain rfl := Option.some.inj hb
      rw [binding?_withBinding, if_pos rfl]
      exact ⟨_, rfl, hc.1.symm, hc.2.symm⟩
    · obtain ⟨record, hr, hrec⟩ := ht.bound.listed c other b hb
      rw [binding?_withBinding, if_neg (hlt b record hr)]
      exact ⟨record, hr, hrec⟩
  · rw [h.size, get?_withBinding hs, block_of_static (h.static _)]
    rw [binding?_withBinding] at hr
    split at hr
    · next hb =>
      obtain rfl := Option.some.inj hr
      exact ⟨hs, by simp [hb], ⟨hD, fun _ h => nomatch h⟩⟩
    · obtain ⟨hlt', hget, hj⟩ := ht.bound.found b record hr
      refine ⟨hlt', ?_, hj⟩
      rw [if_neg, hget]
      rintro ⟨hsc, hname⟩
      rw [hsc, hname, hnone] at hget
      cases hget
  · rw [binding?_withBinding] at hr
    split at hr
    · obtain rfl := Option.some.inj hr
      exact hp
    · exact ht.bound.sited b record hr
  · rw [binding?_withBinding] at hr
    split at hr
    · obtain rfl := Option.some.inj hr
      exact ⟨List.nodup_nil, fun _ h => nomatch h⟩
    · refine ⟨(ht.exports hγ b record hr).1, fun p hp => ?_⟩
      obtain ⟨k, hk, he⟩ := (ht.exports hγ b record hr).2 p hp
      refine ⟨k, hk.trans ?_, he.keeps (keepsFirst_withBinding hs hnone _ hk) ht.inScope⟩
      show _ ≤ (t.bindings.push _).size
      rw [Array.size_push]
      exact Nat.le_succ _
  · have hglobals : ((t.withBinding s name
        { identifier := id, name, scope := s, path := p, kind }).scope c).globals
          = (t.scope c).globals := t.scope_updateScope_congr s c _ ScopeData.globals fun _ => rfl
    exact hglobals.trans (ht.globals hγ c)
  · rw [h.size] at hc
    rw [block_of_static (h.static _)] at hm
    exact (ht.heads c hc hγ m hm).adds h.adds
  · unfold Lists at hl
    rw [get?_withBinding hs, if_neg fun hx => hγ (.inr hx.2)] at hl
    exact h.occurs x (ht.noted c x hl fun hn => hγ (.inl hn))

theorem keepsTables_updateBinding (t : Tree) (b : BindingId) (f : Binding → Binding) :
    t.KeepsTables (t.updateBinding b f) where
  grows := t.grows_updateBinding b f
  size := Nat.le_refl _
  static _ _ := rfl
  tables _ _ := rfl
  fresh _ hs := congrArg ScopeData.bindings (scope_of_size_le (t := t) hs)
  live c := by
    rw [binding?_updateBinding]
    split
    · next hc => rw [hc, Option.isSome_map]
    · rfl
  occurs _ h := h

theorem Bound.updateBinding {D : NodeId → BindingKind → String → NodeId → Prop} (ht : t.Bound D)
    (f : Binding → Binding)
    (hf : ∀ record, t.binding? b = some record → (f record).scope = record.scope
      ∧ (f record).name = record.name ∧ Justified D (t.scope record.scope).block (f record)
      ∧ ∃ d, t.node (f record).path = some d ∧ t.arena.Sites d record.name (f record).identifier) :
    (t.updateBinding b f).Bound D := by
  refine ⟨fun c name b' hb => ?_, fun c record hr => ?_, fun c record hr => ?_⟩
  · obtain ⟨record, hr, hs, hname⟩ := ht.listed c name b' hb
    rw [binding?_updateBinding]
    split
    · next hb' =>
      rw [hb'] at hr
      obtain ⟨hs', hname', _⟩ := hf record hr
      exact ⟨f record, by rw [hr]; rfl, hs'.trans hs, hname'.trans hname⟩
    · exact ⟨record, hr, hs, hname⟩
  · rw [binding?_updateBinding] at hr
    split at hr
    · next hc =>
      obtain ⟨old, hold, rfl⟩ := Option.map_eq_some_iff.1 hr
      obtain ⟨hs, hname, hj, _⟩ := hf old hold
      rw [hc, hs, hname]
      exact ⟨(ht.found b old hold).1, (ht.found b old hold).2.1, hj⟩
    · exact ht.found c record hr
  · rw [binding?_updateBinding] at hr
    split at hr
    · obtain ⟨old, hold, rfl⟩ := Option.map_eq_some_iff.1 hr
      obtain ⟨_, hname, _, hsited⟩ := hf old hold
      rw [hname]
      exact hsited
    · exact ht.sited c record hr

theorem Registered.updateBinding (ht : Registered a r γ t) (f : Binding → Binding)
    (hf : ∀ record, t.binding? b = some record → record.Precedes (f record)
      ∧ Justified (a.Enters r) (t.scope record.scope).block (f record)
      ∧ (∃ d, t.node (f record).path = some d ∧ t.arena.Sites d record.name (f record).identifier)
      ∧ (¬ γ.uses → (f record).referencePaths.Nodup ∧ ∀ p ∈ (f record).referencePaths,
          ∃ k ≤ t.bindings.size, t.CountsExport r p k record.name b)) :
    Registered a r γ (t.updateBinding b f) := by
  have hsize : (t.updateBinding b f).bindings.size = t.bindings.size := Array.size_modify ..
  have hkeeps {p : PathId} {name : String} {c : BindingId} :
      (∃ k ≤ t.bindings.size, t.CountsExport r p k name c) →
        ∃ k ≤ (t.updateBinding b f).bindings.size,
          (t.updateBinding b f).CountsExport r p k name c :=
    fun ⟨k, hk, he⟩ =>
      ⟨k, hsize ▸ hk, he.keeps ((t.keepsTables_updateBinding b f).keepsFirst k) ht.inScope⟩
  have h := t.sameScopes_updateBinding b f fun record hr => (hf record hr).1
  refine ⟨ht.arena, ht.inScope.keeps h.toKeepsScopes (coherent_of_names ht.inScope.coherent _ _),
    ht.bound.updateBinding f fun record hr => ?_, fun hγ c record hr => ?_, ht.globals,
    fun c hc hγ m hm => (ht.heads c hc hγ m hm).adds h.adds, ht.root, ht.noted⟩
  · obtain ⟨hle, hj, hsited, _⟩ := hf record hr
    exact ⟨hle.scope, hle.name, hj, hsited⟩
  · rw [binding?_updateBinding] at hr
    split at hr
    · next hc =>
      obtain ⟨old, hold, rfl⟩ := Option.map_eq_some_iff.1 hr
      obtain ⟨hle, _, _, hlive⟩ := hf old hold
      obtain ⟨hnd, hrefs⟩ := hlive hγ
      rw [hle.name, hc]
      exact ⟨hnd, fun p hp => hkeeps (hrefs p hp)⟩
    · obtain ⟨hnd, hrefs⟩ := ht.exports hγ c record hr
      exact ⟨hnd, fun p hp => hkeeps (hrefs p hp)⟩

theorem merge_written (kind : BindingKind) (p : PathId) (id : NodeId) (old : Binding) :
    (old.merge kind p id).constantViolations ≠ [] := by
  unfold Binding.merge
  split
  · exact Binding.reassign_written _ _
  · exact old.reassign_written p

theorem precedes_merge (kind : BindingKind) (p : PathId) (id : NodeId) (old : Binding) :
    old.Precedes (old.merge kind p id) := by
  have hwritten := merge_written kind p id old
  refine ⟨?_, ?_, .inr hwritten, fun _ => hwritten⟩ <;> unfold Binding.merge <;> split <;> rfl

/-- **A name comes into a scope that it was declared for, or clashes with another declaration.** -/
theorem Registered.declareName (ht : Registered a r γ t) (hs : s.index < t.scopes.size)
    (hD : a.Enters r (t.scope s).block kind name id)
    (hp : ∃ d, t.node p = some d ∧ t.arena.Sites d name id) :
    Goes (Registered a r γ) (a.Warrants r) (declareName s kind p name id) t
      fun _ t' => t'.Lists s name ∧ t'.Credits s name id := by
  unfold Tree.declareName
  refine goes_get ?_
  rw [ht.bound.ownBinding?]
  cases hb : (t.scope s).bindings.get? name with
  | none =>
    simp only [Option.bind_none]
    rw [if_neg (Nat.not_le.2 hs)]
    have hsame := t.sameScopes_withBinding s name
      { identifier := id, name, scope := s, path := p, kind }
    have hnote := (ht.withBinding hs hb hD hp).noteReference (hs.trans_le hsame.size.ge)
    refine ends_bind.2 (ends_modify.2 (Ends.mono hnote fun _ t' ⟨ht', ha, _⟩ => ?_))
    refine ⟨ht', hsame.advances.trans ha, ha.lists s name ?_, Credits.keeps ?_ ha.records⟩
    · unfold Lists
      rw [get?_withBinding hs, if_pos ⟨rfl, rfl⟩]
      rfl
    · refine ⟨⟨t.bindings.size⟩, { identifier := id, name, scope := s, path := p, kind }, ?_, rfl,
        rfl, .inl rfl⟩
      rw [binding?_withBinding, if_pos rfl]
  | some b =>
    obtain ⟨old, hold, rfl, rfl⟩ := ht.bound.listed s name b hb
    obtain ⟨_, _, hj⟩ := ht.bound.found b old hold
    have hlisted : t.Lists old.scope old.name := Option.isSome_iff_exists.2 ⟨b, hb⟩
    simp only [Option.bind_some, hold, Option.map_some]
    split
    · next hid => exact goes_pure ht ⟨hlisted, b, old, hold, rfl, rfl, .inl (by simpa using hid)⟩
    · next hid =>
      split
      · next hclash =>
        refine goes_throw fun name location h => ?_
        obtain ⟨rfl, _⟩ := TreeError.duplicateDeclaration.inj h
        refine ⟨_, _, _, _, _, hD, hj.declared, fun h => hid (by simp [h]), ?_⟩
        simp only [Bool.and_eq_true, Bool.or_eq_true] at hclash
        exact hclash.2
      · have hsame := t.sameScopes_updateBinding b (Binding.merge kind p id) fun record _ =>
          precedes_merge kind p id record
        have hcredits : (t.updateBinding b (Binding.merge kind p id)).Credits old.scope
            old.name id := by
          have hle := precedes_merge kind p id old
          refine ⟨b, old.merge kind p id, ?_, hle.scope, hle.name,
            .inr (merge_written kind p id old)⟩
          rw [binding?_updateBinding, if_pos rfl, hold]
          rfl
        refine (goes_modify (Q := fun _ t' => t'.Credits old.scope old.name id)
          (ht.updateBinding (Binding.merge kind p id) fun record hr =>
            ⟨precedes_merge kind p id record, ?_⟩)
          hsame.advances hcredits).bind fun _ t' ht' ha hcredits => ?_
        · obtain rfl := Option.some.inj (hold.symm.trans hr)
          have hlive := fun hγ => ht.exports hγ b old hold
          unfold Binding.merge
          by_cases hrep : old.kind.isReplaceable
          · simp only [hrep, if_true]
            exact ⟨⟨hD, hj.redeclared⟩, hp, hlive⟩
          · simp only [hrep, Bool.false_eq_true, if_false]
            refine ⟨⟨hj.declared, fun x hx => ?_⟩, ht.bound.sited b old hold, hlive⟩
            split at hx
            · exact hj.redeclared x hx
            · rcases List.mem_append.1 hx with hx | hx
              · exact hj.redeclared x hx
              · obtain rfl := List.mem_singleton.1 hx
                exact ⟨id, hD⟩
        · exact ((ht'.naming _).noteReference (hs.trans_le ha.size)).mono
            fun _ _ _ ha' _ => ⟨(ha.trans ha').lists _ _ hlisted, hcredits.keeps ha'.records⟩

/-! ## what a node binds -/

theorem Registered.declareNames (ht : Registered a r γ t) (hs : s.index < t.scopes.size)
    {target : Option NodeId}
    (hD : ∀ m name id, target = some m → a.Binds true m name id →
      a.Enters r (t.scope s).block kind name id)
    (hp : ∀ m name id, target = some m → a.Binds true m name id →
      ∃ d, t.node p = some d ∧ a.Sites d name id) :
    Goes (Registered a r γ) (a.Warrants r) (declareNames s kind p target) t
      fun _ t' => ∀ m, target = some m → t'.ListsAll s m := by
  unfold Tree.declareNames
  refine goes_get ?_
  rw [ht.arena]
  have hids : Goes (Registered a r γ) (a.Warrants r) ((a.bindingIds target true).forM
      fun x => x.2.forM (Tree.declareName s kind p x.1)) t
      fun _ t' => ∀ x ∈ a.bindingIds target true, ∀ id ∈ x.2,
        t'.Lists s x.1 ∧ t'.Credits s x.1 id := by
    refine Goes.forM_each (S := fun (x : String × List NodeId) t' => ∀ id ∈ x.2,
        t'.Lists s x.1 ∧ t'.Credits s x.1 id)
      (fun x _ _ h ha id hid => ⟨ha.lists s x.1 (h id hid).1, (h id hid).2.keeps ha.records⟩) _ t ht
      ?_
    rintro ⟨name, ids⟩ hids t' ht' ha'
    refine Goes.forM_each (S := fun id t' => t'.Lists s name ∧ t'.Credits s name id)
      (fun _ _ _ h ha => ⟨ha.lists s name h.1, h.2.keeps ha.records⟩) _ t' ht'
      fun id hid t'' ht'' ha'' => ?_
    have hadv := ha'.trans ha''
    obtain ⟨m, hm, hb⟩ := mem_bindingIds hids hid
    refine ht''.declareName (hs.trans_le hadv.size) ?_ ?_
    · rw [hadv.block hs]
      exact hD m name id hm hb
    · obtain ⟨d, hd, hsites⟩ := hp m name id hm hb
      rw [ht''.arena]
      exact ⟨d, (hadv.grows.node p (lt_of_node hd)).trans hd, hsites⟩
  refine hids.mono fun _ t' ht' _ hlists m hm name id hb => ?_
  rw [ht'.arena] at hb
  obtain ⟨ids, hmem, hid⟩ := hb.mem_bindingIds (ht.arena ▸ ht.inScope.coherent.arena.owned)
  rw [← hm] at hmem
  exact hlists _ hmem id hid

theorem Registered.entries_forM (ht : Registered a r γ t) (hp : t.node p = some n) {key : String}
    (hkey : '.' ∉ key.toList) {f : PathId → TreeM PUnit}
    (hf : ∀ q t', Registered a r γ t' → t.Advances t' →
      (∀ m, t'.node q = some m → some m ∈ a.items (some n) key) →
      Goes (Registered a r γ) (a.Warrants r) (f q) t'
        fun _ t'' => ∀ m, t'.node q = some m → t''.ListsAll s m) :
    Goes (Registered a r γ) (a.Warrants r) (do (← entries p key).forM f) t
      fun _ t' => ∀ m, some m ∈ a.items (some n) key → t'.ListsAll s m := by
  obtain ⟨above, hpl⟩ := ht.inScope.coherent.exists_place hp
  obtain ⟨o, ho⟩ := hpl.under.get? ht.inScope.coherent.arena.owned ht.inScope.coherent.present
  refine (ht.goes (ends_entries ht.inScope.coherent ho hp hkey)).bind fun qs t' ht' ha hqs => ?_
  rw [ht.arena] at hqs
  have hsteps : Goes (Registered a r γ) (a.Warrants r) (qs.forM f) t'
      fun _ t'' => ∀ q ∈ qs, ∀ m, t'.node q = some m → t''.ListsAll s m := by
    refine Goes.forM_each (S := fun q t'' => ∀ m, t'.node q = some m → t''.ListsAll s m)
      (fun q _ _ h ha' m hm => (h m hm).adds ha'.toAdds) qs t' ht' fun q hq t'' ht'' ha' => ?_
    obtain ⟨item, hitem, hbelow⟩ := forall₂_exists_of_mem_right hqs hq
    have hnode : t''.node q = t'.node q := ha'.grows.node q hbelow.lt
    rw [← hnode]
    refine hf q t'' ht'' (ha.trans ha') fun m hm => ?_
    rw [hnode, hbelow.node] at hm
    rw [← hm]
    exact hitem
  refine hsteps.mono fun _ t'' _ _ hall m hm => ?_
  obtain ⟨q, hq, hbelow⟩ := forall₂_exists_of_mem_left hqs hm
  exact hall q hq m hbelow.node

theorem nodeIs_eq {ty : NodeType} : t.nodeIs p ty = t.arena.is (t.node p) ty := rfl

/-- The names that the node at a path binds come into a scope they were declared for. -/
theorem Registered.registerBindingLevels (fuel : Nat) (t : Tree) (p : PathId)
    (ht : Registered a r γ t) (hs : s.index < t.scopes.size)
    (hD : ∀ m name id, t.node p = some m → a.Binds true m name id →
      a.Enters r (t.scope s).block kind name id)
    (hfuel : ∀ m, t.node p = some m → a.size < fuel + (a.above m).card) :
    Goes (Registered a r γ) (a.Warrants r) (registerBindingLevels s kind fuel p) t
      fun _ t' => ∀ m, t.node p = some m → t'.ListsAll s m := by
  induction fuel generalizing t p with
  | zero =>
    refine goes_pure ht fun m hm => ?_
    have hle := a.card_above_le m
    have hlt := hfuel m hm
    omega
  | succ fuel ih =>
    have hshaped : a.Shaped := ht.arena ▸ ht.inScope.coherent.arena.shaped
    have howned : a.Owned := ht.arena ▸ ht.inScope.coherent.arena.owned
    unfold Tree.registerBindingLevels
    refine goes_get ?_
    split
    · next hty =>
      rw [nodeIs_eq, ht.arena] at hty
      cases hn : t.node p with
      | none =>
        rw [hn] at hty
        cases hty
      | some n =>
        rw [hn] at hty
        refine (ht.entries_forM (s := s) hn (by decide) fun q t' ht' ha hq => ?_).mono ?_
        · refine ih t' q ht' (hs.trans_le ha.size) (fun m name id hm hb => ?_) fun m hm => ?_
          · rw [ha.block hs]
            exact hD n name id hn ((binds_variableDeclaration hshaped hty).2 ⟨m, hq m hm, hb⟩)
          · have hlt := hfuel n hn
            have hdown := card_above_lt howned
              (howned.owner_of_child n m (mem_children_of_items (hq m hm)))
            omega
        · rintro _ t' ht' _ hall m hm name id hb
          obtain rfl := Option.some.inj hm
          rw [ht'.arena] at hb
          obtain ⟨d, hd, hb⟩ := (binds_variableDeclaration hshaped hty).1 hb
          rw [← ht'.arena] at hb
          exact hall d hd name id hb
    · exact ht.declareNames hs hD fun m _ _ hm hb => ⟨m, hm, .inl hb⟩

theorem Registered.registerBinding (ht : Registered a r γ t) (hs : s.index < t.scopes.size)
    (hD : ∀ m name id, t.node p = some m → a.Binds true m name id →
      a.Enters r (t.scope s).block kind name id) :
    Goes (Registered a r γ) (a.Warrants r) (registerBinding s kind p) t
      fun _ t' => ∀ m, t.node p = some m → t'.ListsAll s m := by
  unfold Tree.registerBinding
  refine goes_get (Registered.registerBindingLevels _ t p ht hs hD fun m _ => ?_)
  rw [ht.arena]
  omega

end Tree

end ScopedTree
