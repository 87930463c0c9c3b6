import ScopedTree.Proofs.Path.Virtual
import ScopedTree.Proofs.Scope.Register

/-!
# Names resolve alike

As long as the tables of the scopes stay what they are, a name resolves to the same binding.

* `Tree.KeepsTables.getBinding?`   names resolve alike;
* `Tree.Reads`, `Tree.Targets`  reads of a name, and assignments to it, by what they resolve to.
-/

namespace ScopedTree

open ScopedTree.Tree Arena

/-- Whether `n`, below the nodes `above`, is an identifier that is read. -/
def Arena.isRead (a : Arena) (n : NodeId) (above : List NodeId) : Bool :=
  (a.type? (some n)).any VirtualType.referencedIdentifier.mayCover
    && VirtualType.referencedIdentifier.admits a n above

namespace Tree

variable {t t' t'' : Tree} {r n : NodeId} {p : PathId} {s c : ScopeId} {name : String}
  {above line : List NodeId}

/-! ## tables -/

theorem SameScopes.keepsTables (h : t.SameScopes t')
    (htables : ∀ s, (t'.scope s).bindings = (t.scope s).bindings)
    (hlive : ∀ b, (t'.binding? b).isSome = (t.binding? b).isSome) : t.KeepsTables t' where
  grows := h.grows
  size := h.size.ge
  static s _ := h.static s
  tables s _ := htables s
  fresh s hs := by
    rw [htables, scope_of_size_le hs]
  live := hlive
  occurs := h.occurs

theorem keepsTables_updateScope (t : Tree) (s : ScopeId) (f : ScopeData → ScopeData)
    (hstatic : ∀ d, (f d).static = d.static) (htable : ∀ d, (f d).bindings = d.bindings)
    (hrefs : ∀ d, d.references ⊆ (f d).references) : t.KeepsTables (t.updateScope s f) :=
  (t.sameScopes_updateScope_of_bindings s f hstatic htable hrefs).keepsTables
    (fun c => t.scope_updateScope_congr s c f ScopeData.bindings htable) fun _ => rfl

theorem KeepsTables.holds (h : t.KeepsTables t') {o : Option ScopeId} (ho : t.Holds line o) :
    t'.Holds line o := ho.mono h.grows.arena h.size h.static

theorem KeepsTables.scopeChain (h : t.KeepsTables t') (ht : t.Scoped r)
    (hs : s.index < t.scopes.size) :
    t'.scopeChain s = t.scopeChain s := (ht.scopeChainFrom_of_static h.static Limits.chain s hs).1

theorem KeepsTables.programScope (h : t.KeepsTables t') (ht : t.Scoped r)
    (hs : s.index < t.scopes.size) : t'.programScope s = t.programScope s := by
  unfold Tree.programScope
  rw [h.scopeChain ht hs]

/-- **A name seen from an old scope resolves to what it did.** -/
theorem KeepsTables.getBinding? (h : t.KeepsTables t') (ht : t.Scoped r)
    (hs : s.index < t.scopes.size) (name : String) :
    t'.getBinding? s name = t.getBinding? s name := by
  unfold Tree.getBinding?
  rw [h.scopeChain ht hs]
  obtain ⟨_, hmem⟩ := ht.scopeChainFrom_of_static h.static Limits.chain s hs
  exact findSome?_congr fun c hc => h.ownBinding? (hmem c hc) name

/-! ## uses -/

/-- The path `p` is a read of `name` that resolves to `o`. -/
def Reads (t : Tree) (r : NodeId) (p : PathId) (name : String) (o : Option BindingId) : Prop :=
  ∃ n above s, t.Place r p n above ∧ t.arena.isRead n above ∧ t.arena.name? (some n) = some name
    ∧ t.Holds (n :: above) (some s) ∧ t.getBinding? s name = o

/-- The path `p` is an assignment to `name`, which resolves to `o` there. -/
def Targets (t : Tree) (r : NodeId) (p : PathId) (name : String) (o : Option BindingId) : Prop :=
  ∃ n above s id, t.Place r p n above ∧ t.arena.is (some n) .assignmentExpression
    ∧ t.arena.Binds false n name id ∧ t.Holds (n :: above) (some s) ∧ t.getBinding? s name = o

theorem Reads.keeps {o : Option BindingId} (hr : t.Reads r p name o) (h : t.KeepsTables t')
    (ht : t.Scoped r) : t'.Reads r p name o := by
  obtain ⟨n, above, s, hp, hread, hname, hs, hb⟩ := hr
  refine ⟨n, above, s, hp.grows h.grows, ?_, ?_, h.holds hs, ?_⟩
  · rw [h.grows.arena]
    exact hread
  · rw [h.grows.arena]
    exact hname
  · rw [h.getBinding? ht (hs.2 s rfl)]
    exact hb

theorem Targets.keeps {o : Option BindingId} (hr : t.Targets r p name o) (h : t.KeepsTables t')
    (ht : t.Scoped r) : t'.Targets r p name o := by
  obtain ⟨n, above, s, id, hp, hn, hbind, hs, hb⟩ := hr
  refine ⟨n, above, s, id, hp.grows h.grows, ?_, ?_, h.holds hs, ?_⟩
  · rw [h.grows.arena]
    exact hn
  · rw [h.grows.arena]
    exact hbind
  · rw [h.getBinding? ht (hs.2 s rfl)]
    exact hb

theorem Reads.unique (ht : t.Scoped r) {name' : String} {o o' : Option BindingId}
    (h : t.Reads r p name o) (h' : t.Reads r p name' o') : name = name' ∧ o = o' := by
  obtain ⟨n, above, s, hp, _, hname, hs, rfl⟩ := h
  obtain ⟨n', above', s', hp', _, hname', hs', rfl⟩ := h'
  obtain rfl := Option.some.inj (hp.node.symm.trans hp'.node)
  obtain rfl := hp.under.unique ht.coherent.arena.owned hp'.under
  obtain rfl := Option.some.inj (hname.symm.trans hname')
  obtain rfl := Option.some.inj (ht.holds_unique hs hs')
  exact ⟨rfl, rfl⟩

end Tree

end ScopedTree
