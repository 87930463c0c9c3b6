import ScopedTree.Proofs.Pass.Frames
import ScopedTree.Proofs.Scope.Lines
import ScopedTree.Scope.Assign

/-!
# Trees in scope

While nothing is edited, the scopes of a tree are those of the nodes that own one, and the scope of
a path is that of the nearest block on its line.

* `Tree.Holds`          the scope of a line;
* `Tree.Lists`, `Tree.Occurs`   the names in the table of a scope, and in the program;
* `Tree.Scoped`         the scopes of a tree agree with its nodes;
* `Tree.Adds`           paths and scopes may have come, the old ones are what they were;
* `Tree.Advances`       and the passes under way are what they were;
* `Tree.KeepsScopes`    no scope has come, and none changed its place;
* `Tree.Scoped.map_block_scopeChain`   the chain of a scope lists the blocks of its line;
* `Tree.Scoped.programScope_eq`    all scopes are around one program;
* `Tree.Goes`           a run that keeps an invariant while the tree advances.
-/

namespace ScopedTree

open Arena

def ScopeData.static (d : ScopeData) : NodeId × PathId × Option ScopeId × Bool × Bool :=
  (d.block, d.path, d.parent, d.crawled, d.detached)

/-- A later record of a binding: it is declared as before, or it counts as written. -/
structure Binding.Precedes (old new : Binding) : Prop where
  name : new.name = old.name
  scope : new.scope = old.scope
  declared : new.identifier = old.identifier ∧ new.path = old.path ∨ new.constantViolations ≠ []
  written : old.constantViolations ≠ [] → new.constantViolations ≠ []

@[refl] theorem Binding.Precedes.refl (b : Binding) : b.Precedes b :=
  ⟨rfl, rfl, .inl ⟨rfl, rfl⟩, id⟩

theorem Binding.Precedes.trans {b b' b'' : Binding} (h : b.Precedes b') (h' : b'.Precedes b'') :
    b.Precedes b'' where
  name := h'.name.trans h.name
  scope := h'.scope.trans h.scope
  declared := by
    rcases h'.declared with ⟨hid, hpath⟩ | hwritten
    · rcases h.declared with ⟨hid', hpath'⟩ | hwritten
      · exact .inl ⟨hid.trans hid', hpath.trans hpath'⟩
      · exact .inr (h'.written hwritten)
    · exact .inr hwritten
  written hb := h'.written (h.written hb)

theorem Binding.precedes_reference (b : Binding) (p : PathId) : b.Precedes (b.reference p) := by
  unfold Binding.reference
  split <;> exact ⟨rfl, rfl, .inl ⟨rfl, rfl⟩, id⟩

theorem Binding.precedes_reassign (b : Binding) (p : PathId) : b.Precedes (b.reassign p) := by
  refine ⟨rfl, rfl, .inl ⟨rfl, rfl⟩, fun h => ?_⟩
  unfold Binding.reassign
  dsimp only
  split
  · exact h
  · simp

theorem Binding.precedes_remember (b : Binding) (v : Primitive) : b.Precedes (b.remember v) := by
  unfold Binding.remember
  split <;> exact ⟨rfl, rfl, .inl ⟨rfl, rfl⟩, id⟩

theorem Binding.reassign_written (b : Binding) (p : PathId) :
    (b.reassign p).constantViolations ≠ [] := by
  unfold Binding.reassign
  dsimp only
  split
  · next h => exact List.ne_nil_of_mem (by simpa using h)
  · simp

namespace Tree

variable {t t' t'' : Tree} {r n b : NodeId} {p q : PathId} {s c : ScopeId}
  {above line : List NodeId} {o : Option ScopeId}

/-! ## reading and writing scopes -/

section Table

variable (t : Tree) (s c : ScopeId) (f : ScopeData → ScopeData)

theorem scope_updateScope :
    (t.updateScope s f).scope c
      = if c = s ∧ s.index < t.scopes.size then f (t.scope s) else t.scope c := by
  show (t.scopes.modify s.index f)[c.index]?.getD _ = _
  rw [Array.getElem?_modify]
  by_cases h : c = s
  · subst h
    by_cases hs : c.index < t.scopes.size
    · simp [hs, scope]
    · simp [hs, scope]
  · have hi : s.index ≠ c.index := fun hi => h (by cases s; cases c; simp_all)
    rw [if_neg hi, if_neg fun hc => h hc.1]
    rfl

/-- What an update of a scope does not change in any record, it does not change. -/
theorem scope_updateScope_congr {α : Type} (g : ScopeData → α) (h : ∀ d, g (f d) = g d) :
    g ((t.updateScope s f).scope c) = g (t.scope c) := by
  rw [scope_updateScope]
  split
  · next hc => rw [h, hc.1]
  · rfl

theorem scope_of_size_le {t : Tree} {s : ScopeId} (h : t.scopes.size ≤ s.index) :
    t.scope s = { block := ⟨0⟩, path := ⟨0⟩, parent := none } := by
  unfold Tree.scope
  rw [Array.getElem?_eq_none h]
  rfl

@[simp] theorem size_scopes_updateScope : (t.updateScope s f).scopes.size = t.scopes.size :=
  Array.size_modify

end Table

theorem scopeChainFrom_congr (h : ∀ c, (t'.scope c).parent = (t.scope c).parent) (fuel : Nat)
    (s : ScopeId) : t'.scopeChainFrom fuel s = t.scopeChainFrom fuel s := by
  induction fuel generalizing s with
  | zero => rfl
  | succ fuel ih =>
    rw [scopeChainFrom, scopeChainFrom, h]
    cases (t.scope s).parent with
    | none => rfl
    | some parent => exact congrArg (s :: ·) (ih parent)

theorem programScope_congr (h : ∀ c, (t'.scope c).parent = (t.scope c).parent) (s : ScopeId) :
    t'.programScope s = t.programScope s :=
  congrArg (fun chain => (List.getLast? chain).getD s) (scopeChainFrom_congr h Limits.chain s)

/-! ## the invariant -/

/-- The scope of a line, that of its nearest block, is `o`. -/
def Holds (t : Tree) (line : List NodeId) (o : Option ScopeId) : Prop :=
  o.map (fun s => (t.scope s).block) = (t.arena.blocks line).head?
    ∧ ∀ s, o = some s → s.index < t.scopes.size

/-- The scopes of a tree agree with its nodes, and all of them are in use and were crawled. -/
structure Scoped (t : Tree) (r : NodeId) : Prop where
  coherent : t.Coherent r
  on : t.options.noScope = false
  listed : ∀ i s, t.scopeOfNode.get? i = some s →
    s.index < t.scopes.size ∧ (t.scope s).block.index = i
  found : ∀ s, s.index < t.scopes.size → t.scopeOfNode.get? (t.scope s).block.index = some s
  stands : ∀ s, s.index < t.scopes.size → ∃ above,
    t.Place r (t.scope s).path (t.scope s).block above
      ∧ t.arena.isScope (some (t.scope s).block) above.head?
      ∧ above.length ≤ Limits.traversal + 2 ∧ t.Holds above (t.scope s).parent
  parent : ∀ s s', s.index < t.scopes.size → (t.scope s).parent = some s' → s'.index < s.index
  settled : ∀ s, s.index < t.scopes.size →
    (t.scope s).crawled = true ∧ (t.scope s).detached = false
  path : ∀ p line s, t.OnLine r p line → (t.path p).scope = some s → t.Holds line (some s)

/-- The table of a scope has an entry for the name. -/
def Lists (t : Tree) (s : ScopeId) (name : String) : Prop :=
  ((t.scope s).bindings.get? name).isSome

/-- The name is known to occur in the program, whose scope was made first. -/
def Occurs (t : Tree) (name : String) : Prop := name ∈ (t.scope ⟨0⟩).references

/-- The bindings are still there, and those that do not count as written are declared as before. -/
def KeepsRecords (t t' : Tree) : Prop := ∀ b record, t.binding? b = some record →
  ∃ record', t'.binding? b = some record' ∧ record.Precedes record'

@[refl] theorem KeepsRecords.refl (t : Tree) : t.KeepsRecords t :=
  fun _ record h => ⟨record, h, .refl record⟩

theorem KeepsRecords.trans (h : t.KeepsRecords t') (h' : t'.KeepsRecords t'') :
    t.KeepsRecords t'' := by
  intro b record hr
  obtain ⟨record', hr', hle⟩ := h b record hr
  obtain ⟨record'', hr'', hle'⟩ := h' b record' hr'
  exact ⟨record'', hr'', hle.trans hle'⟩

theorem keepsRecords_of_eq (h : t'.bindings = t.bindings) : t.KeepsRecords t' := by
  intro b record hr
  refine ⟨record, ?_, .refl record⟩
  unfold binding?
  rw [h]
  exact hr

/-- More paths and scopes are known, and the old ones are what they were; names may have come. -/
structure Adds (t t' : Tree) : Prop where
  grows : t.Grows t'
  size : t.scopes.size ≤ t'.scopes.size
  static : ∀ s, s.index < t.scopes.size → (t'.scope s).static = (t.scope s).static
  scopeOfNode : ∀ i s, t.scopeOfNode.get? i = some s → t'.scopeOfNode.get? i = some s
  scope : ∀ p s, (t.path p).scope = some s → (t'.path p).scope = some s
  lists : ∀ s name, t.Lists s name → t'.Lists s name
  occurs : ∀ name, t.Occurs name → t'.Occurs name
  records : t.KeepsRecords t'

/-- More paths and scopes are known, and the passes under way are what they were. -/
structure Advances (t t' : Tree) : Prop extends t.Adds t' where
  control : t.SameControl t'

/-- No scope has come, and none changed its place; paths and names may have come. -/
structure KeepsScopes (t t' : Tree) : Prop where
  grows : t.Grows t'
  size : t'.scopes.size = t.scopes.size
  scopeOfNode : t'.scopeOfNode = t.scopeOfNode
  static : ∀ s, (t'.scope s).static = (t.scope s).static
  scope : ∀ p, (t'.path p).scope = (t.path p).scope
  lists : ∀ s name, t.Lists s name → t'.Lists s name
  occurs : ∀ name, t.Occurs name → t'.Occurs name
  records : t.KeepsRecords t'

/-- The scopes are the same, and so are the passes under way. -/
structure SameScopes (t t' : Tree) : Prop extends t.KeepsScopes t' where
  control : t.SameControl t'

@[refl] theorem Adds.refl (t : Tree) : t.Adds t :=
  ⟨.refl t, Nat.le_refl _, fun _ _ => rfl, fun _ _ h => h, fun _ _ h => h, fun _ _ h => h,
    fun _ h => h, .refl t⟩

theorem Adds.trans (h : t.Adds t') (h' : t'.Adds t'') : t.Adds t'' where
  grows := h.grows.trans h'.grows
  size := h.size.trans h'.size
  static s hs := (h'.static s (hs.trans_le h.size)).trans (h.static s hs)
  scopeOfNode i s hs := h'.scopeOfNode i s (h.scopeOfNode i s hs)
  scope p s hs := h'.scope p s (h.scope p s hs)
  lists s name hs := h'.lists s name (h.lists s name hs)
  occurs name hn := h'.occurs name (h.occurs name hn)
  records := h.records.trans h'.records

@[refl] theorem Advances.refl (t : Tree) : t.Advances t := ⟨.refl t, .refl t⟩

theorem Advances.trans (h : t.Advances t') (h' : t'.Advances t'') : t.Advances t'' :=
  ⟨h.toAdds.trans h'.toAdds, h.control.trans h'.control⟩

@[refl] theorem KeepsScopes.refl (t : Tree) : t.KeepsScopes t :=
  ⟨.refl t, rfl, rfl, fun _ => rfl, fun _ => rfl, fun _ _ h => h, fun _ h => h, .refl t⟩

theorem KeepsScopes.trans (h : t.KeepsScopes t') (h' : t'.KeepsScopes t'') : t.KeepsScopes t'' where
  grows := h.grows.trans h'.grows
  size := h'.size.trans h.size
  scopeOfNode := h'.scopeOfNode.trans h.scopeOfNode
  static s := (h'.static s).trans (h.static s)
  scope p := (h'.scope p).trans (h.scope p)
  lists s name hs := h'.lists s name (h.lists s name hs)
  occurs name hn := h'.occurs name (h.occurs name hn)
  records := h.records.trans h'.records

@[refl] theorem SameScopes.refl (t : Tree) : t.SameScopes t := ⟨.refl t, .refl t⟩

theorem SameScopes.trans (h : t.SameScopes t') (h' : t'.SameScopes t'') : t.SameScopes t'' :=
  ⟨h.toKeepsScopes.trans h'.toKeepsScopes, h.control.trans h'.control⟩

theorem keepsScopes_of_sameNames (hg : t.Grows t') (h : t.SameNames t') : t.KeepsScopes t' where
  grows := hg
  size := congrArg Array.size h.scopes
  scopeOfNode := h.scopeOfNode
  static s := by
    unfold Tree.scope
    rw [h.scopes]
  scope := h.scope
  lists s name hs := by
    unfold Lists Tree.scope
    rwa [h.scopes]
  occurs name hn := by
    unfold Occurs Tree.scope
    rwa [h.scopes]
  records := keepsRecords_of_eq h.bindings

theorem KeepsScopes.adds (h : t.KeepsScopes t') : t.Adds t' where
  grows := h.grows
  size := h.size.ge
  static s _ := h.static s
  scopeOfNode i s hs := by
    rw [h.scopeOfNode]
    exact hs
  scope p s hs := (h.scope p).trans hs
  lists := h.lists
  occurs := h.occurs
  records := h.records

theorem SameScopes.advances (h : t.SameScopes t') : t.Advances t' :=
  ⟨h.toKeepsScopes.adds, h.control⟩

theorem Extends.sameScopes (h : t.Extends t' r) : t.SameScopes t' :=
  ⟨keepsScopes_of_sameNames h.grows h.names, h.control⟩

theorem sameScopes_of_names {scopes : Array ScopeData} {bindings : Array (Option Binding)}
    (hsize : scopes.size = t.scopes.size)
    (hstatic : ∀ s, (({ t with scopes, bindings } : Tree).scope s).static = (t.scope s).static)
    (hlists : ∀ s name, t.Lists s name → ({ t with scopes, bindings } : Tree).Lists s name)
    (hoccurs : ∀ name, t.Occurs name → ({ t with scopes, bindings } : Tree).Occurs name)
    (hrecords : t.KeepsRecords { t with scopes, bindings }) :
    t.SameScopes { t with scopes, bindings } where
  grows := ⟨rfl, rfl, rfl, fun _ h => h, Nat.le_refl _, fun _ _ => rfl, fun _ _ => rfl,
    fun _ _ => rfl⟩
  size := hsize
  scopeOfNode := rfl
  static := hstatic
  scope _ := rfl
  lists := hlists
  occurs := hoccurs
  records := hrecords
  control := ⟨rfl, rfl, rfl, fun _ => rfl⟩

theorem coherent_of_names (ht : t.Coherent r) (scopes : Array ScopeData)
    (bindings : Array (Option Binding)) : ({ t with scopes, bindings } : Tree).Coherent r :=
  SamePlaces.coherent (t := t) ⟨rfl, rfl, rfl, rfl, rfl, rfl, fun _ => rfl⟩ ht

theorem sameScopes_updateScope (t : Tree) (s : ScopeId) (f : ScopeData → ScopeData)
    (hf : ∀ d, (f d).static = d.static)
    (hlists : ∀ name, t.Lists s name → ((f (t.scope s)).bindings.get? name).isSome)
    (hrefs : (t.scope s).references ⊆ (f (t.scope s)).references) :
    t.SameScopes (t.updateScope s f) := by
  refine sameScopes_of_names (t.size_scopes_updateScope s f)
    (fun c => t.scope_updateScope_congr s c f ScopeData.static hf) (fun c name hc => ?_)
    (fun name hn => ?_) (keepsRecords_of_eq rfl)
  · show (((t.updateScope s f).scope c).bindings.get? name).isSome
    rw [scope_updateScope]
    split
    · next h => exact hlists name (h.1 ▸ hc)
    · exact hc
  · show name ∈ ((t.updateScope s f).scope ⟨0⟩).references
    rw [scope_updateScope]
    split
    · next h => exact hrefs (h.1 ▸ hn)
    · exact hn

theorem sameScopes_updateScope_of_bindings (t : Tree) (s : ScopeId) (f : ScopeData → ScopeData)
    (hf : ∀ d, (f d).static = d.static) (hb : ∀ d, (f d).bindings = d.bindings)
    (hrefs : ∀ d, d.references ⊆ (f d).references) : t.SameScopes (t.updateScope s f) := by
  refine t.sameScopes_updateScope s f hf (fun name h => ?_) (hrefs _)
  rw [hb]
  exact h

theorem lt_of_binding? {b : BindingId} {record : Binding} (h : t.binding? b = some record) :
    b.index < t.bindings.size := by
  by_contra hge
  unfold binding? at h
  rw [Array.getElem?_eq_none (Nat.le_of_not_lt hge)] at h
  cases h

theorem binding?_updateBinding (t : Tree) (b c : BindingId) (f : Binding → Binding) :
    (t.updateBinding b f).binding? c
      = if c = b then (t.binding? b).map f else t.binding? c := by
  show (t.bindings.modify b.index _)[c.index]?.join = _
  rw [Array.getElem?_modify]
  by_cases h : c = b
  · subst h
    rw [if_pos rfl, if_pos rfl]
    unfold binding?
    cases t.bindings[c.index]? with
    | none => rfl
    | some x => cases x <;> rfl
  · have hi : b.index ≠ c.index := fun hi => h (by cases b; cases c; simp_all)
    rw [if_neg hi, if_neg h]
    rfl

theorem grows_updateBinding (t : Tree) (b : BindingId) (f : Binding → Binding) :
    t.Grows (t.updateBinding b f) :=
  ⟨rfl, rfl, rfl, fun _ h => h, Nat.le_refl _, fun _ _ => rfl, fun _ _ => rfl, fun _ _ => rfl⟩

theorem sameScopes_updateBinding (t : Tree) (b : BindingId) (f : Binding → Binding)
    (hf : ∀ record, t.binding? b = some record → record.Precedes (f record)) :
    t.SameScopes (t.updateBinding b f) := by
  refine sameScopes_of_names rfl (fun _ => rfl) (fun _ _ h => h) (fun _ h => h)
    fun c record hr => ?_
  change ∃ record', (t.updateBinding b f).binding? c = some record' ∧ record.Precedes record'
  rw [binding?_updateBinding]
  by_cases hc : c = b
  · rw [hc] at hr
    rw [if_pos hc, hr]
    exact ⟨f record, rfl, hf record hr⟩
  · rw [if_neg hc]
    exact ⟨record, hr, .refl record⟩

/-! ## what holds on -/

theorem block_of_static {d d' : ScopeData} (h : d'.static = d.static) : d'.block = d.block :=
  congrArg (·.1) h

theorem parent_of_static {d d' : ScopeData} (h : d'.static = d.static) : d'.parent = d.parent :=
  congrArg (·.2.2.1) h

theorem Scoped.scopeChainFrom_of_static (ht : t.Scoped r)
    (h : ∀ s, s.index < t.scopes.size → (t'.scope s).static = (t.scope s).static) :
    ∀ (fuel : Nat) (s : ScopeId), s.index < t.scopes.size →
      t'.scopeChainFrom fuel s = t.scopeChainFrom fuel s
        ∧ ∀ c ∈ t.scopeChainFrom fuel s, c.index < t.scopes.size
  | 0, s, hs => ⟨rfl, by simpa [Tree.scopeChainFrom] using hs⟩
  | fuel + 1, s, hs => by
    unfold Tree.scopeChainFrom
    rw [parent_of_static (h s hs)]
    cases hp : (t.scope s).parent with
    | none => exact ⟨rfl, by simpa using hs⟩
    | some s' =>
      have hs' : s'.index < t.scopes.size := (ht.parent s s' hs hp).trans hs
      obtain ⟨ih, hmem⟩ := ht.scopeChainFrom_of_static h fuel s' hs'
      exact ⟨congrArg (s :: ·) ih, by simpa using ⟨hs, hmem⟩⟩

theorem Advances.block (h : t.Advances t') (hs : s.index < t.scopes.size) :
    (t'.scope s).block = (t.scope s).block := block_of_static (h.static s hs)

theorem Holds.mono (h : t.Holds line o) (harena : t'.arena = t.arena)
    (hsize : t.scopes.size ≤ t'.scopes.size)
    (hstatic : ∀ s, s.index < t.scopes.size → (t'.scope s).static = (t.scope s).static) :
    t'.Holds line o := by
  refine ⟨?_, fun s hs => (h.2 s hs).trans_le hsize⟩
  rw [harena, ← h.1]
  cases o with
  | none => rfl
  | some s => exact congrArg some (block_of_static (hstatic s (h.2 s rfl)))

theorem Holds.advances (h : t.Holds line o) (ha : t.Advances t') : t'.Holds line o :=
  h.mono ha.grows.arena ha.size ha.static

theorem Holds.keeps (h : t.Holds line o) (ha : t.KeepsScopes t') : t'.Holds line o :=
  h.mono ha.grows.arena ha.size.ge fun s _ => ha.static s

theorem Holds.eq_none (h : t.Holds line none) : t.arena.blocks line = [] := by
  have h1 := h.1
  cases hb : t.arena.blocks line with
  | nil => rfl
  | cons b bs => simp [hb] at h1

theorem Scoped.keeps (ht : t.Scoped r) (h : t.KeepsScopes t') (hc : t'.Coherent r) :
    t'.Scoped r where
  coherent := hc
  on := by
    rw [h.grows.options]
    exact ht.on
  listed i s hs := by
    rw [h.scopeOfNode] at hs
    rw [h.size, block_of_static (h.static s)]
    exact ht.listed i s hs
  found s hs := by
    rw [h.size] at hs
    rw [h.scopeOfNode, block_of_static (h.static s)]
    exact ht.found s hs
  stands s hs := by
    rw [h.size] at hs
    obtain ⟨above, hp, hscope, hlen, hpar⟩ := ht.stands s hs
    have hpath : (t'.scope s).path = (t.scope s).path := congrArg (·.2.1) (h.static s)
    rw [hpath, block_of_static (h.static s), parent_of_static (h.static s), h.grows.arena]
    exact ⟨above, hp.grows h.grows, hscope, hlen, hpar.keeps h⟩
  parent s s' hs := by
    rw [h.size] at hs
    rw [parent_of_static (h.static s)]
    exact ht.parent s s' hs
  settled s hs := by
    rw [h.size] at hs
    have hcr : (t'.scope s).crawled = (t.scope s).crawled := congrArg (·.2.2.2.1) (h.static s)
    have hd : (t'.scope s).detached = (t.scope s).detached := congrArg (·.2.2.2.2) (h.static s)
    rw [hcr, hd]
    exact ht.settled s hs
  path p line s hp hs := by
    rw [h.scope] at hs
    by_cases hlt : p.index < t.paths.size
    · obtain ⟨line', hp'⟩ := ht.coherent.exists_line hlt
      obtain rfl := hp.unique hc (hp'.grows h.grows)
      exact (ht.path p line s hp' hs).keeps h
    · rw [path_of_size_le (Nat.le_of_not_lt hlt)] at hs
      cases hs

theorem Scoped.eq_of_block (ht : t.Scoped r) (hs : s.index < t.scopes.size)
    (hc : c.index < t.scopes.size) (h : (t.scope s).block = (t.scope c).block) : s = c := by
  have h1 := ht.found s hs
  rw [h, ht.found c hc] at h1
  exact (Option.some.inj h1).symm

theorem Scoped.holds_unique (ht : t.Scoped r) {o' : Option ScopeId} (h : t.Holds line o)
    (h' : t.Holds line o') : o = o' := by
  have heq := h.1.trans h'.1.symm
  cases o with
  | none => cases o' with
    | none => rfl
    | some s => simp at heq
  | some s => cases o' with
    | none => simp at heq
    | some c => rw [ht.eq_of_block (h.2 s rfl) (h'.2 c rfl) (Option.some.inj heq)]

theorem Scoped.liveScope? (ht : t.Scoped r) (hp : t.OnLine r p line) :
    t.liveScope? p = (t.path p).scope := by
  unfold Tree.liveScope?
  cases hs : (t.path p).scope with
  | none => rfl
  | some s =>
    have hlt := (ht.path p line s hp hs).2 s rfl
    simp [(ht.settled s hlt).2]

/-! ## the chain of a scope -/

theorem Scoped.stands_of_holds (ht : t.Scoped r) {n : NodeId} (hu : t.arena.Under r n above)
    (h : t.Holds (n :: above) (some s)) :
    ∃ above', t.arena.Under r (t.scope s).block above'
      ∧ t.arena.blocks (n :: above) = (t.scope s).block :: t.arena.blocks above'
      ∧ t.Holds above' (t.scope s).parent ∧ above'.length ≤ Limits.traversal + 2 := by
  obtain ⟨below, above', hline, _, heq⟩ := blocks_head h.1.symm
  obtain ⟨above'', hp, _, hlen, hpar⟩ := ht.stands s (h.2 s rfl)
  have hu' := hu.drop hline
  obtain rfl := hp.under.unique ht.coherent.arena.owned hu'
  exact ⟨_, hu', heq, hpar, hlen⟩

theorem Scoped.chainFrom (ht : t.Scoped r) : ∀ (fuel : Nat) (s : ScopeId) (n : NodeId)
    (above : List NodeId), t.arena.Under r n above → t.Holds (n :: above) (some s) →
    (t.arena.blocks (n :: above)).length ≤ fuel + 1 →
    (t.scopeChainFrom fuel s).map (fun c => (t.scope c).block) = t.arena.blocks (n :: above)
      ∧ ∀ c ∈ t.scopeChainFrom fuel s, c.index < t.scopes.size
  | fuel, s, n, above, hu, hs, hlen => by
    obtain ⟨above', hu', heq, hpar, _⟩ := ht.stands_of_holds hu hs
    have hlt := hs.2 s rfl
    cases hq : (t.scope s).parent with
    | none =>
      rw [hq] at hpar
      have hsingle : t.scopeChainFrom fuel s = [s] := by
        cases fuel with
        | zero => rfl
        | succ fuel => rw [scopeChainFrom, hq]
      rw [hsingle, heq, hpar.eq_none]
      exact ⟨rfl, by simpa using hlt⟩
    | some s' =>
      rw [hq] at hpar
      cases above' with
      | nil => simp [Holds, blocks] at hpar
      | cons m above' =>
        obtain ⟨below, above'', hline, _, heq'⟩ := blocks_head hpar.1.symm
        rw [heq] at hlen
        cases fuel with
        | zero => simp [heq'] at hlen
        | succ fuel =>
          obtain ⟨hm, _⟩ := under_cons.1 hu'
          obtain ⟨ih, hmem⟩ := ht.chainFrom fuel s' m above' hm hpar (by simpa using hlen)
          rw [scopeChainFrom, hq, List.map_cons, ih, heq]
          exact ⟨rfl, by simpa using ⟨hlt, hmem⟩⟩

theorem length_blocks_le (a : Arena) (line : List NodeId) :
    (a.blocks line).length ≤ line.length := by
  induction line with
  | nil => simp [blocks]
  | cons n above ih =>
    rw [blocks]
    split
    · simpa using ih
    · exact ih.trans (Nat.le_succ _)

theorem Scoped.length_blocks (ht : t.Scoped r) (hu : t.arena.Under r n above)
    (hs : t.Holds (n :: above) (some s)) :
    (t.arena.blocks (n :: above)).length ≤ Limits.chain + 1 := by
  obtain ⟨above', _, heq, _, hlen⟩ := ht.stands_of_holds hu hs
  have hle := length_blocks_le t.arena above'
  rw [heq, List.length_cons]
  have hlimit : Limits.traversal + 2 ≤ Limits.chain := by decide
  omega

/-- **The chain of a scope lists the scopes of the blocks of its line.** -/
theorem Scoped.map_block_scopeChain (ht : t.Scoped r) (hu : t.arena.Under r n above)
    (hs : t.Holds (n :: above) (some s)) :
    (t.scopeChain s).map (fun c => (t.scope c).block) = t.arena.blocks (n :: above) :=
  (ht.chainFrom Limits.chain s n above hu hs (ht.length_blocks hu hs)).1

theorem Scoped.lt_of_mem_chain (ht : t.Scoped r) (hu : t.arena.Under r n above)
    (hs : t.Holds (n :: above) (some s)) (hc : c ∈ t.scopeChain s) : c.index < t.scopes.size :=
  (ht.chainFrom Limits.chain s n above hu hs (ht.length_blocks hu hs)).2 c hc

theorem scopeChain_ne_nil (t : Tree) (s : ScopeId) : t.scopeChain s ≠ [] := by
  show t.scopeChainFrom (Limits.chain - 1 + 1) s ≠ []
  rw [scopeChainFrom]
  split <;> simp

theorem Scoped.chain_home (ht : t.Scoped r) (hu : t.arena.Under r n above)
    (hs : t.Holds (n :: above) (some s)) (test : NodeType → Bool) :
    let c := ((t.scopeChain s).find? fun c => (t.blockType? c).any test).getD (t.programScope s)
    t.arena.home test (n :: above) = some (t.scope c).block ∧ c ∈ t.scopeChain s := by
  intro c
  unfold home
  rw [← ht.map_block_scopeChain hu hs, List.find?_map, List.getLast?_map]
  cases hf : (t.scopeChain s).find? fun c => (t.blockType? c).any test with
  | some c' =>
    have hc : c = c' := by simp [c, hf]
    have hf' : (t.scopeChain s).find? ((fun b => (t.arena.type? (some b)).any test)
        ∘ fun c => (t.scope c).block) = some c' := hf
    rw [hf', hc]
    exact ⟨rfl, List.mem_of_find?_eq_some hf⟩
  | none =>
    have hf' : (t.scopeChain s).find? ((fun b => (t.arena.type? (some b)).any test)
        ∘ fun c => (t.scope c).block) = none := hf
    have hlast := List.getLast?_eq_some_getLast (t.scopeChain_ne_nil s)
    have hc : c = (t.scopeChain s).getLast (t.scopeChain_ne_nil s) := by
      simp [c, hf, programScope, hlast]
    rw [hf', hc, hlast]
    exact ⟨rfl, List.getLast_mem _⟩

theorem Scoped.functionScope (ht : t.Scoped r) (hu : t.arena.Under r n above)
    (hs : t.Holds (n :: above) (some s)) :
    t.arena.functionHome (n :: above) = some (t.scope (t.functionScope s)).block
      ∧ (t.functionScope s).index < t.scopes.size :=
  have h := ht.chain_home hu hs (·.isA .functionParent)
  ⟨h.1, ht.lt_of_mem_chain hu hs h.2⟩

theorem Scoped.blockScope (ht : t.Scoped r) (hu : t.arena.Under r n above)
    (hs : t.Holds (n :: above) (some s)) :
    t.arena.blockHome (n :: above) = some (t.scope (t.blockScope s)).block
      ∧ (t.blockScope s).index < t.scopes.size :=
  have h := ht.chain_home hu hs fun ty => ty.isA .blockParent || ty == .catchClause
  ⟨h.1, ht.lt_of_mem_chain hu hs h.2⟩

/-! ## the program -/

theorem getLast_blocks {a : Arena} (hu : a.Under r n above) (hr : a.isScope (some r) none) :
    (a.blocks (n :: above)).getLast? = some r := by
  induction hu with
  | root =>
    rw [blocks_cons_of_scope (by simpa using hr)]
    rfl
  | @child p c above hp hc ih =>
    rw [blocks]
    split
    · rw [List.getLast?_cons, ih]
      rfl
    · exact ih

theorem Scoped.programScope (ht : t.Scoped r) (hr : t.arena.isScope (some r) none)
    (hs : s.index < t.scopes.size) :
    (t.scope (t.programScope s)).block = r ∧ (t.programScope s).index < t.scopes.size := by
  obtain ⟨above, hp, hscope, _, _⟩ := ht.stands s hs
  have hh : t.Holds ((t.scope s).block :: above) (some s) := by
    refine ⟨?_, fun c hc => ?_⟩
    · rw [blocks_cons_of_scope hscope]
      rfl
    · obtain rfl := Option.some.inj hc
      exact hs
  have hlast := getLast_blocks hp.under hr
  rw [← ht.map_block_scopeChain hp.under hh, List.getLast?_map] at hlast
  obtain ⟨c, hc, hblock⟩ := Option.map_eq_some_iff.1 hlast
  have heq : t.programScope s = c := by
    unfold Tree.programScope
    rw [hc]
    rfl
  rw [heq]
  exact ⟨hblock, ht.lt_of_mem_chain hp.under hh (List.mem_of_getLast? hc)⟩

/-- All scopes are inside one. -/
theorem Scoped.programScope_eq (ht : t.Scoped r) (hr : t.arena.isScope (some r) none)
    (hs : s.index < t.scopes.size) (hc : c.index < t.scopes.size) :
    t.programScope s = t.programScope c := by
  obtain ⟨hbs, hls⟩ := ht.programScope hr hs
  obtain ⟨hbc, hlc⟩ := ht.programScope hr hc
  exact ht.eq_of_block hls hlc (hbs.trans hbc.symm)

theorem Scoped.programScope_eq_zero (ht : t.Scoped r) (hr : t.arena.isScope (some r) none)
    (hs : s.index < t.scopes.size) : t.programScope s = ⟨0⟩ := by
  have hzero : (⟨0⟩ : ScopeId).index < t.scopes.size := (Nat.zero_le _).trans_lt hs
  obtain ⟨above, hp, _, _, hpar⟩ := ht.stands ⟨0⟩ hzero
  have hnone : (t.scope ⟨0⟩).parent = none := by
    cases hq : (t.scope ⟨0⟩).parent with
    | none => rfl
    | some c => exact absurd (ht.parent ⟨0⟩ c hzero hq) (Nat.not_lt_zero _)
  rw [hnone] at hpar
  have hblock : (t.scope ⟨0⟩).block = r := by
    cases above with
    | nil => exact (under_nil.1 hp.under)
    | cons m above =>
      have hlast := getLast_blocks (under_cons.1 hp.under).1 hr
      rw [hpar.eq_none] at hlast
      cases hlast
  obtain ⟨hb, hlt⟩ := ht.programScope hr hs
  exact ht.eq_of_block hlt hzero (hb.trans hblock.symm)

/-! ## runs -/

section Goes

variable {α β : Type} {P : Tree → Prop} {E : TreeError → Prop} {Q Q' : α → Tree → Prop}
  {R : β → Tree → Prop}

/-- A run keeps `P` and ends in a later tree with `Q`, or fails with an error in `E`. -/
def Goes (P : Tree → Prop) (E : TreeError → Prop) (x : TreeM α) (t : Tree)
    (Q : α → Tree → Prop) : Prop :=
  Ends (x t) (fun y t' => P t' ∧ t.Advances t' ∧ Q y t') fun e _ => E e

theorem Goes.bind {x : TreeM α} {f : α → TreeM β} (hx : Goes P E x t Q)
    (hf : ∀ y t', P t' → t.Advances t' → Q y t' → Goes P E (f y) t' R) :
    Goes P E (x >>= f) t R := by
  refine ends_bind.2 (Ends.mono hx fun y t' ⟨hP, ha, hQ⟩ => ?_)
  exact (hf y t' hP ha hQ).mono fun z t'' ⟨hP', ha', hR⟩ => ⟨hP', ha.trans ha', hR⟩

theorem Goes.mono {x : TreeM α} (hx : Goes P E x t Q)
    (hQ : ∀ y t', P t' → t.Advances t' → Q y t' → Q' y t') : Goes P E x t Q' :=
  Ends.mono hx fun y t' ⟨hP, ha, h⟩ => ⟨hP, ha, hQ y t' hP ha h⟩

theorem goes_pure {y : α} (hP : P t) (hQ : Q y t) : Goes P E (pure y) t Q :=
  ⟨hP, .refl t, hQ⟩

theorem goes_throw {e : TreeError} (he : E e) : Goes P E (throw e) t Q := he

theorem goes_get {f : Tree → TreeM α} (h : Goes P E (f t) t Q) : Goes P E (get >>= f) t Q := h

theorem goes_modify {f : Tree → Tree} {Q : PUnit → Tree → Prop} (hP : P (f t))
    (ha : t.Advances (f t)) (hQ : Q ⟨⟩ (f t)) : Goes P E (modify f) t Q := ⟨hP, ha, hQ⟩

theorem Goes.guard {c : Prop} [Decidable c] {x : TreeM PUnit} {next : PUnit → TreeM α}
    {S : Tree → Prop} (hP : P t) (hx : c → Goes P E x t fun _ t' => S t')
    (hnext : ∀ t', P t' → t.Advances t' → (c → S t') → Goes P E (next ⟨⟩) t' Q) :
    Goes P E (if c then x >>= next else next ⟨⟩) t Q := by
  split
  · next hc => exact (hx hc).bind fun _ t' hP' ha hS => hnext t' hP' ha fun _ => hS
  · next hc => exact hnext t hP (.refl t) fun h => absurd h hc

theorem Goes.forM_each {f : α → TreeM PUnit} {S : α → Tree → Prop}
    (hS : ∀ x t t', S x t → t.Advances t' → S x t') (l : List α) (t : Tree) (hP : P t)
    (hf : ∀ x ∈ l, ∀ t', P t' → t.Advances t' → Goes P E (f x) t' fun _ t'' => S x t'') :
    Goes P E (l.forM f) t fun _ t' => ∀ x ∈ l, S x t' := by
  induction l generalizing t with
  | nil => exact goes_pure hP (by simp)
  | cons x l ih =>
    rw [List.forM]
    refine (hf x (List.mem_cons_self ..) t hP (.refl t)).bind fun _ t' hP' ha hx => ?_
    refine (ih t' hP' fun y hy t'' hP'' ha' =>
      hf y (List.mem_cons_of_mem _ hy) t'' hP'' (ha.trans ha')).mono fun _ t'' _ ha' hl y hy => ?_
    rcases List.mem_cons.1 hy with rfl | hy
    · exact hS y t' t'' hx ha'
    · exact hl y hy

theorem Goes.forM {f : α → TreeM PUnit} (l : List α) (t : Tree) (hP : P t)
    (hf : ∀ x ∈ l, ∀ t', P t' → t.Advances t' → Goes P E (f x) t' fun _ _ => True) :
    Goes P E (l.forM f) t fun _ _ => True :=
  (Goes.forM_each (fun _ _ _ h _ => h) l t hP hf).mono fun _ _ _ _ _ => trivial

end Goes

end Tree

end ScopedTree
