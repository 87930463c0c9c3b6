import ScopedTree.Proofs.Edit.Consistent
import ScopedTree.Proofs.Edit.Tabled

/-!
# No binding is lost

To rename a binding and to move it both write an entry, and neither looks at what the entry leads
to: a binding that was listed there is lost, though it is still alive. Where that does not happen,
tables and records agree after whatever is done to a tree.

* `Tree.Rehomed`              a binding comes to belong elsewhere;
* `Tree.Tabled.rehomed`       which keeps tables and records in agreement if nothing is listed
  there;
* `Tree.renameUses`, `Tree.Tabled.rename`, `Tree.Tabled.moveBinding`   renaming and moving bindings;
* `Action.Spares`, `Action.AllSpare`   actions that take no binding's place;
* `Action.tabled`             one action;
* `Tree.ownBinding?_runActions`   any sequence of them;
* `Tree.lost_moveOutAndBack`  a binding that is lost.
-/

namespace ScopedTree

open ScopedTree.Tree

namespace Tree

variable {sure : Prop} {t₀ t t' : Tree} {s : ScopeId} {id : BindingId} {b : Binding} {name : String}
  {old new : ScopeId × String}

/-- No other binding is listed at a home. -/
def Spare (t : Tree) (home : ScopeId × String) (id : BindingId) : Prop :=
  ∀ c ∈ t.ownBinding? home.1 home.2, c = id

instance (t : Tree) (home : ScopeId × String) (id : BindingId) : Decidable (t.Spare home id) :=
  inferInstanceAs (Decidable (∀ c ∈ t.ownBinding? home.1 home.2, c = id))

theorem ownBinding?_of_tenant? {home : ScopeId × String} (h : t.tenant? home = some id)
    (hb : t.binding? id = some b) : t.ownBinding? home.1 home.2 = some id :=
  Option.filter_eq_some_iff.2 ⟨h, Option.isSome_of_eq_some hb⟩

theorem tenant?_of_ownBinding? {home : ScopeId × String}
    (h : t.ownBinding? home.1 home.2 = some id) :
    t.tenant? home = some id := (Option.filter_eq_some_iff.1 h).1

/-! ## a binding comes to belong elsewhere -/

/-- A binding belongs at `new` instead of `old`, and is listed there. -/
structure Rehomed (id : BindingId) (old new : ScopeId × String) (t t' : Tree) : Prop where
  size : t'.bindings.size = t.bindings.size
  scopes : t'.scopes.size = t.scopes.size
  detached : ∀ s, (t'.scope s).detached = (t.scope s).detached
  others : ∀ c, c ≠ id → t'.binding? c = t.binding? c
  moved : ∀ record', t'.binding? id = some record' → record'.home = new ∧
    ∃ record, t.binding? id = some record ∧ record.home = old
  tenant : ∀ home, t'.tenant? home = if home = new ∧ new.1.index < t.scopes.size then some id
    else if home = old ∧ t.tenant? old = some id then none else t.tenant? home

/-- **A binding may come to belong where no other one does.** -/
theorem Tabled.rehomed (h : t.Tabled sure) (hm : Rehomed id old new t t')
    (hid : id.index < t.bindings.size) (hscope : sure → ∀ record, t.binding? id = some record →
      new.1.index < t.scopes.size)
    (hspare : sure → t.Spare new id) : t'.Tabled sure where
  known home c hc := by
    rw [hm.size]
    rw [hm.tenant] at hc
    split at hc
    · cases hc
      exact hid
    · split at hc
      · cases hc
      · exact h.known home c hc
  listed home c record' hc hrecord' := by
    rw [hm.tenant] at hc
    split at hc
    · next hnew =>
      cases hc
      exact (hm.moved record' hrecord').1.trans hnew.1.symm
    · split at hc
      · cases hc
      · next hold =>
        by_cases hne : c = id
        · -- the binding was listed at its old home only
          obtain ⟨_, record, hrecord, hhome⟩ := hm.moved record' (hne ▸ hrecord')
          have heq := h.listed home c record hc (hne ▸ hrecord)
          rw [hhome] at heq
          exact absurd ⟨heq.symm, by rw [heq, hc, hne]⟩ hold
        · exact h.listed home c record' hc ((hm.others c hne).symm.trans hrecord')
  placed hsure c record' hrecord' := by
    rw [hm.scopes]
    by_cases hne : c = id
    · obtain ⟨hhome, record, hrecord, _⟩ := hm.moved record' (hne ▸ hrecord')
      rw [show record'.scope = new.1 from congrArg Prod.fst hhome]
      exact hscope hsure record hrecord
    · exact h.placed hsure c record' ((hm.others c hne).symm.trans hrecord')
  found hsure c record' hrecord' hlive := by
    rw [hm.detached] at hlive
    rw [hm.tenant]
    by_cases hne : c = id
    · obtain ⟨hhome, record, hrecord, _⟩ := hm.moved record' (hne ▸ hrecord')
      rw [if_pos ⟨hhome, hscope hsure record hrecord⟩, hne]
    · have hrecord := (hm.others c hne).symm.trans hrecord'
      have hfound := h.found hsure c record' hrecord hlive
      rw [if_neg, if_neg, hfound]
      · rintro ⟨heq, hid⟩
        rw [heq, hid] at hfound
        exact hne (Option.some.inj hfound).symm
      · rintro ⟨heq, _⟩
        rw [heq] at hfound
        exact hne (hspare hsure c (ownBinding?_of_tenant? hfound hrecord))

/-! ## renaming -/

theorem updateScope_updateScope (t : Tree) (s : ScopeId) (f g : ScopeData → ScopeData) :
    (t.updateScope s f).updateScope s g = t.updateScope s (g ∘ f) := by
  refine congrArg (fun scopes => { t with scopes }) (Array.ext_getElem? fun i => ?_)
  show ((t.scopes.modify s.index f).modify s.index g)[i]? = (t.scopes.modify s.index (g ∘ f))[i]?
  simp only [Array.getElem?_modify]
  split
  · exact Option.map_map ..
  · rfl

theorem tenant?_rebind (t : Tree) (s : ScopeId) (id : BindingId) (old new : String)
    (home : ScopeId × String) :
    (t.updateScope s fun d => { d with bindings :=
      (if d.bindings.get? old == some id
        then d.bindings.drop old else d.bindings).put new id }).tenant? home
      = if home = (s, new) ∧ s.index < t.scopes.size then some id
        else if home = (s, old) ∧ t.tenant? (s, old) = some id then none else t.tenant? home := by
  have htwice : (t.updateScope s fun d => { d with bindings :=
      (if d.bindings.get? old == some id then d.bindings.drop old else d.bindings).put new id })
      = (t.updateScope s fun d =>
          if d.bindings.get? old == some id then { d with bindings := d.bindings.drop old }
            else d).updateScope s
        fun d => { d with bindings := d.bindings.put new id } := by
    rw [updateScope_updateScope]
    congr 1
    funext d
    dsimp only [Function.comp]
    split <;> rfl
  rw [htwice, tenant?_put, tenant?_unlist, size_scopes_updateScope]

theorem Settles.rebind (h : Settles sure t₀ t) (hb : t₀.binding? id = some b)
    (hspare : sure → t.Spare (b.scope, name) id) :
    (final (Tree.rebind b.scope id b.name name t)).Tabled sure := by
  refine ((Settles.noteReference b.scope name) _ (Tabled.settles ?_)).toTabled
  refine h.rehomed ⟨Array.size_modify, size_scopes_updateScope .., t.detached_relisted b.scope _,
    fun c hc => ?_, fun record' hrecord' => ?_, t.tenant?_rebind b.scope id b.name name⟩
    ((lt_of_binding? hb).trans_le h.size) (fun hsure record hrecord => ?_) hspare
  · exact (binding?_updateBinding ..).trans (if_neg hc)
  · rw [binding?_updateBinding, if_pos rfl] at hrecord'
    obtain ⟨record, hrecord, rfl⟩ := Option.map_eq_some_iff.1 hrecord'
    have hhome := h.home id b record hb hrecord
    exact ⟨congrArg (·.1, name) hhome, record, hrecord, hhome⟩
  · rw [show b.scope = record.scope from (congrArg Prod.fst (h.home id b record hb hrecord)).symm]
    exact h.placed hsure id record hrecord

/-- The part of a renaming that comes before the binding gets its new name: the name is found, and
the uses get it. -/
def renameUses (s : ScopeId) (b : Binding) (old : String) (new : Option String) : TreeM String := do
  let name ← match new with
    | some name => pure name
    | none => generateUid s old
  respell b old name
  return name

theorem rename_of_bound {old : String}
    (hid : t.getBinding? s old = some id) (hb : t.binding? id = some b) (new : Option String) :
    Tree.rename s old new t = (renameUses s b old new >>= fun name => do
      Tree.rebind b.scope id old name
      return some name) t := by
  unfold Tree.rename renameUses
  rw [run_get_bind, hid]
  dsimp only [Option.bind_some]
  rw [hb]
  cases new <;> simp only [Option.map_some, bind_assoc, pure_bind]

theorem Tabled.seen (h : t.Tabled sure) (hid : t.getBinding? s name = some id)
    (hb : t.binding? id = some b) :
    b.name = name ∧ t.tenant? b.home = some id := by
  obtain ⟨c, _, hown⟩ := List.exists_of_findSome?_eq_some hid
  have htenant : t.tenant? (c, name) = some id := tenant?_of_ownBinding? hown
  have hhome := h.listed (c, name) id b htenant hb
  exact ⟨congrArg Prod.snd hhome, hhome ▸ htenant⟩

/-- When the binding gets its new name, no other one of that name is listed in its scope. -/
def SparesName (t : Tree) (s : ScopeId) (old : String) (new : Option String) : Prop :=
  ∀ id ∈ t.getBinding? s old, ∀ b ∈ t.binding? id,
    Ends (renameUses s b old new t) (fun name t₁ => t₁.Spare (b.scope, name) id) fun _ _ => True

instance (t : Tree) (s : ScopeId) (old : String) (new : Option String) :
    Decidable (t.SparesName s old new) :=
  inferInstanceAs (Decidable (∀ id ∈ t.getBinding? s old, ∀ b ∈ t.binding? id,
    Ends (renameUses s b old new t) (fun name t₁ => t₁.Spare (b.scope, name) id) fun _ _ => True))

/-- A renaming keeps tables and records in agreement, unless another binding has the new name. -/
theorem Tabled.rename (h : t.Tabled sure) (s : ScopeId) (old : String) (new : Option String)
    (hspares : sure → t.SparesName s old new) :
    (final (Tree.rename s old new t)).Tabled sure := by
  cases hlookup : (t.getBinding? s old).bind fun id => (t.binding? id).map (id, ·) with
  | none =>
    unfold Tree.rename
    rw [run_get_bind, hlookup]
    exact h
  | some x =>
    obtain ⟨id, hid, hx⟩ := Option.bind_eq_some_iff.1 hlookup
    obtain ⟨b, hb, rfl⟩ := Option.map_eq_some_iff.1 hx
    obtain rfl := (h.seen hid hb).1
    rw [rename_of_bound hid hb]
    have hsettles : Stays (Settles sure t) (renameUses s b b.name new) := by
      unfold renameUses
      have hrespell (name : String) : Leads (Settles sure t)
          (fun _ => Settles sure t) (respell b b.name name) :=
        Settles.endures.bears.respell () b b.name name
      cases new with
      | some name => exact (stays_pure name).bind fun name =>
        (hrespell name).stays.bind fun _ => stays_pure _
      | none =>
        exact (Settles.endures.edits.generateUid (m := 0) s b.name).bind fun name =>
          (hrespell name).stays.bind fun _ => stays_pure _
    refine ends_final.1
      (ends_bind.2 (((stays_iff.1 hsettles t h.settles).and (Ends.of_imp fun hsure =>
      hspares hsure id hid b hb)).imp ?_ fun _ _ hfailed => hfailed.1.toTabled))
    rintro name t₁ ⟨h₁, hspare⟩
    exact ends_bind.2 ((ends_final.2 (h₁.rebind hb hspare)).mono fun _ _ h₂ => h₂)

/-! ## moving -/

theorem rehomed_move (hb : t.binding? id = some b) (htenant : t.tenant? b.home = some id)
    (target : ScopeId) :
    Rehomed id b.home (target, b.name) t
      (((t.updateScope b.scope fun d => { d with bindings := d.bindings.drop b.name }).updateBinding
        id ({ · with scope := target })).updateScope target fun d =>
          { d with bindings := d.bindings.put b.name id }) := by
  let t₁ := t.updateScope b.scope fun d => { d with bindings := d.bindings.drop b.name }
  let t₂ := t₁.updateBinding id ({ · with scope := target })
  have hscopes : t₂.scopes.size = t.scopes.size := size_scopes_updateScope ..
  refine ⟨Array.size_modify, (size_scopes_updateScope ..).trans hscopes,
    fun s => (t₂.detached_relisted target _ s).trans (t.detached_relisted b.scope _ s),
    fun c hc => (t₁.binding?_updateBinding id c _).trans (if_neg hc), fun record' hrecord' => ?_,
    fun home => (t₂.tenant?_put target b.name id home).trans ?_⟩
  · have hrecord := (t₁.binding?_updateBinding id id _).symm.trans hrecord'
    rw [if_pos rfl, show t₁.binding? id = some b from hb] at hrecord
    cases hrecord
    exact ⟨rfl, b, hb, rfl⟩
  · rw [hscopes, htenant]
    refine if_congr Iff.rfl rfl ((t.tenant?_drop b.scope b.name home).trans ?_)
    exact if_congr ⟨fun heq => ⟨heq, rfl⟩, And.left⟩ rfl rfl

/-- There is a scope to move to, and it lists no other binding of the name. -/
def SparesPlace (t : Tree) (s : ScopeId) (name : String) (target : ScopeId) : Prop :=
  target.index < t.scopes.size ∧ ∀ id ∈ t.getBinding? s name, t.Spare (target, name) id

instance (t : Tree) (s : ScopeId) (name : String) (target : ScopeId) :
    Decidable (t.SparesPlace s name target) :=
  inferInstanceAs (Decidable (_ ∧ ∀ id ∈ t.getBinding? s name, t.Spare (target, name) id))

/-- A move keeps tables and records in agreement, unless another binding has the name there. -/
theorem Tabled.moveBinding (h : t.Tabled sure) (s : ScopeId) (name : String) (target : ScopeId)
    (hspares : sure → t.SparesPlace s name target) :
    (final (Tree.moveBinding s name target t)).Tabled sure := by
  unfold Tree.moveBinding
  refine ends_final.1 (ends_modify.2 ?_)
  split
  · exact h
  · next id hid =>
    split
    · exact h
    · next b hb =>
      obtain ⟨rfl, htenant⟩ := h.seen hid hb
      exact h.rehomed (rehomed_move hb htenant target) (lt_of_binding? hb)
        (fun hsure _ _ => (hspares hsure).1)
        fun hsure => (hspares hsure).2 id hid

end Tree

/-! ## actions -/

open ScopedTree.Tree

/-- The change takes no other binding's place: a renaming gives a name that the scope of the binding
lists no other one under, and a binding is moved to a scope that lists no other one of its name. -/
def Change.Spares (t : Tree) : Change → Prop
  | rename s old new => t.SparesName s old new
  | moveBinding s name target => t.SparesPlace s name target
  | _ => True

instance (t : Tree) : (c : Change) → Decidable (c.Spares t)
  | .rename s old new => inferInstanceAs (Decidable (t.SparesName s old new))
  | .moveBinding s name target => inferInstanceAs (Decidable (t.SparesPlace s name target))
  | .edit _ | .crawl _ | .generate _ _ | .declare _ _ _ _ _ | .declareNew _ _ | .removeBinding _ _
  | .removeOwnBinding _ _ | .traverse _ _ => isTrue trivial

namespace Action

def Spares (t : Tree) : Action → Prop
  | change c => c.Spares t
  | _ => True

instance (t : Tree) : (action : Action) → Decidable (action.Spares t)
  | change c => inferInstanceAs (Decidable (c.Spares t))
  | nodes _ | call _ | registerBinding _ _ _ | registerDeclaration _ _ | registerViolation _
    _ | evaluate _
  | binding _ _ => isTrue trivial

/-- None of the actions takes the place of a binding that is there when it is done. -/
def AllSpare : Tree → List Action → Prop
  | _, [] => True
  | t, action :: actions => action.Spares t ∧ AllSpare (final (action.run t)) actions

instance decidableAllSpare : (t : Tree) → (actions : List Action) → Decidable (AllSpare t actions)
  | _, [] => isTrue trivial
  | t, action :: actions =>
    have := decidableAllSpare (final (action.run t)) actions
    inferInstanceAs (Decidable (action.Spares t ∧ AllSpare (final (action.run t)) actions))

end Action

theorem BindingCall.home_apply (c : BindingCall) (b : Binding) : (c.apply b).home = b.home := by
  cases c with
  | reference p => exact Binding.Becomes.home (.referenced p)
  | dereference p => exact b.home_dereference p
  | reassign p => rfl
  | remember value => exact b.home_remember value
  | clearMemo => rfl
  | refuseMemo => rfl

/-- **Each action keeps tables and records in agreement**, whether it succeeds or fails, if it takes
no other binding's place. -/
theorem Action.tabled {sure : Prop} {t : Tree} (h : t.Tabled sure) (action : Action)
    (hspares : sure → action.Spares t) : (final (action.run t)).Tabled sure := by
  have hkept {x : TreeM Unit} (hx : Stays (Settles sure t) x) : (final (x t)).Tabled sure :=
    (hx t h.settles).toTabled
  cases action with
  | nodes a => exact hkept (stays_modify fun _ h => h.congr rfl rfl)
  | change c =>
    by_cases hc : c.Rehomes
    · cases c with
      | rename s old new =>
        show (final (discard (Tree.rename s old new) t)).Tabled sure
        rw [final_discard]
        exact h.rename s old new hspares
      | moveBinding s name target => exact h.moveBinding s name target hspares
      | _ => exact hc.elim
    · exact hkept (Settles.endures.change c fun h => absurd h hc)
  | call c => exact hkept (Settles.endures.call c)
  | registerBinding s kind p => exact hkept (Settles.crawls.registerBinding s kind p)
  | registerDeclaration s p => exact hkept (Settles.crawls.registerDeclaration s p)
  | registerViolation s p => exact hkept (Settles.crawls.registerViolation s p)
  | evaluate p => exact hkept (Settles.learns.evaluate p).discard
  | binding b c => exact hkept (stays_modify fun _ h => h.updateBinding b fun x _ => c.home_apply x)

namespace Tree

variable {sure : Prop} {t : Tree}

theorem Tabled.runActions (h : t.Tabled sure) (actions : List Action)
    (hspares : sure → Action.AllSpare t actions) : (t.runActions actions).Tabled sure := by
  induction actions generalizing t with
  | nil => exact h
  | cons action actions ih =>
    exact ih (action.tabled h fun hsure => (hspares hsure).1) fun hsure => (hspares hsure).2

/-- **No binding is lost.** After any actions, failed ones too, what is listed in the table of a
scope and still alive is a binding of that scope and name. If no renaming and no move took the place
of another binding, each binding that is alive and whose scope is in use is found in that scope
under its name. -/
theorem ownBinding?_runActions (a : Arena) (root : Option NodeId) (options : Options)
    (actions : List Action) :
    (∀ s name id b, (((ofArena a root options).runActions actions).scope s).bindings.get?
      name = some id → ((ofArena a root options).runActions actions).binding? id = some b →
      b.scope = s ∧ b.name = name)
    ∧ (Action.AllSpare (ofArena a root options) actions → ∀ id b,
      ((ofArena a root options).runActions actions).binding? id = some b →
      (((ofArena a root options).runActions actions).scope b.scope).detached = false →
      ((ofArena a root options).runActions actions).ownBinding? b.scope b.name = some id) := by
  constructor
  · intro s name id b hid hb
    have h := (tabled_ofArena False a root options).runActions actions False.elim
    have hhome := h.listed (s, name) id b hid hb
    exact ⟨congrArg Prod.fst hhome, congrArg Prod.snd hhome⟩
  · intro hspares id b hb hlive
    have h := (tabled_ofArena True a root options).runActions actions fun _ => hspares
    exact ownBinding?_of_tenant? (h.found trivial id b hb hlive) hb

def shadowedLet : Arena := Arena.runAll [
  .alloc .identifier [.str "x", .node none],
  .alloc .variableDeclarator [.node (some ⟨0⟩), .node none],
  .alloc .variableDeclaration [.str "let", .list [some ⟨1⟩]],
  .alloc .identifier [.str "x", .node none],
  .alloc .variableDeclarator [.node (some ⟨3⟩), .node none],
  .alloc .variableDeclaration [.str "let", .list [some ⟨4⟩]],
  .alloc .blockStatement [.list [], .list [some ⟨5⟩]],
  .alloc .program [.str "module", .list [], .list [some ⟨2⟩, some ⟨6⟩]]]

def crawlAnd (changes : List Change) : List Action :=
  [.call .root, .call (.edit (.scope ⟨0⟩))] ++ changes.map .change

/-- The outer `x` gets another name, so that the inner one can be moved out. -/
def moveOut : List Action :=
  crawlAnd [.rename ⟨0⟩ "x" (some "z"), .moveBinding ⟨1⟩ "x" ⟨0⟩]

/-- The outer binding is found under its new name then. -/
theorem found_moveOut : Action.AllSpare (ofArena shadowedLet (some ⟨7⟩) {}) moveOut ∧
    ∃ b, ((ofArena shadowedLet (some ⟨7⟩) {}).runActions moveOut).binding? ⟨0⟩ = some b
      ∧ b.scope = ⟨0⟩ ∧ b.name = "z"
      ∧ ((ofArena shadowedLet (some ⟨7⟩) {}).runActions moveOut).ownBinding? ⟨0⟩ "z"
      = some ⟨0⟩ := by
  have hspares : Action.AllSpare (ofArena shadowedLet (some ⟨7⟩) {}) moveOut := by
    decide +kernel
  have hok : (((ofArena shadowedLet (some ⟨7⟩) {}).runActions moveOut).binding? ⟨0⟩).any (fun b =>
      decide (b.scope = ⟨0⟩) && decide (b.name = "z")) = true
      ∧ (((ofArena shadowedLet (some ⟨7⟩) {}).runActions moveOut).scope ⟨0⟩).detached = false := by
    decide +kernel
  simp only [Option.any_eq_true, Bool.and_eq_true, decide_eq_true_eq] at hok
  obtain ⟨⟨b, hb, hscope, hname⟩, hlive⟩ := hok
  have hown := (ownBinding?_runActions shadowedLet (some ⟨7⟩) {} moveOut).2 hspares ⟨0⟩ b hb
    (hscope ▸ hlive)
  rw [hscope, hname] at hown
  exact ⟨hspares, b, hb, hscope, hname, hown⟩

/-- The inner `x` is moved out, where there is an `x`, and back. -/
def moveOutAndBack : List Action := crawlAnd [.moveBinding ⟨1⟩ "x" ⟨0⟩, .moveBinding ⟨0⟩ "x" ⟨1⟩]

/-- The outer binding is still alive then, and no longer found. -/
theorem lost_moveOutAndBack : ∃ b,
    ((ofArena shadowedLet (some ⟨7⟩) {}).runActions moveOutAndBack).binding? ⟨0⟩ = some b
      ∧ b.scope = ⟨0⟩ ∧ b.name = "x"
      ∧ (((ofArena shadowedLet (some ⟨7⟩) {}).runActions moveOutAndBack).scope b.scope).detached
      = false
      ∧ ((ofArena shadowedLet (some ⟨7⟩) {}).runActions moveOutAndBack).ownBinding? b.scope b.name
      = none := by
  have hok : (((ofArena shadowedLet (some ⟨7⟩) {}).runActions moveOutAndBack).binding? ⟨0⟩).any
      (fun b =>
      decide (b.scope = ⟨0⟩) && decide (b.name = "x")) = true
      ∧ (((ofArena shadowedLet (some ⟨7⟩) {}).runActions moveOutAndBack).scope ⟨0⟩).detached = false
      ∧ ((ofArena shadowedLet (some ⟨7⟩) {}).runActions moveOutAndBack).ownBinding? ⟨0⟩ "x"
      = none := by
    decide +kernel
  simp only [Option.any_eq_true, Bool.and_eq_true, decide_eq_true_eq] at hok
  obtain ⟨⟨b, hb, hscope, hname⟩, hlive, hown⟩ := hok
  exact ⟨b, hb, hscope, hname, hscope ▸ hlive, by rw [hscope, hname, hown]⟩

end Tree

end ScopedTree
