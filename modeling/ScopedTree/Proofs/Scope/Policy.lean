import ScopedTree.Proofs.Path.Blind
import ScopedTree.Proofs.Path.Fresh

/-!
# Declaring a name again

What becomes of a name that is declared in a scope again and again. The binding goes by the first
declaration that does not give way; the ones before it and those it does not refuse after it count
as writes.

* `Declaration`                 one declaration of a name, and which others it refuses;
* `Declaration.accepted`, `Declaration.later`   the declarations that are taken in;
* `Tree.DeclaresOne`            a path that declares one name;
* `Tree.DeclaredBy`             the binding of the name, after some declarations;
* `Tree.declareName_first`, `Tree.declareName_replaces`, `Tree.declareName_refused`,
  `Tree.declareName_merges`     what one more declaration does;
* `Tree.registerBinding_policy`   **the policy**, for all sequences of declarations.
-/

namespace ScopedTree

open Arena

/-- A declaration of a name: the kind of it, the path that is registered, the path that declares the
name, and the identifier. -/
structure Declaration where
  kind : BindingKind
  given : PathId
  path : PathId
  id : NodeId
  deriving DecidableEq

namespace Declaration

def givesWay (d : Declaration) : Bool := d.kind.isReplaceable

def refuses (m d : Declaration) : Bool :=
  d.kind != .param && (d.kind.isExclusive || m.kind.isExclusive)

def firstKept (ds : List Declaration) : Option Declaration := ds.find? (!·.givesWay)

/-- The declaration that the binding goes by: the first that does not give way, or as yet the last.
-/
def main (ds : List Declaration) : Option Declaration := (firstKept ds).or ds.getLast?

/-- The declarations taken in after the first that does not give way. -/
def later : List Declaration → List Declaration
  | [] => []
  | d :: ds => if d.givesWay then later ds else ds.filter (!d.refuses ·)

/-- All declarations that are taken in. -/
def accepted : List Declaration → List Declaration
  | [] => []
  | d :: ds => d :: if d.givesWay then accepted ds else ds.filter (!d.refuses ·)

/-- How a later declaration is recorded. -/
def entry (d : Declaration) : PathId × BindingKind := (d.path, d.kind)

variable {d m : Declaration} {ds : List Declaration}

theorem accepted_sublist : ∀ ds : List Declaration, (accepted ds).Sublist ds
  | [] => .slnil
  | d :: ds => by
    unfold accepted
    split
    · exact (accepted_sublist ds).cons_cons d
    · exact List.filter_sublist.cons_cons d

theorem later_sublist : ∀ ds : List Declaration, (later ds).Sublist ds
  | [] => .slnil
  | d :: ds => by
    unfold later
    split
    · exact (later_sublist ds).cons d
    · exact List.filter_sublist.cons d

theorem mem_of_main (h : main ds = some m) : m ∈ ds := by
  rcases Option.or_eq_some_iff.1 h with h | ⟨-, h⟩
  · exact List.mem_of_find?_eq_some h
  · exact List.mem_of_getLast? h

theorem main_cons_of_kept (h : d.givesWay = false) (ds : List Declaration) :
    main (d :: ds) = some d := by
  unfold main firstKept
  rw [List.find?_cons_of_pos (by simp [h])]
  rfl

theorem main_cons_of_givesWay (h : d.givesWay = true) (hne : ds ≠ []) :
    main (d :: ds) = main ds := by
  unfold main firstKept
  rw [List.find?_cons_of_neg (by simp [h]), List.getLast?_cons_of_ne_nil hne]

theorem main_singleton (d : Declaration) : main [d] = some d := by
  unfold main firstKept
  rw [List.find?_singleton]
  cases d.givesWay <;> rfl

theorem accepted_singleton (d : Declaration) : accepted [d] = [d] := by
  unfold accepted
  split <;> rfl

theorem later_singleton (d : Declaration) : later [d] = [] := by
  unfold later
  split <;> rfl

theorem firstKept_of_main (h : main ds = some m) : firstKept ds = if m.givesWay then none
    else some m := by
  cases hkept : firstKept ds with
  | some k =>
    have hk : k.givesWay = false := by simpa using List.find?_some hkept
    have hm : main ds = some k := by
      unfold main
      rw [hkept]
      rfl
    obtain rfl := Option.some.inj (hm.symm.trans h)
    rw [if_neg (by simp [hk])]
  | none =>
    have hall := List.find?_eq_none.1 hkept m (mem_of_main h)
    rw [if_pos (by simpa using hall)]

end Declaration

namespace Tree

open Declaration

variable {t t' : Tree} {s : ScopeId} {x : String} {b c : BindingId} {m d : Declaration}
  {ds : List Declaration} {violations : List PathId} {entries : List (PathId × BindingKind)}
  {record : Binding}

/-! ## one more declaration -/

/-- The scope binds the name, by the declaration `m`, with the given writes and later declarations.
-/
structure DeclaredBy (t : Tree) (s : ScopeId) (x : String) (b : BindingId) (m : Declaration)
    (violations : List PathId) (entries : List (PathId × BindingKind)) : Prop where
  own : t.ownBinding? s x = some b
  record : ∃ record, t.binding? b = some record ∧ record.kind = m.kind ∧ record.identifier = m.id
    ∧ record.path = m.path ∧ record.constantViolations = violations
    ∧ record.redeclarations = entries

/-- Nothing but scopes and one binding changed. -/
structure Touches (b : BindingId) (t t' : Tree) : Prop where
  redrawn : ∃ scopes bindings, t' = t.redrawn scopes bindings
  others : ∀ c, c ≠ b → t'.binding? c = t.binding? c

namespace Touches

protected theorem refl (b : BindingId) (t : Tree) : Touches b t t :=
  ⟨⟨t.scopes, t.bindings, rfl⟩, fun _ _ => rfl⟩

protected theorem trans {t'' : Tree} (h : Touches b t t') (h' : Touches b t' t'') :
    Touches b t t'' := by
  obtain ⟨scopes, bindings, rfl⟩ := h.redrawn
  obtain ⟨scopes', bindings', rfl⟩ := h'.redrawn
  exact ⟨⟨scopes', bindings', rfl⟩, fun c hc => (h'.others c hc).trans (h.others c hc)⟩

theorem updateScope (b : BindingId) (t : Tree) (c : ScopeId) (f : ScopeData → ScopeData) :
    Touches b t (t.updateScope c f) := ⟨⟨_, _, rfl⟩, fun _ _ => rfl⟩

theorem updateBinding (t : Tree) (b : BindingId) (f : Binding → Binding) :
    Touches b t (t.updateBinding b f) :=
  ⟨⟨_, _, rfl⟩, fun c hc => by rw [binding?_updateBinding, if_neg hc]⟩

theorem withBinding (t : Tree) (s : ScopeId) (x : String) (record : Binding) :
    Touches ⟨t.bindings.size⟩ t (t.withBinding s x record) :=
  ⟨⟨_, _, rfl⟩, fun c hc => by rw [binding?_withBinding, if_neg hc]⟩

end Touches

namespace DeclaredBy

theorem updateScope (h : t.DeclaredBy s x b m violations entries) (c : ScopeId)
    {f : ScopeData → ScopeData} (hf : ∀ d, (f d).bindings = d.bindings) :
    (t.updateScope c f).DeclaredBy s x b m violations entries := by
  refine ⟨?_, h.record⟩
  have htable := t.scope_updateScope_congr c s f ScopeData.bindings hf
  have hown : (t.updateScope c f).ownBinding? s x = t.ownBinding? s x := by
    unfold ownBinding?
    rw [htable]
    rfl
  exact hown.trans h.own

theorem updateBinding (h : t.DeclaredBy s x b m violations entries) {f : Binding → Binding}
    {m' : Declaration} {violations' : List PathId} {entries' : List (PathId × BindingKind)}
    (hf : ∀ record : Binding, record.kind = m.kind → record.identifier = m.id →
      record.path = m.path →
      record.constantViolations = violations → record.redeclarations = entries →
      (f record).kind = m'.kind ∧ (f record).identifier = m'.id ∧ (f record).path = m'.path
        ∧ (f record).constantViolations = violations' ∧ (f record).redeclarations = entries') :
    (t.updateBinding b f).DeclaredBy s x b m' violations' entries' := by
  obtain ⟨record, hb, hkind, hid, hpath, hviolations, hentries⟩ := h.record
  have hb' : (t.updateBinding b f).binding? b = some (f record) := by
    rw [binding?_updateBinding, if_pos rfl, hb]
    rfl
  have hlisted : (t.scope s).bindings.get? x = some b := (Option.filter_eq_some_iff.1 h.own).1
  refine ⟨Option.filter_eq_some_iff.2 ⟨hlisted, by rw [hb']; rfl⟩, f record, hb', ?_⟩
  exact hf record hkind hid hpath hviolations hentries

theorem noted (h : t.DeclaredBy s x b m violations entries) : ∃ t', noteReference s x t = .ok ⟨⟩ t'
    ∧ Touches b t t' ∧ t'.DeclaredBy s x b m violations entries :=
  ⟨_, noteReference_eq s x t, .updateScope b t _ _, h.updateScope _ fun _ => rfl⟩

theorem found (h : t.DeclaredBy s x b m violations entries) : ∃ record,
    ((t.ownBinding? s x).bind fun b => (t.binding? b).map (b, ·)) = some (b, record)
      ∧ record.kind = m.kind ∧ record.identifier = m.id ∧ record.path = m.path
      ∧ record.constantViolations = violations ∧ record.redeclarations = entries := by
  obtain ⟨record, hb, hrecord⟩ := h.record
  refine ⟨record, ?_, hrecord⟩
  rw [h.own, Option.bind_some, hb]
  rfl

end DeclaredBy

/-- The first declaration is taken as it is. -/
theorem declareName_first (hs : s.index < t.scopes.size) (hnone : t.ownBinding? s x = none) :
    ∃ t', declareName s d.kind d.path x d.id t = .ok ⟨⟩ t' ∧ Touches ⟨t.bindings.size⟩ t t'
      ∧ t'.DeclaredBy s x ⟨t.bindings.size⟩ d [] [] := by
  let record : Binding :=
    { identifier := d.id, name := x, scope := s, path := d.path, kind := d.kind }
  have hstands : (t.withBinding s x record).DeclaredBy s x ⟨t.bindings.size⟩ d [] [] := by
    have hb : (t.withBinding s x record).binding? ⟨t.bindings.size⟩ = some record := by
      rw [binding?_withBinding, if_pos rfl]
    refine ⟨Option.filter_eq_some_iff.2 ⟨?_, by rw [hb]; rfl⟩, record, hb, rfl, rfl, rfl, rfl, rfl⟩
    rw [get?_withBinding hs, if_pos ⟨rfl, rfl⟩]
  obtain ⟨t', hrun, htouches, hstands⟩ := hstands.noted
  refine ⟨t', ?_, (Touches.withBinding t s x record).trans htouches, hstands⟩
  unfold declareName
  rw [run_get_bind, hnone, Option.bind_none]
  dsimp only
  rw [if_neg (Nat.not_le.2 hs), run_modify_bind]
  exact hrun

theorem declareName_again (h : t.DeclaredBy s x b m violations entries) (hid : m.id = d.id) :
    declareName s d.kind d.path x d.id t = .ok ⟨⟩ t := by
  obtain ⟨record, hfound, -, hident, -⟩ := h.found
  unfold declareName
  rw [run_get_bind, hfound]
  dsimp only
  rw [if_pos (by simpa [hident] using hid)]
  rfl

/-- One that gives way passes the binding on to the next, which makes its path a write. -/
theorem declareName_replaces (h : t.DeclaredBy s x b m violations entries)
    (hway : m.givesWay = true) (hid : m.id ≠ d.id) (hpath : m.path ∉ violations) :
    ∃ t', declareName s d.kind d.path x d.id t = .ok ⟨⟩ t' ∧ Touches b t t'
      ∧ t'.DeclaredBy s x b d (violations ++ [m.path]) entries := by
  obtain ⟨record, hfound, hkind, hident, -⟩ := h.found
  have hmerged : (t.updateBinding b (Binding.merge d.kind d.path d.id)).DeclaredBy s x b d
      (violations ++ [m.path]) entries := by
    refine h.updateBinding fun record hkind hident hp hviolations hentries => ?_
    have hreplaceable : record.kind.isReplaceable = true := hkind ▸ hway
    unfold Binding.merge
    rw [if_pos hreplaceable]
    refine ⟨rfl, rfl, rfl, ?_, hentries⟩
    show (if record.constantViolations.contains record.path then _ else _) = _
    rw [hviolations, hp, if_neg (by simpa using hpath)]
  obtain ⟨t', hrun, htouches, hstands⟩ := hmerged.noted
  refine ⟨t', ?_, (Touches.updateBinding t b _).trans htouches, hstands⟩
  have hreplaceable : record.kind.isReplaceable = true := hkind ▸ hway
  unfold declareName
  rw [run_get_bind, hfound]
  dsimp only
  rw [if_neg (by simpa [hident] using hid), if_neg (by simp [hreplaceable]), run_modify_bind]
  exact hrun

theorem declareName_refused (h : t.DeclaredBy s x b m violations entries)
    (hway : m.givesWay = false) (hid : m.id ≠ d.id) (hrefuses : m.refuses d = true) :
    declareName s d.kind d.path x d.id t = .error (.duplicateDeclaration x (t.location d.path))
    t := by
  obtain ⟨record, hfound, hkind, hident, -⟩ := h.found
  have hreplaceable : record.kind.isReplaceable = false := hkind ▸ hway
  unfold declareName
  rw [run_get_bind, hfound]
  dsimp only
  rw [if_neg (by simpa [hident] using hid), if_pos]
  · rfl
  · rw [hreplaceable, hkind]
    simpa [refuses] using hrefuses

theorem declareName_merges (h : t.DeclaredBy s x b m violations entries) (hway : m.givesWay = false)
    (hid : m.id ≠ d.id) (hrefuses : m.refuses d = false) (hpath : d.path ∉ violations)
    (hentries : d.path ∉ entries.map (·.1)) :
    ∃ t', declareName s d.kind d.path x d.id t = .ok ⟨⟩ t' ∧ Touches b t t'
      ∧ t'.DeclaredBy s x b m (violations ++ [d.path]) (entries ++ [d.entry]) := by
  obtain ⟨record, hfound, hkind, hident, -⟩ := h.found
  have hmerged : (t.updateBinding b (Binding.merge d.kind d.path d.id)).DeclaredBy s x b m
      (violations ++ [d.path]) (entries ++ [d.entry]) := by
    refine h.updateBinding fun record hkind hident hp hviolations hold => ?_
    have hreplaceable : record.kind.isReplaceable = false := hkind ▸ hway
    unfold Binding.merge
    rw [if_neg (by simp [hreplaceable])]
    refine ⟨hkind, hident, hp, ?_, ?_⟩
    · show (if record.constantViolations.contains d.path then _ else _) = _
      rw [hviolations, if_neg (by simpa using hpath)]
    · have hnew : ¬ record.redeclarations.any (·.1 == d.path) = true := by
        rw [List.any_eq_true]
        rintro ⟨e, he, heq⟩
        exact hentries (List.mem_map.2 ⟨e, hold ▸ he, beq_iff_eq.1 heq⟩)
      rw [← hold]
      exact if_neg hnew
  obtain ⟨t', hrun, htouches, hstands⟩ := hmerged.noted
  refine ⟨t', ?_, (Touches.updateBinding t b _).trans htouches, hstands⟩
  have hreplaceable : record.kind.isReplaceable = false := hkind ▸ hway
  unfold declareName
  rw [run_get_bind, hfound]
  dsimp only
  rw [if_neg (by simpa [hident] using hid), if_neg, run_modify_bind]
  · exact hrun
  · rw [hreplaceable, hkind]
    simpa [refuses] using hrefuses

/-! ## paths that declare one name -/

/-- The path binds one identifier of the name; that is where the name is declared. What is
registered is that path, or the one of a variable declaration, all declarators of which have paths;
the others bind nothing. Declarators without a path get one when they are registered, so those
declarations are left out. -/
structure DeclaresOne (t : Tree) (x : String) (d : Declaration) : Prop where
  plain : t.nodeIs d.path .variableDeclaration = false
  ids : t.arena.bindingIds (t.node d.path) true = [(x, [d.id])]
  given : d.given = d.path ∨ t.nodeIs d.given .variableDeclaration = true ∧ ∃ before after,
    Tree.entries d.given "declarations" t = .ok (before ++ d.path :: after) t
      ∧ ∀ q ∈ before ++ after, t.nodeIs q .variableDeclaration = false
        ∧ t.arena.bindingIds (t.node q) true = []

namespace DeclaresOne

theorem redrawn (h : t.DeclaresOne x d) (scopes : Array ScopeData)
    (bindings : Array (Option Binding)) :
    (t.redrawn scopes bindings).DeclaresOne x d := by
  refine ⟨h.plain, h.ids, h.given.imp id ?_⟩
  rintro ⟨hgiven, before, after, hentries, hothers⟩
  exact ⟨hgiven, before, after, entries_redrawn (by decide) hentries scopes bindings, hothers⟩

theorem touches (h : t.DeclaresOne x d) (ht : Touches b t t') : t'.DeclaresOne x d := by
  obtain ⟨scopes, bindings, rfl⟩ := ht.redrawn
  exact h.redrawn scopes bindings

theorem path_ne (h : t.DeclaresOne x d) (h' : t.DeclaresOne x m)
    (hid : d.id ≠ m.id) : d.path ≠ m.path := by
  intro heq
  have hids := h.ids.symm.trans (heq ▸ h'.ids)
  exact hid (by simpa using hids)

end DeclaresOne

theorem registerBindingLevels_plain {kind : BindingKind} {p : PathId} (fuel : Nat)
    (hp : t.nodeIs p .variableDeclaration = false) :
    registerBindingLevels s kind (fuel + 1) p t = declareNames s kind p (t.node p) t := by
  rw [registerBindingLevels, run_get_bind, if_neg (by simp [hp])]

theorem forM_cons {α : Type} {f : α → TreeM PUnit} {y : α} {ys : List α} (h : f y t = .ok ⟨⟩ t') :
    (y :: ys).forM f t = ys.forM f t' := by
  rw [List.forM]
  exact run_bind_of_ok h

theorem forM_singleton {α : Type} (f : α → TreeM PUnit) (y : α)
    (t : Tree) : [y].forM f t = f y t := by
  rw [List.forM]
  show EStateM.bind (f y) _ t = f y t
  unfold EStateM.bind
  cases f y t <;> rfl

theorem declareNames_one {kind : BindingKind} {p : PathId} {id : NodeId} {target : Option NodeId}
    (h : t.arena.bindingIds target true = [(x, [id])]) :
    declareNames s kind p target t = declareName s kind p x id t := by
  unfold declareNames
  rw [run_get_bind, h]
  exact (forM_singleton _ _ t).trans (forM_singleton _ _ t)

theorem declareNames_nothing {kind : BindingKind} {p : PathId} {target : Option NodeId}
    (h : t.arena.bindingIds target true = []) : declareNames s kind p target t = .ok ⟨⟩ t := by
  unfold declareNames
  rw [run_get_bind, h]
  rfl

theorem ends_declareName_redrawn {kind : BindingKind} {p : PathId} {id : NodeId} :
    Ends (declareName s kind p x id t) (fun _ t' => ∃ scopes bindings,
      t' = t.redrawn scopes bindings)
      fun _ _ => True := by
  unfold declareName
  rw [ends_bind, ends_get]
  cases (t.ownBinding? s x).bind fun b => (t.binding? b).map (b, ·) with
  | none =>
    dsimp only
    split
    · exact ⟨t.scopes, t.bindings, rfl⟩
    · exact ⟨_, _, rfl⟩
  | some found =>
    dsimp only
    split
    · exact ⟨t.scopes, t.bindings, rfl⟩
    · split
      · exact trivial
      · exact ⟨_, _, rfl⟩

theorem forM_nothing {kind : BindingKind} {fuel : Nat} : ∀ qs : List PathId,
    (∀ q ∈ qs, t.nodeIs q .variableDeclaration = false ∧ t.arena.bindingIds (t.node q) true = []) →
    qs.forM (registerBindingLevels s kind (fuel + 1)) t = .ok ⟨⟩ t
  | [], _ => rfl
  | q :: qs, h => by
    obtain ⟨hplain, hids⟩ := h q (List.mem_cons_self ..)
    rw [forM_cons ((registerBindingLevels_plain fuel hplain).trans (declareNames_nothing hids))]
    exact forM_nothing qs fun q' hq' => h q' (List.mem_cons_of_mem _ hq')

theorem forM_one {kind : BindingKind} {fuel : Nat} {q : PathId} {id : NodeId}
    {after : List PathId} :
    ∀ before : List PathId, (∀ q' ∈ before ++ after, t.nodeIs q' .variableDeclaration = false
      ∧ t.arena.bindingIds (t.node q') true = []) →
    registerBindingLevels s kind (fuel + 1) q t = declareName s kind q x id t →
    (before ++ q :: after).forM (registerBindingLevels s kind (fuel + 1)) t
    = declareName s kind q x id t
  | [], h, hq => by
    rw [List.nil_append, List.forM]
    cases hrun : declareName s kind q x id t with
    | error e t' => exact run_bind_of_error (hq.trans hrun)
    | ok y t' =>
      rw [run_bind_of_ok (hq.trans hrun)]
      obtain ⟨scopes, bindings, rfl⟩ := ends_declareName_redrawn.of_ok hrun
      exact forM_nothing after h
  | q' :: before, h, hq => by
    obtain ⟨hplain, hids⟩ := h q' (List.mem_cons_self ..)
    rw [List.cons_append,
      forM_cons ((registerBindingLevels_plain fuel hplain).trans (declareNames_nothing hids))]
    exact forM_one before (fun q'' hq'' => h q'' (List.mem_cons_of_mem _ hq'')) hq

/-- **To register a path that declares one name is to declare it.** -/
theorem DeclaresOne.registerBinding_eq (h : t.DeclaresOne x d) :
    registerBinding s d.kind d.given t = declareName s d.kind d.path x d.id t := by
  have hone (fuel : Nat) : registerBindingLevels s d.kind (fuel + 1) d.path t
      = declareName s d.kind d.path x d.id t :=
    (registerBindingLevels_plain fuel h.plain).trans (declareNames_one h.ids)
  unfold registerBinding
  rw [run_get_bind]
  rcases h.given with heq | ⟨hgiven, before, after, hentries, hothers⟩
  · rw [heq]
    exact hone _
  · -- the node that is given is there, so there is fuel for its declarators
    obtain ⟨fuel, hfuel⟩ : ∃ fuel, t.arena.size = fuel + 1 := by
      obtain ⟨o, ho, -⟩ := Option.map_eq_some_iff.1 (beq_iff_eq.1 hgiven)
      obtain ⟨n, -, hn⟩ := Option.bind_eq_some_iff.1 ho
      exact Nat.exists_eq_add_one.2 ((Nat.zero_le _).trans_lt (get?_eq_some_lt hn))
    rw [registerBindingLevels, run_get_bind, if_pos hgiven, run_bind_of_ok hentries, hfuel]
    exact forM_one before hothers (hone fuel)

/-! ## sequences -/

/-- Several declarations, one after the other, also where some are refused. -/
def registerAll (s : ScopeId) (ds : List Declaration) : TreeM (List (Except TreeError PUnit)) :=
  ds.mapM fun d => TreeM.attempt (registerBinding s d.kind d.given)

/-- What a declaration comes to where `m` stands. -/
def answer (t : Tree) (x : String) (m d : Declaration) : Except TreeError PUnit :=
  if m.refuses d then .error (.duplicateDeclaration x (t.location d.path)) else .ok ⟨⟩

def answers (t : Tree) (x : String) : List Declaration → List (Except TreeError PUnit)
  | [] => []
  | d :: ds => .ok ⟨⟩ :: if d.givesWay then t.answers x ds else ds.map (t.answer x d)

theorem Touches.location (h : Touches b t t') (p : PathId) : t'.location p = t.location p := by
  obtain ⟨scopes, bindings, rfl⟩ := h.redrawn
  exact location_redrawn t scopes bindings p

theorem Touches.answer (h : Touches b t t') (x : String) (m : Declaration) :
    t'.answer x m = t.answer x m := by
  funext d
  unfold Tree.answer
  rw [h.location]

theorem Touches.answers (h : Touches b t t') (x : String) : ∀ ds, t'.answers x ds = t.answers x ds
  | [] => rfl
  | d :: ds => by
    unfold Tree.answers
    rw [h.answer, Touches.answers h x ds]

theorem registerAll_cons {answer : Except TreeError PUnit} {answers : List (Except TreeError PUnit)}
    {t'' : Tree} (h : TreeM.attempt (registerBinding s d.kind d.given) t = .ok answer t')
    (hrest : registerAll s ds t' = .ok answers t'') :
    registerAll s (d :: ds) t = .ok (answer :: answers) t'' := by
  unfold registerAll at hrest ⊢
  rw [List.mapM_cons, run_bind_of_ok h, run_bind_of_ok hrest]
  rfl

theorem attempt_ok {α : Type} {z : TreeM α} {y : α} (h : z t = .ok y t') :
    TreeM.attempt z t = .ok (.ok y) t' := by
  unfold TreeM.attempt
  rw [h]

theorem attempt_error {α : Type} {z : TreeM α} {e : TreeError} (h : z t = .error e t') :
    TreeM.attempt z t = .ok (.error e) t' := by
  unfold TreeM.attempt
  rw [h]

/-- **Once a declaration stands**, the others are refused or recorded, and it stays. -/
theorem DeclaredBy.registerAll_kept (hway : m.givesWay = false) : ∀ (ds : List Declaration)
    {t : Tree} {violations : List PathId} {entries : List (PathId × BindingKind)},
    t.DeclaredBy s x b m violations entries → (∀ d ∈ ds, t.DeclaresOne x d) →
    ((m :: ds).map (·.id)).Nodup →
    (∀ d ∈ ds, d.path ∉ violations) → (∀ d ∈ ds, d.path ∉ entries.map (·.1)) →
    ∃ t', registerAll s ds t = .ok (ds.map (t.answer x m)) t' ∧ Touches b t t'
      ∧ t'.DeclaredBy s x b m (violations ++ (ds.filter (!m.refuses ·)).map (·.path))
        (entries ++ (ds.filter (!m.refuses ·)).map entry)
  | [], t, violations, entries, h, _, _, _, _ => by
    refine ⟨t, rfl, .refl b t, ?_⟩
    simpa using h
  | d :: ds, t, violations, entries, h, hone, hids, hviolations, hentries => by
    simp only [List.map_cons, List.nodup_cons, List.mem_cons, not_or] at hids
    obtain ⟨⟨hid, hm⟩, hdids, hids⟩ := hids
    have hd := hone d (List.mem_cons_self ..)
    have hrest : ∀ e ∈ ds, t.DeclaresOne x e := fun e he => hone e (List.mem_cons_of_mem _ he)
    have hids' : ((m :: ds).map (·.id)).Nodup := List.nodup_cons.2 ⟨hm, hids⟩
    have hviolations' : ∀ e ∈ ds, e.path ∉ violations :=
      fun e he => hviolations e (List.mem_cons_of_mem _ he)
    have hentries' : ∀ e ∈ ds, e.path ∉ entries.map (·.1) :=
      fun e he => hentries e (List.mem_cons_of_mem _ he)
    cases hrefuses : m.refuses d with
    | true =>
      have hrun := attempt_error (hd.registerBinding_eq.trans
        (declareName_refused h hway hid hrefuses))
      obtain ⟨t', hall, htouches, hstands⟩ :=
        h.registerAll_kept hway ds hrest hids' hviolations' hentries'
      refine ⟨t', ?_, htouches, ?_⟩
      · rw [registerAll_cons hrun hall, List.map_cons, answer, if_pos hrefuses]
      · rwa [List.filter_cons_of_neg (by simp [hrefuses])]
    | false =>
      obtain ⟨t₁, hrun, htouches₁, hstands₁⟩ := declareName_merges h hway hid hrefuses
        (hviolations d (List.mem_cons_self ..)) (hentries d (List.mem_cons_self ..))
      have hrun := attempt_ok (hd.registerBinding_eq.trans hrun)
      have hapart (e : Declaration) (he : e ∈ ds) : e.path ≠ d.path :=
        (hrest e he).path_ne hd fun heq => hdids (List.mem_map.2 ⟨e, he, heq⟩)
      obtain ⟨t', hall, htouches, hstands⟩ := hstands₁.registerAll_kept hway ds
        (fun e he => (hrest e he).touches htouches₁) hids'
        (fun e he => by simpa using ⟨hviolations' e he, hapart e he⟩)
        fun e he => by
          rw [List.map_append, List.mem_append, not_or]
          exact ⟨hentries' e he, by simpa [entry] using hapart e he⟩
      rw [htouches₁.answer] at hall
      refine ⟨t', ?_, htouches₁.trans htouches, ?_⟩
      · rw [registerAll_cons hrun hall, List.map_cons, answer, if_neg (by simp [hrefuses])]
      · rw [List.filter_cons_of_pos (by simp [hrefuses]), List.map_cons, List.map_cons]
        simpa using hstands

/-- **While declarations give way**, each passes the binding on to the next. -/
theorem DeclaredBy.registerAll_from : ∀ (ds : List Declaration) {d : Declaration} {t : Tree}
    {violations : List PathId}, t.DeclaredBy s x b d violations [] →
    (∀ e ∈ d :: ds, t.DeclaresOne x e) →
    ((d :: ds).map (·.id)).Nodup → (∀ e ∈ d :: ds, e.path ∉ violations) →
    ∃ t' m, registerAll s ds t = .ok (t.answers x (d :: ds)).tail t' ∧ Touches b t t'
      ∧ main (d :: ds) = some m
      ∧ t'.DeclaredBy s x b m (violations ++ ((accepted (d :: ds)).erase m).map (·.path))
        ((later (d :: ds)).map entry)
  | [], d, t, violations, h, _, _, _ => by
    have hanswers : (t.answers x [d]).tail = [] := by
      unfold answers
      split <;> rfl
    refine ⟨t, d, by rw [hanswers]; rfl, .refl b t, main_singleton d, ?_⟩
    rw [accepted_singleton, List.erase_cons_head, later_singleton]
    simpa using h
  | e :: ds, d, t, violations, h, hone, hids, hviolations => by
    have hd := hone d (List.mem_cons_self ..)
    have hrest : ∀ f ∈ e :: ds, t.DeclaresOne x f := fun f hf => hone f (List.mem_cons_of_mem _ hf)
    have hdids := (List.nodup_cons.1 hids).1
    have hapart (f : Declaration) (hf : f ∈ e :: ds) : f.path ≠ d.path :=
      (hrest f hf).path_ne hd fun heq => hdids (List.mem_map.2 ⟨f, hf, heq⟩)
    have hviolations' : ∀ f ∈ e :: ds, f.path ∉ violations :=
      fun f hf => hviolations f (List.mem_cons_of_mem _ hf)
    cases hway : d.givesWay with
    | false =>
      obtain ⟨t', hall, htouches, hstands⟩ := h.registerAll_kept hway (e :: ds) hrest hids
        hviolations'
        fun _ _ => List.not_mem_nil
      refine ⟨t', d, ?_, htouches, main_cons_of_kept hway _, ?_⟩
      · rw [hall, answers, if_neg (by simp [hway])]
        rfl
      · rw [accepted, if_neg (by simp [hway]), List.erase_cons_head, later, if_neg (by simp [hway])]
        simpa using hstands
    | true =>
      have hid : d.id ≠ e.id :=
        fun heq => hdids (List.mem_map.2 ⟨e, List.mem_cons_self .., heq.symm⟩)
      obtain ⟨t₁, hrun, htouches₁, hstands₁⟩ := declareName_replaces h hway hid
        (hviolations d (List.mem_cons_self ..))
      have hrun := attempt_ok ((hrest e (List.mem_cons_self ..)).registerBinding_eq.trans hrun)
      obtain ⟨t', m, hall, htouches, hmain, hstands⟩ := hstands₁.registerAll_from ds
        (fun f hf => (hrest f hf).touches htouches₁) (List.nodup_cons.1 hids).2
        fun f hf => by simpa using ⟨hviolations' f hf, hapart f hf⟩
      have hmd : d ≠ m := by
        rintro rfl
        exact hdids (List.mem_map.2 ⟨d, mem_of_main hmain, rfl⟩)
      refine ⟨t', m, ?_, htouches₁.trans htouches,
        (main_cons_of_givesWay hway (List.cons_ne_nil _ _)).trans hmain, ?_⟩
      · rw [registerAll_cons hrun hall, htouches₁.answers]
        conv_rhs => rw [answers, if_pos hway]
        rfl
      · rw [accepted, if_pos hway, List.erase_cons_tail (by simpa using hmd), later, if_pos hway,
          List.map_cons]
        simpa using hstands

theorem DeclaredBy.next (h : t.DeclaredBy s x b m violations entries) (hd : t.DeclaresOne x d)
    (hid : m.id ≠ d.id) (hm : m.path ∉ violations) (hviolations : d.path ∉ violations)
    (hentries : d.path ∉ entries.map (·.1)) :
    if !m.givesWay && m.refuses d then
      registerBinding s d.kind d.given t = .error (.duplicateDeclaration x (t.location d.path)) t
    else ∃ t', registerBinding s d.kind d.given t = .ok ⟨⟩ t' := by
  rw [hd.registerBinding_eq]
  cases hway : m.givesWay with
  | true =>
    obtain ⟨t', hrun, -⟩ := declareName_replaces h hway hid hm
    exact ⟨t', hrun⟩
  | false =>
    cases hrefuses : m.refuses d with
    | true => exact declareName_refused h hway hid hrefuses
    | false =>
      obtain ⟨t', hrun, -⟩ := declareName_merges h hway hid hrefuses hviolations hentries
      exact ⟨t', hrun⟩

theorem nodup_paths (hone : ∀ d ∈ ds, t.DeclaresOne x d) (hids : (ds.map (·.id)).Nodup) :
    (ds.map (·.path)).Nodup := by
  refine List.Nodup.map_on (fun d hd e he hpath => ?_) hids.of_map
  by_contra hne
  exact (hone d hd).path_ne (hone e he) (fun hid => hne (List.inj_on_of_nodup_map hids hd he hid))
    hpath

theorem path_not_mem {ds' : List Declaration} (hone : ∀ e ∈ ds, t.DeclaresOne x e)
    (hd : t.DeclaresOne x d) (hid : d.id ∉ ds.map (·.id)) (hsub : ds' ⊆ ds) :
    d.path ∉ ds'.map (·.path) := by
  intro hmem
  obtain ⟨e, he, hpath⟩ := List.mem_map.1 hmem
  have hne : e.id ≠ d.id := fun hsame => hid (List.mem_map.2 ⟨e, hsub he, hsame⟩)
  exact (hone e (hsub he)).path_ne hd hne hpath

theorem main_path_not_mem (hone : ∀ e ∈ ds, t.DeclaresOne x e) (hids : (ds.map (·.id)).Nodup)
    (hm : main ds = some m) : m.path ∉ ((accepted ds).erase m).map (·.path) := by
  intro hmem
  obtain ⟨e, he, hpath⟩ := List.mem_map.1 hmem
  have hin : e ∈ ds := (accepted_sublist ds).subset (List.mem_of_mem_erase he)
  have hnodup : (accepted ds).Nodup := hids.of_map.sublist (accepted_sublist ds)
  have hne : e ≠ m := (hnodup.mem_erase_iff.1 he).1
  have hid : e.id ≠ m.id :=
    fun hsame => hne (List.inj_on_of_nodup_map hids hin (mem_of_main hm) hsame)
  exact (hone e hin).path_ne (hone m (mem_of_main hm)) hid hpath

/-- **The policy on declaring a name again**, for every tree, every scope and every name `x` that
the scope does not bind, and all declarations of `x` by different identifiers, one after the other.
Those up to the first that does not give way succeed. After it one is refused exactly if it is no
parameter and one of the two shares its scope with no other declaration; to be refused changes
nothing, and neither does the identifier that the binding goes by, when it is declared again. What
is taken in is one binding, which goes by the first that does not give way, or as yet the last. The
paths of the others taken in are its writes, each once, and those after the first that does not give
way are its later declarations, in their order. -/
theorem registerBinding_policy (hs : s.index < t.scopes.size) (hnone : t.ownBinding? s x = none)
    (hone : ∀ d ∈ ds, t.DeclaresOne x d) (hids : (ds.map (·.id)).Nodup) :
    ∃ t', registerAll s ds t = .ok (t.answers x ds) t'
      ∧ (∀ d, t.DeclaresOne x d → d.id ∉ ds.map (·.id) →
          if (firstKept ds).any (·.refuses d) then
            registerBinding s d.kind d.given t'
            = .error (.duplicateDeclaration x (t.location d.path)) t'
          else ∃ t'', registerBinding s d.kind d.given t' = .ok ⟨⟩ t'')
      ∧ (∀ d m, t.DeclaresOne x d → main ds = some m → d.id = m.id →
          registerBinding s d.kind d.given t' = .ok ⟨⟩ t')
      ∧ (∀ c, c ≠ ⟨t.bindings.size⟩ → t'.binding? c = t.binding? c)
      ∧ (ds ≠ [] → ∃ m record, main ds = some m ∧ t'.ownBinding? s x = some ⟨t.bindings.size⟩
          ∧ t'.binding? ⟨t.bindings.size⟩ = some record
          ∧ record.kind = m.kind ∧ record.identifier = m.id ∧ record.path = m.path
          ∧ record.constantViolations = ((accepted ds).erase m).map (·.path)
          ∧ record.constantViolations.Nodup ∧ record.redeclarations = (later ds).map entry) := by
  cases ds with
  | nil =>
    refine ⟨t, rfl, fun d hd _ => ?_, fun _ _ _ hm => (by cases hm), fun _ _ => rfl,
      fun hne => absurd rfl hne⟩
    obtain ⟨t', hrun, -⟩ := declareName_first (d := d) hs hnone
    exact ⟨t', hd.registerBinding_eq.trans hrun⟩
  | cons d₀ ds =>
    obtain ⟨t₁, hrun, htouches₁, hstands₁⟩ := declareName_first (d := d₀) hs hnone
    have hrun := attempt_ok ((hone d₀ (List.mem_cons_self ..)).registerBinding_eq.trans hrun)
    obtain ⟨t', m, hall, htouches, hmain, hstands⟩ := hstands₁.registerAll_from ds
      (fun e he => (hone e he).touches htouches₁) hids fun _ _ => List.not_mem_nil
    have ht := htouches₁.trans htouches
    rw [List.nil_append] at hstands
    -- all that was taken in is at a path of its own
    have hpaths : ((accepted (d₀ :: ds)).map (·.path)).Nodup :=
      (nodup_paths hone hids).sublist ((accepted_sublist _).map _)
    have hm := main_path_not_mem hone hids hmain
    refine ⟨t', ?_, fun d hd hid => ?_, fun d m' hd hmain' hid => ?_, ht.others, fun _ => ?_⟩
    · rw [registerAll_cons hrun hall, htouches₁.answers]
      rfl
    · have hothers : ((accepted (d₀ :: ds)).erase m) ⊆ d₀ :: ds :=
        fun e he => (accepted_sublist _).subset (List.mem_of_mem_erase he)
      have hlater : d.path ∉ ((later (d₀ :: ds)).map entry).map (·.1) := by
        rw [List.map_map]
        exact path_not_mem hone hd hid (later_sublist _).subset
      have hnext := hstands.next (hd.touches ht) (fun heq =>
        hid (List.mem_map.2 ⟨m, mem_of_main hmain, heq⟩)) hm
        (path_not_mem hone hd hid hothers) hlater
      rw [ht.location] at hnext
      rw [firstKept_of_main hmain]
      cases hway : m.givesWay with
      | true => simpa [hway] using hnext
      | false => simpa [hway] using hnext
    · obtain rfl := Option.some.inj (hmain.symm.trans hmain')
      exact (hd.touches ht).registerBinding_eq.trans (declareName_again hstands hid.symm)
    · obtain ⟨record, hb, hkind, hident, hpath, hviolations, hentries⟩ := hstands.record
      refine ⟨m, record, hmain, hstands.own, hb, hkind, hident, hpath, hviolations, ?_, hentries⟩
      rw [hviolations]
      exact hpaths.sublist ((List.erase_sublist ..).map _)

/-! ## three declarations and a block -/

/-- The program `var x; var x; var x; {}`. -/
def varsAndBlock : Arena := runAll [
  .alloc .identifier [.str "x", .node none],
  .alloc .variableDeclarator [.node (some ⟨0⟩), .node none],
  .alloc .variableDeclaration [.str "var", .list [some ⟨1⟩]],
  .alloc .identifier [.str "x", .node none],
  .alloc .variableDeclarator [.node (some ⟨3⟩), .node none],
  .alloc .variableDeclaration [.str "var", .list [some ⟨4⟩]],
  .alloc .identifier [.str "x", .node none],
  .alloc .variableDeclarator [.node (some ⟨6⟩), .node none],
  .alloc .variableDeclaration [.str "var", .list [some ⟨7⟩]],
  .alloc .blockStatement [.list [], .list []],
  .alloc .program [.str "module", .list [], .list [some ⟨2⟩, some ⟨5⟩, some ⟨8⟩, some ⟨9⟩]]]

/-- Makes the paths of the declarations, of their declarators and of the first identifier, and the
scope of the block. -/
def scopeOfBlock : TreeM (Option ScopeId) := do
  let root ← getRootPath
  let _ ← follow root "body.0.declarations.0.id"
  let _ ← follow root "body.1.declarations.0"
  let _ ← follow root "body.2.declarations.0"
  scopeOf (← follow root "body.3")

/-- What can be checked of the tree with the scope of the block: it does not bind `x`, and some
paths do. -/
def blockIsReady (o : Option ScopeId) (t : Tree) : Bool :=
  decide (o = some ⟨1⟩) && decide (1 < t.scopes.size) && decide (t.ownBinding? ⟨1⟩ "x" = none)
    && ([(⟨2⟩, ⟨0⟩), (⟨3⟩, ⟨0⟩), (⟨5⟩, ⟨3⟩), (⟨7⟩, ⟨6⟩)] : List (PathId × NodeId)).all fun e =>
      !t.nodeIs e.1 .variableDeclaration && decide (t.arena.bindingIds (t.node e.1) true
        = [("x", [e.2])])

theorem exists_block : ∃ t, scopeOfBlock (ofArena varsAndBlock (some ⟨10⟩)) = .ok (some ⟨1⟩) t
    ∧ 1 < t.scopes.size ∧ t.ownBinding? ⟨1⟩ "x" = none
    ∧ ∀ e ∈ ([(⟨2⟩, ⟨0⟩), (⟨3⟩, ⟨0⟩), (⟨5⟩, ⟨3⟩), (⟨7⟩, ⟨6⟩)] : List (PathId × NodeId)), ∀ kind,
      t.DeclaresOne "x" ⟨kind, e.1, e.1, e.2⟩ := by
  have hok : passes (scopeOfBlock (ofArena varsAndBlock (some ⟨10⟩))) blockIsReady
      = true := by decide +kernel
  obtain ⟨o, t, hrun, hready⟩ := ok_of_passes hok
  unfold blockIsReady at hready
  simp only [Bool.and_eq_true, decide_eq_true_eq, List.all_eq_true, Bool.not_eq_true'] at hready
  obtain ⟨⟨⟨rfl, hsize⟩, hnone⟩, hpaths⟩ := hready
  exact ⟨t, hrun, hsize, hnone, fun e he kind => ⟨(hpaths e he).1, (hpaths e he).2, .inl rfl⟩⟩

/-- The first declaration gives way to the second, and that refuses the third. -/
theorem registerBinding_policy_block : ∃ t t' record,
    scopeOfBlock (ofArena varsAndBlock (some ⟨10⟩)) = .ok (some ⟨1⟩) t
      ∧ registerAll ⟨1⟩ [⟨.unknown, ⟨2⟩, ⟨2⟩, ⟨0⟩⟩, ⟨.varName, ⟨5⟩, ⟨5⟩, ⟨3⟩⟩,
        ⟨.letName, ⟨7⟩, ⟨7⟩, ⟨6⟩⟩] t
        = .ok [.ok ⟨⟩, .ok ⟨⟩, .error (.duplicateDeclaration "x" (t.location ⟨7⟩))] t'
      ∧ t'.ownBinding? ⟨1⟩ "x" = some ⟨t.bindings.size⟩ ∧ t'.binding? ⟨t.bindings.size⟩
      = some record ∧ record.kind = .varName ∧ record.path = ⟨5⟩ ∧ record.constantViolations = [⟨2⟩]
      ∧ record.redeclarations = [] := by
  obtain ⟨t, hrun, hsize, hnone, hone⟩ := exists_block
  have hones : ∀ d ∈ ([⟨.unknown, ⟨2⟩, ⟨2⟩, ⟨0⟩⟩, ⟨.varName, ⟨5⟩, ⟨5⟩, ⟨3⟩⟩,
      ⟨.letName, ⟨7⟩, ⟨7⟩, ⟨6⟩⟩] :
      List Declaration), t.DeclaresOne "x" d := by
    simp only [List.forall_mem_cons, List.not_mem_nil, IsEmpty.forall_iff, implies_true, and_true]
    exact ⟨hone (⟨2⟩, ⟨0⟩) (by simp) _, hone (⟨5⟩, ⟨3⟩) (by simp) _, hone (⟨7⟩, ⟨6⟩) (by simp) _⟩
  obtain ⟨t', hall, -, -, -, hlast⟩ :=
    registerBinding_policy (s := ⟨1⟩) hsize hnone hones (by decide)
  obtain ⟨m, record, hm, hown, hb, hkind, -, hpath, hviolations, -, hentries⟩ := hlast (by simp)
  obtain rfl : _ = m := Option.some.inj hm
  exact ⟨t, t', record, hrun, hall, hown, hb, hkind, hpath, hviolations, hentries⟩

/-- The identifier of the first declaration is declared twice, at the path of its declarator as a
`var` and at its own path as a `let`: the second time nothing is refused and nothing changes. And if
the declaration is registered, the binding has the path of the declarator. -/
theorem registerBinding_again : ∃ t t₁ t₂ record,
    scopeOfBlock (ofArena varsAndBlock (some ⟨10⟩)) = .ok (some ⟨1⟩) t
      ∧ t.ownBinding? ⟨1⟩ "x" = none
      ∧ (∀ p ∈ [⟨1⟩, ⟨2⟩, ⟨3⟩], t.arena.bindingIds (t.node p) true = [("x", [⟨0⟩])])
      ∧ registerBinding ⟨1⟩ .varName ⟨2⟩ t = .ok ⟨⟩ t₁
      ∧ registerBinding ⟨1⟩ .letName ⟨3⟩ t₁ = .ok ⟨⟩ t₁
      ∧ registerBinding ⟨1⟩ .varName ⟨1⟩ t = .ok ⟨⟩ t₂
      ∧ (t₂.ownBinding? ⟨1⟩ "x").bind t₂.binding? = some record ∧ record.path = ⟨2⟩ := by
  obtain ⟨t, hrun, hsize, hnone, hone⟩ := exists_block
  have hdeclarator := hone (⟨2⟩, ⟨0⟩) (by simp) .varName
  have hidentifier := hone (⟨3⟩, ⟨0⟩) (by simp) .letName
  have hok : passes (scopeOfBlock (ofArena varsAndBlock (some ⟨10⟩))) (fun _ t =>
      decide (t.arena.bindingIds (t.node ⟨1⟩) true = [("x", [⟨0⟩])])
        && passes (registerBinding ⟨1⟩ .varName ⟨1⟩ t) fun _ t' =>
          ((t'.ownBinding? ⟨1⟩ "x").bind t'.binding?).any (·.path = ⟨2⟩))
            = true := by decide +kernel
  rw [hrun] at hok
  obtain ⟨hids, hok⟩ := Bool.and_eq_true_iff.1 hok
  obtain ⟨_, t₂, hrun₂, hpath⟩ := ok_of_passes hok
  obtain ⟨record, hrecord, hpath⟩ := (Option.any_eq_true _ _).1 hpath
  obtain ⟨t₁, hrun₁, htouches, hstands⟩ :=
    declareName_first (d := ⟨.varName, ⟨2⟩, ⟨2⟩, ⟨0⟩⟩) hsize hnone
  refine ⟨t, t₁, t₂, record, hrun, hnone, ?_, hdeclarator.registerBinding_eq.trans hrun₁,
    (hidentifier.touches htouches).registerBinding_eq.trans (declareName_again hstands rfl),
    hrun₂, hrecord, of_decide_eq_true hpath⟩
  simp only [List.forall_mem_cons, List.not_mem_nil, IsEmpty.forall_iff, implies_true, and_true]
  exact ⟨of_decide_eq_true hids, hdeclarator.ids, hidentifier.ids⟩

end Tree

end ScopedTree
