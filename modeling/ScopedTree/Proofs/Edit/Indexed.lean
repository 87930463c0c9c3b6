import Mathlib.Data.List.Nodup
import Mathlib.Data.List.Perm.Subperm
import ScopedTree.Proofs.Edit.Consistent

/-!
# Lookups agree

Looking a name up and listing all bindings in sight are walks over the same scopes. While scopes
list a name once at most, both find the nearest live binding of each name, and so does the list of
the bindings of some kinds among these. The latter is part of the former where no binding of the
kinds is shadowed by one of another kind. Scopes list no name twice, whatever is done to a tree:
entries are put in the place of those of the same name, and dropped.

* `Tree.get?_addMissing`, `Tree.filter_addMissing_sublist`   tables over one another;
* `Tree.Offers`, `Tree.Shows`   the bindings that scopes offer, and the nearest of them;
* `Tree.Indexed`                scopes list a name once at most;
* `Tree.Indexed.getBinding?_eq_some_iff`, `Tree.Indexed.get?_visibleBindings_eq_some_iff`   what
  walks find;
* `Tree.Unshadowed`             no binding of the kinds is shadowed by one of another kind;
* `Tree.Indexed.endures`, `Tree.Indexed.rehomes`   edits list no name twice;
* `Tree.indexed_runActions`     nor do any actions;
* `Tree.lookups_runActions`     after them lookups agree;
* `Tree.allBindingsOfKind_shadowed`   but a shadowed binding is listed among those of its kind.
-/

namespace ScopedTree

namespace Table

variable {α : Type} {table : Table α} {name : String} {x : α}

theorem mem_names (h : (name, x) ∈ table) : name ∈ table.names := List.mem_map_of_mem h

theorem get?_append (table entries : Table α) (name : String) :
    get? (table ++ entries) name = (table.get? name).or (entries.get? name) := List.lookup_append

theorem get?_eq_none_iff : table.get? name = none ↔ name ∉ table.names := by
  induction table with
  | nil => simp [names]
  | cons entry table ih =>
    obtain ⟨key, y⟩ := entry
    rw [get?_cons]
    split
    · next heq => simp [names, heq]
    · next hne => simpa [names, hne] using ih

theorem has_eq_true_iff : table.has name = true ↔ name ∈ table.names := by
  rw [← not_iff_not, ← get?_eq_none_iff, Bool.not_eq_true]
  exact Option.isSome_eq_false_iff.trans Option.isNone_iff_eq_none

theorem get?_eq_some_iff (h : table.names.Nodup) :
    table.get? name = some x ↔ (name, x) ∈ table := by
  induction table with
  | nil => simp
  | cons entry table ih =>
    obtain ⟨key, y⟩ := entry
    obtain ⟨hkey, h⟩ := List.nodup_cons.1 h
    rw [get?_cons, List.mem_cons, Prod.mk.injEq]
    split
    · next heq =>
      subst heq
      rw [Option.some_inj, or_iff_left fun hx => hkey (mem_names hx), and_iff_right rfl, eq_comm]
    · next hne => rw [ih h, or_iff_right fun hx => hne hx.1]

theorem put_of_not_mem (h : name ∉ table.names) : table.put name x = table ++ [(name, x)] := by
  induction table with
  | nil => rfl
  | cons entry table ih =>
    obtain ⟨key, y⟩ := entry
    have hkey : key ≠ name := fun heq => h (heq ▸ List.mem_cons_self ..)
    rw [put, if_neg hkey, ih fun hmem => h (List.mem_cons_of_mem _ hmem), List.cons_append]

theorem nodup_names_drop (h : table.names.Nodup) (name : String) : (table.drop name).names.Nodup :=
  h.sublist (List.filter_sublist.map _)

theorem get?_flatMap {β : Type} (l : List β) (f : β → Table α) (name : String) :
    Table.get? (l.flatMap f) name = l.findSome? fun b => (f b).get? name := by
  induction l with
  | nil => rfl
  | cons b l ih =>
    rw [List.flatMap_cons, get?_append, List.findSome?_cons, ih]
    cases (f b).get? name <;> rfl

end Table

namespace Tree

/-! ## tables over one another -/

section Tables

variable {α : Type} {table table' : Table α}

theorem addMissing_cons (table : Table α) (entry : String × α) (entries : Table α) :
    addMissing table (entry :: entries)
      = addMissing (if entry.1 ∈ table.names then table else table ++ [entry]) entries := by
  unfold addMissing
  rw [List.foldl_cons]
  congr 1
  by_cases hname : entry.1 ∈ table.names
  · rw [if_pos hname]
    exact if_pos (Table.has_eq_true_iff.2 hname)
  · rw [if_neg hname]
    exact (if_neg fun h => hname (Table.has_eq_true_iff.1 h)).trans (Table.put_of_not_mem hname)

/-- What is added does not take the place of what is there. -/
theorem get?_addMissing (table entries : Table α) (name : String) :
    (addMissing table entries).get? name = (table.get? name).or (entries.get? name) := by
  induction entries generalizing table with
  | nil => simp [addMissing]
  | cons entry entries ih =>
    rw [addMissing_cons, ih]
    split
    · next hname =>
      rw [Table.get?_cons]
      split
      · next heq =>
        obtain ⟨x, hx⟩ := Option.ne_none_iff_exists'.1 fun h =>
          Table.get?_eq_none_iff.1 h (heq ▸ hname)
        rw [hx, Option.some_or, Option.some_or]
      · rfl
    · rw [Table.get?_append, Option.or_assoc, ← Table.get?_append, List.singleton_append]

theorem nodup_names_addMissing (h : table.names.Nodup) (entries : Table α) :
    (addMissing table entries).names.Nodup := by
  induction entries generalizing table with
  | nil => exact h
  | cons entry entries ih =>
    rw [addMissing_cons]
    refine ih ?_
    split
    · exact h
    · next hname =>
      rw [← Table.put_of_not_mem hname]
      exact Table.nodup_names_put h ..

/-- To leave entries out before is to leave no more of them out than after. -/
theorem filter_addMissing_sublist (keep : String × α → Bool)
    (h : (table.filter keep).Sublist table') (hnames : table'.names ⊆ table.names)
    (entries : Table α) :
    ((addMissing table entries).filter keep).Sublist (addMissing table' (entries.filter keep)) := by
  induction entries generalizing table table' with
  | nil => exact h
  | cons entry entries ih =>
    have hconcat : (table' ++ [entry]).map (·.1) ⊆ (table ++ [entry]).map (·.1) := by
      rw [List.map_append, List.map_append]
      exact List.append_subset.2 ⟨fun _ hmem => List.mem_append_left _ (hnames hmem),
        List.subset_append_right ..⟩
    have hgrows : table.names ⊆ (table ++ [entry]).map (·.1) := by
      rw [List.map_append]
      exact List.subset_append_left ..
    rw [addMissing_cons, List.filter_cons]
    by_cases hname : entry.1 ∈ table.names
    · rw [if_pos hname]
      split
      · rw [addMissing_cons]
        split
        · exact ih h hnames
        · refine ih (h.trans (List.sublist_append_left ..)) (List.Subset.trans hconcat ?_)
          rw [List.map_append]
          exact List.append_subset.2 ⟨List.Subset.refl _, by simpa using hname⟩
      · exact ih h hnames
    · rw [if_neg hname]
      split
      · next hkeep =>
        rw [addMissing_cons, if_neg fun hmem => hname (hnames hmem)]
        refine ih ?_ hconcat
        rw [List.filter_append, List.filter_cons_of_pos hkeep]
        exact h.append_right _
      · next hkeep =>
        refine ih ?_ (List.Subset.trans hnames hgrows)
        rw [List.filter_append, List.filter_cons_of_neg hkeep, List.filter_nil, List.append_nil]
        exact h

end Tables

/-! ## bindings in sight -/

variable {t : Tree} {test : Binding → Bool} {s c : ScopeId} {name : String} {b other : BindingId}
  {kinds : List BindingKind}

def anyBinding (_ : Binding) : Bool := true

def ofKinds (kinds : List BindingKind) (b : Binding) : Bool := kinds.contains b.kind

/-- A scope offers a binding of a name: it lists it, and the binding is alive and passes the test.
-/
def Offers (t : Tree) (test : Binding → Bool) (s : ScopeId) (name : String)
    (b : BindingId) : Prop :=
  (name, b) ∈ (t.scope s).bindings ∧ ∃ record, t.binding? b = some record ∧ test record = true

/-- What is seen of a name from a scope: the binding that is offered nearest to it. -/
def Shows (t : Tree) (test : Binding → Bool) (s : ScopeId) (name : String) (b : BindingId) : Prop :=
  ∃ near c far, t.scopeChain s = near ++ c :: far ∧ t.Offers test c name b
    ∧ ∀ d ∈ near, ∀ other, ¬ t.Offers test d name other

/-- Scopes list a name once at most. -/
def Indexed (t : Tree) : Prop := ∀ s, (t.scope s).bindings.names.Nodup

/-- A name of which a binding of the kinds is in sight is seen as one of these. -/
def Unshadowed (t : Tree) (kinds : List BindingKind) (s : ScopeId) : Prop :=
  ∀ c ∈ t.scopeChain s, ∀ name b, t.Offers (ofKinds kinds) c name b →
    ∀ seen, t.Shows anyBinding s name seen → (t.binding? seen).any (ofKinds kinds) = true

theorem mem_liveEntries_iff : (name, b) ∈ t.liveEntries s test ↔ t.Offers test s name b := by
  unfold liveEntries Offers
  rw [List.mem_filter, Option.any_eq_true]

theorem visibleBindings_eq (t : Tree) (s : ScopeId) (test : Binding → Bool) :
    t.visibleBindings s test = addMissing [] ((t.scopeChain s).flatMap (t.liveEntries · test)) := by
  unfold visibleBindings
  generalize ([] : Table BindingId) = table
  induction t.scopeChain s generalizing table with
  | nil => rfl
  | cons c chain ih =>
    rw [List.foldl_cons, ih, List.flatMap_cons]
    exact List.foldl_append.symm

theorem nodup_names_visibleBindings (t : Tree) (s : ScopeId) (test : Binding → Bool) :
    (t.visibleBindings s test).names.Nodup := by
  rw [visibleBindings_eq]
  have hempty : (Table.names ([] : Table BindingId)).Nodup := List.nodup_nil
  exact nodup_names_addMissing hempty _

theorem liveEntries_filter (t : Tree) (s : ScopeId) (test : Binding → Bool) :
    (t.liveEntries s anyBinding).filter (fun entry => (t.binding? entry.2).any test)
      = t.liveEntries s test := by
  unfold liveEntries
  rw [List.filter_filter]
  refine List.filter_congr fun entry _ => ?_
  cases t.binding? entry.2 <;> simp [anyBinding]

theorem filter_allBindings_sublist (t : Tree) (s : ScopeId) (test : Binding → Bool) :
    ((t.allBindings s).filter fun entry => (t.binding? entry.2).any test).Sublist
    (t.visibleBindings s test) := by
  have hall : t.allBindings s = t.visibleBindings s anyBinding := rfl
  rw [hall, visibleBindings_eq, visibleBindings_eq]
  have hlive : (t.scopeChain s).flatMap (t.liveEntries · test)
      = ((t.scopeChain s).flatMap (t.liveEntries · anyBinding)).filter
        fun entry => (t.binding? entry.2).any test := by
    rw [List.filter_flatMap]
    simp only [liveEntries_filter]
  rw [hlive]
  exact filter_addMissing_sublist _ (List.Sublist.refl _) (List.Subset.refl _) _

theorem Offers.any (h : t.Offers test s name b) : t.Offers anyBinding s name b :=
  ⟨h.1, h.2.imp fun _ hrecord => ⟨hrecord.1, rfl⟩⟩

namespace Indexed

variable (h : t.Indexed)

include h

theorem nodup_names_liveEntries (s : ScopeId) (test : Binding → Bool) :
    (t.liveEntries s test).names.Nodup :=
  (h s).sublist (List.filter_sublist.map _)

theorem get?_liveEntries_eq_some_iff :
    (t.liveEntries s test).get? name = some b ↔ t.Offers test s name b :=
  (Table.get?_eq_some_iff (h.nodup_names_liveEntries s test)).trans mem_liveEntries_iff

theorem ownBinding?_eq_some_iff : t.ownBinding? s name = some b ↔ t.Offers anyBinding s name b := by
  unfold ownBinding? Offers
  rw [Option.filter_eq_some_iff, Table.get?_eq_some_iff (h s), Option.isSome_iff_exists]
  simp [anyBinding]

/-- **Listing finds what is nearest.** -/
theorem get?_visibleBindings_eq_some_iff :
    (t.visibleBindings s test).get? name = some b ↔ t.Shows test s name b := by
  rw [visibleBindings_eq, get?_addMissing, Table.get?_nil, Option.none_or, Table.get?_flatMap,
    List.findSome?_eq_some_iff]
  unfold Shows
  simp only [h.get?_liveEntries_eq_some_iff, Option.eq_none_iff_forall_ne_some, ne_eq]

/-- **Looking a name up finds what is nearest.** -/
theorem getBinding?_eq_some_iff : t.getBinding? s name = some b ↔ t.Shows anyBinding s name b := by
  unfold getBinding? Shows
  rw [List.findSome?_eq_some_iff]
  simp only [h.ownBinding?_eq_some_iff, Option.eq_none_iff_forall_ne_some, ne_eq]

theorem get?_allBindings (s : ScopeId) (name : String) :
    (t.allBindings s).get? name = t.getBinding? s name :=
  Option.ext fun _ => h.get?_visibleBindings_eq_some_iff.trans h.getBinding?_eq_some_iff.symm

theorem shows_unique (hb : t.Shows test s name b) (hother : t.Shows test s name other) :
    b = other :=
  Option.some_inj.1 ((h.get?_visibleBindings_eq_some_iff.2 hb).symm.trans
    (h.get?_visibleBindings_eq_some_iff.2 hother))

theorem exists_shows (hc : c ∈ t.scopeChain s) (hb : t.Offers test c name b) :
    ∃ seen, t.Shows test s name seen := by
  have hsome : ((t.scopeChain s).findSome? fun d => (t.liveEntries d test).get? name).isSome := by
    rw [List.findSome?_isSome_iff]
    exact ⟨c, hc, Option.isSome_of_eq_some (h.get?_liveEntries_eq_some_iff.2 hb)⟩
  obtain ⟨seen, hseen⟩ := Option.isSome_iff_exists.1 hsome
  refine ⟨seen, h.get?_visibleBindings_eq_some_iff.1 ?_⟩
  rw [visibleBindings_eq, get?_addMissing, Table.get?_nil, Option.none_or,
    Table.get?_flatMap, hseen]

/-- **The bindings of some kinds are part of all bindings** if and only if none of them is shadowed
by one of another kind. -/
theorem allBindingsOfKind_eq_iff (s : ScopeId) (kinds : List BindingKind) :
    t.allBindingsOfKind s kinds = (t.allBindings s).filter (fun entry =>
      (t.binding? entry.2).any (ofKinds kinds)) ↔ t.Unshadowed kinds s := by
  have hmem (test : Binding → Bool) (entry : String × BindingId) :
      entry ∈ t.visibleBindings s test ↔ t.Shows test s entry.1 entry.2 :=
    (Table.get?_eq_some_iff (t.nodup_names_visibleBindings s test)).symm.trans
      h.get?_visibleBindings_eq_some_iff
  constructor
  · intro heq c hc name b hb seen hseen
    obtain ⟨nearest, hnearest⟩ := h.exists_shows hc hb
    have hin : (name, nearest) ∈ t.allBindingsOfKind s kinds := (hmem (ofKinds kinds) _).2 hnearest
    rw [heq, List.mem_filter] at hin
    rw [h.shows_unique hseen ((hmem anyBinding _).1 hin.1)]
    exact hin.2
  · intro hshadow
    have hsub : t.allBindingsOfKind s kinds ⊆
        (t.allBindings s).filter fun entry => (t.binding? entry.2).any (ofKinds kinds) := by
      intro entry hentry
      have hshows := (hmem (ofKinds kinds) entry).1 hentry
      obtain ⟨near, c, far, hchain, hoffers, -⟩ := id hshows
      have hc : c ∈ t.scopeChain s := hchain ▸ List.mem_append_right _ (List.mem_cons_self ..)
      -- what is seen of the name is of the kinds, hence no other than this
      obtain ⟨seen, hseen⟩ := h.exists_shows hc hoffers.any
      have hin : (entry.1, seen) ∈ (t.allBindings s).filter fun entry =>
          (t.binding? entry.2).any (ofKinds kinds) :=
        List.mem_filter.2 ⟨(hmem anyBinding _).2 hseen,
          hshadow c hc entry.1 entry.2 hoffers seen hseen⟩
      have hkind := (hmem (ofKinds kinds) _).1
        ((t.filter_allBindings_sublist s (ofKinds kinds)).subset hin)
      obtain rfl : entry.2 = seen := h.shows_unique hshows hkind
      exact hin
    have hnodup : (t.allBindingsOfKind s kinds).Nodup :=
      (t.nodup_names_visibleBindings s (ofKinds kinds)).of_map _
    exact ((t.filter_allBindings_sublist s (ofKinds kinds)).eq_of_length_le
      (List.subperm_of_subset hnodup hsub).length_le).symm

end Indexed

end Tree

/-! ## what is done to a tree -/

open ScopedTree.Tree

namespace Tree

variable {t t' : Tree} {s : ScopeId}

namespace Indexed

theorem congr (h : t.Indexed) (hscopes : t'.scopes = t.scopes) : t'.Indexed := by
  intro c
  unfold scope
  rw [hscopes]
  exact h c

theorem updateScope (h : t.Indexed) (s : ScopeId) {f : ScopeData → ScopeData}
    (hf : ∀ d, d.bindings.names.Nodup → (f d).bindings.names.Nodup) :
    (t.updateScope s f).Indexed := by
  intro c
  rw [scope_updateScope]
  split
  · exact hf _ (h s)
  · exact h c

theorem put (h : t.Indexed) (s : ScopeId) (name : String) (b : BindingId) :
    (t.updateScope s fun d => { d with bindings := d.bindings.put name b }).Indexed :=
  h.updateScope s fun _ hd => Table.nodup_names_put hd name b

theorem drop (h : t.Indexed) (s : ScopeId) (name : String) :
    (t.updateScope s fun d => { d with bindings := d.bindings.drop name }).Indexed :=
  h.updateScope s fun _ hd => Table.nodup_names_drop hd name

theorem pathless : Pathless Indexed := fun _ _ hsame h => h.congr hsame.scopes

theorem noteReference (s : ScopeId) (name : String) : Stays Indexed (Tree.noteReference s name) :=
  stays_modify fun _ h => h.updateScope _ fun _ hd => hd

theorem declareName (s : ScopeId) (kind : BindingKind) (p : PathId) (name : String) (id : NodeId) :
    Stays Indexed (Tree.declareName s kind p name id) := by
  have hmerge (b : BindingId) : Stays Indexed (do
      modify (·.updateBinding b (Binding.merge kind p id))
      Tree.noteReference s name : TreeM Unit) :=
    (stays_modify fun _ h => h.congr rfl).bind fun _ => noteReference s name
  unfold Tree.declareName
  refine stays_get.bind fun t => ?_
  split
  · split
    · exact stays_pure _
    · exact (stays_modify fun t h => (h.congr rfl).put s name _).bind fun _ => noteReference s name
  · split
    · exact stays_pure _
    · split
      · exact (stays_throw _).bind fun _ => hmerge _
      · exact hmerge _

theorem resetScope (s : ScopeId) : Stays Indexed (Tree.resetScope s) := by
  refine stays_modify fun t h => updateScope ?_ s fun d hd => ?_
  · generalize (t.scope s).bindings = table
    induction table generalizing t with
    | nil => exact h
    | cons entry table ih => exact ih (t.destroyBinding entry.2) (h.congr rfl)
  · dsimp only
    split <;> exact List.nodup_nil

theorem retire (h : t.Indexed) (s : ScopeId) (name : String) (b : BindingId) :
    (t.retire s name b).Indexed := by
  have hscope : (t.updateScope s fun d =>
      if d.bindings.get? name == some b then { d with bindings := d.bindings.drop name }
        else d).Indexed := by
    refine h.updateScope s fun d hd => ?_
    split
    · exact Table.nodup_names_drop hd name
    · exact hd
  exact hscope.congr rfl

theorem pushScope (h : t.Indexed) {d : ScopeData} (hd : d.bindings = [])
    {scopeOfNode : IndexTable ScopeId} :
    ({ t with scopes := t.scopes.push d, scopeOfNode } : Tree).Indexed := by
  intro c
  unfold scope
  dsimp only
  rw [Array.getElem?_push]
  split
  · rw [Option.getD_some, hd]
    exact List.nodup_nil
  · exact h c

theorem names : Names Indexed where
  paths := pathless.charted
  scope _ s _ hf h := h.updateScope s fun d hd => by rwa [(hf d).2]
  record _ _ _ _ h := h.congr rfl
  declareName := declareName
  resetScope := resetScope
  retire _ s name b h := h.retire s name b
  newScope _ _ _ hd _ h := h.pushScope hd

theorem crawls : Crawls Indexed 0 where
  __ := names
  stack := pathless.stack
  next _ _ := Nat.zero_le _
  depth _ _ h := h.congr rfl
  push _ _ _ h := h.congr rfl
  pop _ _ _ h := h.congr rfl
  update _ _ _ _ _ h := h.congr rfl

theorem foldl_updateScope (h : t.Indexed) {f : ScopeData → ScopeData}
    (hf : ∀ d, (f d).bindings = d.bindings) (scopes : List ScopeId) :
    (scopes.foldl (fun t s => t.updateScope s f) t).Indexed := by
  induction scopes generalizing t with
  | nil => exact h
  | cons s scopes ih => exact ih (h.updateScope s fun d hd => by rwa [hf d])

theorem cleared (h : t.Indexed) (d : Departure) : (d.cleared t).Indexed := by
  have hmarked : (markRemovedBelow d (t.arena.preorder (some d.old)) t).Indexed :=
    pathless _ _ (sameButPaths_markRemovedBelow d _ t) h
  have hdetached := hmarked.foldl_updateScope (f := ({ · with detached := true }))
    (fun _ => rfl) (d.gone t)
  refine hdetached.foldl_updateScope (fun x => ?_) (d.kept t)
  split <;> rfl

/-- **Edits list no name twice.** -/
theorem endures : Endures Indexed 0 where
  toCrawls := crawls
  pathless := pathless
  nodes _ _ _ h := h.congr rfl
  registry _ _ _ _ h := h.congr rfl
  counter _ p _ _ _ _ h := h.updateScope p fun _ hd => hd
  queue _ _ _ _ h := h.congr rfl
  forget d t h := by
    rw [invalidate_eq]
    exact (names.settled d t (h.cleared d)).congr rfl

/-- **A binding that comes to belong elsewhere is not listed twice.** -/
theorem rehomes : Rehomes Indexed where
  rebind s id old new := by
    refine (stays_modify fun t h => ?_).bind fun _ => noteReference s new
    have hscope : (t.updateScope s fun d => { d with
        bindings := (if d.bindings.get? old == some id then d.bindings.drop old
          else d.bindings).put new id }).Indexed := by
      refine h.updateScope s fun d hd => Table.nodup_names_put ?_ new id
      split
      · exact Table.nodup_names_drop hd old
      · exact hd
    exact hscope.congr rfl
  moveBinding s name target := by
    refine stays_modify fun t h => ?_
    split
    · exact h
    · split
      · exact h
      · exact ((h.drop _ name).congr rfl).put target name _

theorem learns : Learns Indexed 0 where
  toCrawls := crawls
  remember _ _ _ h := h.congr rfl

end Indexed

end Tree

theorem Action.indexed (action : Action) : Stays Indexed action.run := by
  cases action with
  | nodes a => exact stays_modify fun _ h => h.congr rfl
  | change c => exact Indexed.endures.change c fun _ => Indexed.rehomes
  | call c => exact Indexed.endures.call c
  | registerBinding s kind p => exact Indexed.crawls.registerBinding s kind p
  | registerDeclaration s p => exact Indexed.crawls.registerDeclaration s p
  | registerViolation s p => exact Indexed.crawls.registerViolation s p
  | evaluate p => exact (Indexed.learns.evaluate p).discard
  | binding b c => exact stays_modify fun _ h => h.congr rfl

namespace Tree

variable {t : Tree}

theorem Indexed.runActions (h : t.Indexed) (actions : List Action) :
    (t.runActions actions).Indexed := by
  induction actions generalizing t with
  | nil => exact h
  | cons action actions ih => exact ih (action.indexed t h)

/-- No scope of a tree lists a name twice, whatever is done to the tree. -/
theorem indexed_runActions (a : Arena) (root : Option NodeId) (options : Options)
    (actions : List Action) :
    ((ofArena a root options).runActions actions).Indexed := by
  refine Indexed.runActions (fun s => ?_) actions
  rw [scope_of_size_le (Nat.zero_le _)]
  exact List.nodup_nil

/-- **Lookups agree.** After any actions, failed ones too, to look a name up from a scope is to find
its nearest live binding. The list of all bindings has each name once, with the binding that is
looked up under it; the list of those of some kinds has each name once, with the nearest binding of
the kinds. Each binding of the kinds that is seen is in the latter, in the same order, and these are
all of them if and only if no binding of the kinds is shadowed by one of another kind. -/
theorem lookups_runActions (a : Arena) (root : Option NodeId) (options : Options)
    (actions : List Action) (s : ScopeId) (kinds : List BindingKind) :
    let t := (ofArena a root options).runActions actions
    let seenOfKinds := (t.allBindings s).filter fun entry =>
      (t.binding? entry.2).any (ofKinds kinds)
    (∀ name b, t.getBinding? s name = some b ↔ t.Shows anyBinding s name b)
    ∧ (t.allBindings s).names.Nodup
    ∧ (∀ name, (t.allBindings s).get? name = t.getBinding? s name)
    ∧ (t.allBindingsOfKind s kinds).names.Nodup
    ∧ (∀ name b, (t.allBindingsOfKind s kinds).get? name = some b
      ↔ t.Shows (ofKinds kinds) s name b)
    ∧ seenOfKinds.Sublist (t.allBindingsOfKind s kinds)
    ∧ (t.allBindingsOfKind s kinds = seenOfKinds ↔ t.Unshadowed kinds s) := by
  intro t seenOfKinds
  have h : t.Indexed := indexed_runActions a root options actions
  exact ⟨fun _ _ => h.getBinding?_eq_some_iff, t.nodup_names_visibleBindings s _,
    h.get?_allBindings s,
    t.nodup_names_visibleBindings s _, fun _ _ => h.get?_visibleBindings_eq_some_iff,
    t.filter_allBindings_sublist s _, h.allBindingsOfKind_eq_iff s kinds⟩

def shadowedVar : Arena := Arena.runAll [
  .alloc .identifier [.str "x", .node none],
  .alloc .variableDeclarator [.node (some ⟨0⟩), .node none],
  .alloc .variableDeclaration [.str "var", .list [some ⟨1⟩]],
  .alloc .identifier [.str "x", .node none],
  .alloc .variableDeclarator [.node (some ⟨3⟩), .node none],
  .alloc .variableDeclaration [.str "let", .list [some ⟨4⟩]],
  .alloc .blockStatement [.list [], .list [some ⟨5⟩]],
  .alloc .program [.str "module", .list [], .list [some ⟨2⟩, some ⟨6⟩]]]

/-- From the block the inner `x` is seen, and nothing declared by `var`; the outer one is listed all
the same. -/
theorem allBindingsOfKind_shadowed :
    let t := (ofArena shadowedVar (some ⟨7⟩) {}).runActions [.call .root,
      .call (.edit (.scope ⟨0⟩))]
    t.allBindingsOfKind ⟨1⟩ [.varName] = [("x", ⟨0⟩)] ∧ t.getBinding? ⟨1⟩ "x" = some ⟨1⟩
      ∧ (t.allBindings ⟨1⟩).filter (fun entry => (t.binding? entry.2).any (ofKinds [.varName]))
      = [] := by
  decide +kernel

end Tree

end ScopedTree
