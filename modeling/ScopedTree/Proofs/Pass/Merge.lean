import Mathlib.Data.List.Nodup
import ScopedTree.Pass.Plugin
import ScopedTree.Proofs.Outcome

/-!
# Merged visitors

The handlers of merged visitors are dispatched as those of the visitors one after another. A key is
expanded: its handler goes on the list of each node type that a part of the key stands for, under
the check of the part.

* `VisitKey.expand`, `VisitKey.named`   the types of a key, and the keys of a name;
* `VisitorEntry.serves`      what an entry puts on the list of a type;
* `Visitor.dispatch_cases`   how the keys of a visitor are read;
* `Visitor.merge_assoc`      merging is associative;
* `Visitor.dispatch_merged`  the dispatch of merged visitors.
-/

namespace ScopedTree

variable {σ : Type}

theorem NodeType.mem_all (ty : NodeType) : ty ∈ NodeType.all := by
  cases ty <;> decide

theorem NodeType.nodup_all : NodeType.all.Nodup := by
  decide +kernel

theorem Alias.mem_members {group : Alias} {ty : NodeType} :
    ty ∈ group.members ↔ ty.isA group = true := by
  unfold Alias.members
  rw [List.mem_filter, and_iff_right ty.mem_all]

theorem Alias.nodup_members (group : Alias) : group.members.Nodup :=
  NodeType.nodup_all.filter _

/-! ## keys -/

def VirtualType.types : VirtualType → List NodeType
  | referencedIdentifier => [.identifier, .jsxIdentifier]
  | bindingIdentifier => [.identifier]
  | scope => Alias.members .scopable
  | blockScoped => [.functionDeclaration, .classDeclaration, .variableDeclaration]
  | var => [.variableDeclaration]
  | referenced => NodeType.all

namespace VisitKey

variable {key : VisitKey} {part : String} {ty : NodeType}

/-- The node types a key stands for. -/
def expand : VisitKey → List NodeType
  | ofType key => key.expand
  | ofCheck check => check.types

theorem mem_expand : ty ∈ key.expand ↔ key.covers ty = true := by
  cases key with
  | ofType key =>
    cases key with
    | ofType t =>
      show ty ∈ [t] ↔ (t == ty) = true
      rw [List.mem_singleton, beq_iff_eq, eq_comm]
    | ofGroup group =>
      show ty ∈ group.members ↔ ty.isA group = true
      exact Alias.mem_members
  | ofCheck check =>
    cases check with
    | scope =>
      show ty ∈ Alias.members .scopable ↔ ty.isA .scopable = true
      exact Alias.mem_members
    | referenced => exact iff_of_true ty.mem_all rfl
    | _ => simp [expand, VirtualType.types, covers, VirtualType.mayCover, or_assoc]

theorem nodup_expand (key : VisitKey) : key.expand.Nodup := by
  cases key with
  | ofType key =>
    cases key with
    | ofType t => exact List.nodup_singleton t
    | ofGroup group => exact group.nodup_members
  | ofCheck check =>
    cases check with
    | scope =>
      show (Alias.members .scopable).Nodup
      exact Alias.nodup_members _
    | referenced => exact NodeType.nodup_all
    | _ => decide

theorem filter_expand (key : VisitKey) (ty : NodeType) :
    key.expand.filter (· == ty) = if key.covers ty then [ty] else [] := by
  rw [List.filter_beq]
  split
  · next h =>
    rw [List.count_eq_one_of_mem key.nodup_expand (mem_expand.2 h)]
    rfl
  · next h =>
    rw [List.count_eq_zero_of_not_mem fun hmem => h (mem_expand.1 hmem)]
    rfl

def name : VisitKey → String
  | ofCheck check => check.name
  | ofType (.ofType ty) => ty.name
  | ofType (.ofGroup group) => group.name

def all : List VisitKey :=
  VirtualType.all.map ofCheck ++ NodeType.all.map (fun ty => ofType (.ofType ty))
    ++ Alias.all.map fun group => ofType (.ofGroup group)

theorem mem_all (key : VisitKey) : key ∈ all := by
  unfold all
  cases key with
  | ofType key =>
    cases key with
    | ofType ty =>
      exact List.mem_append_left _ (List.mem_append_right _ (List.mem_map_of_mem ty.mem_all))
    | ofGroup group =>
      have hgroup : group ∈ Alias.all := by cases group <;> decide
      exact List.mem_append_right _ (List.mem_map_of_mem hgroup)
  | ofCheck check =>
    have hcheck : check ∈ VirtualType.all := by cases check <;> decide
    exact List.mem_append_left _ (List.mem_append_left _ (List.mem_map_of_mem hcheck))

theorem ofName?_name_all : (all.all fun key => ofName? key.name == some key) = true := by
  decide +kernel

theorem ofName?_name (key : VisitKey) : ofName? key.name = some key :=
  beq_iff_eq.1 (List.all_eq_true.1 ofName?_name_all key key.mem_all)

theorem of_find? {α : Type} {name : α → String} {xs : List α} {x : α}
    (h : xs.find? (name · == part) = some x) : name x = part := by
  simpa using List.find?_some h

theorem name_of_ofName? (h : ofName? part = some key) : key.name = part := by
  unfold ofName? TypeKey.ofName? at h
  cases hcheck : VirtualType.ofName? part with
  | some check =>
    rw [hcheck] at h
    obtain rfl := Option.some.inj h
    have hname : check.name = part := of_find? hcheck
    exact hname
  | none =>
    rw [hcheck] at h
    cases hty : NodeType.ofName? part with
    | some ty =>
      rw [hty] at h
      obtain rfl := Option.some.inj h
      have hname : ty.name = part := of_find? hty
      exact hname
    | none =>
      rw [hty] at h
      obtain ⟨key, hkey, rfl⟩ := Option.map_eq_some_iff.1 h
      obtain ⟨group, hgroup, rfl⟩ := Option.map_eq_some_iff.1 hkey
      have hname : group.name = part := of_find? hgroup
      exact hname

theorem nodup_all : all.Nodup := by
  have hchecks : VirtualType.all.Nodup := by decide
  have hgroups : Alias.all.Nodup := by decide
  unfold all
  refine List.Nodup.append (List.Nodup.append ?_ ?_ ?_) ?_ ?_
  · exact hchecks.map fun _ _ h => VisitKey.ofCheck.inj h
  · exact NodeType.nodup_all.map fun _ _ h => TypeKey.ofType.inj (VisitKey.ofType.inj h)
  · simp [List.Disjoint]
  · exact hgroups.map fun _ _ h => TypeKey.ofGroup.inj (VisitKey.ofType.inj h)
  · simp only [List.disjoint_left, List.mem_append, List.mem_map]
    rintro _ (⟨_, _, rfl⟩ | ⟨_, _, rfl⟩) ⟨_, _, h⟩ <;> cases h

/-- The keys of a name. -/
def named (part : String) : List VisitKey := all.filter fun key => key.name == part

theorem named_eq (part : String) : named part = (ofName? part).toList := by
  unfold named
  cases h : ofName? part with
  | none =>
    refine List.filter_eq_nil_iff.2 fun key _ hname => ?_
    rw [← beq_iff_eq.1 hname, ofName?_name] at h
    cases h
  | some key =>
    have hkey (other : VisitKey) : (other.name == part) = (other == key) := by
      rw [Bool.eq_iff_iff, beq_iff_eq, beq_iff_eq]
      constructor
      · rintro rfl
        exact Option.some.inj ((ofName?_name other).symm.trans h)
      · rintro rfl
        exact name_of_ofName? h
    rw [List.filter_congr fun other _ => hkey other, List.filter_beq,
      List.count_eq_one_of_mem nodup_all key.mem_all]
    rfl

end VisitKey

/-! ## entries -/

namespace VisitorEntry

variable {e : VisitorEntry σ}

/-- The parts of the key of an entry, without the blanks around them. -/
def keyParts (e : VisitorEntry σ) : List String :=
  e.key.elim [] fun key => (parts '|' key).map trimBlank

/-- Whether a part of a key is the name of no key. -/
def isUnknown (part : String) : Bool := (VisitKey.named part).isEmpty

/-- The handler of an entry under each part of its key. -/
def typed (e : VisitorEntry σ) : List (DispatchEntry σ) :=
  e.keyParts.flatMap fun part => (VisitKey.named part).map fun key => ⟨key, e.phase, e.run⟩

/-- The handler of an entry without a key. -/
def general (e : VisitorEntry σ) : List (Phase × Handler σ) :=
  if e.key.isNone then [(e.phase, e.run)] else []

/-- What an entry puts on the list of a type: its handler under the check of each part of its key,
as often as the type stands in the expansion of the part. -/
def serves (e : VisitorEntry σ) (ty : NodeType) (phase : Phase) :
    List (Option VirtualType × Handler σ) :=
  if e.phase = phase then
    e.keyParts.flatMap fun part => (VisitKey.named part).flatMap fun key =>
      (key.expand.filter (· == ty)).map fun _ => (key.check?, e.run)
  else []

theorem mapM_parts (phase : Phase) (run : Handler σ) (texts : List String) :
    (texts.mapM fun part => let part := trimBlank part
      match VisitKey.ofName? part with
      | some key => .ok ⟨key, phase, run⟩
      | none => .error (.unknownVisitorKey part) : Except TreeError (List (DispatchEntry σ)))
    = match (texts.map trimBlank).find? isUnknown with
      | some part => .error (.unknownVisitorKey part)
      | none => .ok ((texts.map trimBlank).flatMap fun part =>
          (VisitKey.named part).map fun key => ⟨key, phase, run⟩) := by
  induction texts with
  | nil => rfl
  | cons text texts ih =>
    rw [List.mapM_cons, ih, List.map_cons, List.find?_cons, List.flatMap_cons]
    cases hkey : VisitKey.ofName? (trimBlank text) with
    | none =>
      have hunknown : isUnknown (trimBlank text) = true := by
        unfold isUnknown
        rw [VisitKey.named_eq, hkey]
        rfl
      rw [hunknown]
      dsimp only
      rw [hkey]
      rfl
    | some key =>
      have hknown : isUnknown (trimBlank text) = false := by
        unfold isUnknown
        rw [VisitKey.named_eq, hkey]
        rfl
      rw [hknown, VisitKey.named_eq, hkey]
      dsimp only
      rw [hkey]
      cases (texts.map trimBlank).find? isUnknown <;> rfl

theorem dispatch_cases {key : String} (hkey : e.key = some key) :
    e.dispatch key = match e.keyParts.find? isUnknown with
      | some part => .error (.unknownVisitorKey part)
      | none => .ok e.typed := by
  have hparts : e.keyParts = (parts '|' key).map trimBlank := by simp [keyParts, hkey]
  unfold dispatch typed
  refine (mapM_parts e.phase e.run (parts '|' key)).trans ?_
  rw [hparts]

theorem push_cases (d : Dispatch σ) (e : VisitorEntry σ) :
    d.push e = match e.keyParts.find? isUnknown with
      | some part => .error (.unknownVisitorKey part)
      | none => .ok { d with general := d.general ++ e.general, typed := d.typed ++ e.typed } := by
  unfold Dispatch.push
  cases hkey : e.key with
  | none => simp [keyParts, typed, general, hkey]
  | some key =>
    have hgeneral : e.general = [] := by simp [general, hkey]
    dsimp only
    rw [dispatch_cases hkey, hgeneral, List.append_nil]
    cases e.keyParts.find? isUnknown <;> rfl

theorem serves_eq (e : VisitorEntry σ) (ty : NodeType) (phase : Phase) : e.serves ty phase
    = (e.typed.filter fun x => x.phase == phase && x.key.covers ty).map fun x =>
    (x.key.check?, x.run) := by
  unfold serves typed
  rw [List.filter_flatMap, List.map_flatMap]
  split
  · next hphase =>
    refine List.flatMap_congr fun part _ => ?_
    rw [VisitKey.named_eq]
    cases VisitKey.ofName? part with
    | none => rfl
    | some key =>
      cases hcovers : key.covers ty <;> simp [VisitKey.filter_expand, hcovers, hphase]
  · next hphase =>
    symm
    rw [List.flatMap_eq_nil_iff]
    intro part _
    simp [hphase]

end VisitorEntry

/-! ## dispatch -/

open VisitorEntry

theorem Dispatch.foldlM_push_cases (entries : List (VisitorEntry σ)) (d : Dispatch σ) :
    entries.foldlM Dispatch.push d = match (entries.flatMap keyParts).find? isUnknown with
      | some part => .error (.unknownVisitorKey part)
      | none => .ok { d with
          general := d.general ++ entries.flatMap VisitorEntry.general
          typed := d.typed ++ entries.flatMap VisitorEntry.typed } := by
  induction entries generalizing d with
  | nil => simp [pure, Except.pure]
  | cons e entries ih =>
    rw [List.foldlM_cons, push_cases, List.flatMap_cons, List.find?_append]
    cases e.keyParts.find? isUnknown with
    | some part => rfl
    | none =>
      refine (ih _).trans ?_
      simp

namespace Visitor

variable {v w : Visitor σ} {ty : NodeType}

/-- The parts of all keys of a visitor, in order of registration. -/
def keyParts (v : Visitor σ) : List String := v.entries.flatMap VisitorEntry.keyParts

/-- **How the keys of a visitor are read**: the first unknown part is an error, and without one each
entry adds its handlers. -/
theorem dispatch_cases (v : Visitor σ) : v.dispatch = match v.keyParts.find? isUnknown with
    | some part => .error (.unknownVisitorKey part)
    | none => .ok ⟨v.entries.flatMap general, v.entries.flatMap typed, v.denied⟩ := by
  unfold Visitor.dispatch
  rw [Dispatch.foldlM_push_cases]
  rfl

theorem mem_addTypes {types more : List NodeType} :
    ty ∈ addTypes types more ↔ ty ∈ types ∨ ty ∈ more := by
  unfold addTypes
  induction more generalizing types with
  | nil => simp
  | cons x more ih =>
    rw [List.foldl_cons, ih, List.mem_cons]
    split
    · next hx =>
      have hx : x ∈ types := List.contains_iff_mem.1 hx
      constructor
      · rintro (h | h)
        · exact .inl h
        · exact .inr (.inr h)
      · rintro (h | rfl | h)
        · exact .inl h
        · exact .inl hx
        · exact .inr h
    · rw [List.mem_append, List.mem_singleton, or_assoc]

theorem addTypes_cons_of_mem {types more : List NodeType} (h : ty ∈ types) :
    addTypes types (ty :: more) = addTypes types more := by
  unfold addTypes
  rw [List.foldl_cons, if_pos (List.contains_iff_mem.2 h)]

theorem addTypes_cons_of_not_mem {types more : List NodeType} (h : ty ∉ types) :
    addTypes types (ty :: more) = addTypes (types ++ [ty]) more := by
  unfold addTypes
  rw [List.foldl_cons, if_neg fun hmem => h (List.contains_iff_mem.1 hmem)]

theorem addTypes_append (types more rest : List NodeType) :
    addTypes types (more ++ rest) = addTypes (addTypes types more) rest :=
  List.foldl_append ..

theorem addTypes_addTypes (types more rest : List NodeType) :
    addTypes (addTypes types more) rest = addTypes types (addTypes more rest) := by
  induction rest generalizing more with
  | nil => rfl
  | cons ty rest ih =>
    by_cases h : ty ∈ more
    · rw [addTypes_cons_of_mem h, addTypes_cons_of_mem (mem_addTypes.2 (.inr h))]
      exact ih more
    · rw [addTypes_cons_of_not_mem h, ← ih, addTypes_append]
      rfl

/-- Merging is associative. -/
theorem merge_assoc (u v w : Visitor σ) : (u.merge v).merge w = u.merge (v.merge w) := by
  unfold merge
  congr 1
  · exact List.append_assoc ..
  · exact addTypes_addTypes ..

/-! ## reading the keys of one visitor -/

theorem exists_dispatch_iff : (∃ d, v.dispatch = .ok d) ↔ ∀ part ∈ v.keyParts,
    isUnknown part = false := by
  rw [v.dispatch_cases]
  cases hfind : v.keyParts.find? isUnknown with
  | none =>
    rw [List.find?_eq_none] at hfind
    exact iff_of_true ⟨_, rfl⟩ fun part hpart => by simpa using hfind part hpart
  | some part =>
    refine iff_of_false (fun ⟨d, h⟩ => nomatch h) fun h => ?_
    have hunknown := List.find?_some hfind
    rw [h part (List.mem_of_find?_eq_some hfind)] at hunknown
    cases hunknown

theorem dispatch_eq_error_iff {err : TreeError} : v.dispatch = .error err
    ↔ ∃ part, v.keyParts.find? isUnknown = some part ∧ err = .unknownVisitorKey part := by
  rw [v.dispatch_cases]
  cases v.keyParts.find? isUnknown with
  | none => exact iff_of_false (fun h => nomatch h) fun ⟨_, h, _⟩ => nomatch h
  | some part => simp [eq_comm]

theorem eq_of_dispatch_ok {d : Dispatch σ} (h : v.dispatch = .ok d) :
    d = ⟨v.entries.flatMap general, v.entries.flatMap typed, v.denied⟩ := by
  rw [v.dispatch_cases] at h
  cases hfind : v.keyParts.find? isUnknown with
  | none =>
    rw [hfind] at h
    exact (Except.ok.inj h).symm
  | some part =>
    rw [hfind] at h
    cases h

theorem entries_of_dispatch_ok {d : Dispatch σ} (h : v.dispatch = .ok d) (ty : NodeType)
    (phase : Phase) :
    (d.entries ty phase).map (fun x => (x.key.check?, x.run))
      = v.entries.flatMap fun e => e.serves ty phase := by
  rw [eq_of_dispatch_ok h]
  unfold Dispatch.entries
  rw [List.filter_flatMap, List.map_flatMap]
  exact List.flatMap_congr fun e _ => (e.serves_eq ty phase).symm

theorem generalHandlers_of_dispatch_ok {d : Dispatch σ} (h : v.dispatch = .ok d) (phase : Phase) :
    d.generalHandlers phase
      = (v.entries.filter fun e => e.key.isNone && e.phase == phase).map VisitorEntry.run := by
  rw [eq_of_dispatch_ok h]
  unfold Dispatch.generalHandlers
  dsimp only
  induction v.entries with
  | nil => rfl
  | cons e entries ih =>
    rw [List.flatMap_cons, List.filter_append, List.map_append, ih, List.filter_cons]
    cases hkey : e.key with
    | none => by_cases hphase : e.phase = phase <;> simp [general, hkey, hphase]
    | some key => simp [general, hkey]

/-! ## merged visitors -/

/-- Merges further visitors into a first one, one after another. -/
def mergeAll (first : Visitor σ) (others : List (Visitor σ)) : Visitor σ := others.foldl merge first

theorem entries_mergeAll (first : Visitor σ) (others : List (Visitor σ)) :
    (first.mergeAll others).entries = (first :: others).flatMap Visitor.entries := by
  unfold mergeAll
  induction others generalizing first with
  | nil => simp
  | cons v others ih =>
    rw [List.foldl_cons, ih]
    simp [merge]

theorem mem_denied_mergeAll (first : Visitor σ) (others : List (Visitor σ)) :
    ty ∈ (first.mergeAll others).denied ↔ ∃ v ∈ first :: others, ty ∈ v.denied := by
  unfold mergeAll
  induction others generalizing first with
  | nil => simp
  | cons v others ih =>
    rw [List.foldl_cons, ih]
    simp [merge, mem_addTypes, or_assoc]

theorem keyParts_mergeAll (first : Visitor σ) (others : List (Visitor σ)) :
    (first.mergeAll others).keyParts = (first :: others).flatMap keyParts := by
  unfold keyParts
  rw [entries_mergeAll, List.flatMap_assoc]

/-- **The dispatch of merged visitors.** Their keys can be read exactly if those of each can; else
the error names the first unknown part of all. Then a node type has the handlers of all entries one
after another, each as often as the type stands in the expansion of the parts of its key; handlers
without a key follow each other likewise, and what one visitor leaves out is left out. So merging is
associative. -/
theorem dispatch_merged (first : Visitor σ) (others : List (Visitor σ)) :
    ((∃ d, (first.mergeAll others).dispatch = .ok d) ↔ ∀ v ∈ first :: others, ∃ d,
      v.dispatch = .ok d)
    ∧ (∀ err, (first.mergeAll others).dispatch = .error err ↔ ∃ part,
      ((first :: others).flatMap keyParts).find? isUnknown = some part
      ∧ err = .unknownVisitorKey part)
    ∧ (∀ d, (first.mergeAll others).dispatch = .ok d →
      (∀ ty phase, (d.entries ty phase).map (fun x => (x.key.check?, x.run))
        = (first :: others).flatMap fun v => v.entries.flatMap fun e => e.serves ty phase)
      ∧ (∀ phase, d.generalHandlers phase = (first :: others).flatMap fun v =>
        (v.entries.filter fun e => e.key.isNone && e.phase == phase).map VisitorEntry.run)
      ∧ ∀ ty, d.isDenied ty = true ↔ ∃ v ∈ first :: others, ty ∈ v.denied)
    ∧ ∀ u v w : Visitor σ, ((u.merge v).merge w).dispatch = (u.merge (v.merge w)).dispatch := by
  refine ⟨?_, fun err => ?_, fun d hd => ⟨fun ty phase => ?_, fun phase => ?_, fun ty => ?_⟩,
    fun u v w => congrArg Visitor.dispatch (merge_assoc u v w)⟩
  · simp only [exists_dispatch_iff, keyParts_mergeAll, List.mem_flatMap]
    constructor
    · intro h v hv part hpart
      exact h part ⟨v, hv, hpart⟩
    · rintro h part ⟨v, hv, hpart⟩
      exact h v hv part hpart
  · rw [dispatch_eq_error_iff, keyParts_mergeAll]
  · rw [entries_of_dispatch_ok hd, entries_mergeAll, List.flatMap_assoc]
  · rw [generalHandlers_of_dispatch_ok hd, entries_mergeAll, List.filter_flatMap, List.map_flatMap]
  · rw [← mem_denied_mergeAll, eq_of_dispatch_ok hd]
    exact List.contains_iff_mem

/-- A visitor for statements and identifiers that leaves class bodies out. -/
def statementsVisitor : Visitor Unit :=
  (({} : Visitor Unit).enter "Statement|Identifier" fun _ => pure ()).deny .classBody

/-- A visitor for nodes that own a scope, and once more for blocks. -/
def scopesVisitor : Visitor Unit :=
  ({} : Visitor Unit).enter "Scope | BlockStatement" fun _ => pure ()

/-- Merged, the two have three handlers for a block: that of the first as it is a statement, and
that of the second twice, under the check for scopes and without it. -/
theorem dispatch_statementsAndScopes :
    ∃ d, (statementsVisitor.mergeAll [scopesVisitor]).dispatch = .ok d
    ∧ (d.entries .blockStatement .enter).map (fun x => x.key.check?) = [none, some .scope, none]
    ∧ d.isDenied .classBody = true := by
  obtain ⟨hok, -, hall, -⟩ := dispatch_merged statementsVisitor [scopesVisitor]
  obtain ⟨d, hd⟩ := hok.2 fun v hv => exists_dispatch_iff.2 (by
    rcases List.mem_cons.1 hv with rfl | hv
    · decide +kernel
    · rw [List.mem_singleton.1 hv]
      decide +kernel)
  obtain ⟨hentries, -, hdenied⟩ := hall d hd
  refine ⟨d, hd, ?_, (hdenied _).2 ⟨statementsVisitor, List.mem_cons_self .., by decide⟩⟩
  have hchecks := congrArg (List.map Prod.fst) (hentries .blockStatement .enter)
  rw [List.map_map] at hchecks
  refine hchecks.trans ?_
  decide +kernel

end Visitor

theorem runPlugins_eq (plugins : List (Plugin σ)) (steps : Nat) : runPlugins plugins steps
    = match (({} : Visitor σ).mergeAll (plugins.map Plugin.visitor)).dispatch with
      | .ok dispatch => dispatch.traverse steps
      | .error err => throw err := by
  have hmerged : ({} : Visitor σ).mergeAll (plugins.map Plugin.visitor)
      = plugins.foldl (fun v plugin => v.merge plugin.visitor) {} := List.foldl_map
  rw [hmerged]
  rfl

end ScopedTree
