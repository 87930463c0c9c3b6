import ScopedTree.Path.Resolve
import ScopedTree.Proofs.Path.Completion
import ScopedTree.Proofs.Path.Order
import ScopedTree.Proofs.Typing.Later

/-!
# What names stand for

What a path resolves to is the same whenever it is asked for after the crawl, since it can be said
by the nodes of the crawled tree alone.

* `Tree.bindingAt?`        the binding of a name where a node stands;
* `Tree.sourceOf`          what a node stands for;
* `Tree.Later.ends_resolve`   **to resolve a path finds what its node stands for**.
-/

namespace ScopedTree

def NodeType.requires (ty : NodeType) (key : String) : Bool := (ty.field? key).any (·.kind == .node)

theorem hasChild_of_requires {ty : NodeType} {key : String} (h : ty.requires key = true) :
    ty.hasChild key = true := by
  obtain ⟨f, hf, hkind⟩ := (Option.any_eq_true _ _).1 h
  exact (Option.any_eq_true _ _).2 ⟨f, hf, by rw [Bool.or_eq_true]; exact .inl hkind⟩

namespace Tree

/-- The binding of a name where a node stands. -/
def bindingAt? (t : Tree) (n : NodeId) (name : String) : Option Binding :=
  (t.pathOf? (some n)).bind fun p => (t.path p).scope.bind fun s => t.bindingOf? s name

section Sources

variable (t : Tree) (source : NodeId → NodeId)

/-- What a binding that is never written stands for, unless the node is a part of that. -/
def sourceOfBinding? (p : PathId) (b : Binding) : Option NodeId :=
  if !b.constant || b.kind == .imported || b.path == p then none
  else (t.node b.path).bind fun d =>
    if (t.find p fun q => t.node q == some (source d)).isSome then none else some (source d)

def sourceStep? (n : NodeId) : Option NodeId :=
  match t.arena.type? (some n) with
  | some .variableDeclarator =>
    if t.arena.is (t.arena.child? (some n) "id") .identifier
      then (t.arena.child? (some n) "init").map source
    else none
  | some .typeCastExpression => (t.arena.child? (some n) "expression").map source
  | some .identifier =>
    ((t.pathOf? (some n)).filter fun p => t.isReferencedIdentifier p).bind fun p =>
      (t.bindingAt? n ((t.arena.name? (some n)).getD "")).bind (t.sourceOfBinding? source p)
  | _ => none

end Sources

/-- What a node stands for, if anything else, at most so many steps on, where the nodes in `met`
were met. -/
def sourceLevels? (t : Tree) : Nat → List NodeId → NodeId → Option NodeId
  | 0, _, _ => none
  | fuel + 1, met, n =>
    if met.contains n || met.length ≥ Limits.inference then none
    else t.sourceStep? (fun m => (t.sourceLevels? fuel (n :: met) m).getD m) n

/-- What a node stands for. -/
def sourceOf (t : Tree) (n : NodeId) : NodeId :=
  (t.sourceLevels? (Limits.inference + 1) [] n).getD n

open Arena

variable {t₀ t t' : Tree} {r n m : NodeId} {p q : PathId} {o : Option NodeId} {met : List PathId}
  {ns : List NodeId} {source? : NodeId → Option NodeId} {above : List NodeId} {s : ScopeId}
  {name : String}

/-! ## children -/

theorem shouldVisit_of_identifier {a : Arena} (hn : a.is (some n) .identifier) :
    collectorDispatch.shouldVisit a n = true := by
  obtain ⟨o, ho, hty⟩ := is_some.1 hn
  have hhandles : collectorDispatch.handles o.type = true :=
    List.any_eq_true.2 ⟨_, .tail _ (.tail _ (.tail _ (.head _))), by rw [hty]; decide⟩
  simp [Dispatch.shouldVisit, ho, hhandles]

theorem isReferencedIdentifier_of_identifier (hp : t.node p = some n)
    (hn : t.arena.is (some n) .identifier) :
    t.isReferencedIdentifier p = t.isReferenced p := by
  obtain ⟨o, ho, hty⟩ := is_some.1 hn
  unfold isReferencedIdentifier
  simp [hp, ho, Arena.is, Arena.type?, hty]

namespace Later

variable (h : Later r t₀ t)

include h

theorem child? (hp : t.node p = some n) (key : String) :
    t.arena.child? (some n) key = t₀.arena.child? (some n) key := h.retains.child? (h.lt hp) key

theorem type? (hp : t.node p = some n) : t.arena.type? (some n) = t₀.arena.type? (some n) :=
  h.retains.type? (h.lt hp)

theorem exists_get? (hp : t.node p = some n) {ty : NodeType}
    (hty : t₀.arena.type? (some n) = some ty) :
    ∃ o, t.arena.get? n = some o ∧ o.type = ty := by
  rw [← h.type? hp] at hty
  obtain ⟨o, ho, rfl⟩ := Option.map_eq_some_iff.1 hty
  exact ⟨o, ho, rfl⟩

theorem run_child (hp : t.node p = some n) {ty : NodeType} (hty : t₀.arena.type? (some n) = some ty)
    {key : String} (hkey : ty.hasChild key = true) :
    t.arena.child (some n) key = .ok (t₀.arena.child? (some n) key) := by
  obtain ⟨o, ho, rfl⟩ := h.exists_get? hp hty
  obtain ⟨f, hf, hkind⟩ := (Option.any_eq_true _ _).1 hkey
  rw [← h.child? hp]
  exact Moored.child_of_field h.coherent.arena.shaped ho hf (by simpa using hkind)

theorem ends_child (hp : t.node p = some n) {ty : NodeType}
    (hty : t₀.arena.type? (some n) = some ty) {key : String} (hkey : ty.hasChild key = true)
    (hdot : '.' ∉ key.toList) :
    Ends (follow p key t)
      (fun q t' => t.Uncovers t' r ∧ t'.Below p q (t₀.arena.child? (some n) key)
        ∧ t'.slot q = .field key)
      fun _ _ => False := by
  obtain ⟨o, ho, rfl⟩ := h.exists_get? hp hty
  rw [← h.child? hp]
  exact ends_follow_child h.coherent ho hp hkey hdot

theorem is_child (n : NodeId) (key : String) (ty : NodeType) :
    t.arena.is (t₀.arena.child? (some n) key) ty = t₀.arena.is
    (t₀.arena.child? (some n) key) ty := by
  cases hc : t₀.arena.child? (some n) key with
  | none => rfl
  | some c => exact h.retains.is (h.start.arena.owned.owner_of_child n c
    (mem_children_of_child? hc)).lt ty

theorem required (hp : t.node p = some n) {ty : NodeType} (hty : t₀.arena.type? (some n) = some ty)
    {key : String} (hkey : ty.requires key = true) :
    ∃ m, t₀.arena.child? (some n) key = some m := by
  obtain ⟨o, ho, rfl⟩ := h.exists_get? hp hty
  obtain ⟨f, hf, hkind⟩ := (Option.any_eq_true _ _).1 hkey
  obtain ⟨o', ho', hfilled⟩ := h.complete n ((h.lt hp).trans_le h.retains.size)
  obtain rfl := Option.some.inj (ho.symm.trans ho')
  have hsome := hfilled f (mem_fields_of_field? hf) (by simpa using hkind)
  rw [field?_name hf] at hsome
  obtain ⟨m, hm⟩ := Option.isSome_iff_exists.1 hsome
  refine ⟨m, ?_⟩
  rw [← h.child? hp]
  simp only [Arena.child?, look_some, ho, Option.bind_some, hm]

theorem ends_required (hp : t.node p = some n) {ty : NodeType}
    (hty : t₀.arena.type? (some n) = some ty) {key : String} (hkey : ty.requires key = true)
    (hdot : '.' ∉ key.toList) :
    ∃ m, t₀.arena.child? (some n) key = some m ∧ Ends (follow p key t)
      (fun q t' => t.Uncovers t' r ∧ t'.Below p q (some m) ∧ t'.slot q = .field key)
      fun _ _ => False := by
  obtain ⟨m, hm⟩ := h.required hp hty hkey
  have hend := h.ends_child hp hty (hasChild_of_requires hkey) hdot
  rw [hm] at hend
  exact ⟨m, hm, hend⟩

/-! ## scopes and bindings -/

variable (hc : Crawled t₀.arena r t₀)

include hc

theorem scopeOf (hp : t.node p = some n) (hne : n ≠ r)
    (hvisit : collectorDispatch.shouldVisit t₀.arena n = true) :
    ∃ s, t₀.node p = some n ∧ (t₀.path p).scope = some s ∧ Tree.scopeOf p t = .ok (some s) t := by
  obtain ⟨_, hl, -⟩ := hc.linked
  obtain ⟨above, hu, -⟩ := h.exists_under hp
  obtain ⟨q, s, hq, hs⟩ := hc.entered n above hu hne hvisit
  obtain rfl := h.coherent.unique q p n ((h.node hq.lt).trans hq.node) hp
  refine ⟨s, hq.node, hs, ?_⟩
  have hlive : t.liveScope? q = some s := by
    rw [← hs, ← hl.inScope.liveScope? hq.onLine]
    unfold Tree.liveScope? Tree.scope
    rw [h.names.scope, h.names.scopes]
  unfold Tree.scopeOf scopeOfWith
  rw [run_get_bind, hlive]
  rfl

/-- The binding of a name where such a node stands. -/
theorem bindingAt? (hp : t.node p = some n) (hne : n ≠ r)
    (hvisit : collectorDispatch.shouldVisit t₀.arena n = true) (name : String) :
    ∃ s, Tree.scopeOf p t = .ok s t ∧ (s.bind fun s => t.bindingOf? s name)
      = t₀.bindingAt? n name := by
  obtain ⟨s, hp, hs, hrun⟩ := h.scopeOf hc hp hne hvisit
  refine ⟨some s, hrun, ?_⟩
  unfold Tree.bindingAt?
  rw [pathOf?_eq h.start hp]
  dsimp only [Option.bind_some]
  rw [hs]
  exact h.bindingOf?

end Later

theorem Crawled.node_of_bindingAt? (hc : Crawled t₀.arena r t₀) {b : Binding}
    (hb : t₀.bindingAt? n name = some b) :
    ∃ d, t₀.node b.path = some d ∧ t₀.arena.Sites d b.name b.identifier := by
  obtain ⟨_, hl, -⟩ := hc.linked
  obtain ⟨p, -, hb⟩ := Option.bind_eq_some_iff.1 hb
  obtain ⟨s, -, hb⟩ := Option.bind_eq_some_iff.1 hb
  obtain ⟨id, -, hb⟩ := Option.bind_eq_some_iff.1 hb
  exact hl.bound.sited id b hb

/-! ## resolving -/

/-- What is found of a path is the path of what a node stands for, if that is anything. -/
def Traces (r : NodeId) (x : ResolveM (Option PathId)) (met : List PathId) (t : Tree)
    (o : Option NodeId) : Prop :=
  Ends (x met t) (fun y t' => t.Uncovers t' r ∧ y.1.map t'.node = o.map some) fun _ _ => False

theorem traces_none (ht : t.Coherent r) : Traces r (pure none) met t none := ⟨.refl ht, rfl⟩

theorem traces_tree {f : Tree → ResolveM (Option PathId)} (hf : Traces r (f t) met t o) :
    Traces r (getThe Tree >>= f) met t o := hf

theorem ends_lift_bind {α β : Type} {x : TreeM α} {f : α → ResolveM β}
    {Q : β × List PathId → Tree → Prop} {E : TreeError → Tree → Prop} :
    Ends ((liftM x >>= f) met t) Q E ↔ Ends (x t) (fun y t' => Ends (f y met t') Q E) E := by
  show Ends (((x >>= fun y => pure (y, met)) >>= fun y => f y.1 y.2) t) Q E ↔ _
  rw [ends_bind, ends_bind]
  rfl

theorem ends_ofShape {α : Type} {x : α} {Q : α → Tree → Prop} {E : TreeError → Tree → Prop} :
    Ends (TreeM.ofShape (.ok x) t) Q E ↔ Q x t := Iff.rfl

theorem Traces.after {x : ResolveM (Option PathId)} (hx : Traces r x met t' o)
    (hext : t.Uncovers t' r) :
    Ends (x met t') (fun y t'' => t.Uncovers t'' r ∧ y.1.map t''.node = o.map some)
    fun _ _ => False :=
  Ends.mono (show Ends (x met t') _ _ from hx) fun _ _ ⟨hext', hy⟩ => ⟨hext.trans hext', hy⟩

theorem traces_orSelf {resolve : PathId → ResolveM (Option PathId)} (hp : t.node p = some n)
    (hx : Traces r (resolve p) met t o) : Traces r (resolveOrSelf resolve p) met t
    (some (o.getD n)) := by
  refine ends_bind.2 (hx.mono fun y t' ⟨hext, hy⟩ => ⟨hext, ?_⟩)
  obtain ⟨y, met'⟩ := y
  show some (t'.node (y.getD p)) = some (some (o.getD n))
  cases y with
  | none =>
    cases o with
    | none => exact congrArg some ((hext.grows.node p (lt_of_node hp)).trans hp)
    | some m => cases hy
  | some q =>
    cases o with
    | none => cases hy
    | some m => exact hy

section Forms

variable (hc : Crawled t₀.arena r t₀) {resolve : PathId → ResolveM (Option PathId)}
  (hresolve : ∀ t' q m, t.Uncovers t' r → t'.node q = some m →
    Traces r (resolve q) met t' (source? m))
  (h : Later r t₀ t) (hp : t.node p = some n)

include hresolve h hp

theorem traces_declarator (hn : t₀.arena.type? (some n) = some .variableDeclarator) :
    Traces r (resolveDeclarator resolve p) met t
    (t₀.sourceStep? (fun m => (source? m).getD m) n) := by
  have hid := h.is_child n "id" .identifier
  unfold resolveDeclarator sourceStep?
  rw [hn]
  dsimp only
  refine traces_tree ?_
  rw [hp, h.run_child hp hn (by decide)]
  refine ends_lift_bind.2 (ends_ofShape.2 ?_)
  rw [hid]
  cases t₀.arena.is (t₀.arena.child? (some n) "id") .identifier with
  | false => exact traces_none h.coherent
  | true =>
    refine ends_lift_bind.2
      ((h.ends_child hp hn (by decide) (by decide)).mono fun q t' ⟨hext, hq, _⟩ => ?_)
    refine Traces.after (traces_tree ?_) hext
    rw [hq.node]
    cases hinit : t₀.arena.child? (some n) "init" with
    | none => exact traces_none hext.coherent
    | some m =>
      rw [hinit] at hq
      exact traces_orSelf hq.node (hresolve t' q m hext hq.node)

theorem traces_typeCast (hn : t₀.arena.type? (some n) = some .typeCastExpression) :
    Traces r (do resolveOrSelf resolve (← follow p "expression")) met t
      (t₀.sourceStep? (fun m => (source? m).getD m) n) := by
  have hkey : NodeType.requires .typeCastExpression "expression" = true := by decide
  obtain ⟨m, hm, hend⟩ := h.ends_required hp hn hkey (by decide)
  unfold sourceStep?
  rw [hn]
  dsimp only
  rw [hm]
  refine ends_lift_bind.2 (hend.mono fun q t' ⟨hext, hq, _⟩ => ?_)
  exact Traces.after (traces_orSelf hq.node (hresolve t' q m hext hq.node)) hext

include hc in
theorem traces_identifier (hn : t₀.arena.type? (some n) = some .identifier)
    (hroot : t₀.arena.is (some r) .program) :
    Traces r (if t.isReferencedIdentifier p then resolveIdentifier resolve p else pure none) met t
      (t₀.sourceStep? (fun m => (source? m).getD m) n) := by
  have hid : t₀.arena.is (some n) .identifier := by
    unfold Arena.is
    rw [hn]
    rfl
  have hne : n ≠ r := by
    rintro rfl
    unfold Arena.is at hroot
    rw [hn] at hroot
    cases hroot
  have hvisit := shouldVisit_of_identifier hid
  obtain ⟨-, hp₀, -, -⟩ := h.scopeOf hc hp hne hvisit
  obtain ⟨s, hrun, hbinding⟩ := h.bindingAt? hc hp hne hvisit ((t₀.arena.name? (some n)).getD "")
  have hread : t.isReferencedIdentifier p = t₀.isReferencedIdentifier p := by
    rw [isReferencedIdentifier_of_identifier hp₀ hid, ← h.isReferenced (lt_of_node hp₀)]
    exact isReferencedIdentifier_of_identifier hp ((h.retains.is (h.lt hp) _).trans hid)
  unfold sourceStep?
  rw [hn, pathOf?_eq h.start hp₀, hread]
  dsimp only
  cases hcase : t₀.isReferencedIdentifier p with
  | false =>
    rw [Option.filter_some_neg (by simp [hcase])]
    exact traces_none h.coherent
  | true =>
    rw [Option.filter_some_pos hcase, Option.bind_some, if_pos rfl]
    unfold resolveIdentifier
    refine traces_tree (ends_lift_bind.2 ?_)
    rw [hrun]
    refine traces_tree ?_
    have hname : t.arena.name? (some n) = t₀.arena.name? (some n) := h.retains.name? (h.lt hp)
    rw [hp, hname, hbinding]
    cases hb : t₀.bindingAt? n ((t₀.arena.name? (some n)).getD "") with
    | none => exact traces_none h.coherent
    | some b =>
      obtain ⟨d, hd, -⟩ := hc.node_of_bindingAt? hb
      dsimp only [Option.bind_some]
      unfold sourceOfBinding?
      by_cases hplain : (!b.constant || b.kind == .imported || b.path == p) = true
      · rw [if_pos hplain, if_pos hplain]
        exact traces_none h.coherent
      · rw [if_neg hplain, if_neg hplain, hd, Option.bind_some]
        have hd' := (h.node (lt_of_node hd)).trans hd
        refine ends_bind.2 ((traces_orSelf hd' (hresolve t b.path d (.refl h.coherent) hd')).mono
          ?_)
        rintro ⟨y, met'⟩ t' ⟨hext, hy⟩
        obtain ⟨q, rfl, hq⟩ := Option.map_eq_some_iff.1 hy
        refine Traces.after (traces_tree ?_) hext
        have hfind := (h.uncovers hext).find_node hp₀ (some ((source? d).getD d))
        rw [Option.bind_some, hq, hfind]
        cases (t₀.find p fun q => t₀.node q == some ((source? d).getD d)).isSome with
        | true => exact traces_none hext.coherent
        | false => exact ⟨.refl hext.coherent, congrArg some hq⟩

end Forms

theorem forall₂_node {ps : List PathId} (hps : List.Forall₂ (fun q m => t.node q = some m) ps ns)
    (hext : t.Uncovers t' r) : List.Forall₂ (fun q m => t'.node q = some m) ps ns :=
  hps.imp fun _ _ hq => (hext.grows.node _ (lt_of_node hq)).trans hq

theorem contains_met (ht : t.Coherent r) (hp : t.node p = some n)
    (hmet : List.Forall₂ (fun q m => t.node q = some m) met ns) :
    met.contains p = ns.contains n := by
  rw [Bool.eq_iff_iff, List.contains_iff_mem, List.contains_iff_mem]
  constructor
  · intro hmem
    obtain ⟨m, hm, hpm⟩ := forall₂_exists_of_mem_left hmet hmem
    rwa [Option.some.inj (hp.symm.trans hpm)]
  · intro hmem
    obtain ⟨q, hq, hqn⟩ := forall₂_exists_of_mem_right hmet hmem
    rwa [ht.unique p q n hp hqn]

theorem run_resolveLevels (intoLiterals : Bool) (fuel : Nat) (p : PathId) (met : List PathId)
    (t : Tree) :
    resolveLevels intoLiterals (fuel + 1) p met t
      = if met.contains p || met.length ≥ Limits.inference then .ok (none, met) t
        else resolveNode (resolveLevels intoLiterals fuel) intoLiterals p (p :: met) t := by
  rw [resolveLevels]
  show (if _ then _ else _ : ResolveM _) met t = _
  split <;> rfl

variable (hc : Crawled t₀.arena r t₀) (hroot : t₀.arena.is (some r) .program)

include hc hroot

theorem traces_resolveLevels (fuel : Nat) (h : Later r t₀ t) (hp : t.node p = some n)
    (hmet : List.Forall₂ (fun q m => t.node q = some m) met ns) :
    Traces r (resolveLevels false fuel p) met t (t₀.sourceLevels? fuel ns n) := by
  induction fuel generalizing t p n met ns with
  | zero => exact traces_none h.coherent
  | succ fuel ih =>
    unfold Traces
    rw [run_resolveLevels, contains_met h.coherent hp hmet, hmet.length_eq, sourceLevels?]
    split
    · exact traces_none h.coherent
    · have hresolve (t' : Tree) (q : PathId) (m : NodeId) (hext : t.Uncovers t' r)
          (hq : t'.node q = some m) :
          Traces r (resolveLevels false fuel q) (p :: met) t' (t₀.sourceLevels? fuel (n :: ns) m) :=
        ih (h.uncovers hext) hq (forall₂_node (.cons hp hmet) hext)
      show Traces r (resolveNode (resolveLevels false fuel) false p) (p :: met) t _
      unfold resolveNode
      refine ends_lift_bind.2 ?_
      rw [resync_eq h.coherent p]
      refine traces_tree ?_
      unfold nodeType?
      rw [hp, h.type? hp]
      split
      · next hn => exact traces_declarator hresolve h hp hn
      · next hn => exact traces_typeCast hresolve h hp hn
      · next hn => exact traces_identifier hc hresolve h hp hn hroot
      · next hn =>
        unfold sourceStep?
        rw [hn]
        exact traces_none h.coherent
      · next hdecl hcast hid hmember =>
        have hnone (source : NodeId → NodeId) : t₀.sourceStep? source n = none := by
          unfold sourceStep?
          split <;> first | rfl | contradiction
        rw [hnone]
        exact traces_none h.coherent

/-- **To resolve a path finds what its node stands for.** -/
theorem Later.ends_resolve (h : Later r t₀ t) (hp : t.node p = some n) :
    Ends (resolve p false t) (fun q t' => t.Uncovers t' r ∧ t'.node q = some (t₀.sourceOf n)) fun _
    _ => False := by
  unfold resolve
  refine ends_bind.2 ((traces_resolveLevels hc hroot (Limits.inference + 1) h hp .nil).mono ?_)
  rintro ⟨y, met⟩ t' ⟨hext, hy⟩
  refine ⟨hext, ?_⟩
  unfold sourceOf
  cases hsource : t₀.sourceLevels? (Limits.inference + 1) [] n with
  | none =>
    rw [hsource, Option.map_none, Option.map_eq_none_iff] at hy
    obtain rfl : y = none := hy
    exact (hext.grows.node p (lt_of_node hp)).trans hp
  | some m =>
    rw [hsource] at hy
    obtain ⟨q, hq, hm⟩ := Option.map_eq_some_iff.1 hy
    obtain rfl : y = some q := hq
    exact hm

end Tree

end ScopedTree
