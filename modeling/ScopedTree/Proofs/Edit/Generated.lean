import ScopedTree.Proofs.Edit.Changes
import ScopedTree.Proofs.Edit.Hangs
import ScopedTree.Proofs.Scope.Crawl

/-!
# Generated names

A crawl forgets which names were generated, and so does the removal of a binding. But the counters
of a scope never go back, and a name tells its base and attempt, so no name is generated twice.
Trees that share a registry do not even share names.

* `Tree.Recalls`           no counter goes back, and claimed names stay claimed;
* `Tree.Recalls.endures`   whatever is done to a tree;
* `Tree.Spent`             names that do not come up again;
* `Tree.issued`, `Tree.issuedShared`   the names that are generated in a run;
* `Tree.issued_distinct`   they are all distinct.
-/

namespace ScopedTree

namespace Tree

variable {t₀ t t' : Tree} {s p : ScopeId} {uid : String}

/-- No counter goes back, and claimed names stay claimed. -/
structure Recalls (t t' : Tree) : Prop where
  counter : ∀ p base, t.uidCounter p base ≤ t'.uidCounter p base
  registry : ∀ names, t.options.registry = some names →
    ∃ names', t'.options.registry = some names' ∧ names ⊆ names'

theorem uidCounter_of_size_le (h : t.scopes.size ≤ p.index) (base : String) :
    t.uidCounter p base = 0 := by
  unfold uidCounter
  rw [scope_of_size_le h]
  rfl

namespace Recalls

protected theorem refl (t : Tree) : t.Recalls t :=
  ⟨fun _ _ => Nat.le_refl _, fun names h => ⟨names, h, List.Subset.refl _⟩⟩

theorem congr (h : t₀.Recalls t) (hc : ∀ p base, t'.uidCounter p base = t.uidCounter p base)
    (hr : t'.options = t.options) : t₀.Recalls t' where
  counter p base := (h.counter p base).trans_eq (hc p base).symm
  registry := by
    rw [hr]
    exact h.registry

theorem congr_scopes (h : t₀.Recalls t) (hs : t'.scopes = t.scopes) (hr : t'.options = t.options) :
    t₀.Recalls t' := h.congr (uidCounter_congr hs) hr

theorem pushScope (h : t₀.Recalls t) (n : NodeId) (d : ScopeData) : t₀.Recalls { t with
    scopes := t.scopes.push d
    scopeOfNode := t.scopeOfNode.put n.index ⟨t.scopes.size⟩ } := by
  refine ⟨fun p base => ?_, h.registry⟩
  by_cases hp : p.index < t.scopes.size
  · refine (h.counter p base).trans_eq
      (congrArg (fun d : ScopeData => (d.uidCounters.get? base).getD 0) ?_)
    show t.scopes[p.index]?.getD _ = (t.scopes.push d)[p.index]?.getD _
    rw [Array.getElem?_push_lt hp, Array.getElem?_eq_getElem hp]
  · have hzero := h.counter p base
    rw [uidCounter_of_size_le (Nat.le_of_not_lt hp) base] at hzero
    exact hzero.trans (Nat.zero_le _)

theorem count (h : t₀.Recalls t) (p : ScopeId) (base : String) {n : Nat}
    (uids : ScopeData → List String) (hn : t.uidCounter p base ≤ n) :
    t₀.Recalls (t.updateScope p fun d =>
      { d with uidCounters := d.uidCounters.put base n, uids := uids d }) := by
  refine ⟨fun q other => (h.counter q other).trans ?_, h.registry⟩
  unfold uidCounter
  rw [scope_updateScope]
  split
  · next hq =>
    rw [hq.1, Table.get?_put]
    split
    · next hbase =>
      subst hbase
      exact hn
    · exact Nat.le_refl _
  · exact Nat.le_refl _

theorem pathless (t₀ : Tree) : Pathless t₀.Recalls :=
  fun _ _ hsame h => h.congr_scopes hsame.scopes hsame.options

theorem tableless (t₀ : Tree) : Tableless t₀.Recalls where
  paths := (pathless t₀).charted
  scope _ _ _ hf h :=
    h.congr (fun p base => uidCounter_updateScope _ _ p base fun d => congrArg (·.2) (hf d)) rfl
  bindings _ _ _ h := h.congr_scopes rfl rfl
  newScope _ n d _ h := h.pushScope n d

theorem crawls (t₀ : Tree) : Crawls t₀.Recalls 0 where
  __ := (tableless t₀).names
  stack := (pathless t₀).stack
  next _ _ := Nat.zero_le _
  depth _ _ h := h.congr_scopes rfl rfl
  push _ _ _ h := h.congr_scopes rfl rfl
  pop _ _ _ h := h.congr_scopes rfl rfl
  update _ _ _ _ _ h := h.congr_scopes rfl rfl

theorem invalidate (h : t₀.Recalls t) (d : Departure) : t₀.Recalls (Tree.invalidate d t) := by
  have hcleared : t₀.Recalls (d.cleared t) := by
    refine h.congr (fun p base => ?_) (cleared_eq d t).options
    by_cases hp : p.index < t.scopes.size
    · unfold uidCounter
      rw [scope_cleared d t hp]
    · have hp := Nat.le_of_not_lt hp
      rw [uidCounter_of_size_le hp, uidCounter_of_size_le (by rwa [size_cleared])]
  rw [invalidate_eq]
  exact ((crawls t₀).settled d t hcleared).congr_scopes rfl rfl

/-- **Whatever is done to a tree, no counter goes back.** -/
theorem endures (t₀ : Tree) : Endures t₀.Recalls 0 where
  toCrawls := crawls t₀
  pathless := pathless t₀
  nodes _ _ _ h := h.congr_scopes rfl rfl
  registry t names name hr h := by
    refine ⟨h.counter, fun names₀ hr₀ => ⟨_, rfl, ?_⟩⟩
    obtain ⟨names', hr', hsub⟩ := h.registry names₀ hr₀
    cases hr.symm.trans hr'
    exact List.Subset.trans hsub (List.subset_append_left ..)
  counter _ p base _ uids hn h := h.count p base uids hn
  queue _ _ _ _ h := h.congr_scopes rfl rfl
  forget d _ h := h.invalidate d

end Recalls

/-! ## names that were used up -/

/-- A name that was tried for a base of an outermost scope, and is not tried again. -/
def Spent (t : Tree) (p : ScopeId) (uid : String) : Prop :=
  ∃ base n, IsUidBase base ∧ uid = uidCandidate base n ∧ n < t.uidCounter p base

theorem Recalls.spent (h : t.Recalls t') (hs : t.Spent p uid) : t'.Spent p uid := by
  obtain ⟨base, n, hb, rfl, hn⟩ := hs
  exact ⟨base, n, hb, rfl, hn.trans_le (h.counter p base)⟩

def outermost? (t : Tree) (s : ScopeId) : Option ScopeId :=
  if (t.programScope s).index < t.scopes.size then some (t.programScope s) else none

/-- **A generated name was not used up before, and is from then on.** -/
theorem spent_generateUid {name : String} (h : generateUid s name t = .ok uid t')
    (hp : t.outermost? s = some p) : ¬ t.Spent p uid ∧ t'.Spent p uid := by
  obtain ⟨hlt, hp⟩ : (t.programScope s).index < t.scopes.size ∧ t.programScope s = p := by
    unfold outermost? at hp
    split at hp
    · next hlt => exact ⟨hlt, Option.some.inj hp⟩
    · cases hp
  subst hp
  obtain ⟨n, t₁, hn, hclaim, rfl, rfl⟩ := (uidSearch_generateUid s name t).of_ok h
  have hbase := isUidBase_uidBase name
  constructor
  · rintro ⟨base, m, hb, heq, hm⟩
    obtain ⟨rfl, rfl⟩ := hbase.candidate_inj hb heq
    exact absurd hm (Nat.not_lt.2 hn)
  · refine ⟨uidBase name, n, hbase, rfl, ?_⟩
    have hscopes := scopes_claim hclaim
    obtain ⟨t₂, -, hsize, -, -, hrun⟩ :=
      reserve_eq s (uidBase name) (uidCandidate (uidBase name) n) (n + 1) t₁
    rw [hrun, programScope_congr (fun c => congrArg (·.parent) (scope_congr hscopes c))]
    unfold uidCounter
    rw [scope_updateScope, if_pos ⟨rfl, by rwa [hsize, hscopes]⟩, Table.get?_put, if_pos rfl]
    exact Nat.lt_succ_self n

theorem claimed_generateUid {name : String} {names : List String}
    (h : generateUid s name t = .ok uid t') (hr : t.options.registry = some names) :
    uid ∉ names ∧ ∃ names', t'.options.registry = some names' ∧ uid ∈ names' := by
  obtain ⟨n, t₁, -, hclaim, -, rfl⟩ := (uidSearch_generateUid s name t).of_ok h
  rcases claim_cases uid t with ⟨hnone, -⟩ | ⟨names₀, hr₀, ⟨-, hclaim'⟩ | ⟨hmem, hclaim'⟩⟩
  · cases hr.symm.trans hnone
  · cases hclaim.symm.trans hclaim'
  · cases hr.symm.trans hr₀
    cases hclaim.symm.trans hclaim'
    refine ⟨hmem, names ++ [uid], ?_, List.mem_append_right _ (List.mem_singleton_self _)⟩
    obtain ⟨t₂, -, -, hoptions, -, hrun⟩ := reserve_eq s (uidBase name) uid (n + 1)
      { t with options := { t.options with registry := some (names ++ [uid]) } }
    rw [hrun]
    exact congrArg Options.registry hoptions

end Tree

/-! ## runs -/

open ScopedTree.Tree

namespace Change

variable {t : Tree} {s : ScopeId} {name uid : String}

def call? (t : Tree) : Change → Option (ScopeId × String)
  | generate s name => some (s, name)
  | declareNew s name => some (s, name)
  | rename s old none => (t.bindingOf? s old).map fun _ => (s, old)
  | _ => none

/-- The name that is generated so, with the outermost scope around the place. -/
def issued? (t : Tree) (c : Change) : Option (Option ScopeId × String) :=
  (c.call? t).bind fun (s, name) =>
    match generateUid s name t with
    | .ok uid _ => some (t.outermost? s, uid)
    | .error _ _ => none

theorem exists_of_issued? {c : Change} {o : Option ScopeId} (h : c.issued? t = some (o, uid)) :
    ∃ s name t₁, generateUid s name t = .ok uid t₁ ∧ t.outermost? s = o
      ∧ t₁.Recalls (final (c.run t)) := by
  obtain ⟨⟨s, name⟩, hcall, h⟩ := Option.bind_eq_some_iff.1 h
  dsimp only at h
  cases hrun : generateUid s name t with
  | error e t₁ =>
    rw [hrun] at h
    cases h
  | ok uid' t₁ =>
    rw [hrun] at h
    cases h
    refine ⟨s, name, t₁, hrun, rfl, ?_⟩
    have hkeeps := Recalls.endures t₁
    have hafter {α : Type} {f : String → TreeM α} (hf : ∀ y, Stays t₁.Recalls (f y)) :
        t₁.Recalls (final ((generateUid s name >>= f) t)) := by
      rw [run_bind_of_ok hrun]
      exact hf uid t₁ (.refl t₁)
    cases c with
    | generate s name =>
      cases hcall
      rw [run, final_discard, hrun]
      exact .refl t₁
    | declareNew s name =>
      cases hcall
      rw [run, final_discard]
      have hedits := hkeeps.edits
      exact hafter fun _ => (hedits.edit (m := 0) _).bind fun _ =>
        (hedits.declare (m := 0) _ _ _ _ _).stays.bind fun _ => hedits.edit (m := 0) _
    | rename s old new =>
      cases new with
      | some new => cases hcall
      | none =>
        obtain ⟨b, hb, hcall⟩ := Option.map_eq_some_iff.1 hcall
        cases hcall
        obtain ⟨id, hid, hb⟩ := Option.bind_eq_some_iff.1 hb
        have hrename : Tree.rename s name none t
            = (generateUid s name >>= fun new => renameBinding id b name new) t := by
          unfold Tree.rename
          rw [run_get_bind, hid]
          dsimp only [Option.bind_some]
          rw [hb]
          rfl
        rw [run, final_discard, hrename]
        exact hafter fun new =>
          (hkeeps.bears.renameBinding (fun _ => (Recalls.tableless t₁).rehomes) () id b
          name new).stays
    | edit e => cases hcall
    | crawl s => cases hcall
    | declare s id init kind unique => cases hcall
    | removeBinding s name => cases hcall
    | removeOwnBinding s name => cases hcall
    | moveBinding s name target => cases hcall
    | traverse v steps => cases hcall

end Change

namespace Tree

/-- The names that are generated in a run, each with the outermost scope around its place. -/
def issued : List Change → Tree → List (Option ScopeId × String)
  | [], _ => []
  | c :: cs, t => (c.issued? t).toList ++ issued cs (final (c.run t))

/-- The names that are generated in runs on trees that share a registry. -/
def issuedShared {ι : Type} [DecidableEq ι] : List (ι × Change) → (ι → Tree) → List String →
    List String
  | [], _, _ => []
  | (i, c) :: cs, trees, names =>
    let t := { trees i with options := { (trees i).options with registry := some names } }
    let t' := final (c.run t)
    ((c.issued? t).map (·.2)).toList
      ++ issuedShared cs (Function.update trees i t') (t'.options.registry.getD names)

theorem issued_spent (cs : List Change) (t : Tree) :
    ((issued cs t).Pairwise fun x y => x.1.isSome → x.1 = y.1 → x.2 ≠ y.2)
      ∧ ∀ p uid, (some p, uid) ∈ issued cs t → ¬ t.Spent p uid := by
  induction cs generalizing t with
  | nil => exact ⟨.nil, fun p uid h => nomatch h⟩
  | cons c cs ih =>
    obtain ⟨hpairs, hfresh⟩ := ih (final (c.run t))
    have hrecalls := (Recalls.endures t).change c (fun _ => (Recalls.tableless t).rehomes) t
      (.refl t)
    unfold issued
    cases hissued : c.issued? t with
    | none => exact ⟨hpairs, fun p uid hmem hs => hfresh p uid hmem (hrecalls.spent hs)⟩
    | some x =>
      obtain ⟨o, uid⟩ := x
      obtain ⟨s, name, t₁, hrun, ho, hlater⟩ := Change.exists_of_issued? hissued
      refine ⟨List.pairwise_cons.2 ⟨fun y hy hsome heq hname => ?_, hpairs⟩,
        fun p uid' hmem hs => ?_⟩
      · obtain ⟨p, hp⟩ := Option.isSome_iff_exists.1 hsome
        have hspent := (spent_generateUid hrun (ho.trans hp)).2
        refine hfresh p uid ?_ (hlater.spent hspent)
        rw [← hp, show (o, uid) = y from Prod.ext heq hname]
        exact hy
      · rcases List.mem_cons.1 hmem with heq | hmem
        · cases heq
          exact (spent_generateUid hrun ho).1 hs
        · exact hfresh p uid' hmem (hrecalls.spent hs)

theorem issuedShared_nodup {ι : Type} [DecidableEq ι] (cs : List (ι × Change)) (trees : ι → Tree)
    (names : List String) :
    (issuedShared cs trees names).Nodup ∧ (issuedShared cs trees names).Disjoint names := by
  induction cs generalizing trees names with
  | nil => exact ⟨.nil, List.disjoint_nil_left names⟩
  | cons x cs ih =>
    obtain ⟨i, c⟩ := x
    unfold issuedShared
    dsimp only
    generalize ht : ({ trees i with
      options := { (trees i).options with registry := some names } } : Tree) = t
    have hr : t.options.registry = some names := by
      rw [← ht]
    obtain ⟨names', hr', hsub⟩ :=
      ((Recalls.endures t).change c (fun _ => (Recalls.tableless t).rehomes) t (.refl t)).registry
      names hr
    rw [hr', Option.getD_some]
    obtain ⟨hnodup, hfresh⟩ := ih (Function.update trees i (final (c.run t))) names'
    cases hissued : c.issued? t with
    | none => exact ⟨hnodup, List.disjoint_of_subset_right hsub hfresh⟩
    | some x =>
      obtain ⟨o, uid⟩ := x
      obtain ⟨s, name, t₁, hrun, -, hlater⟩ := Change.exists_of_issued? hissued
      obtain ⟨hnot, names₁, hr₁, hmem⟩ := claimed_generateUid hrun hr
      obtain ⟨names₂, hr₂, hsub₂⟩ := hlater.registry names₁ hr₁
      cases hr'.symm.trans hr₂
      refine ⟨List.nodup_cons.2 ⟨fun h => hfresh h (hsub₂ hmem), hnodup⟩, ?_⟩
      exact List.disjoint_cons_left.2 ⟨hnot, List.disjoint_of_subset_right hsub hfresh⟩

/-- **No name is generated twice.** In any run on a tree in which names are generated for scopes
under one outermost scope, from any base names, while scopes are crawled, bindings are renamed and
removed and the tree is edited, all of them are distinct. In any interleaving of such runs on trees
that share a registry all names are distinct, and none was claimed beforehand. The names are those
that the run asks for; those that an edit generates for itself, as for temporaries, belong to the
edit. -/
theorem issued_distinct :
    (∀ (t : Tree) (cs : List Change),
      (issued cs t).Pairwise fun x y => x.1.isSome → x.1 = y.1 → x.2 ≠ y.2)
    ∧ ∀ {ι : Type} [DecidableEq ι] (trees : ι → Tree) (names : List String)
      (cs : List (ι × Change)),
      (issuedShared cs trees names).Nodup ∧ (issuedShared cs trees names).Disjoint names :=
  ⟨fun t cs => (issued_spent cs t).1, fun trees names cs => issuedShared_nodup cs trees names⟩

/-- Names are generated, a crawl forgets them, one is removed and a binding is renamed. -/
def uidRun : List Change :=
  [.generate ⟨0⟩ "x", .crawl ⟨0⟩, .generate ⟨0⟩ "_x7", .removeBinding ⟨0⟩ "_x2",
    .rename ⟨0⟩ "x" none]

/-- In the program `let x; x; y` they are `_x`, `_x2` and `_x3`. Two such programs that share a
registry with `_x` in it get two others. -/
theorem issued_distinct_letAndReads : ∃ o t,
    scopeOfRoot (ofArena letAndReads (some ⟨7⟩) {}) = .ok o t
    ∧ issued uidRun t = [(some ⟨0⟩, "_x"), (some ⟨0⟩, "_x2"), (some ⟨0⟩, "_x3")]
    ∧ ((issued uidRun t).Pairwise fun x y => x.1.isSome → x.1 = y.1 → x.2 ≠ y.2)
    ∧ issuedShared [(true, .generate ⟨0⟩ "x"), (false, .generate ⟨0⟩ "x")] (fun _ => t) ["_x"]
      = ["_x2", "_x3"]
    ∧ (issuedShared [(true, .generate ⟨0⟩ "x"), (false, .generate ⟨0⟩ "x")] (fun _ => t)
      ["_x"]).Disjoint ["_x"] := by
  have hok : passes (scopeOfRoot (ofArena letAndReads (some ⟨7⟩) {})) (fun _ t =>
      decide (issued uidRun t = [(some ⟨0⟩, "_x"), (some ⟨0⟩, "_x2"), (some ⟨0⟩, "_x3")])
      && decide (issuedShared [(true, .generate ⟨0⟩ "x"), (false, .generate ⟨0⟩ "x")]
        (fun _ => t) ["_x"] = ["_x2", "_x3"])) = true := by
    decide +kernel
  obtain ⟨o, t, hrun, hok⟩ := ok_of_passes hok
  simp only [Bool.and_eq_true, decide_eq_true_eq] at hok
  exact ⟨o, t, hrun, hok.1, issued_distinct.1 t uidRun, hok.2, (issued_distinct.2 _ ["_x"] _).2⟩

end Tree

end ScopedTree
