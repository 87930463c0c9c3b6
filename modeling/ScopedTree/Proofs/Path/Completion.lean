import ScopedTree.Proofs.Arena.Postorder
import ScopedTree.Proofs.Edit.Updates
import ScopedTree.Proofs.Path.Routes
import ScopedTree.Proofs.Scope.Declaration

/-!
# Completion values and completion records

Statements that are run yield a completion value. A list yields what the last of its statements
yields that yields anything at all; the records follow the last statement of each list, whatever it
yields.

* `Completion`, `Arena.completionUpTo`   what a statement yields, for each outcome of the tests;
* `Arena.Simple`                         expression statements, statements that yield nothing,
  blocks and conditionals;
* `Arena.lastDecidesUpTo`                in each list that is run the last statement yields
  something;
* `Arena.recordsUpTo`                    the statements that the records are about;
* `Arena.mem_recordsUpTo`                a value is recorded exactly if the last statements decide;
* `Tree.Charts`                          paths were looked up, and those that stood at a place stand
  there;
* `Tree.Reached.completionRecords_exact`   **the records hold the value exactly if the last
  statements decide**.
-/

namespace ScopedTree

/-- What a statement yields: nothing, `undefined`, or the value of an expression statement. -/
inductive Completion where
  | empty
  | undefined
  | value (s : NodeId)
  deriving DecidableEq

namespace Completion

/-- What a list yields: what the last of its statements yields that yields anything. -/
def ofList (cs : List Completion) : Completion := ((cs.filter (· ≠ .empty)).getLast?).getD .empty

/-- What a conditional makes of the branch that it takes. -/
def orUndefined : Completion → Completion
  | .empty => .undefined
  | c => c

variable {cs : List Completion} {c : Completion} {s : NodeId}

theorem ofList_concat_of_ne (cs : List Completion) (hc : c ≠ .empty) : ofList (cs ++ [c]) = c := by
  unfold ofList
  rw [List.filter_append, List.filter_singleton, decide_eq_true hc, cond_true, List.getLast?_concat]
  rfl

theorem ofList_concat_empty (cs : List Completion) : ofList (cs ++ [.empty]) = ofList cs := by
  unfold ofList
  rw [List.filter_append, List.filter_singleton, decide_eq_false (not_not.2 rfl), cond_false,
    List.append_nil]

theorem mem_of_ofList (h : ofList cs = .value s) : .value s ∈ cs := by
  unfold ofList at h
  cases hlast : (cs.filter (· ≠ .empty)).getLast? with
  | none =>
    rw [hlast] at h
    cases h
  | some c =>
    rw [hlast] at h
    obtain rfl : c = .value s := h
    exact (List.mem_filter.1 (List.mem_of_getLast? hlast)).1

theorem orUndefined_eq_value : c.orUndefined = .value s ↔ c = .value s := by
  cases c <;> simp [orUndefined]

end Completion

namespace Arena

open Relation

variable {a : Arena} {σ : NodeId → Bool} {fuel : Nat} {n s c yes no : NodeId}

/-- Statements built to any depth from expression statements, empty statements, variable
declarations, blocks and conditionals. -/
inductive Simple (a : Arena) : NodeId → Prop
  | expression {n : NodeId} (h : a.type? (some n) = some .expressionStatement) : Simple a n
  | empty {n : NodeId} (h : a.type? (some n) = some .emptyStatement) : Simple a n
  | declaration {n : NodeId} (h : a.type? (some n) = some .variableDeclaration) : Simple a n
  | block {n : NodeId} (h : a.type? (some n) = some .blockStatement
    ∨ a.type? (some n) = some .program)
      (hfull : none ∉ a.items (some n) "body") (hall : ∀ s, some s ∈ a.items (some n) "body" →
        Simple a s) : Simple a n
  | conditional {n yes : NodeId} (h : a.type? (some n) = some .ifStatement)
      (hyes : a.child? (some n) "consequent" = some yes) (hsimple : Simple a yes)
      (hno : ∀ no, a.child? (some n) "alternate" = some no → Simple a no) : Simple a n

theorem Simple.lt (h : a.Simple n) : n.index < a.size := by
  have hty : ∃ ty, a.type? (some n) = some ty := by
    cases h with
    | expression h => exact ⟨_, h⟩
    | empty h => exact ⟨_, h⟩
    | declaration h => exact ⟨_, h⟩
    | block h => exact h.elim (fun h => ⟨_, h⟩) fun h => ⟨_, h⟩
    | conditional h => exact ⟨_, h⟩
  obtain ⟨ty, hty⟩ := hty
  unfold Arena.type? at hty
  obtain ⟨k, hk, -⟩ := Option.map_eq_some_iff.1 hty
  exact get?_eq_some_lt ((look_some ..).symm.trans hk)

def statements (a : Arena) (n : NodeId) : List NodeId := (a.items (some n) "body").filterMap id

/-- The branch of a conditional that is taken, where `σ` says how tests come out. -/
def taken (a : Arena) (σ : NodeId → Bool) (n : NodeId) : Option NodeId :=
  a.child? (some n) (if σ n then "consequent" else "alternate")

/-- What a statement yields when it is run, at most `fuel` levels deep. -/
def completionUpTo (a : Arena) (σ : NodeId → Bool) : Nat → NodeId → Completion
  | 0, _ => .empty
  | fuel + 1, n =>
    match a.type? (some n) with
    | some .expressionStatement => .value n
    | some .blockStatement | some .program =>
      .ofList ((a.statements n).map (a.completionUpTo σ fuel))
    | some .ifStatement => (a.taken σ n).elim .undefined fun c =>
      (a.completionUpTo σ fuel c).orUndefined
    | _ => .empty

/-- The run comes to an expression statement through lists whose last statement yields something, at
most `fuel` levels deep. -/
def lastDecidesUpTo (a : Arena) (σ : NodeId → Bool) : Nat → NodeId → Bool
  | 0, _ => false
  | fuel + 1, n =>
    match a.type? (some n) with
    | some .expressionStatement => true
    | some .blockStatement | some .program => (a.statements n).getLast?.elim false fun l =>
      a.completionUpTo σ fuel l != .empty && a.lastDecidesUpTo σ fuel l
    | some .ifStatement => (a.taken σ n).elim false (a.lastDecidesUpTo σ fuel)
    | _ => false

/-- What a statement yields when it is run. -/
def completion (a : Arena) (σ : NodeId → Bool) (n : NodeId) : Completion :=
  a.completionUpTo σ (a.size + 1) n

/-- Each list that the run comes through on its way to an expression statement is decided by its
last statement. -/
def lastDecides (a : Arena) (σ : NodeId → Bool) (n : NodeId) : Bool :=
  a.lastDecidesUpTo σ (a.size + 1) n

/-- The statements that the completion records of a statement are about. -/
def recordsUpTo (a : Arena) : Nat → NodeId → List NodeId
  | 0, _ => []
  | fuel + 1, n =>
    match a.type? (some n) with
    | some .blockStatement | some .program => (a.statements n).getLast?.elim [] (a.recordsUpTo fuel)
    | some .ifStatement => ["consequent", "alternate"].flatMap fun key =>
      (a.child? (some n) key).elim [] (a.recordsUpTo fuel)
    | _ => [n]

theorem mem_statements : c ∈ a.statements n ↔ some c ∈ a.items (some n) "body" := by
  unfold statements
  rw [List.mem_filterMap]
  constructor
  · rintro ⟨x, hx, rfl⟩
    exact hx
  · intro h
    exact ⟨_, h, rfl⟩

theorem items_eq_statements (h : none ∉ a.items (some n) "body") :
    a.items (some n) "body" = (a.statements n).map some := by
  have hall : ∀ x ∈ a.items (some n) "body", x.isSome = true := fun x hx =>
    Option.isSome_iff_ne_none.2 fun he => h (he ▸ hx)
  unfold statements
  rw [List.map_filterMap_some_eq_filter_map_isSome, List.map_id, List.filter_eq_self.2 hall]

theorem owned_of_mem_statements (ha : a.Owned) (h : c ∈ a.statements n) : a.OwnedBy c n :=
  ha.owner_of_child n c (mem_children_of_items (mem_statements.1 h))

theorem owned_of_child? {key : String} (ha : a.Owned) (h : a.child? (some n) key = some c) :
    a.OwnedBy c n :=
  ha.owner_of_child n c (Tree.mem_children_of_child? h)

theorem completionUpTo_of_le (ha : a.Owned) : ∀ {fuel fuel' : Nat} {n : NodeId}, a.Suffices fuel n →
    fuel ≤ fuel' → a.completionUpTo σ fuel' n = a.completionUpTo σ fuel n
  | 0, _, _, hfuel, _ => absurd rfl (hfuel.pos ha)
  | fuel + 1, 0, _, _, hle => absurd hle (Nat.not_succ_le_zero _)
  | fuel + 1, fuel' + 1, n, hfuel, hle => by
    have hchild {c : NodeId} (hc : a.OwnedBy c n) : a.completionUpTo σ fuel' c
        = a.completionUpTo σ fuel c :=
      completionUpTo_of_le ha (hfuel.child ha (ha.mem_children hc)) (Nat.le_of_succ_le_succ hle)
    have hall : (a.statements n).map (a.completionUpTo σ fuel')
        = (a.statements n).map (a.completionUpTo σ fuel) :=
      List.map_congr_left fun c hc => hchild (owned_of_mem_statements ha hc)
    have htaken : (a.taken σ n).elim Completion.undefined
        (fun c => (a.completionUpTo σ fuel' c).orUndefined)
        = (a.taken σ n).elim .undefined fun c => (a.completionUpTo σ fuel c).orUndefined := by
      cases htaken : a.taken σ n with
      | none => rfl
      | some c => exact congrArg Completion.orUndefined (hchild (owned_of_child? ha htaken))
    rw [completionUpTo, completionUpTo, hall, htaken]

theorem completion_eq (ha : a.Owned) (hfuel : a.Suffices fuel n) :
    a.completionUpTo σ fuel n = a.completion σ n := by
  have hn : a.Suffices (a.size + 1) n := ⟨hfuel.1, (Nat.le_succ _).trans (Nat.le_add_right _ _)⟩
  rcases Nat.le_total fuel (a.size + 1) with hle | hle
  · exact (completionUpTo_of_le ha hfuel hle).symm
  · exact completionUpTo_of_le ha hn hle

theorem completion_list (ha : a.Owned) (hty : a.type? (some n) = some .blockStatement
    ∨ a.type? (some n) = some .program) :
    a.completion σ n = .ofList ((a.statements n).map (a.completion σ)) := by
  have hall : (a.statements n).map (a.completionUpTo σ a.size)
      = (a.statements n).map (a.completion σ) := by
    refine List.map_congr_left fun c hc => completion_eq ha (suffices_size ?_)
    exact (owned_of_mem_statements ha hc).lt
  rw [completion, completionUpTo, ← hall]
  rcases hty with hty | hty <;> rw [hty]

theorem under_of_completion (ha : a.Owned) : ∀ {fuel : Nat} {n : NodeId},
    a.completionUpTo σ fuel n = .value s → ReflTransGen a.OwnedBy s n
  | 0, n, h => by cases h
  | fuel + 1, n, h => by
    have hlist (h : Completion.ofList ((a.statements n).map (a.completionUpTo σ fuel)) = .value s) :
        ReflTransGen a.OwnedBy s n := by
      obtain ⟨c, hc, hvalue⟩ := List.mem_map.1 (Completion.mem_of_ofList h)
      exact (under_of_completion ha hvalue).tail (owned_of_mem_statements ha hc)
    rw [completionUpTo] at h
    split at h
    · obtain rfl := Completion.value.inj h
      exact .refl
    · exact hlist h
    · exact hlist h
    · cases htaken : a.taken σ n with
      | none =>
        rw [htaken] at h
        cases h
      | some c =>
        rw [htaken] at h
        exact (under_of_completion ha (Completion.orUndefined_eq_value.1 h)).tail
          (owned_of_child? ha htaken)
    · cases h

theorem under_of_mem_records (ha : a.Owned) : ∀ {fuel : Nat} {n : NodeId},
    s ∈ a.recordsUpTo fuel n → ReflTransGen a.OwnedBy s n
  | 0, n, h => absurd h List.not_mem_nil
  | fuel + 1, n, h => by
    have hlist (h : s ∈ (a.statements n).getLast?.elim [] (a.recordsUpTo fuel)) :
        ReflTransGen a.OwnedBy s n := by
      cases hlast : (a.statements n).getLast? with
      | none =>
        rw [hlast] at h
        cases h
      | some l =>
        rw [hlast] at h
        exact (under_of_mem_records ha h).tail (owned_of_mem_statements ha
          (List.mem_of_getLast? hlast))
    rw [recordsUpTo] at h
    split at h
    · exact hlist h
    · exact hlist h
    · obtain ⟨key, -, h⟩ := List.mem_flatMap.1 h
      cases hchild : a.child? (some n) key with
      | none =>
        rw [hchild] at h
        cases h
      | some c =>
        rw [hchild] at h
        exact (under_of_mem_records ha h).tail (owned_of_child? ha hchild)
    · rw [List.mem_singleton.1 h]

/-- A value that a list yields is recorded exactly if it comes from the last statement and is
recorded there. -/
theorem mem_records_of_list (ha : a.Owned)
    (ih : ∀ c, a.completionUpTo σ fuel c = .value s →
      (s ∈ a.recordsUpTo fuel c ↔ a.lastDecidesUpTo σ fuel c = true))
    (h : Completion.ofList ((a.statements n).map (a.completionUpTo σ fuel)) = .value s) :
    s ∈ (a.statements n).getLast?.elim [] (a.recordsUpTo fuel)
      ↔ (a.statements n).getLast?.elim false (fun l =>
        a.completionUpTo σ fuel l != .empty && a.lastDecidesUpTo σ fuel l) = true := by
  have howned {c : NodeId} (hc : c ∈ a.statements n) : a.OwnedBy c n :=
    owned_of_mem_statements ha hc
  rcases List.eq_nil_or_concat' (a.statements n) with hnil | ⟨before, l, hlist⟩
  · rw [hnil] at h
    cases h
  rw [hlist, List.getLast?_concat, Option.elim_some, Option.elim_some]
  rw [hlist, List.map_append, List.map_singleton] at h
  rw [hlist] at howned
  by_cases hl : a.completionUpTo σ fuel l = .empty
  · -- the value comes from a statement before, and so it is not at or below the last one
    rw [hl, Completion.ofList_concat_empty] at h
    obtain ⟨c, hc, hvalue⟩ := List.mem_map.1 (Completion.mem_of_ofList h)
    have hnot : s ∉ a.recordsUpTo fuel l := by
      intro hs
      have heq : c = l := ha.branch_unique (howned (List.mem_append_left _ hc))
        (howned (List.mem_append_right _ (List.mem_singleton_self l)))
        (under_of_completion ha hvalue) (under_of_mem_records ha hs)
      rw [heq, hl] at hvalue
      cases hvalue
    simp [hl, hnot]
  · rw [Completion.ofList_concat_of_ne _ hl] at h
    rw [ih l h, Bool.and_eq_true]
    exact ⟨fun hdecides => ⟨by simpa using hl, hdecides⟩, fun hboth => hboth.2⟩

/-- **A value is recorded exactly if the last statements decide.** -/
theorem mem_recordsUpTo (ha : a.Owned) : ∀ {fuel : Nat} {n : NodeId},
    a.completionUpTo σ fuel n = .value s →
    (s ∈ a.recordsUpTo fuel n ↔ a.lastDecidesUpTo σ fuel n = true)
  | 0, n, h => by cases h
  | fuel + 1, n, h => by
    rw [completionUpTo] at h
    rw [recordsUpTo, lastDecidesUpTo]
    split at h
    · next hty =>
      obtain rfl := Completion.value.inj h
      simp [hty]
    · next hty =>
      simp only [hty]
      exact mem_records_of_list ha (fun c hc => mem_recordsUpTo ha hc) h
    · next hty =>
      simp only [hty]
      exact mem_records_of_list ha (fun c hc => mem_recordsUpTo ha hc) h
    · next hty =>
      simp only [hty]
      cases htaken : a.taken σ n with
      | none =>
        rw [htaken] at h
        cases h
      | some c =>
        rw [htaken] at h
        have hvalue := Completion.orUndefined_eq_value.1 h
        rw [Option.elim_some, ← mem_recordsUpTo ha hvalue, List.mem_flatMap]
        constructor
        · rintro ⟨key, hkey, hs⟩
          cases hchild : a.child? (some n) key with
          | none =>
            rw [hchild] at hs
            cases hs
          | some c' =>
            rw [hchild] at hs
            rwa [ha.branch_unique (owned_of_child? ha htaken) (owned_of_child? ha hchild)
              (under_of_completion ha hvalue) (under_of_mem_records ha hs)]
        · intro hs
          refine ⟨if σ n then "consequent" else "alternate", by split <;> simp, ?_⟩
          rw [show a.child? (some n) _ = some c from htaken]
          exact hs
    · cases h

end Arena

namespace Tree

open Arena

variable {t t' t'' : Tree} {a : Arena} {root owner : Option NodeId} {p q : PathId} {n s c : NodeId}
  {slot : Slot} {fuel : Nat} {α β : Type}

/-! ## paths that are looked up -/

/-- Paths were looked up: nodes are as they were, and paths that stood at a place stand there. -/
structure Charts (t t' : Tree) : Prop where
  rooted : t'.Rooted 0
  arena : t'.arena = t.arena
  root : t'.root = t.root
  stands : ∀ q m owner, t.Stands q m owner → t'.Stands q m owner

theorem Charts.refl (h : t.Rooted 0) : t.Charts t := ⟨h, rfl, rfl, fun _ _ _ hq => hq⟩

theorem Charts.trans (h : t.Charts t') (h' : t'.Charts t'') : t.Charts t'' :=
  ⟨h'.rooted, h'.arena.trans h.arena, h'.root.trans h.root, fun q m owner hq =>
    h'.stands q m owner (h.stands q m owner hq)⟩

theorem Charts.moored (h : t.Charts t') (hp : Moored a root p n owner t) :
    Moored a root p n owner t' :=
  ⟨h.rooted, h.arena.trans hp.arena, h.root.trans hp.root, h.stands p n owner hp.stands⟩

theorem charts_of_stays {x : TreeM α} (hx : ∀ P : Tree → Prop, Charted P → Stays P x)
    (h : t.Rooted 0) (ha : t.arena.WellOwned) : t.Charts (final (x t)) := by
  have hover : Over t.arena t.root (final (x t)) :=
    hx _ (Over.nodal t.arena t.root).pathless.charted t ⟨rfl, rfl⟩
  refine ⟨hx _ (Rooted.charted 0) t h, hover.1, hover.2, fun q m owner hq => ?_⟩
  have hmoored : Moored t.arena t.root q m owner t := ⟨h, rfl, rfl, hq⟩
  exact (hx _ (Moored.charted ha) t hmoored).stands

theorem Ends.charts {x : TreeM α} {Q : α → Tree → Prop} (h : Ends (x t) Q fun _ _ => False)
    (hx : ∀ P : Tree → Prop, Charted P → Stays P x) (ht : t.Rooted 0) (ha : t.arena.WellOwned) :
    Ends (x t) (fun y t' => t.Charts t' ∧ Q y t') fun _ _ => False := by
  have hcharts := charts_of_stays hx ht ha
  cases hrun : x t with
  | ok y t' =>
    rw [hrun] at h hcharts
    exact ⟨hcharts, h⟩
  | error e t' =>
    rw [hrun] at h
    exact h

/-- A program looks up paths that stand at the given nodes, and cannot fail. -/
def FindsAll (x : TreeM (List PathId)) (t : Tree) (ns : List NodeId) : Prop :=
  Ends (x t) (fun qs t' => t.Charts t' ∧ List.Forall₂ (fun s q => ∃ o, t'.Stands q s o) ns qs)
    fun _ _ => False

theorem FindsAll.after {x : TreeM (List PathId)} {ns : List NodeId} (hx : FindsAll x t' ns)
    (h : t.Charts t') :
    Ends (x t') (fun qs t'' => t.Charts t'' ∧ List.Forall₂ (fun s q => ∃ o, t''.Stands q s o) ns qs)
    fun _ _ => False :=
  hx.mono fun _ _ hend => ⟨h.trans hend.1, hend.2⟩

theorem ends_mapM_charts {f : α → TreeM β} {Q : α → β → Tree → Prop}
    (hQ : ∀ x y t t', t.Charts t' → Q x y t → Q x y t') : ∀ (l : List α) {t : Tree}, t.Rooted 0 →
    (∀ x ∈ l, ∀ t', t.Charts t' → Ends (f x t') (fun y t'' => t'.Charts t'' ∧ Q x y t'') fun _
      _ => False) →
    Ends (l.mapM f t) (fun ys t' => t.Charts t' ∧ List.Forall₂ (fun x y => Q x y t') l ys)
    fun _ _ => False
  | [], t, ht, _ => ⟨.refl ht, .nil⟩
  | x :: l, t, ht, hf => by
    rw [List.mapM_cons]
    refine ends_bind.2 ((hf x List.mem_cons_self t (.refl ht)).mono ?_)
    rintro y t₁ ⟨h₁, hy⟩
    have hrest := ends_mapM_charts hQ l h₁.rooted fun z hz t' ht' =>
      hf z (List.mem_cons_of_mem _ hz) t' (h₁.trans ht')
    refine ends_bind.2 (hrest.mono ?_)
    rintro ys t₂ ⟨h₂, hys⟩
    exact ⟨h₁.trans h₂, .cons (hQ x y t₁ t₂ h₂ hy) hys⟩

theorem forall₂_getLast? {R : α → β → Prop} {xs : List α} {ys : List β} {x : α}
    (h : List.Forall₂ R xs ys) (hx : xs.getLast? = some x) : ∃ y, ys.getLast? = some y ∧ R x y := by
  induction h with
  | nil => cases hx
  | cons hhead htail ih =>
    cases htail with
    | nil =>
      cases hx
      exact ⟨_, rfl, hhead⟩
    | cons => exact ih hx

namespace Moored

theorem move (h : Moored a root p n owner t) {owner' : Option NodeId} (hq : t.Stands q c owner') :
    Moored a root q c owner' t := ⟨h.rooted, h.arena, h.root, hq⟩

theorem ends_resync (h : Moored a root p n owner t) (ha : a.WellOwned) :
    Ends (Tree.resync p t) (fun _ t' => t.Charts t') fun _ _ => False := by
  have harena : t.arena.WellOwned := by
    rw [h.arena]
    exact ha
  have hok : Ends (Tree.resync p t) (fun _ _ => True) fun _ _ => False := by
    by_cases hs : t.slot p = .root
    · rw [resync_of_root hs]
      trivial
    cases hr : (t.path p).removed with
    | true =>
      unfold Tree.resync
      rw [run_get_bind, if_pos (by simp [hr])]
      trivial
    | false =>
      cases owner with
      | none => exact absurd h.stands.1 hs
      | some o =>
        have howned : t.arena.OwnedBy n o := Sits.owned harena.owned h.stands
        exact (h.rooted.ends_resync harena h.stands.node hs hr howned).mono fun _ _ _ => trivial
  exact (Ends.charts hok (fun P hP => hP.resync p) h.rooted harena).mono fun _ _ hend => hend.1

theorem ends_child (h : Moored a root p n owner t) (ha : a.WellOwned) (hs : slot ≠ .root)
    (hread : a.slotAt (some n) slot = some c) : Ends (getOrCreatePath (some p) (some n) slot t)
      (fun q t' => t.Charts t' ∧ t'.Stands q c (some n)) fun _ _ => False := by
  have harena : t.arena.WellOwned := by
    rw [h.arena]
    exact ha
  have hread : t.readSlot (some n) slot = some c := by
    rw [readSlot_eq _ _ hs, h.arena]
    exact hread
  have hserves := (h.rooted.ends_serves h.stands.node hs hread).mono fun q t' hend =>
    show t'.Stands q c (some n) from hend.2.1.inLine.toSits
  exact Ends.charts hserves (fun P hP => hP.child _ _ _ hs) h.rooted harena

theorem run_fieldOf (h : Moored a root p n owner t) {k : Node} {key : String} {f : Field}
    (hk : a.get? n = some k) (hf : k.type.field? key = some f) :
    fieldOf p key t = .ok (k.type, f) t := by
  unfold fieldOf nodeType? Arena.type?
  rw [run_get_bind, h.stands.node, look_some, h.arena, hk]
  dsimp only [Option.map_some]
  rw [hf]
  rfl

theorem child_of_field (ha : a.Shaped) {key : String} {k : Node} {f : Field}
    (hk : a.get? n = some k) (hf : k.type.field? key = some f)
    (hkind : f.kind = .node ∨ f.kind = .optNode) :
    a.child (some n) key = .ok (a.child? (some n) key) := by
  obtain ⟨v, hv, hfit⟩ := ha.value?_of_field? hk hf
  obtain ⟨c, rfl⟩ : ∃ c, v = .node c := by
    rcases hkind with hkind | hkind <;> rw [hkind] at hfit <;> cases v <;>
      simp [Value.fits] at hfit ⊢
  have hnode : a.node (some n) = .ok k := node_ok.2 hk
  simp [Arena.child, hnode, Node.child, Node.field, hv, bind, Except.bind, Arena.child?, hk,
    Node.child?]

theorem ends_entries (h : Moored a root p n owner t) (ha : a.WellOwned) {key : String}
    (hkey : '.' ∉ key.toList) {k : Node} {f : Field} (hk : a.get? n = some k)
    (hf : k.type.field? key = some f) (hkind : f.kind = .list) {cs : List NodeId}
    (hcs : a.items (some n) key = cs.map some) :
    Ends (entries p key t) (fun qs t' => t.Charts t'
      ∧ List.Forall₂ (fun c q => t'.Stands q c (some n)) cs qs)
      fun _ _ => False := by
  have hlists : a.Lists n key (cs.map some) := by
    obtain ⟨v, hv, hfit⟩ := ha.shaped.value?_of_field? hk hf
    rw [hkind] at hfit
    cases v with
    | list items =>
      have hitems : a.Lists n key items := ⟨k, hk, hv⟩
      rwa [← hcs, hitems.items_eq]
    | _ => simp [Value.fits] at hfit
  unfold entries
  refine ends_bind.2 ((h.ends_resync ha).mono fun _ t₁ h₁ => ?_)
  have hmoored := h₁.moored h
  rw [splitKey_eq_none hkey]
  dsimp only
  rw [pure_bind, run_bind_of_ok (hmoored.run_fieldOf hk hf)]
  simp only [hkind, bne_self_eq_false, Bool.false_eq_true, if_false]
  rw [run_get_bind, hmoored.stands.node, run_get_bind, hmoored.arena, field?_name hf,
    hlists.list_eq,
    show (TreeM.ofShape (.ok (cs.map some)) : TreeM _) = pure (cs.map some) from rfl, pure_bind,
      List.length_map]
  refine (ends_mapM_charts (Q := fun i q t' => ∀ c, cs[i]? = some c → t'.Stands q c (some n))
    (fun i q t₂ t₃ hcharts hq c hc => hcharts.stands q c (some n) (hq c hc)) _
    hmoored.rooted ?_).mono ?_
  · intro i hi t₂ h₂
    obtain ⟨c, hc⟩ : ∃ c, cs[i]? = some c := ⟨_, List.getElem?_eq_getElem (List.mem_range.1 hi)⟩
    have hread : a.slotAt (some n) (.entry key i) = some c := by
      rw [hlists.slotAt_eq, List.getElem?_map, hc]
      rfl
    refine ((h₂.moored hmoored).ends_child ha Slot.noConfusion hread).mono fun q t₃ hend =>
      ⟨hend.1, fun c' hc' => ?_⟩
    rw [← Option.some.inj (hc.symm.trans hc')]
    exact hend.2
  · rintro qs t₂ ⟨h₂, hqs⟩
    refine ⟨h₁.trans h₂, List.forall₂_iff_get.2 ⟨?_, fun i hi hi' => ?_⟩⟩
    · rw [← hqs.length_eq, List.length_range]
    · have hat := (List.forall₂_iff_get.1 hqs).2 i (by simpa using hi) hi'
      simp only [List.get_eq_getElem, List.getElem_range] at hat
      exact hat _ (List.getElem?_eq_getElem hi)

theorem ends_followKey (h : Moored a root p n owner t) (ha : a.WellOwned) {key : String}
    (hkey : '.' ∉ key.toList) {k : Node} {f : Field} (hk : a.get? n = some k)
    (hf : k.type.field? key = some f) (hkind : f.kind = .node ∨ f.kind = .optNode)
    (hc : a.child? (some n) key = some c) :
    Ends (follow p key t) (fun q t' => t.Charts t' ∧ t'.Stands q c (some n)) fun _ _ => False := by
  unfold follow
  refine ends_bind.2 ((h.ends_resync ha).mono fun _ t₁ h₁ => ?_)
  have hmoored := h₁.moored h
  rw [parts_of_not_mem hkey, followParts, run_bind_of_ok (hmoored.run_fieldOf hk hf)]
  dsimp only
  rw [run_get_bind, hmoored.stands.node, field?_name hf]
  have hchild : Ends ((getOrCreatePath (some p) (some n) (.field key)
      >>= fun q => followParts q []) t₁)
      (fun q t' => t.Charts t' ∧ t'.Stands q c (some n)) fun _ _ => False := by
    have hread : a.slotAt (some n) (.field key) = some c := hc
    exact ends_bind.2 ((hmoored.ends_child ha Slot.noConfusion hread).mono fun q t₂ hend =>
      ⟨h₁.trans hend.1, hend.2⟩)
  rcases hkind with hkind | hkind
  · rw [hkind]
    exact hchild
  · rw [hkind]
    exact hchild

theorem findsAll_list (h : Moored a root p n owner t) (ha : a.WellOwned) {k : Node} {f : Field}
    (hk : a.get? n = some k) (hf : k.type.field? "body" = some f) (hkind : f.kind = .list)
    (hfull : none ∉ a.items (some n) "body") {x : PathId → TreeM (List PathId)}
    {ns : NodeId → List NodeId} (hx : ∀ c ∈ a.statements n, ∀ q t', Moored a root q c (some n) t' →
      FindsAll (x q) t' (ns c)) :
    FindsAll (entries p "body" >>= fun qs => match qs.getLast? with
      | some last => x last
      | none => return []) t ((a.statements n).getLast?.elim [] ns) := by
  refine ends_bind.2
    ((h.ends_entries ha (by decide) hk hf hkind (items_eq_statements hfull)).mono ?_)
  rintro qs t₁ ⟨h₁, hqs⟩
  cases hl : (a.statements n).getLast? with
  | none =>
    rw [List.getLast?_eq_none_iff.1 hl] at hqs
    cases hqs
    exact ⟨h₁, .nil⟩
  | some l =>
    obtain ⟨q, hq, hstands⟩ := forall₂_getLast? hqs hl
    rw [hq]
    exact (hx l (List.mem_of_getLast? hl) q t₁ ((h₁.moored h).move hstands)).after h₁

theorem findsAll_branches (h : Moored a root p n owner t) (ha : a.WellOwned) {k : Node}
    (hk : a.get? n = some k) {keys : List String} (hkeys : ∀ key ∈ keys, '.' ∉ key.toList
      ∧ ∃ f, k.type.field? key = some f ∧ (f.kind = .node ∨ f.kind = .optNode))
    {x : PathId → TreeM (List PathId)} {ns : NodeId → List NodeId}
    (hx : ∀ key ∈ keys, ∀ c, a.child? (some n) key = some c → ∀ q t',
      Moored a root q c (some n) t' → FindsAll (x q) t' (ns c)) :
    FindsAll ((keys.mapM fun key => do
      let child ← TreeM.ofShape ((← get).arena.child (some n) key)
      if child.isSome then x (← follow p key) else return []) >>=
        fun found => return found.flatten) t
      (keys.flatMap fun key => (a.child? (some n) key).elim [] ns) := by
  refine ends_bind.2
    ((ends_mapM_charts (Q := fun key qs t' => List.Forall₂ (fun s q => ∃ o, t'.Stands q s o)
    ((a.child? (some n) key).elim [] ns) qs) ?_ _ h.rooted ?_).mono ?_)
  · intro key qs t₁ t₂ h₂ hqs
    exact hqs.imp fun s q hq => hq.imp fun o => h₂.stands q s o
  · intro key hkey t₁ h₁
    have hmoored := h₁.moored h
    obtain ⟨hdot, f, hf, hkind⟩ := hkeys key hkey
    rw [run_get_bind, hmoored.arena, child_of_field ha.shaped hk hf hkind,
      show (TreeM.ofShape (.ok (a.child? (some n) key)) : TreeM _) = pure (a.child? (some n) key)
        from rfl, pure_bind]
    cases hc : a.child? (some n) key with
    | none => exact ⟨.refl h₁.rooted, .nil⟩
    | some c =>
      rw [Option.isSome_some, if_pos rfl]
      refine ends_bind.2 ((hmoored.ends_followKey ha hdot hk hf hkind hc).mono ?_)
      rintro q t₂ ⟨h₂, hstands⟩
      exact (hx key hkey c hc q t₂ ((h₂.moored hmoored).move hstands)).after h₂
  · rintro found t₁ ⟨h₁, hfound⟩
    exact ⟨h₁, List.rel_flatten (List.forall₂_map_left_iff.2 hfound)⟩

theorem findsAll_completionLevels (ha : a.WellOwned) : ∀ {fuel : Nat} {n : NodeId} {p : PathId}
    {owner : Option NodeId} {t : Tree}, a.Suffices fuel n → a.Simple n → Moored a root p n owner t →
    FindsAll (Tree.completionLevels fuel p) t (a.recordsUpTo fuel n)
  | 0, _, _, _, _, hfuel, _, _ => absurd rfl (hfuel.pos ha.owned)
  | fuel + 1, n, p, owner, t, hfuel, hsimple, h => by
    have hself : FindsAll (pure [p]) t [n] := ⟨.refl h.rooted, .cons ⟨owner, h.stands⟩ .nil⟩
    have hrest {c : NodeId} (hc : c ∈ a.children (some n)) (hsimple : a.Simple c)
        (q : PathId) (t' : Tree) (hq : Moored a root q c (some n) t') :
        FindsAll (Tree.completionLevels fuel q) t' (a.recordsUpTo fuel c) :=
      findsAll_completionLevels ha (hfuel.child ha.owned hc) hsimple hq
    obtain ⟨k, hk⟩ := Option.isSome_iff_exists.1 (isSome_get?_iff.2 hfuel.1)
    have htype {ty : NodeType} (hty : a.type? (some n) = some ty) : k.type = ty := by
      unfold Arena.type? at hty
      rwa [look_some, hk, Option.map_some, Option.some.injEq] at hty
    unfold Tree.completionLevels FindsAll
    rw [run_get_bind, h.arena, h.stands.node, recordsUpTo]
    cases hsimple with
    | expression hty =>
      rw [hty]
      exact hself
    | empty hty =>
      rw [hty]
      exact hself
    | declaration hty =>
      rw [hty]
      exact hself
    | block hty hfull hall =>
      obtain ⟨f, hf, hkind⟩ : ∃ f, k.type.field? "body" = some f ∧ f.kind = .list := by
        rcases hty with hty | hty <;> exact htype hty ▸ ⟨_, rfl, rfl⟩
      have hlist := h.findsAll_list ha hk hf hkind hfull fun c hc =>
        hrest (mem_children_of_items (mem_statements.1 hc)) (hall c (mem_statements.1 hc))
      rcases hty with hty | hty
      · rw [hty]
        exact hlist
      · rw [hty]
        exact hlist
    | conditional hty hyes hsimple hno =>
      rw [hty]
      refine h.findsAll_branches ha hk ?_ ?_
      · rw [htype hty]
        intro key hkey
        rcases List.mem_cons.1 hkey with rfl | hkey
        · exact ⟨by decide, _, rfl, .inl rfl⟩
        · rw [List.mem_singleton.1 hkey]
          exact ⟨by decide, _, rfl, .inr rfl⟩
      · intro key hkey c hc
        refine hrest (mem_children_of_child? hc) ?_
        rcases List.mem_cons.1 hkey with rfl | hkey
        · rwa [← Option.some.inj (hyes.symm.trans hc)]
        · rw [List.mem_singleton.1 hkey] at hc
          exact hno c hc

end Moored

/-- **The completion records hold the value exactly if the last statements decide.** In a tree in
use, at a path that stands at statements of the simple kinds, the records are found and no node
changes. Whichever way the tests come out, if the statements yield the value of an expression
statement, then one of the records stands at it if and only if, of each list on the way to it, the
last statement yields something. Of the functions that edits build from such records nothing is
said. -/
theorem Reached.completionRecords_exact (h : t.Reached) (ha : t.arena.WellOwned)
    (hp : t.Stands p n owner) (hsimple : t.arena.Simple n) :
    ∃ qs t', completionRecords p t = .ok qs t' ∧ t'.arena = t.arena ∧ t'.root = t.root
      ∧ ∀ σ s, t.arena.completion σ n = .value s →
        ((∃ q ∈ qs, ∃ o, t'.Stands q s o) ↔ t.arena.lastDecides σ n = true) := by
  have hmoored : Moored t.arena t.root p n owner t := ⟨h.rooted, rfl, rfl, hp⟩
  have hfuel : t.arena.Suffices (t.arena.size + 1) n :=
    ⟨hsimple.lt, (Nat.le_succ _).trans (Nat.le_add_right _ _)⟩
  obtain ⟨qs, t', hrun, hcharts, hqs⟩ :=
    (hmoored.findsAll_completionLevels ha hfuel hsimple).exists_ok
  refine ⟨qs, t', ?_, hcharts.arena, hcharts.root, fun σ s hvalue => ?_⟩
  · unfold completionRecords
    rw [run_get_bind]
    exact hrun
  rw [lastDecides, ← mem_recordsUpTo ha.owned hvalue]
  constructor
  · rintro ⟨q, hq, o, hstands⟩
    obtain ⟨s', hs', o', hstands'⟩ := forall₂_exists_of_mem_right hqs hq
    rwa [Option.some.inj (hstands.node.symm.trans hstands'.node)]
  · intro hs
    obtain ⟨q, hq, hstands⟩ := forall₂_exists_of_mem_left hqs hs
    exact ⟨q, hq, hstands⟩

def ofProgram (writes : List Arena.Write) (program : NodeId) : Tree :=
  final (PathCall.root.run (ofArena (Arena.runAll writes) (some program)))

def twoBranches : Tree := ofProgram [
  .alloc .identifier [.str "a", .node none],
  .alloc .identifier [.str "b", .node none],
  .alloc .expressionStatement [.node (some ⟨1⟩)],
  .alloc .emptyStatement [],
  .alloc .identifier [.str "c", .node none],
  .alloc .expressionStatement [.node (some ⟨4⟩)],
  .alloc .blockStatement [.list [], .list [some ⟨3⟩, some ⟨5⟩]],
  .alloc .ifStatement [.node (some ⟨0⟩), .node (some ⟨2⟩), .node (some ⟨6⟩)],
  .alloc .program [.str "module", .list [], .list [some ⟨7⟩]]] ⟨8⟩

/-- Whichever way the test comes out, the statement that gives the value is recorded. -/
theorem completionRecords_twoBranches : ∃ qs t', completionRecords ⟨0⟩ twoBranches = .ok qs t'
    ∧ (∃ q ∈ qs, ∃ o, t'.Stands q ⟨2⟩ o) ∧ ∃ q ∈ qs, ∃ o, t'.Stands q ⟨5⟩ o := by
  have hstands : twoBranches.Stands ⟨0⟩ ⟨8⟩ none := by
    refine ⟨?_, ?_, ?_⟩ <;> decide +kernel
  have hconditional : twoBranches.arena.Simple ⟨7⟩ := by
    have hyes : twoBranches.arena.child? (some ⟨7⟩) "consequent" = some ⟨2⟩ := by decide +kernel
    refine .conditional (by decide +kernel) hyes (.expression (by decide +kernel)) fun no hno => ?_
    obtain rfl : ⟨6⟩ = no := Option.some.inj (hno ▸ by decide +kernel)
    refine .block (.inl (by decide +kernel)) (by decide +kernel) fun s hs => ?_
    have hitems : twoBranches.arena.items (some ⟨6⟩) "body" = [some ⟨3⟩, some ⟨5⟩] := by
      decide +kernel
    simp only [hitems, List.mem_cons, Option.some.injEq, List.not_mem_nil, or_false] at hs
    rcases hs with rfl | rfl
    · exact .empty (by decide +kernel)
    · exact .expression (by decide +kernel)
  have hsimple : twoBranches.arena.Simple ⟨8⟩ := by
    refine .block (.inr (by decide +kernel)) (by decide +kernel) fun s hs => ?_
    have hitems : twoBranches.arena.items (some ⟨8⟩) "body" = [some ⟨7⟩] := by decide +kernel
    simp only [hitems, List.mem_singleton, Option.some.injEq] at hs
    rwa [hs]
  obtain ⟨qs, t', hrun, -, -, hrecords⟩ :=
    (Reached.call .root trivial (.start _ _ _)).completionRecords_exact
    (t := twoBranches) (Arena.wellOwned_runAll _) hstands hsimple
  refine ⟨qs, t', hrun, (hrecords (fun _ => true) ⟨2⟩ ?_).2 ?_,
    (hrecords (fun _ => false) ⟨5⟩ ?_).2 ?_⟩
  all_goals decide +kernel

def declarationLast : Tree := ofProgram [
  .alloc .identifier [.str "a", .node none],
  .alloc .expressionStatement [.node (some ⟨0⟩)],
  .alloc .identifier [.str "x", .node none],
  .alloc .variableDeclarator [.node (some ⟨2⟩), .node none],
  .alloc .variableDeclaration [.str "var", .list [some ⟨3⟩]],
  .alloc .program [.str "module", .list [], .list [some ⟨1⟩, some ⟨4⟩]]] ⟨5⟩

/-- The first statement gives the value, and only the second is recorded. -/
theorem completionRecords_declarationLast : declarationLast.Stands ⟨0⟩ ⟨5⟩ none
    ∧ declarationLast.arena.Simple ⟨5⟩ ∧ (∀ σ, declarationLast.arena.completion σ ⟨5⟩ = .value ⟨1⟩)
    ∧ ∃ qs t', completionRecords ⟨0⟩ declarationLast = .ok qs t' ∧ qs.map t'.node = [some ⟨4⟩] := by
  have hstands : declarationLast.Stands ⟨0⟩ ⟨5⟩ none := by
    refine ⟨?_, ?_, ?_⟩ <;> decide +kernel
  have hitems : declarationLast.arena.items (some ⟨5⟩) "body" = [some ⟨1⟩, some ⟨4⟩] := by
    decide +kernel
  have hsimple : declarationLast.arena.Simple ⟨5⟩ := by
    refine .block (.inr (by decide +kernel)) (by decide +kernel) fun s hs => ?_
    simp only [hitems, List.mem_cons, Option.some.injEq, List.not_mem_nil, or_false] at hs
    rcases hs with rfl | rfl
    · exact .expression (by decide +kernel)
    · exact .declaration (by decide +kernel)
  have hrecords : Ends (completionRecords ⟨0⟩ declarationLast)
      (fun qs t' => qs.map t'.node = [some ⟨4⟩])
      fun _ _ => False := by decide +kernel
  refine ⟨hstands, hsimple, fun σ => ?_, hrecords.exists_ok⟩
  have hstatements : declarationLast.arena.statements ⟨5⟩ = [⟨1⟩, ⟨4⟩] := by decide +kernel
  have hfirst : declarationLast.arena.type? (some ⟨1⟩) = some .expressionStatement := by
    decide +kernel
  have hsecond : declarationLast.arena.type? (some ⟨4⟩) = some .variableDeclaration := by
    decide +kernel
  have hvalue : declarationLast.arena.completion σ ⟨1⟩ = .value ⟨1⟩ := by
    rw [completion, completionUpTo, hfirst]
  have hempty : declarationLast.arena.completion σ ⟨4⟩ = .empty := by
    rw [completion, completionUpTo, hsecond]
  have ha : declarationLast.arena.WellOwned := Arena.wellOwned_runAll _
  rw [completion_list ha.owned (.inr (by decide +kernel)), hstatements, List.map_cons, hvalue,
    List.map_singleton, hempty]
  rfl

end Tree

end ScopedTree
