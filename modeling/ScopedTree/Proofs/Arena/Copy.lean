import ScopedTree.Proofs.Arena.SetList
import ScopedTree.Proofs.Arena.Subtree

/-!
# Copies of subtrees

A copy is made children first. The nodes that a subtree is made of are listed in that order, and the
copy of the `i`-th of them is the `i`-th new node.

* `Node.copied`                  a node with its children renamed;
* `Arena.postUpTo`               the nodes of a subtree, children first;
* `Arena.Places`                 a renaming that puts nodes one after the other;
* `Arena.Copied`                 what was copied, and that nothing else changed;
* `Arena.Copies`                 a program that copies, unless a required slot is empty;
* `Arena.copies_cloneLevels`     a subtree is copied;
* `Arena.CopyOf`, `Arena.cloneDeep_exact`   **a copy is faithful, and apart from all there was**.
-/

namespace ScopedTree

def Value.rename (σ : NodeId → NodeId) : Value → Value
  | .node child => .node (child.map σ)
  | .list items => .list (items.map (·.map σ))
  | value => value

/-- The node with its children renamed and an owner in place of its own, with or without what is
attached to it. -/
def Node.copied (n : Node) (metadata : Bool) (σ : NodeId → NodeId) (owner : Option NodeId) : Node :=
  match metadata with
  | true => { n with values := n.values.map (Value.rename σ), parent := owner }
  | false => { n.bare with values := n.values.map (Value.rename σ), parent := owner }

namespace Node

variable {n : Node} {metadata : Bool} {σ : NodeId → NodeId} {owner : Option NodeId}

@[simp] theorem type_copied : (n.copied metadata σ owner).type = n.type := by cases metadata <;> rfl

@[simp] theorem values_copied :
    (n.copied metadata σ owner).values = n.values.map (Value.rename σ) := by
  cases metadata <;> rfl

@[simp] theorem parent_copied : (n.copied metadata σ owner).parent = owner := by
    cases metadata <;> rfl

@[simp] theorem withOwner_copied (owner' : Option NodeId) :
    (n.copied metadata σ owner).withOwner owner' = n.copied metadata σ owner' := by
  cases metadata <;> rfl

end Node

theorem Value.children_rename (σ : NodeId → NodeId) (v : Value) :
    (v.rename σ).children = v.children.map σ := by
  cases v with
  | node child => cases child <;> rfl
  | list items =>
    show (items.map (·.map σ)).filterMap id = (items.filterMap id).map σ
    rw [List.filterMap_map, List.map_filterMap]
    rfl
  | _ => rfl

theorem Node.children_renamed (n : Node) (σ : NodeId → NodeId) :
    (n.values.map (Value.rename σ)).flatMap Value.children = n.children.map σ := by
  rw [List.flatMap_map, Node.children_eq, List.map_flatMap]
  exact congrArg (n.values.flatMap ·) (funext (Value.children_rename σ))

namespace Arena

open Relation

variable {a b c s : Arena} {m n r : NodeId} {metadata : Bool} {σ : NodeId → NodeId} {fuel : Nat}
  {l l₁ l₂ roots roots₁ roots₂ : List NodeId}

theorem fills_rename {f : Field} {v : Value} : Fills f (v.rename σ) ↔ Fills f v := by
  have hfit (k : FieldKind) : (v.rename σ).fits k = v.fits k := by cases v <;> cases k <;> rfl
  have hnone : v.rename σ = .node none ↔ v = .node none := by
    cases v with
    | node child => cases child <;> simp [Value.rename]
    | _ => simp [Value.rename]
  rw [Fills, Fills, hfit, Ne, Ne, hnone]

theorem filled_iff_fills {k : Node} (hk : k.Shaped) :
    k.Filled ↔ List.Forall₂ Fills k.type.fields k.values := by
  obtain ⟨hlen, hfit⟩ := List.forall₂_iff_get.1 hk
  have hvalue : ∀ (i : Nat) (hf : i < k.type.fields.length) (hv : i < k.values.length),
      k.value? k.type.fields[i].name = some k.values[i] := fun i hf hv => by
    have heq := congrArg (·[i]?) hk.values_eq
    simpa [List.getElem?_map, List.getElem?_eq_getElem hf, List.getElem?_eq_getElem hv]
      using heq.symm
  rw [List.forall₂_iff_get]
  constructor
  · refine fun h => ⟨hlen, fun i hf hv => ⟨hfit i hf hv, fun hkind hnone => ?_⟩⟩
    have hsome := h _ (List.getElem_mem hf) hkind
    rw [Node.child?, hvalue i hf hv] at hsome
    simp only [List.get_eq_getElem] at hnone
    rw [hnone] at hsome
    cases hsome
  · rintro ⟨-, h⟩ f hf hkind
    obtain ⟨i, hi, rfl⟩ := List.getElem_of_mem hf
    have hv : i < k.values.length := hlen ▸ hi
    obtain ⟨hfits, hne⟩ := h i hi hv
    simp only [List.get_eq_getElem, hkind, true_implies] at hfits hne
    rw [Node.child?, hvalue i hi hv]
    cases hval : k.values[i] with
    | node child =>
      cases child with
      | none => exact absurd hval hne
      | some c => rfl
    | _ => rw [hval] at hfits; cases hfits

/-! ## the nodes of a subtree, children first -/

/-- The nodes of a subtree over at most `fuel` levels, children first. -/
def postUpTo (a : Arena) : Nat → NodeId → List NodeId
  | 0, _ => []
  | fuel + 1, n => (a.children (some n)).flatMap (a.postUpTo fuel) ++ [n]

theorem under_of_mem_post (ha : a.Owned) : ∀ {fuel : Nat} {n : NodeId}, m ∈ a.postUpTo fuel n →
    ReflTransGen a.OwnedBy m n
  | 0, _, h => absurd h List.not_mem_nil
  | fuel + 1, n, h => by
    rcases List.mem_append.1 h with h | h
    · obtain ⟨c, hc, hm⟩ := List.mem_flatMap.1 h
      exact (under_of_mem_post ha hm).tail (ha.owner_of_child n c hc)
    · rw [List.mem_singleton.1 h]

/-- No node is listed twice: subtrees of different children have no node in common. -/
theorem nodup_postUpTo (ha : a.Owned) : ∀ (fuel : Nat) (n : NodeId), (a.postUpTo fuel n).Nodup
  | 0, _ => .nil
  | fuel + 1, n => by
    refine List.nodup_append.2 ⟨List.nodup_flatMap.2 ⟨fun c _ => nodup_postUpTo ha fuel c, ?_⟩,
      List.nodup_singleton n, fun m hm m' hm' he => ?_⟩
    · refine (ha.nodup_children n).imp_of_mem fun {c c'} hc hc' hne m hm hm' => hne ?_
      exact ha.branch_unique (ha.owner_of_child n c hc) (ha.owner_of_child n c' hc')
        (under_of_mem_post ha hm) (under_of_mem_post ha hm')
    · obtain rfl := he.trans (List.mem_singleton.1 hm')
      obtain ⟨c, hc, hm⟩ := List.mem_flatMap.1 hm
      exact ha.acyclic m (TransGen.tail' (under_of_mem_post ha hm) (ha.owner_of_child m c hc))

/-- So many levels are enough for a subtree. -/
def Suffices (a : Arena) (fuel : Nat) (n : NodeId) : Prop :=
  n.index < a.size ∧ a.size ≤ fuel + (a.above n).card

theorem Suffices.child (ha : a.Owned) (h : a.Suffices (fuel + 1) n) (hc : m ∈ a.children (some n)) :
    a.Suffices fuel m := by
  have hown := ha.owner_of_child n m hc
  have := card_above_lt ha hown
  exact ⟨hown.lt, by have := h.2; omega⟩

theorem Suffices.pos (ha : a.Owned) (h : a.Suffices fuel n) : fuel ≠ 0 := by
  have := card_above_lt_size ha h.1
  have := h.2
  omega

theorem mem_postUpTo (ha : a.Owned) : ∀ {fuel : Nat} {n : NodeId}, a.Suffices fuel n →
    (m ∈ a.postUpTo fuel n ↔ ReflTransGen a.OwnedBy m n)
  | 0, _, h => absurd rfl (h.pos ha)
  | fuel + 1, n, h => by
    refine ⟨under_of_mem_post ha, fun hm => ?_⟩
    rcases ReflTransGen.cases_tail hm with rfl | ⟨c, hmc, hcn⟩
    · exact List.mem_append_right _ (List.mem_singleton_self _)
    · have hc := ha.mem_children hcn
      exact List.mem_append_left _
        (List.mem_flatMap.2 ⟨c, hc, (mem_postUpTo ha (h.child ha hc)).2 hmc⟩)

/-! ## new places -/

/-- The nodes are put one after the other from `base` on. -/
def Places (σ : NodeId → NodeId) (base : Nat) (l : List NodeId) : Prop :=
  ∀ i m, l[i]? = some m → σ m = ⟨base + i⟩

namespace Places

variable {base : Nat}

theorem left (h : Places σ base (l₁ ++ l₂)) : Places σ base l₁ := fun i m hi =>
  h i m (by rw [List.getElem?_append_left (List.getElem?_eq_some_iff.1 hi).1, hi])

theorem right (h : Places σ base (l₁ ++ l₂)) : Places σ (base + l₁.length) l₂ := fun i m hi => by
  rw [h (l₁.length + i) m
    (by rw [List.getElem?_append_right (Nat.le_add_right ..), Nat.add_sub_cancel_left, hi]),
    Nat.add_assoc]

theorem bounds (h : Places σ base l) (hm : m ∈ l) :
    base ≤ (σ m).index ∧ (σ m).index < base + l.length := by
  obtain ⟨i, hi⟩ := List.mem_iff_getElem?.1 hm
  have hlt := (List.getElem?_eq_some_iff.1 hi).1
  rw [h i m hi]
  exact ⟨Nat.le_add_right .., Nat.add_lt_add_left hlt base⟩

theorem injective (h : Places σ base l) (hm : m ∈ l) (hn : n ∈ l) (he : σ m = σ n) : m = n := by
  obtain ⟨i, hi⟩ := List.mem_iff_getElem?.1 hm
  obtain ⟨j, hj⟩ := List.mem_iff_getElem?.1 hn
  rw [h i m hi, h j n hj] at he
  obtain rfl : i = j := by simpa using he
  exact Option.some.inj (hi.symm.trans hj)

theorem idxOf (hl : l.Nodup) (base : Nat) : Places (fun m => ⟨base + l.idxOf m⟩) base l :=
  fun i m hi => by
  obtain ⟨hlt, rfl⟩ := List.getElem?_eq_some_iff.1 hi
  exact congrArg (fun j => (⟨base + j⟩ : NodeId)) (hl.idxOf_getElem i hlt)

end Places

/-! ## programs that copy -/

/-- The nodes of `a` are in `s`, as they are. -/
structure Extends (a s : Arena) : Prop where
  size : a.size ≤ s.size
  get? : ∀ q, q.index < a.size → s.get? q = a.get? q

namespace Extends

theorem refl (a : Arena) : Extends a a := ⟨le_rfl, fun _ _ => rfl⟩

theorem trans (h : Extends a b) (h' : Extends b c) : Extends a c :=
  ⟨h.size.trans h'.size, fun q hq => (h'.get? q (hq.trans_le h.size)).trans (h.get? q hq)⟩

end Extends

/-- The nodes `l` of `a` were copied to where `σ` puts them, the copies of `roots` without an owner.
Nothing else changed. -/
structure Copied (a : Arena) (metadata : Bool) (σ : NodeId → NodeId) (roots l : List NodeId)
    (s b : Arena) :
    Prop where
  roots_sub : ∀ m ∈ roots, m ∈ l
  size : b.size = s.size + l.length
  old : Extends s b
  get? : ∀ m ∈ l, ∀ k, a.get? m = some k →
    b.get? (σ m) = some (k.copied metadata σ (if m ∈ roots then none else k.parent.map σ))
  filled : ∀ m ∈ l, a.Filled m

theorem Copied.trans (h : Copied a metadata σ roots₁ l₁ s b)
    (h' : Copied a metadata σ roots₂ l₂ b c) (hplaces : Places σ s.size l₁)
    (hnodup : (l₁ ++ l₂).Nodup) :
    Copied a metadata σ (roots₁ ++ roots₂) (l₁ ++ l₂) s c where
  roots_sub m hm := (List.mem_append.1 hm).elim
    (fun hm => List.mem_append_left _ (h.roots_sub m hm))
    fun hm => List.mem_append_right _ (h'.roots_sub m hm)
  size := by rw [h'.size, h.size, List.length_append, Nat.add_assoc]
  old := h.old.trans h'.old
  get? m hm k hk := by
    have hdisjoint := List.disjoint_of_nodup_append hnodup
    rcases List.mem_append.1 hm with hm | hm
    · have hold : (σ m).index < b.size := h.size ▸ (hplaces.bounds hm).2
      rw [h'.old.get? _ hold, h.get? m hm k hk]
      have hroot : m ∈ roots₁ ++ roots₂ ↔ m ∈ roots₁ := by
        rw [List.mem_append, or_iff_left fun h₂ => hdisjoint hm (h'.roots_sub m h₂)]
      simp only [hroot]
    · rw [h'.get? m hm k hk]
      have hroot : m ∈ roots₁ ++ roots₂ ↔ m ∈ roots₂ := by
        rw [List.mem_append, or_iff_right fun h₁ => hdisjoint (h.roots_sub m h₁) hm]
      simp only [hroot]
  filled m hm := (List.mem_append.1 hm).elim (h.filled m) (h'.filled m)

variable {β γ : Type}

/-- The program copies the nodes `l` of `a` to where `σ` puts them and gives `y`. It fails only if a
required slot of one of them is empty. -/
def Copies (a : Arena) (metadata : Bool) (σ : NodeId → NodeId) (x : ArenaM β)
    (roots l : List NodeId) (y : β) :
    Prop :=
  ∀ s, Extends a s → Places σ s.size l → Ends (x s) (fun y' b => y' = y
    ∧ Copied a metadata σ roots l s b)
    fun _ b => Extends s b ∧ ∃ m ∈ l, ¬ a.Filled m

theorem copies_pure (y : β) : Copies a metadata σ (pure y : ArenaM β) [] [] y := fun s _ _ =>
  ⟨rfl, by simp, rfl, .refl s, by simp, by simp⟩

theorem Copies.map {x : ArenaM β} {y : β} (h : Copies a metadata σ x roots l y) (f : β → γ) :
    Copies a metadata σ (x >>= fun y => pure (f y)) roots l (f y) := fun s hs hplaces =>
  ends_bind.2 ((h s hs hplaces).mono fun _ _ hy => ⟨congrArg f hy.1, hy.2⟩)

theorem Copies.bind {x : ArenaM β} {f : β → ArenaM γ} {y : β} {z : γ}
    (hx : Copies a metadata σ x roots₁ l₁ y) (hf : Copies a metadata σ (f y) roots₂ l₂ z)
    (hnodup : (l₁ ++ l₂).Nodup) : Copies a metadata σ (x >>= f) (roots₁ ++ roots₂)
    (l₁ ++ l₂) z := by
  intro s hs hplaces
  refine ends_bind.2 ((hx s hs hplaces.left).imp ?_ fun _ b h => ?_)
  · rintro _ b ⟨rfl, hb⟩
    have hright : Places σ b.size l₂ := hb.size ▸ hplaces.right
    refine (hf b (hs.trans hb.old) hright).imp (fun _ c hc => ?_) fun _ c hc => ?_
    · exact ⟨hc.1, hb.trans hc.2 hplaces.left hnodup⟩
    · obtain ⟨hbc, m, hm, hempty⟩ := hc
      exact ⟨hb.old.trans hbc, m, List.mem_append_right _ hm, hempty⟩
  · obtain ⟨hsb, m, hm, hempty⟩ := h
    exact ⟨hsb, m, List.mem_append_left _ hm, hempty⟩

theorem Copies.mapM {f : β → ArenaM γ} {roots l : β → List NodeId} {y : β → γ} {vs : List β}
    (h : ∀ v ∈ vs, Copies a metadata σ (f v) (roots v) (l v) (y v))
    (hnodup : (vs.flatMap l).Nodup) :
    Copies a metadata σ (vs.mapM f) (vs.flatMap roots) (vs.flatMap l) (vs.map y) := by
  induction vs with
  | nil => exact copies_pure []
  | cons v vs ih =>
    rw [List.mapM_cons, List.flatMap_cons, List.flatMap_cons]
    rw [List.flatMap_cons] at hnodup
    refine (h v (List.mem_cons_self ..)).bind (Copies.map ?_ (y v :: ·)) hnodup
    exact ih (fun v hv => h v (List.mem_cons_of_mem _ hv)) (List.nodup_append.1 hnodup).2.1

/-! ## one node -/

/-- Copies an entry of a list, which may be a hole. -/
def copyItem (clone : NodeId → ArenaM NodeId) : Option NodeId → ArenaM (Option NodeId)
  | some c => clone c >>= fun copy => pure (some copy)
  | none => pure none

def copyValue (clone : NodeId → ArenaM NodeId) : Value → ArenaM Value
  | .node (some c) => clone c >>= fun copy => pure (.node (some copy))
  | .list items => items.mapM (copyItem clone) >>= fun copies => pure (.list copies)
  | value => pure value

def makeLike (k : Node) (metadata : Bool) (values : List Value) : ArenaM NodeId := do
  let copy ← alloc k.type values
  if metadata then
    modify fun a => a.update (some copy) fun m =>
      { m with span := k.span, loc := k.loc, comments := k.comments, extra := k.extra }
  return copy

theorem cloneLevels_eq (metadata : Bool) (fuel : Nat) (root : Option NodeId) :
    cloneLevels metadata (fuel + 1) root = (do
      let k ← ask (·.node root)
      let values ← k.values.mapM (copyValue fun c => cloneLevels metadata fuel (some c))
      makeLike k metadata values) := by
  rfl

variable {clone : NodeId → ArenaM NodeId} {post : NodeId → List NodeId}

theorem copies_item {item : Option NodeId}
    (h : ∀ c, item = some c → Copies a metadata σ (clone c) [c] (post c) (σ c)) :
    Copies a metadata σ (copyItem clone item) item.toList (item.toList.flatMap post)
    (item.map σ) := by
  cases item with
  | none => exact copies_pure none
  | some c =>
    have hc := (h c rfl).map some
    rwa [← List.flatMap_singleton post c] at hc

theorem copies_value {v : Value}
    (h : ∀ c ∈ v.children, Copies a metadata σ (clone c) [c] (post c) (σ c))
    (hnodup : (v.children.flatMap post).Nodup) :
    Copies a metadata σ (copyValue clone v) v.children (v.children.flatMap post) (v.rename σ) := by
  cases v with
  | node child =>
    cases child with
    | none => exact copies_pure _
    | some c =>
      have hc := (h c (mem_children_node.2 rfl)).map (Value.node ∘ some)
      rwa [← List.flatMap_singleton post c] at hc
  | list items =>
    have hchildren : (Value.list items).children = items.flatMap Option.toList := by
      clear h hnodup
      induction items with
      | nil => rfl
      | cons item items ih =>
        cases item with
        | none => exact ih
        | some c => exact congrArg (c :: ·) ih
    have hitems : (items.flatMap fun item => item.toList.flatMap post)
        = (Value.list items).children.flatMap post := by
      rw [hchildren, List.flatMap_assoc]
    rw [← hitems] at hnodup ⊢
    rw [hchildren]
    exact (Copies.mapM (fun item hitem => copies_item fun c hc =>
      h c (mem_children_list.2 (hc ▸ hitem))) hnodup).map Value.list
  | _ => exact copies_pure _

variable {k : Node}

theorem makeable_copy (ha : a.WellOwned) (hk : a.get? n = some k)
    (hb : Copied a metadata σ k.children l s b) (hplaces : Places σ s.size l) :
    b.Makeable k.type (k.values.map (Value.rename σ)) ↔ k.Filled := by
  have hfills : List.Forall₂ Fills k.type.fields (k.values.map (Value.rename σ)) ↔ k.Filled := by
    rw [filled_iff_fills (ha.shaped n k hk), List.forall₂_map_right_iff]
    simp only [fills_rename]
  have hchildren := k.children_renamed σ
  refine ⟨fun h => hfills.1 h.fills, fun h => ⟨hfills.2 h, ?_, fun c hc => ?_⟩⟩
  · have hnodup := ha.owned.nodup_children n
    rw [children_some, hk] at hnodup
    rw [hchildren]
    exact hnodup.map_on fun x hx y hy he =>
      hplaces.injective (hb.roots_sub x hx) (hb.roots_sub y hy) he
  · rw [hchildren] at hc
    obtain ⟨m, hm, rfl⟩ := List.mem_map.1 hc
    obtain ⟨km, hkm, -⟩ := hb.filled m (hb.roots_sub m hm)
    refine ⟨hb.size ▸ (hplaces.bounds (hb.roots_sub m hm)).2, ?_⟩
    rw [parentOf_some, hb.get? m (hb.roots_sub m hm) km hkm, if_pos hm]
    exact Node.parent_copied

theorem run_alloc {ty : NodeType} {values : List Value} (h : b.Makeable ty values) :
    ∃ c, alloc ty values b = .ok ⟨b.size⟩ c ∧ c.size = b.size + 1
      ∧ ∀ q, c.get? q = if q = ⟨b.size⟩ then some { type := ty, values }
        else (b.get? q).map fun m =>
          if q ∈ values.flatMap Value.children then m.withOwner (some ⟨b.size⟩) else m := by
  have hcheck : (fun a : Arena => a.checkAlloc ty values) b = .ok () := checkAlloc_iff.2 h
  let made : Node := { type := ty, values }
  let c := ({ b with nodes := b.nodes.push made } : Arena).setParents (made.children.map some)
    (some ⟨b.size⟩)
  have halloc : alloc ty values b = .ok ⟨b.size⟩ c := by
    unfold alloc
    exact (run_ask_bind hcheck).trans rfl
  have hfresh : (⟨b.size⟩ : NodeId) ∉ values.flatMap Value.children := fun hmem =>
    absurd (h.free _ hmem).1 (Nat.lt_irrefl _)
  refine ⟨c, halloc, (size_setParents ..).trans (Array.size_push ..), fun q => ?_⟩
  have hmem : some q ∈ made.children.map some ↔ q ∈ values.flatMap Value.children :=
    List.mem_map_of_injective (Option.some_injective _)
  rw [get?_setParents, get?_push]
  by_cases hq : q = ⟨b.size⟩
  · subst hq
    simp [hmem, hfresh, made]
  · simp [hq, hmem, Node.withOwner]

theorem run_makeLike (metadata : Bool) (h : b.Makeable k.type (k.values.map (Value.rename σ))) :
    ∃ c, makeLike k metadata (k.values.map (Value.rename σ)) b = .ok ⟨b.size⟩ c
      ∧ c.size = b.size + 1 ∧ ∀ q, c.get? q = if q = ⟨b.size⟩ then some (k.copied metadata σ none)
        else (b.get? q).map fun m => if q ∈ k.children.map σ then m.withOwner (some ⟨b.size⟩)
          else m := by
  obtain ⟨b', halloc, hsize, hget⟩ := run_alloc h
  rw [k.children_renamed] at hget
  unfold makeLike
  rw [run_bind_of_ok halloc]
  cases metadata with
  | false => exact ⟨b', rfl, hsize, hget⟩
  | true =>
    refine ⟨b'.update (some ⟨b.size⟩) _, rfl, (size_update ..).trans hsize, fun q => ?_⟩
    rw [get?_update]
    by_cases hq : q = ⟨b.size⟩
    · subst hq
      rw [if_pos rfl, if_pos rfl, hget, if_pos rfl]
      rfl
    · rw [if_neg hq, if_neg hq, hget, if_neg hq]

theorem ends_makeLike (ha : a.WellOwned) (hk : a.get? n = some k)
    (hb : Copied a metadata σ k.children l s b) (hplaces : Places σ s.size (l ++ [n]))
    (hnodup : (l ++ [n]).Nodup) :
    Ends (makeLike k metadata (k.values.map (Value.rename σ)) b)
      (fun copy c => copy = σ n ∧ Copied a metadata σ [n] (l ++ [n]) s c)
      fun _ c => Extends s c ∧ ∃ m ∈ l ++ [n], ¬ a.Filled m := by
  have hmakeable := makeable_copy ha hk hb hplaces.left
  have hdisjoint := List.disjoint_of_nodup_append hnodup
  by_cases hfilled : k.Filled
  · obtain ⟨c, hrun, hsize, hget⟩ := run_makeLike metadata (hmakeable.2 hfilled)
    have hself : σ n = ⟨b.size⟩ := by
      rw [hb.size]
      exact hplaces l.length n (by simp)
    rw [hrun]
    refine ⟨hself.symm, fun m hm => List.mem_append_right _ hm, ?_, ⟨?_, fun q hq => ?_⟩,
      fun m hm km hkm => ?_,
      fun m hm => ?_⟩
    · rw [hsize, hb.size, List.length_append, List.length_singleton, Nat.add_assoc]
    · rw [hsize]
      exact hb.old.size.trans (Nat.le_succ _)
    · have hne : q ≠ ⟨b.size⟩ := by
        rintro rfl
        exact absurd (hq.trans_le hb.old.size) (Nat.lt_irrefl _)
      have hmem : q ∉ k.children.map σ := fun hmem => by
        obtain ⟨m, hm, rfl⟩ := List.mem_map.1 hmem
        exact absurd hq (Nat.not_lt.2 (hplaces.left.bounds (hb.roots_sub m hm)).1)
      rw [hget, if_neg hne, hb.old.get? q hq]
      simp [hmem]
    · rcases List.mem_append.1 hm with hml | hmn
      · have hne : m ≠ n := fun he => hdisjoint hml (List.mem_singleton.2 he)
        have hplace : σ m ≠ ⟨b.size⟩ :=
          fun he => hne (hplaces.injective hm (by simp) (he.trans hself.symm))
        have hmem : σ m ∈ k.children.map σ ↔ m ∈ k.children := by
          refine ⟨fun h => ?_, List.mem_map_of_mem⟩
          obtain ⟨m', hm', he⟩ := List.mem_map.1 h
          rwa [← hplaces.left.injective (hb.roots_sub m' hm') hml he]
        rw [hget, if_neg hplace, hb.get? m hml km hkm, Option.map_some, if_neg (hdisjoint hml)]
        simp only [hmem]
        by_cases hchild : m ∈ k.children
        · have howner : km.parent = some n := by
            have howned := ha.owned.owner_of_child n m (by rwa [children_some, hk])
            rwa [OwnedBy, parentOf_some, hkm] at howned
          rw [if_pos hchild, if_pos hchild, Node.withOwner_copied, howner, Option.map_some, hself]
        · rw [if_neg hchild, if_neg hchild]
      · obtain rfl := List.mem_singleton.1 hmn
        obtain rfl := Option.some.inj (hk.symm.trans hkm)
        rw [hget, hself, if_pos rfl, if_pos hmn]
    · rcases List.mem_append.1 hm with hml | hmn
      · exact hb.filled m hml
      · rw [List.mem_singleton.1 hmn]
        exact ⟨k, hk, hfilled⟩
  · cases hcheck : b.checkAlloc k.type (k.values.map (Value.rename σ)) with
    | ok _ => exact absurd (hmakeable.1 (checkAlloc_iff.1 hcheck)) hfilled
    | error e =>
      have hrun : makeLike k metadata (k.values.map (Value.rename σ)) b = .error e b :=
        run_bind_of_error (run_ask_bind_of_error hcheck)
      rw [hrun]
      refine ⟨hb.old, n, List.mem_append_right _ (List.mem_singleton_self n), ?_⟩
      rintro ⟨k', hk', hfilled'⟩
      exact hfilled (Option.some.inj (hk.symm.trans hk') ▸ hfilled')

/-- **A subtree is copied**, with levels enough, unless a required slot in it is empty. -/
theorem copies_cloneLevels (metadata : Bool) (ha : a.WellOwned) : ∀ {fuel : Nat}
    {n : NodeId}, a.Suffices fuel n →
    Copies a metadata σ (cloneLevels metadata fuel (some n)) [n] (a.postUpTo fuel n) (σ n)
  | 0, _, h => absurd rfl (h.pos ha.owned)
  | fuel + 1, n, h => by
    intro s hs hplaces
    obtain ⟨k, hk⟩ := Option.isSome_iff_exists.1 (isSome_get?_iff.2 h.1)
    have hchildren : a.children (some n) = k.children := by
      rw [children_some, hk]
      rfl
    have hnodup := nodup_postUpTo ha.owned (fuel + 1) n
    rw [postUpTo, hchildren] at hplaces hnodup
    have hforest : k.values.flatMap (fun v => v.children.flatMap (a.postUpTo fuel))
        = k.children.flatMap (a.postUpTo fuel) := by
      rw [Node.children_eq, List.flatMap_assoc]
    have hvalues : Copies a metadata σ
        (k.values.mapM (copyValue fun c => cloneLevels metadata fuel (some c)))
        k.children (k.children.flatMap (a.postUpTo fuel)) (k.values.map (Value.rename σ)) := by
      have hnodup' := (List.nodup_append.1 hnodup).1
      rw [← hforest] at hnodup' ⊢
      refine Copies.mapM (fun v hv => copies_value
        (fun c hc => copies_cloneLevels metadata ha (h.child ha.owned ?_)) ?_) hnodup'
      · rw [hchildren]
        exact List.mem_flatMap.2 ⟨v, hv, hc⟩
      · exact (List.nodup_flatMap.1 hnodup').1 v hv
    have hnode : (fun a : Arena => a.node (some n)) s = .ok k :=
      node_ok.2 ((hs.get? n h.1).trans hk)
    rw [cloneLevels_eq, run_ask_bind hnode, postUpTo, hchildren]
    refine ends_bind.2 ((hvalues s hs hplaces.left).imp ?_ fun _ b hb => ?_)
    · rintro _ b ⟨rfl, hb⟩
      exact ends_makeLike ha hk hb hplaces hnodup
    · obtain ⟨hsb, m, hm, hempty⟩ := hb
      exact ⟨hsb, m, List.mem_append_left _ hm, hempty⟩

/-! ## levels enough -/

/-- From states with `P` the two programs do the same, and they keep `P`. -/
structure Agree (P : Arena → Prop) (x y : ArenaM β) : Prop where
  run_eq : ∀ s, P s → x s = y s
  stays : Stays P y

namespace Agree

variable {P : Arena → Prop}

theorem pure (x : β) : Agree P (pure x : ArenaM β) (Pure.pure x) := ⟨fun _ _ => rfl, stays_pure x⟩

theorem bind {x y : ArenaM β} {f g : β → ArenaM γ} (h : Agree P x y)
    (hf : ∀ z, Agree P (f z) (g z)) :
    Agree P (x >>= f) (y >>= g) where
  run_eq s hs := by
    have hhead : (x >>= f) s = (y >>= f) s := by
      show EStateM.bind x f s = EStateM.bind y f s
      unfold EStateM.bind
      rw [h.run_eq s hs]
    rw [hhead]
    exact run_bind_congr fun z s' hz => (hf z).run_eq s' ((stays_iff.1 h.stays s hs).of_ok hz)
  stays := h.stays.bind fun z => (hf z).stays

theorem mapM {f g : β → ArenaM γ} {vs : List β} (h : ∀ v ∈ vs, Agree P (f v) (g v)) :
    Agree P (vs.mapM f) (vs.mapM g) := by
  induction vs with
  | nil => exact pure []
  | cons v vs ih =>
    rw [List.mapM_cons, List.mapM_cons]
    exact (h v (List.mem_cons_self ..)).bind fun _ =>
      (ih fun v hv => h v (List.mem_cons_of_mem _ hv)).bind fun _ => pure _

theorem copyValue {clone clone' : NodeId → ArenaM NodeId} {v : Value}
    (h : ∀ c ∈ v.children, Agree P (clone c) (clone' c)) :
    Agree P (copyValue clone v) (Arena.copyValue clone' v) := by
  cases v with
  | node child =>
    cases child with
    | none => exact pure _
    | some c => exact (h c (mem_children_node.2 rfl)).bind fun _ => pure _
  | list items =>
    refine (mapM fun item hitem => ?_).bind fun _ => pure _
    cases item with
    | none => exact pure _
    | some c => exact (h c (mem_children_list.2 hitem)).bind fun _ => pure _
  | _ => exact pure _

end Agree

theorem Copies.stays {x : ArenaM β} {y : (NodeId → NodeId) → β}
    (h : ∀ σ, Copies a metadata σ x roots l (y σ)) (hl : l.Nodup) : Stays (Extends a) x :=
  stays_iff.2 fun s hs => (h _ s hs (.idxOf hl s.size)).imp (fun _ _ hb => hs.trans hb.2.old)
    fun _ _ hb => hs.trans hb.1

theorem agree_cloneLevels (ha : a.WellOwned) : ∀ {fuel : Nat} {n : NodeId}, a.Suffices fuel n →
    Agree (Extends a) (cloneLevels metadata (fuel + 1) (some n))
    (cloneLevels metadata fuel (some n))
  | 0, _, h => absurd rfl (h.pos ha.owned)
  | fuel + 1, n, h => by
    refine ⟨fun s hs => ?_, Copies.stays (fun _ => copies_cloneLevels metadata ha h)
      (nodup_postUpTo ha.owned _ n)⟩
    obtain ⟨k, hk⟩ := Option.isSome_iff_exists.1 (isSome_get?_iff.2 h.1)
    have hnode : (fun a : Arena => a.node (some n)) s = .ok k :=
      node_ok.2 ((hs.get? n h.1).trans hk)
    have hvalues : Agree (Extends a)
        (k.values.mapM (copyValue fun c => cloneLevels metadata (fuel + 1) (some c)))
        (k.values.mapM (copyValue fun c => cloneLevels metadata fuel (some c))) :=
      .mapM fun v hv => .copyValue fun c hc => agree_cloneLevels ha (h.child ha.owned (by
        rw [children_some, hk]
        exact List.mem_flatMap.2 ⟨v, hv, hc⟩))
    rw [cloneLevels_eq, cloneLevels_eq, run_ask_bind hnode, run_ask_bind hnode]
    show EStateM.bind _ _ s = EStateM.bind _ _ s
    unfold EStateM.bind
    rw [hvalues.run_eq s hs]

theorem suffices_of_le (hr : r.index < a.size) (h : a.size ≤ fuel) : a.Suffices fuel r :=
  ⟨hr, h.trans (Nat.le_add_right ..)⟩

theorem cloneLevels_of_le (ha : a.WellOwned) (hr : r.index < a.size) (h : a.size ≤ fuel) :
    cloneLevels metadata fuel (some r) a = cloneLevels metadata a.size (some r) a := by
  induction fuel, h using Nat.le_induction with
  | base => rfl
  | succ fuel h ih =>
    exact ((agree_cloneLevels ha (suffices_of_le hr h)).run_eq a (.refl a)).trans ih

/-! ## subtrees written out -/

/-- A node written out, with the given data for children. -/
def datumOf (f : Option NodeId → Datum) (n : Node) : Datum :=
  let fields := (n.type.fields.zip n.values).map fun (g, value) => (g.name,
    match value with
    | .node child => f child
    | .list items => .arr (items.map f)
    | .str s => .str s
    | .num x => if x.isFinite then .float x else .null
    | .bool b => .bool b
    | .null => .null)
  let extra := if n.extra.isEmpty then [] else [("extra", .obj n.extra)]
  .obj (("type", .str n.type.name) :: fields ++ extra)

theorem datumLevels_succ (a : Arena) (fuel : Nat) (n : NodeId) :
    a.datumLevels (fuel + 1) (some n) = (a.get? n).elim .null (datumOf (a.datumLevels fuel)) := by
  rw [datumLevels, look_some]
  cases a.get? n <;> rfl

theorem datumLevels_none (a : Arena) (fuel : Nat) : a.datumLevels fuel none = .null := by
  cases fuel <;> rfl

theorem datumOf_renamed {f g : Option NodeId → Datum} {k k' : Node} (htype : k'.type = k.type)
    (hvalues : k'.values = k.values.map (Value.rename σ)) (hextra : k'.extra = k.extra)
    (hnone : f none = g none) (h : ∀ c ∈ k.children, f (some (σ c)) = g (some c)) :
    datumOf f k' = datumOf g k := by
  have hmap : ∀ v ∈ k.values, ∀ x ∈ v.handles, f (x.map σ) = g x := fun v hv x hx => by
    cases x with
    | none => exact hnone
    | some c => exact h c (List.mem_flatMap.2 ⟨v, hv, List.mem_filterMap.2 ⟨some c, hx, rfl⟩⟩)
  unfold datumOf
  rw [htype, hvalues, hextra, List.zip_map_right, List.map_map]
  dsimp only
  congr 3
  refine List.map_congr_left fun ⟨field, v⟩ hv => ?_
  have hv := hmap v (List.of_mem_zip hv).2
  cases v with
  | node child => exact congrArg (Prod.mk field.name) (hv child (List.mem_singleton_self _))
  | list items =>
    refine congrArg (fun l => (field.name, Datum.arr l)) ?_
    rw [List.map_map]
    exact List.map_congr_left fun x hx => hv x hx
  | _ => rfl

theorem datumLevels_renamed (ha : a.Owned) : ∀ {fuel : Nat} {n : NodeId},
    (∀ m, ReflTransGen a.OwnedBy m n → ∃ k k', a.get? m = some k ∧ b.get? (σ m) = some k'
      ∧ k'.type = k.type ∧ k'.values = k.values.map (Value.rename σ) ∧ k'.extra = k.extra) →
    b.datumLevels fuel (some (σ n)) = a.datumLevels fuel (some n)
  | 0, _, _ => rfl
  | fuel + 1, n, h => by
    obtain ⟨k, k', hk, hk', htype, hvalues, hextra⟩ := h n .refl
    rw [datumLevels_succ, datumLevels_succ, hk, hk']
    refine datumOf_renamed htype hvalues hextra ?_
      fun c hc => datumLevels_renamed ha fun m hm => h m (hm.tail ?_)
    · rw [datumLevels_none, datumLevels_none]
    · exact ha.owner_of_child n c (by rwa [children_some, hk])

theorem datumLevels_enough (ha : a.Owned) : ∀ {fuel : Nat} {n : NodeId}, a.Suffices fuel n →
    a.datumLevels (fuel + 1) (some n) = a.datumLevels fuel (some n)
  | 0, _, h => absurd rfl (h.pos ha)
  | fuel + 1, n, h => by
    obtain ⟨k, hk⟩ := Option.isSome_iff_exists.1 (isSome_get?_iff.2 h.1)
    rw [datumLevels_succ, datumLevels_succ, hk]
    have hid : k.values = k.values.map (Value.rename id) := by
      refine (List.map_id k.values).symm.trans (List.map_congr_left fun v _ => ?_)
      cases v <;> simp [Value.rename]
    refine datumOf_renamed (σ := id) rfl hid rfl ?_ fun c hc =>
      datumLevels_enough ha (h.child ha ?_)
    · rw [datumLevels_none, datumLevels_none]
    · rwa [children_some, hk]

theorem datumLevels_of_le (ha : a.Owned) (hr : r.index < a.size) (h : a.size ≤ fuel) :
    a.datumLevels fuel (some r) = a.datumLevels a.size (some r) := by
  induction fuel, h using Nat.le_induction with
  | base => rfl
  | succ fuel h ih => exact (datumLevels_enough ha (suffices_of_le hr h)).trans ih

theorem get?_strip (a : Arena) (root : Option NodeId) (q : NodeId) :
    (final (strip root a)).get? q = (a.get? q).map fun n => if q ∈ a.preorder root then n.bare
      else n := by
  have hfold (l : List NodeId) (a : Arena) :
      (l.foldl (fun a id => a.update (some id) Node.bare) a).get? q
        = (a.get? q).map fun n => if q ∈ l then n.bare else n := by
    induction l generalizing a with
    | nil => simp
    | cons x l ih =>
      rw [List.foldl_cons, ih, get?_update]
      by_cases hq : q = x
      · subst hq
        rw [if_pos rfl, Option.map_map]
        refine congrArg (Option.map · _) (funext fun n => ?_)
        by_cases hl : q ∈ l <;> simp [hl, Node.bare]
      · simp [hq]
  exact hfold (a.preorder root) a

theorem parentOf_strip (a : Arena) (root : Option NodeId) (q : NodeId) :
    (final (strip root a)).parentOf (some q) = a.parentOf (some q) := by
  rw [parentOf_some, parentOf_some, get?_strip]
  cases a.get? q with
  | none => rfl
  | some n =>
    rw [Option.map_some, Option.bind_some, Option.bind_some]
    split <;> rfl

theorem owned_strip (ha : a.Owned) (root : Option NodeId) : (final (strip root a)).Owned := by
  refine ha.of_eq (fun q => ?_) (parentOf_strip a root)
  rw [children_some, children_some, get?_strip]
  cases a.get? q with
  | none => rfl
  | some n =>
    rw [Option.map_some, Option.elim_some, Option.elim_some]
    split <;> rfl

theorem size_strip (a : Arena) (root : Option NodeId) : (final (strip root a)).size = a.size := by
  have hfold (l : List NodeId) (a : Arena) :
      (l.foldl (fun a id => a.update (some id) Node.bare) a).size = a.size := by
    induction l generalizing a with
    | nil => rfl
    | cons x l ih => rw [List.foldl_cons, ih, size_update]
  exact hfold (a.preorder root) a

/-! ## the copy -/

/-- In `b` there is a copy of the subtree of `r` in `a`, with or without what is attached to its
nodes: the node `n` of the subtree has its copy at `σ n`. -/
structure CopyOf (a b : Arena) (metadata : Bool) (r copy : NodeId)
    (σ : NodeId → NodeId) : Prop where
  root : σ r = copy
  /-- nodes and their owners are copied, and the copy of the root has no owner -/
  get? : ∀ n k, ReflTransGen a.OwnedBy n r → a.get? n = some k →
    b.get? (σ n) = some (k.copied metadata σ (if n = r then none else k.parent.map σ))
  /-- different nodes have different copies -/
  injective : ∀ n m, ReflTransGen a.OwnedBy n r → ReflTransGen a.OwnedBy m r → σ n = σ m → n = m
  /-- copies are new nodes -/
  fresh : ∀ n, ReflTransGen a.OwnedBy n r → a.size ≤ (σ n).index
  /-- all new nodes are copies -/
  all : ∀ m, a.size ≤ m.index → m.index < b.size → ∃ n, ReflTransGen a.OwnedBy n r ∧ σ n = m
  /-- the copies are the subtree of the copy of the root -/
  under : ∀ m, ReflTransGen b.OwnedBy m copy ↔ ∃ n, ReflTransGen a.OwnedBy n r ∧ σ n = m
  /-- the copy is written out like the original, less the extra data if they were not asked for -/
  datum : b.toDatum (some copy)
    = (if metadata then a else final (strip (some r) a)).toDatum (some r)

section Root

variable (ha : a.WellOwned) (hr : r.index < a.size)

include ha hr

theorem toDatum_copy (hsize : a.size ≤ b.size)
    (hget : ∀ n k, ReflTransGen a.OwnedBy n r → a.get? n = some k →
      ∃ owner, b.get? (σ n) = some (k.copied metadata σ owner)) :
    b.toDatum (some (σ r)) = (if metadata then a else final (strip (some r) a)).toDatum
    (some r) := by
  have hnode : ∀ m, ReflTransGen a.OwnedBy m r → ∃ k, a.get? m = some k := fun m hm => by
    rcases ReflTransGen.cases_head hm with rfl | ⟨p, hp, -⟩
    · exact Option.isSome_iff_exists.1 (isSome_get?_iff.2 hr)
    · exact Option.isSome_iff_exists.1 (isSome_get?_iff.2 hp.lt)
  have henough {c : Arena} (hc : c.Owned) (hcsize : c.size = a.size) :
      c.toDatum (some r) = c.datumLevels (b.size + 1) (some r) := by
    have hr' : r.index < c.size := hcsize ▸ hr
    have hlevels : c.size ≤ b.size + 1 := by omega
    rw [toDatum, datumLevels_of_le hc hr' (Nat.le_succ _), datumLevels_of_le hc hr' hlevels]
  cases metadata with
  | true =>
    rw [if_pos rfl, henough ha.owned rfl]
    refine datumLevels_renamed ha.owned fun m hm => ?_
    obtain ⟨k, hk⟩ := hnode m hm
    obtain ⟨owner, hcopy⟩ := hget m k hm hk
    exact ⟨k, _, hk, hcopy, rfl, rfl, rfl⟩
  | false =>
    rw [if_neg Bool.false_ne_true, henough (owned_strip ha.owned _) (size_strip ..)]
    refine datumLevels_renamed (owned_strip ha.owned _) fun m hm => ?_
    have hm : ReflTransGen a.OwnedBy m r :=
      ReflTransGen.mono (fun x y hxy => (parentOf_strip a (some r) x).symm.trans hxy) _ _ hm
    obtain ⟨k, hk⟩ := hnode m hm
    obtain ⟨owner, hcopy⟩ := hget m k hm hk
    refine ⟨k.bare, _, ?_, hcopy, rfl, rfl, rfl⟩
    rw [get?_strip, hk, Option.map_some, if_pos ((mem_preorder ha.owned hr).2 hm)]

theorem copyOf_of_copied {copy : NodeId} {l : List NodeId}
    (hl : ∀ m, m ∈ l ↔ ReflTransGen a.OwnedBy m r) (hplaces : Places σ a.size l)
    (hroot : σ r = copy) (h : Copied a metadata σ [r] l a b) (hb : b.Owned) :
    CopyOf a b metadata r copy σ := by
  subst hroot
  have hget : ∀ n k, ReflTransGen a.OwnedBy n r → a.get? n = some k →
      b.get? (σ n) = some (k.copied metadata σ (if n = r then none else k.parent.map σ)) :=
      fun n k hn hk => by
    rw [h.get? n ((hl n).2 hn) k hk]
    simp only [List.mem_singleton]
  have hnode : ∀ n, ReflTransGen a.OwnedBy n r → ∃ k, a.get? n = some k := fun n hn => by
    obtain ⟨k, hk, -⟩ := h.filled n ((hl n).2 hn)
    exact ⟨k, hk⟩
  have hchildren : ∀ n, ReflTransGen a.OwnedBy n r → b.children (some (σ n))
      = (a.children (some n)).map σ :=
    fun n hn => by
      obtain ⟨k, hk⟩ := hnode n hn
      rw [children_some, children_some, hget n k hn hk, hk, Option.elim_some, Option.elim_some,
        Node.children_eq, Node.values_copied, Node.children_renamed]
  refine ⟨rfl, hget, fun n m hn hm he => hplaces.injective ((hl n).2 hn) ((hl m).2 hm) he,
    fun n hn => (hplaces.bounds ((hl n).2 hn)).1,
      fun m hm hmb => ?_, fun m => ⟨fun hm => ?_, ?_⟩, ?_⟩
  · have hlt : m.index - a.size < l.length := by
      have := h.size
      omega
    refine ⟨l[m.index - a.size], (hl _).1 (List.getElem_mem hlt), ?_⟩
    rw [hplaces _ _ (List.getElem?_eq_getElem hlt), Nat.add_sub_cancel' hm]
  · -- down from the root, children of copies are copies
    induction hm using ReflTransGen.head_induction_on with
    | refl => exact ⟨r, .refl, rfl⟩
    | @head x y hxy _ ih =>
      obtain ⟨n, hn, rfl⟩ := ih
      have hx := hb.mem_children hxy
      rw [hchildren n hn] at hx
      obtain ⟨c, hc, rfl⟩ := List.mem_map.1 hx
      exact ⟨c, .head (ha.owned.owner_of_child n c hc) hn, rfl⟩
  · rintro ⟨n, hn, rfl⟩
    induction hn using ReflTransGen.head_induction_on with
    | refl => exact .refl
    | @head x y hxy hy ih =>
      refine .head (hb.owner_of_child _ _ ?_) ih
      rw [hchildren y hy]
      exact List.mem_map_of_mem (ha.owned.mem_children hxy)
  · exact toDatum_copy ha hr h.old.size fun n k hn hk => ⟨_, hget n k hn hk⟩

/-- **A copy is faithful, and apart from all there was.** The copy ends, and it fails only for an
empty required slot. What it gives is the root of a copy of the subtree, made of new nodes. All
nodes that were there stay as they are, also where it fails. -/
theorem cloneDeep_exact (metadata : Bool) :
    (∀ fuel, a.size ≤ fuel → cloneLevels metadata fuel (some r) a = cloneDeep (some r) metadata a)
      ∧ ((∃ copy b, cloneDeep (some r) metadata a = .ok copy b)
        ↔ ∀ n, ReflTransGen a.OwnedBy n r → a.Filled n)
      ∧ (∀ copy b, cloneDeep (some r) metadata a = .ok copy b →
        b.Owned ∧ ∃ σ, CopyOf a b metadata r copy σ)
      ∧ ∀ q, q.index < a.size → (final (cloneDeep (some r) metadata a)).get? q = a.get? q := by
  have hsuffices : a.Suffices (a.size + 1) r := suffices_of_le hr (Nat.le_succ _)
  have hmem (m : NodeId) : m ∈ a.postUpTo (a.size + 1) r ↔ ReflTransGen a.OwnedBy m r :=
    mem_postUpTo ha.owned hsuffices
  have hplaces := Places.idxOf (nodup_postUpTo ha.owned (a.size + 1) r) a.size
  have hrun := copies_cloneLevels metadata ha hsuffices a (.refl a) hplaces
  have hdeep : cloneDeep (some r) metadata a = cloneLevels metadata (a.size + 1) (some r) a := rfl
  refine ⟨fun fuel hfuel => ?_, ?_, fun copy b h => ?_, ?_⟩
  · rw [hdeep, cloneLevels_of_le ha hr hfuel, cloneLevels_of_le ha hr (Nat.le_succ _)]
  · rw [hdeep]
    cases hout : cloneLevels metadata (a.size + 1) (some r) a with
    | ok copy b => exact ⟨fun _ n hn => (hrun.of_ok hout).2.filled n ((hmem n).2 hn),
      fun _ => ⟨copy, b, rfl⟩⟩
    | error e b =>
      obtain ⟨-, m, hm, hempty⟩ := hrun.of_error hout
      exact ⟨fun ⟨_, _, h⟩ => (nomatch h), fun h => absurd (h m ((hmem m).1 hm)) hempty⟩
  · obtain ⟨hroot, hcopied⟩ := hrun.of_ok (hdeep.symm.trans h)
    have hb : b.Owned := (stays_iff.1 (stays_owned_cloneDeep (some r) metadata) a ha.owned).of_ok h
    exact ⟨hb, _, copyOf_of_copied ha hr hmem hplaces hroot.symm hcopied hb⟩
  · rw [hdeep]
    exact (ends_final.1 (hrun.imp (fun _ _ h => h.2.old) fun _ _ h => h.1) : Extends a _).get?

end Root

/-- The array literal is copied with its element, and the element that was there keeps its owner. -/
theorem cloneDeep_exact_arrayAndName :
    (∃ copy b, cloneDeep (some ⟨1⟩) true arrayAndName = .ok copy b ∧ b.Owned
        ∧ ∃ σ, CopyOf arrayAndName b true ⟨1⟩ copy σ)
      ∧ (final (cloneDeep (some ⟨1⟩) true arrayAndName)).get? ⟨0⟩ = arrayAndName.get? ⟨0⟩ := by
  obtain ⟨-, -, hcopy, hold⟩ :=
    cloneDeep_exact (a := arrayAndName) (r := ⟨1⟩) (wellOwned_runAll _) (by decide) true
  obtain ⟨copy, b, hrun⟩ : ∃ copy b, cloneDeep (some ⟨1⟩) true arrayAndName = .ok copy b :=
    exists_ok_of_passes (by decide)
  exact ⟨⟨copy, b, hrun, hcopy copy b hrun⟩, hold ⟨0⟩ (by decide)⟩

end Arena

end ScopedTree
