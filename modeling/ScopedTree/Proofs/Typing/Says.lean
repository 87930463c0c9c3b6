import ScopedTree.Proofs.Edit.Updates
import ScopedTree.Proofs.Typing.Union

/-!
# What is found of a type

What is found of a type is of which kinds the types are that it is made of, and whether it is a base
type itself. What is found of a union is known from what is found of the types in it.

* `Arena.Complete`       no required slot of any node is empty;
* `Finding`                what is found of a type;
* `Arena.Says`           it is found of this type;
* `Tree.Enlarges`        nodes were made, or got an owner, and nothing else changed;
* `Tree.ends_unionType_found`   **a union says what the types in it say**.
-/

namespace ScopedTree

/-! ## complete arenas -/

namespace Arena

variable {a b : Arena} {m n r u : NodeId} {x : Option NodeId} {k : Kind} {ty : NodeType}

/-- No required slot of any node is empty. -/
def Complete (a : Arena) : Prop := ∀ n, n.index < a.size → a.Filled n

instance (a : Arena) (n : NodeId) : Decidable (a.Filled n) :=
  decidable_of_iff ((a.get? n).any fun k => decide (∀ f ∈ k.type.fields, f.kind = .node →
    (k.child? f.name).isSome)) (by simp only [Option.any_eq_true, decide_eq_true_eq]; exact Iff.rfl)

instance (a : Arena) : Decidable a.Complete :=
  decidable_of_iff (∀ i < a.size, a.Filled ⟨i⟩) ⟨fun h n hn => h n.index hn, fun h i hi => h ⟨i⟩ hi⟩

theorem stays_complete_alloc (ty : NodeType) (values : List Value) :
    Stays Complete (alloc ty values) := by
  refine stays_iff.2 fun a ha => ?_
  by_cases hmake : a.Makeable ty values
  · obtain ⟨b, hrun, hsize, hget⟩ := run_alloc hmake
    rw [hrun]
    intro n hn
    have hnode := hget n
    by_cases hnew : n = ⟨a.size⟩
    · rw [if_pos hnew] at hnode
      have hshaped : ({ type := ty, values } : Node).Shaped := hmake.fills.imp fun f v h => h.1
      exact ⟨_, hnode, (filled_iff_fills hshaped).2 hmake.fills⟩
    · have hne : n.index ≠ a.size := fun he => hnew (by rw [← he])
      have hn : n.index < b.size := hn
      obtain ⟨k, hk, hfilled⟩ := ha n (by omega)
      rw [if_neg hnew, hk, Option.map_some] at hnode
      refine ⟨_, hnode, hfilled.congr ?_⟩
      split <;> rfl
  · unfold alloc
    rw [ends_bind, ends_ask]
    exact ⟨fun _ h => absurd (checkAlloc_iff.1 h) hmake, fun _ _ => ha⟩

theorem stays_complete_cloneDeep (root : Option NodeId) (metadata : Bool) :
    Stays Complete (cloneDeep root metadata) := by
  refine Stays.bind (fun _ h => h) fun a => Stays.cloneLevels stays_complete_alloc ?_
    metadata _ root
  intro a id f hf ha n hn
  rw [size_update] at hn
  obtain ⟨k, hk, hfilled⟩ := ha n hn
  obtain ⟨k', hk', hcontent⟩ : ∃ k', (a.update id f).get? n = some k' ∧ k.content = k'.content := by
    cases id with
    | none => exact ⟨k, hk, rfl⟩
    | some id =>
      rw [get?_update, hk]
      split
      · exact ⟨f k, by simp_all, by simp [Node.content, (hf k).1, (hf k).2.1]⟩
      · exact ⟨k, rfl, rfl⟩
  exact ⟨k', hk', hfilled.congr hcontent⟩

theorem stays_wellOwned_build (ty : NodeType) (fields : List (String × Value)) :
    Stays WellOwned (build ty fields) :=
  Stays.bind (stays_ask _) fun values a ha =>
    ⟨stays_owned_alloc ty values a ha.owned, stays_shaped_alloc ty values a ha.shaped⟩

theorem stays_complete_build (ty : NodeType) (fields : List (String × Value)) :
    Stays Complete (build ty fields) :=
  Stays.bind (stays_ask _) fun values => stays_complete_alloc ty values

end Arena

/-! ## what is found -/

/-- What is found of a type: the kinds of the types that it is made of, and the base type that it
is. -/
structure Finding where
  kinds : List Kind
  base : Option NodeType

def NodeType.plainKind (ty : NodeType) : Kind :=
  if ty.isA .flowBase then .base ty else .other (some ty) (.obj [("type", .str ty.name)])

namespace Finding

def ofKind (k : Kind) : Finding := ⟨[k], k.base?⟩

def any : Finding := ofKind (.base .anyType)

def unite (found : List Finding) : Finding :=
  let kinds := found.flatMap Finding.kinds
  if kinds.any (Kind.isBase .anyType) then any
  else
    match kinds with
    | [] => any
    | k :: rest => ⟨k :: rest, k.base?.filter fun ty => rest.all (Kind.isBase ty)⟩

variable {F F' : Finding} {Fs : List Finding} {k : Kind} {ty : NodeType}

theorem unite_of_any (h : .base .anyType ∈ Fs.flatMap kinds) : unite Fs = any :=
  if_pos (List.any_eq_true.2 ⟨_, h, Kind.isBase_iff.2 rfl⟩)

theorem unite_of_nil (h : Fs.flatMap kinds = []) : unite Fs = any := by
  unfold unite
  rw [h]
  rfl

theorem not_any_isBase (hany : .base .anyType ∉ Fs.flatMap kinds) :
    ¬ (Fs.flatMap kinds).any (Kind.isBase .anyType) = true := by
  intro h
  obtain ⟨k, hk, hbase⟩ := List.any_eq_true.1 h
  exact hany (Kind.isBase_iff.1 hbase ▸ hk)

theorem kinds_unite (hany : .base .anyType ∉ Fs.flatMap kinds) (hne : Fs.flatMap kinds ≠ []) :
    (unite Fs).kinds = Fs.flatMap kinds := by
  unfold unite
  dsimp only
  rw [if_neg (not_any_isBase hany)]
  generalize Fs.flatMap kinds = ks at hne
  cases ks with
  | nil => exact absurd rfl hne
  | cons k rest => rfl

theorem base_unite_iff (hany : .base .anyType ∉ Fs.flatMap kinds) (hne : Fs.flatMap kinds ≠ []) :
    (unite Fs).base = some ty ↔ ∀ k ∈ Fs.flatMap kinds, k = .base ty := by
  unfold unite
  dsimp only
  rw [if_neg (not_any_isBase hany)]
  generalize Fs.flatMap kinds = ks at hne
  cases ks with
  | nil => exact absurd rfl hne
  | cons k rest =>
    dsimp only
    rw [Option.filter_eq_some_iff, Kind.base?_iff, List.all_eq_true, List.forall_mem_cons]
    simp only [Kind.isBase_iff]

end Finding

namespace Arena

variable {a b : Arena} {m n r u c : NodeId} {x : Option NodeId} {k : Kind} {ty : NodeType}
  {F F' : Finding} {Fs : List Finding} {types : List (Option NodeId)} {chosen : List NodeId}

/-- What is found of a type in an arena. -/
structure Says (a : Arena) (x : Option NodeId) (F : Finding) : Prop where
  known : ∀ u, x = some u → u.index < a.size
  kinds : ∀ k, a.HasKind x k ↔ k ∈ F.kinds
  base : ∀ ty, ty.isA .flowBase = true → (a.is x ty = true ↔ F.base = some ty)

theorem Says.retained (h : a.Says x F) (ha : a.Owned) (hb : b.Owned)
    (hret : Retains a b) : b.Says x F := by
  refine ⟨fun u hu => (h.known u hu).trans_le hret.size, fun k => ?_, fun ty hty => ?_⟩
  · rw [hasKind_retained ha hb hret h.known, h.kinds]
  · rw [← h.base ty hty]
    cases x with
    | none => exact Iff.rfl
    | some u => rw [hret.is (h.known u rfl)]

theorem Says.congr (h : a.Says x F) (hkinds : ∀ k, k ∈ F.kinds ↔ k ∈ F'.kinds)
    (hbase : ∀ ty, F.base = some ty ↔ F'.base = some ty) : a.Says x F' :=
  ⟨h.known, fun k => (h.kinds k).trans (hkinds k), fun ty hty => (h.base ty hty).trans (hbase ty)⟩

theorem opens_self_iff (hm : m.index < a.size) (hnot : a.is (some m) .unionType = false) :
    a.Opens m n ↔ n = m := by
  constructor
  · intro h
    cases h with
    | self => rfl
    | entry hunion => cases hnot.symm.trans hunion
  · rintro rfl
    exact .self hm hnot

theorem typeClass_of_ne (h : a.type? (some m) = some ty) (hne : ty ≠ .genericType) :
    a.typeClass m = if ty.isA .flowBase then .base ty else .other m := by
  unfold typeClass
  rw [h]
  cases ty with
  | genericType => exact absurd rfl hne
  | _ => rfl

theorem says_ofKind (hm : m.index < a.size) (hnot : a.is (some m) .unionType = false) :
    a.Says (some m) (.ofKind (a.kind m)) := by
  refine ⟨fun u hu => Option.some.inj hu ▸ hm, fun k => ?_, fun ty hty => ?_⟩
  · unfold HasKind Finding.ofKind
    simp only [Option.some.injEq, exists_and_left, exists_eq_left', opens_self_iff hm hnot,
      List.mem_singleton, exists_eq_left]
    exact eq_comm
  · show _ ↔ (a.kind m).base? = some ty
    rw [Kind.base?_iff, kind_base_iff]
    exact ⟨fun h => ⟨hty, h⟩, fun h => h.2⟩

theorem exists_member_iff (h : List.Forall₂ a.Says types Fs) :
    (∃ m, a.Member types m ∧ a.kind m = k) ↔ k ∈ Fs.flatMap Finding.kinds := by
  rw [List.mem_flatMap]
  constructor
  · rintro ⟨m, ⟨u, hu, hm⟩, hk⟩
    obtain ⟨F, hF, hsaid⟩ := Tree.forall₂_exists_of_mem_left h hu
    exact ⟨F, hF, (hsaid.kinds k).1 ⟨u, m, rfl, hm, hk⟩⟩
  · rintro ⟨F, hF, hk⟩
    obtain ⟨x, hx, hsaid⟩ := Tree.forall₂_exists_of_mem_right h hF
    obtain ⟨u, m, rfl, hm, hk⟩ := (hsaid.kinds k).2 hk
    exact ⟨m, ⟨u, hx, hm⟩, hk⟩

theorem says_any (hm : a.is (some m) .anyType = true) : a.Says (some m) .any := by
  have hnot : a.is (some m) .unionType = false :=
    Bool.eq_false_iff.2 fun h => absurd (is_unique hm h) (by decide)
  have hkind : a.kind m = .base .anyType := kind_base_iff.2 ⟨by decide, hm⟩
  obtain ⟨o, ho, -⟩ := is_some.1 hm
  unfold Finding.any
  rw [← hkind]
  exact says_ofKind (get?_eq_some_lt ho) hnot

theorem EntriesFor.says_union {s : Arena} {base : Nat} {cs : List NodeId}
    (h : EntriesFor a s base cs chosen) (hs : s.Owned) (hb : b.Owned) (hret : Retains s b)
    (hunion : b.is (some r) .unionType = true) (hitems : b.items (some r) "types" = cs.map some)
    (hnot : ∀ c ∈ cs, b.is (some c) .unionType = false) (hkinds : ∀ k, k ∈ F.kinds
      ↔ ∃ m ∈ chosen, a.kind m = k) (hbase : F.base = none) : b.Says (some r) F := by
  obtain ⟨o, ho, -⟩ := is_some.1 hunion
  have hkind (c m : NodeId) (hc : c ∈ cs) (hcm : s.kind c = a.kind m) : b.kind c = a.kind m :=
    (kind_retained hs hb hret (h.free c hc).1).trans hcm
  have hopens (m : NodeId) : b.Opens r m ↔ m ∈ cs := by
    constructor
    · intro hm
      cases hm with
      | self _ hself => cases hself.symm.trans hunion
      | @entry _ c _ _ hc hm =>
        have hc : c ∈ cs := by simpa [hitems] using hc
        rw [opens_self_iff ((h.free c hc).1.trans_le hret.size) (hnot c hc)] at hm
        exact hm ▸ hc
    · intro hm
      refine .entry hunion (hitems ▸ List.mem_map_of_mem hm)
        (.self ((h.free m hm).1.trans_le hret.size) (hnot m hm))
  refine ⟨fun u hu => Option.some.inj hu ▸ get?_eq_some_lt ho, fun k => ?_, fun ty hty => ?_⟩
  · rw [hkinds]
    constructor
    · rintro ⟨u, c, hu, hc, hk⟩
      obtain rfl := Option.some.inj hu
      have hc := (hopens c).1 hc
      obtain ⟨m, hm, hcm⟩ :=
        Tree.forall₂_exists_of_mem_left ((List.forall₂_and_left _ _).2 ⟨fun c hc => hc, h.kinds⟩) hc
      exact ⟨m, hm, (hkind c m hc hcm.2).symm.trans hk⟩
    · rintro ⟨m, hm, hk⟩
      obtain ⟨c, hc, hcm⟩ := Tree.forall₂_exists_of_mem_right h.kinds hm
      exact ⟨r, c, rfl, (hopens c).2 hc, (hkind c m hc hcm).trans hk⟩
  · rw [hbase]
    refine ⟨fun h => ?_, fun h => nomatch h⟩
    rw [← is_unique hunion h] at hty
    cases hty

end Arena

namespace Tree

open Arena Relation

variable {t t' t'' : Tree} {m r : NodeId} {ms : List NodeId} {x : Option NodeId} {F : Finding}
  {Fs : List Finding} {types : List (Option NodeId)} {k : Kind}

/-- Nodes were made, or got an owner, and nothing else changed. -/
structure Enlarges (t t' : Tree) : Prop where
  tree : t' = { t with arena := t'.arena }
  retains : Retains t.arena t'.arena
  owned : t'.arena.WellOwned
  complete : t'.arena.Complete

theorem Enlarges.refl (h : t.arena.WellOwned) (hcomplete : t.arena.Complete) : t.Enlarges t :=
  ⟨rfl, .refl _, h, hcomplete⟩

theorem Enlarges.trans (h : t.Enlarges t') (h' : t'.Enlarges t'') : t.Enlarges t'' := by
  refine ⟨?_, h.retains.trans h'.retains, h'.owned, h'.complete⟩
  rw [h'.tree, h.tree]

theorem stays_complete_baseType (ty : NodeType) : Stays (fun t => t.arena.Complete) (baseType ty) :=
  stays_edit (stays_complete_build ty [])

theorem stays_complete_unite (ms : List NodeId) : Stays (fun t => t.arena.Complete) (unite ms) := by
  obtain _ | ⟨c, _ | ⟨c', rest⟩⟩ := ms
  · exact stays_complete_baseType .anyType
  · exact stays_pure c
  · refine Stays.bind (Stays.mapM (fun m => ?_) _) fun owned =>
      stays_edit (stays_complete_build _ _)
    unfold unowned
    refine Stays.bind (fun _ h => h) fun t => ?_
    split
    · exact stays_edit ((stays_complete_cloneDeep _ _).bind fun _ => stays_pure _)
    · exact stays_pure _

theorem not_gap {a : Arena} (ha : a.Complete) (hm : m.index < a.size) : ¬ Gap a m := by
  rintro ⟨-, n, hn, hempty⟩
  exact hempty (ha n (lt_of_under hm hn))

theorem ends_unite_found (ha : t.arena.WellOwned) (hcomplete : t.arena.Complete)
    (hlen : 2 ≤ ms.length) (hnodup : ms.Nodup)
    (hms : ∀ m ∈ ms, m.index < t.arena.size ∧ t.arena.is (some m) .unionType = false)
    (hkinds : ∀ k, k ∈ F.kinds ↔ ∃ m ∈ ms, t.arena.kind m = k) (hbase : F.base = none) :
    Ends (unite ms t) (fun r t' => t.Enlarges t' ∧ t'.arena.Says (some r) F) fun _ _ => False := by
  have hall := stays_iff.1 (stays_complete_unite ms) t hcomplete
  have hends : Ends (unite ms t) (fun r t' =>
      (t' = { t with arena := t'.arena } ∧ Retains t.arena t'.arena
      ∧ t'.arena.WellOwned) ∧ t'.arena.Says (some r) F) fun _ _ => False := by
    rw [unite_of_two hlen]
    have hseveral := ends_several ha ms (fun m hm => (hms m hm).1) hnodup ha (.refl _)
    refine ends_bind.2 (hseveral.imp ?_ ?_)
    · rintro _ t₁ ⟨h₁, cs, rfl, hentries⟩
      obtain ⟨b, hb, ⟨-, ⟨cs', hnode, -, hnot⟩, -⟩, hret, his, hitems⟩ :=
        hentries.run_build h₁.owned.owned h₁.old hms
      have hwell : b.WellOwned :=
        (stays_iff.1 (stays_wellOwned_build _ _) t₁.arena h₁.owned).of_ok hb
      have hcs : cs' = cs := by
        have hitems' : b.items (some ⟨t₁.arena.size⟩) "types" = cs'.map some := by
          rw [Arena.items, look_some, hnode]
          rfl
        exact List.map_injective_iff.2 (Option.some_injective _) (hitems'.symm.trans hitems)
      rw [ends_edit_iff, hb]
      refine ⟨⟨by rw [h₁.tree], h₁.old.retains.trans hret, hwell⟩, ?_⟩
      exact hentries.says_union h₁.owned.owned hwell.owned hret his hitems (hcs ▸ hnot) hkinds hbase
    · rintro e t₁ ⟨-, m, hm, hgap⟩
      exact not_gap hcomplete (hms m hm).1 hgap
  refine (hall.and hends).imp (fun r t' h => ?_) fun _ _ h => h.2
  obtain ⟨hc, ⟨htree, hret, hwell⟩, hsaid⟩ := h
  exact ⟨⟨htree, hret, hwell, hc⟩, hsaid⟩

/-! ## new types -/

theorem ends_build {ty : NodeType} {fields : List (String × Value)} {values : List Value}
    (ha : t.arena.WellOwned) (hcomplete : t.arena.Complete)
    (hbuild : build ty fields t.arena = alloc ty values t.arena)
    (hmake : t.arena.Makeable ty values) :
    Ends (TreeM.edit (build ty fields) t) (fun r t' => t.Enlarges t'
      ∧ t'.arena.get? r = some { type := ty, values } ∧ t'.arena.parentOf (some r)
      = none) fun _ _ => False := by
  obtain ⟨b, hrun, hsize, hget⟩ := run_alloc hmake
  have hrun := hbuild.trans hrun
  have hret : Retains t.arena b := by
    refine ⟨hsize ▸ Nat.le_succ _, fun q k hk => ?_⟩
    have hne : q ≠ ⟨t.arena.size⟩ := by
      rintro rfl
      exact absurd (get?_eq_some_lt hk) (Nat.lt_irrefl _)
    rw [hget, if_neg hne, hk, Option.map_some]
    split
    · exact ⟨_, rfl⟩
    · exact ⟨k.parent, rfl⟩
  have hwell := (stays_iff.1 (stays_wellOwned_build ty fields) t.arena ha).of_ok hrun
  have hcomplete := (stays_iff.1 (stays_complete_build ty fields) t.arena hcomplete).of_ok hrun
  have hnode : b.get? ⟨t.arena.size⟩ = some { type := ty, values } := by rw [hget, if_pos rfl]
  rw [ends_edit_iff, hrun]
  exact ⟨⟨rfl, hret, hwell, hcomplete⟩, hnode, by rw [parentOf_some, hnode]; rfl⟩

theorem kind_plain {a : Arena} (ha : a.Owned) {ty : NodeType} (hty : ty.fields = [])
    (hm : a.get? m = some { type := ty, values := [] }) : a.kind m = ty.plainKind := by
  have htype : a.type? (some m) = some ty := by simp [Arena.type?, hm]
  have hgeneric : ty ≠ .genericType := by
    rintro rfl
    cases hty
  have hdatum : a.bareDatum m = .obj [("type", .str ty.name)] := by
    have hbare : (final (strip (some m) a)).get? m
        = some (({ type := ty, values := [] } : Node).bare) := by
      rw [get?_strip, hm, Option.map_some, if_pos ((mem_preorder ha (get?_eq_some_lt hm)).2 .refl)]
    unfold bareDatum toDatum
    rw [datumLevels_succ, hbare]
    simp [datumOf, Node.bare, hty]
  unfold Arena.kind NodeType.plainKind
  rw [typeClass_of_ne htype hgeneric]
  by_cases hbase : ty.isA .flowBase = true
  · rw [if_pos hbase, if_pos hbase]
  · rw [if_neg hbase, if_neg hbase, htype, hdatum]

theorem ends_baseType (ha : t.arena.WellOwned) (hcomplete : t.arena.Complete) {ty : NodeType}
    (hty : ty.fields = []) :
    Ends (baseType ty t) (fun r t' => t.Enlarges t' ∧ t'.arena.Says (some r) (.ofKind ty.plainKind))
    fun _ _ => False := by
  have hbuild : build ty [] t.arena = alloc ty [] t.arena := by
    unfold build
    refine Arena.run_ask_bind ?_
    rw [hty]
    rfl
  have hmake : t.arena.Makeable ty [] := ⟨hty ▸ .nil, List.nodup_nil, by simp⟩
  refine (ends_build ha hcomplete hbuild hmake).mono ?_
  rintro r t' ⟨h, hr, -⟩
  refine ⟨h, ?_⟩
  rw [← kind_plain h.owned.owned hty hr]
  refine says_ofKind (get?_eq_some_lt hr) (Bool.eq_false_iff.2 fun hunion => ?_)
  obtain ⟨o, ho, hunion⟩ := is_some.1 hunion
  rw [hr] at ho
  rw [← Option.some.inj ho] at hunion
  change ty = .unionType at hunion
  rw [hunion] at hty
  cases hty

theorem ends_genericType (ha : t.arena.WellOwned) (hcomplete : t.arena.Complete) (name : String) :
    Ends (genericType name t) (fun r t' => t.Enlarges t'
      ∧ t'.arena.Says (some r) (.ofKind (.generic name)))
      fun _ _ => False := by
  have hid : build .identifier [("name", .str name)] t.arena = alloc .identifier
      [.str name, .node none] t.arena :=
    Arena.run_ask_bind rfl
  have hmake : t.arena.Makeable .identifier [.str name, .node none] :=
    ⟨.cons ⟨rfl, by simp⟩ (.cons ⟨rfl, by simp⟩ .nil), List.nodup_nil,
      by simp [Value.children, Value.handles]⟩
  unfold genericType
  refine ends_bind.2 ((ends_build ha hcomplete hid hmake).mono ?_)
  rintro i t₁ ⟨h₁, hi, hfree⟩
  have hgeneric : build .genericType [("id", .node (some i))] t₁.arena
      = alloc .genericType [.node (some i), .node none] t₁.arena := Arena.run_ask_bind rfl
  have hmake : t₁.arena.Makeable .genericType [.node (some i), .node none] := by
    refine ⟨.cons ⟨rfl, by simp⟩ (.cons ⟨rfl, by simp⟩ .nil), ?_, fun c hc => ?_⟩
    · exact List.nodup_singleton i
    · obtain rfl : c = i := List.mem_singleton.1 hc
      exact ⟨get?_eq_some_lt hi, hfree⟩
  refine (ends_build h₁.owned h₁.complete hgeneric hmake).mono ?_
  rintro r t' ⟨h', hr, -⟩
  obtain ⟨owner, hi'⟩ := h'.retains.get? i _ hi
  refine ⟨h₁.trans h', ?_⟩
  have hkind : t'.arena.kind r = .generic name := by
    have his : t'.arena.is (some r) .genericType = true := is_some.2 ⟨_, hr, rfl⟩
    have hread : t'.arena.readName r = name := by
      have hchild : t'.arena.child? (some r) "id" = some i := by
        rw [Arena.child?, look_some, hr]
        rfl
      rw [readName, hchild, Arena.name?, look_some, hi']
      rfl
    unfold Arena.kind
    rw [typeClass_generic his, hread]
  rw [← hkind]
  refine says_ofKind (get?_eq_some_lt hr) (Bool.eq_false_iff.2 fun hunion => ?_)
  obtain ⟨o, ho, hunion⟩ := is_some.1 hunion
  rw [hr] at ho
  rw [← Option.some.inj ho] at hunion
  cases hunion

/-! ## unions -/

/-- **A union says what the types in it say.** -/
theorem ends_unionType_found (ha : t.arena.WellOwned) (hcomplete : t.arena.Complete)
    (htypes : List.Forall₂ t.arena.Says types Fs) :
    Ends (unionType types t) (fun r t' => t.Enlarges t' ∧ t'.arena.Says (some r) (.unite Fs)) fun _
    _ => False := by
  have hmembers (k : Kind) : (∃ m ∈ t.foundMembers types, t.arena.kind m = k)
      ↔ k ∈ Fs.flatMap Finding.kinds := by
    rw [← exists_member_iff htypes]
    exact exists_congr fun m => and_congr_left fun _ => mem_foundMembers ha.owned
  have hnot {m : NodeId} (hm : m ∈ t.foundMembers types) :
      m.index < t.arena.size ∧ t.arena.is (some m) .unionType = false := by
    obtain ⟨u, -, hu⟩ := (mem_foundMembers ha.owned).1 hm
    exact ⟨hu.lt, hu.not_union⟩
  by_cases hany : Kind.base .anyType ∈ Fs.flatMap Finding.kinds
  · obtain ⟨m, hm, hkind⟩ := (hmembers _).2 hany
    obtain ⟨c, -, hc, hrun⟩ := unionType_of_any hm (kind_base_iff.1 hkind).2
    rw [hrun, Finding.unite_of_any hany]
    exact ⟨.refl ha hcomplete, says_any hc⟩
  have hnone : ∀ m ∈ t.foundMembers types, t.arena.is (some m) .anyType = false := fun m hm =>
    Bool.eq_false_iff.2 fun h => hany ((hmembers _).1 ⟨m, hm, kind_base_iff.2 ⟨by decide, h⟩⟩)
  rw [unionType_eq_unite hnone]
  have hone := oneOfEach_distinctMembers t.arena (t.foundMembers types)
  generalize t.arena.distinctMembers (t.foundMembers types) = chosen at hone
  have hchosen (k : Kind) : (∃ m ∈ chosen, t.arena.kind m = k) ↔ k ∈ Fs.flatMap Finding.kinds := by
    rw [← hmembers]
    constructor
    · rintro ⟨m, hm, hk⟩
      exact ⟨m, hone.made m hm, hk⟩
    · rintro ⟨m, hm, hk⟩
      obtain ⟨c, hc, hclass⟩ := hone.all m hm
      exact ⟨c, hc, (kind_eq_of_typeClass hclass).symm.trans hk⟩
  obtain _ | ⟨c, _ | ⟨c', rest⟩⟩ := chosen
  · have hnil : Fs.flatMap Finding.kinds = [] :=
      List.eq_nil_iff_forall_not_mem.2 fun k hk => by simpa using (hchosen k).2 hk
    rw [Finding.unite_of_nil hnil]
    exact ends_baseType ha hcomplete rfl
  · have hkinds (k : Kind) : k ∈ Fs.flatMap Finding.kinds ↔ k = t.arena.kind c := by
      rw [← hchosen]
      simp [eq_comm]
    obtain ⟨hlt, hc⟩ := hnot (hone.made c (List.mem_singleton_self c))
    have hne : Fs.flatMap Finding.kinds ≠ [] := List.ne_nil_of_mem ((hkinds _).2 rfl)
    refine ⟨.refl ha hcomplete, (says_ofKind hlt hc).congr (fun k => ?_) fun ty => ?_⟩
    · rw [Finding.kinds_unite hany hne, hkinds]
      exact List.mem_singleton
    · rw [Finding.base_unite_iff hany hne]
      simp only [hkinds, forall_eq]
      exact Kind.base?_iff
  · have hmem (m : NodeId) (hm : m ∈ c :: c' :: rest) := hnot (hone.made m hm)
    have hne : Fs.flatMap Finding.kinds ≠ [] :=
      List.ne_nil_of_mem ((hchosen _).1 ⟨c, List.mem_cons_self .., rfl⟩)
    have hnodup : (c :: c' :: rest).Nodup := hone.distinct.imp fun hne heq => hne (congrArg _ heq)
    refine ends_unite_found ha hcomplete (by simp) hnodup hmem (fun k => ?_) ?_
    · rw [Finding.kinds_unite hany hne, hchosen]
    · rw [Option.eq_none_iff_forall_ne_some]
      intro ty hty
      have hall := (Finding.base_unite_iff hany hne).1 hty
      have hbase (m : NodeId) (hm : m ∈ c :: c' :: rest) : t.arena.typeClass m = .base ty :=
        typeClass_base_iff.2 (kind_base_iff.1 (hall _ ((hchosen _).1 ⟨m, hm, rfl⟩)))
      have hdistinct := (List.pairwise_cons.1 hone.distinct).1 c' (List.mem_cons_self ..)
      exact hdistinct ((hbase c (List.mem_cons_self ..)).trans (hbase c' (by simp)).symm)

end Tree

end ScopedTree
