import ScopedTree.Proofs.Typing.Kinds

/-!
# Unions lose nothing and repeat nothing

What is made of several types: a type that covers everything, a type that is there, or a new union
that holds one of each, the types that have an owner as copies.

* `Arena.StandsFor`        what a union holds for a type: the type itself, or a copy;
* `Tree.Gains`             new nodes were made, and nothing else changed;
* `Arena.UnionOf`          a new union of types;
* `Tree.ends_unowned`, `Tree.ends_several`   the types that go into a union are made ready;
* `Tree.ends_unite`        and put into it;
* `Tree.unionType_exact`   **a union holds one of each type exactly if their names are told apart**.
-/

namespace ScopedTree

namespace Arena

open Relation

variable {a b s : Arena} {m n r c : NodeId} {chosen : List NodeId}

/-! ## copies -/

theorem extends_cloneDeep (ha : a.WellOwned) (hr : r.index < a.size) (metadata : Bool) :
    Extends a (final (cloneDeep (some r) metadata a)) := by
  obtain ⟨-, -, -, hold⟩ := cloneDeep_exact ha hr metadata
  refine ⟨?_, hold⟩
  have hlast : (a.get? ⟨a.size - 1⟩).isSome :=
    isSome_get?_iff.2 (by show a.size - 1 < a.size; omega)
  rw [← hold ⟨a.size - 1⟩ (isSome_get?_iff.1 hlast), isSome_get?_iff] at hlast
  have hlast : a.size - 1 < _ := hlast
  omega

theorem ends_cloneDeep (ha : a.WellOwned) (hr : r.index < a.size) :
    Ends (cloneDeep (some r) false a)
    (fun c b => Extends a b ∧ b.WellOwned ∧ (a.size ≤ c.index ∧ c.index < b.size)
      ∧ b.parentOf (some c) = none
      ∧ b.type? (some c) = a.type? (some r) ∧ b.toDatum (some c) = a.bareDatum r
      ∧ b.kind c = a.kind r)
    fun _ b => Extends a b ∧ b.WellOwned ∧ ∃ n, ReflTransGen a.OwnedBy n r ∧ ¬ a.Filled n := by
  obtain ⟨-, hok, hcopy, -⟩ := cloneDeep_exact ha hr false
  have hold := extends_cloneDeep ha hr false
  have hwell : (final (cloneDeep (some r) false a)).WellOwned :=
    ⟨stays_owned_cloneDeep (some r) false _ ha.owned,
      stays_shaped_cloneDeep (some r) false _ ha.shaped⟩
  cases hrun : cloneDeep (some r) false a with
  | error e b =>
    rw [hrun] at hold hwell hok
    refine ⟨hold, hwell, ?_⟩
    by_contra hfilled
    obtain ⟨_, _, h⟩ := hok.2 fun n hn => by_contra fun hempty => hfilled ⟨n, hn, hempty⟩
    cases h
  | ok c b =>
    rw [hrun] at hold hwell
    obtain ⟨-, σ, h⟩ := hcopy c b hrun
    obtain ⟨k, hk⟩ := Option.isSome_iff_exists.1 (isSome_get?_iff.2 hr)
    have hc := h.get? r k .refl hk
    rw [h.root, if_pos rfl] at hc
    have hfresh := h.fresh r .refl
    rw [h.root] at hfresh
    refine ⟨hold, hwell, ⟨hfresh, get?_eq_some_lt hc⟩, ?_, ?_, h.datum, h.kind_eq ha hwell.owned hr⟩
    · rw [parentOf_some, hc]
      exact Node.parent_copied
    · simp [type?, hc, hk]

/-! ## what a union holds -/

/-- What a union in `b` holds for the type `m` of `a`: the type itself if it had no owner, and else
a copy. -/
inductive StandsFor (a b : Arena) : NodeId → NodeId → Prop
  | itself {m : NodeId} (hfree : a.parentOf (some m) = none) : StandsFor a b m m
  | copy {c m : NodeId} (howned : (a.parentOf (some m)).isSome) (hfresh : a.size ≤ c.index)
      (htype : b.type? (some c) = a.type? (some m)) (hdatum : b.toDatum (some c) = a.bareDatum m) :
      StandsFor a b c m

/-- `r` is a new union in `b` of types of `a`: each entry stands for one of them, none is a union
itself, and of what there was only the types that have no owner change, which get one. -/
structure UnionOf (a b : Arena) (chosen : List NodeId) (r : NodeId) : Prop where
  fresh : a.size ≤ r.index
  entries : ∃ cs, b.get? r = some { type := .unionType, values := [.list (cs.map some)] }
    ∧ List.Forall₂ (StandsFor a b) cs chosen ∧ ∀ c ∈ cs, b.is (some c) .unionType = false
  old : ∀ q, q.index < a.size → b.get? q = (a.get? q).map fun k =>
    if q ∈ chosen ∧ k.parent = none then k.withOwner (some r) else k

theorem StandsFor.retained (h : StandsFor a s c m) (hs : s.Owned) (hret : Retains s b)
    (hc : c.index < s.size) :
    StandsFor a b c m := by
  cases h with
  | itself hfree => exact .itself hfree
  | copy howned hfresh htype hdatum =>
    refine .copy howned hfresh ?_ ((toDatum_retained hs hret hc).trans hdatum)
    obtain ⟨k, hk⟩ := Option.isSome_iff_exists.1 (isSome_get?_iff.2 hc)
    obtain ⟨owner, hb⟩ := hret.get? c k hk
    rw [← htype]
    simp [type?, hk, hb, Node.withOwner]

/-- Nodes of `s` that can be made the entries of a union, one for each of `ms`; those that were made
for it are the last ones, from `base` on. -/
structure EntriesFor (a s : Arena) (base : Nat) (cs ms : List NodeId) : Prop where
  stands : List.Forall₂ (StandsFor a s) cs ms
  kinds : List.Forall₂ (fun c m => s.kind c = a.kind m) cs ms
  nodup : cs.Nodup
  free : ∀ c ∈ cs, c.index < s.size ∧ s.parentOf (some c) = none
  placed : ∀ c ∈ cs, c ∈ ms ∨ base ≤ c.index

theorem StandsFor.type?_eq (h : StandsFor a s c m) (hs : Extends a s) (hm : m.index < a.size) :
    s.type? (some c) = a.type? (some m) := by
  cases h with
  | itself => exact hs.retains.type? hm
  | copy _ _ htype => exact htype

theorem run_build_union (s : Arena) (items : List (Option NodeId)) :
    build .unionType [("types", .list items)] s = alloc .unionType [.list items] s :=
    run_ask_bind rfl

theorem EntriesFor.run_build {base : Nat} {cs : List NodeId} (h : EntriesFor a s base cs chosen)
    (hs : s.Owned) (hext : Extends a s) (hchosen : ∀ m ∈ chosen, m.index < a.size
      ∧ a.is (some m) .unionType = false) :
    ∃ b, build .unionType [("types", .list (cs.map some))] s = .ok ⟨s.size⟩ b
      ∧ a.UnionOf b chosen ⟨s.size⟩ ∧ Retains s b ∧ b.is (some ⟨s.size⟩) .unionType = true
      ∧ b.items (some ⟨s.size⟩) "types" = cs.map some := by
  have hchildren : [Value.list (cs.map some)].flatMap Value.children = cs := by
    simp [Value.children, Value.handles]
  have hmake : s.Makeable .unionType [.list (cs.map some)] := by
    refine ⟨.cons ⟨rfl, fun h => absurd h (by decide)⟩ .nil, ?_, ?_⟩
    · rw [hchildren]
      exact h.nodup
    · rw [hchildren]
      exact h.free
  obtain ⟨b, hrun, hsize, hget⟩ := run_alloc hmake
  rw [hchildren] at hget
  have hne {q : NodeId} (hq : q.index < s.size) : q ≠ ⟨s.size⟩ := by
    rintro rfl
    exact absurd hq (Nat.lt_irrefl _)
  have hret : Retains s b := by
    refine ⟨hsize ▸ Nat.le_succ _, fun q k hk => ?_⟩
    rw [hget, if_neg (hne (get?_eq_some_lt hk)), hk, Option.map_some]
    split
    · exact ⟨_, rfl⟩
    · exact ⟨k.parent, rfl⟩
  have hstands (c : NodeId) (hc : c ∈ cs) : ∃ m ∈ chosen, StandsFor a s c m :=
    Tree.forall₂_exists_of_mem_left h.stands hc
  have hnew : b.get? ⟨s.size⟩ = some { type := .unionType, values := [.list (cs.map some)] } := by
    rw [hget, if_pos rfl]
  have hitems : b.items (some ⟨s.size⟩) "types" = cs.map some := by
    rw [Arena.items, look_some, hnew]
    rfl
  have his : b.is (some ⟨s.size⟩) .unionType = true := by simp [Arena.is, type?, hnew]
  refine ⟨b, (run_build_union ..).trans hrun, ⟨hext.size, ⟨cs, hnew, ?_, fun c hc => ?_⟩,
    fun q hq => ?_⟩, hret, his, hitems⟩
  · have hentries := (List.forall₂_and_left _ _).2 ⟨fun c hc => (h.free c hc).1, h.stands⟩
    exact hentries.imp fun c m hcm => hcm.2.retained hs hret hcm.1
  · obtain ⟨m, hm, hcm⟩ := hstands c hc
    have htype := (hret.type? (h.free c hc).1).trans (hcm.type?_eq hext (hchosen m hm).1)
    have hnot := (hchosen m hm).2
    rwa [Arena.is, ← htype] at hnot
  · rw [hget, if_neg (hne (hq.trans_le hext.size)), hext.get? q hq]
    obtain ⟨k, hk⟩ := Option.isSome_iff_exists.1 (isSome_get?_iff.2 hq)
    have hparent : a.parentOf (some q) = k.parent := by rw [parentOf_some, hk, Option.bind_some]
    have hmem : q ∈ cs ↔ q ∈ chosen ∧ k.parent = none := by
      constructor
      · intro hc
        obtain ⟨m, hm, hcm⟩ := hstands q hc
        cases hcm with
        | itself hfree => exact ⟨hm, hparent ▸ hfree⟩
        | copy _ hfresh => exact absurd hq (Nat.not_lt.2 hfresh)
      · rintro ⟨hm, hfree⟩
        obtain ⟨c, hc, hcm⟩ := Tree.forall₂_exists_of_mem_right h.stands hm
        cases hcm with
        | itself => exact hc
        | copy howned =>
          rw [hparent, hfree] at howned
          cases howned
    rw [hk, Option.map_some, Option.map_some]
    simp only [hmem]

end Arena

namespace Tree

open Arena Relation

variable {a : Arena} {t t' t'' : Tree} {m : NodeId} {ms : List NodeId}

/-- New nodes were made, and nothing else changed. -/
structure Gains (t t' : Tree) : Prop where
  tree : t' = { t with arena := t'.arena }
  old : t.arena.Extends t'.arena
  owned : t'.arena.WellOwned

theorem Gains.refl (h : t.arena.WellOwned) : Gains t t := ⟨rfl, .refl _, h⟩

theorem Gains.trans (h : Gains t t') (h' : Gains t' t'') : Gains t t'' := by
  refine ⟨?_, h.old.trans h'.old, h'.owned⟩
  rw [h'.tree, h.tree]

theorem ends_edit_iff {α : Type} {x : ArenaM α} {Q : α → Tree → Prop}
    {E : TreeError → Tree → Prop} :
    Ends (TreeM.edit x t) Q E ↔ Ends (x t.arena) (fun y b => Q y { t with arena := b })
      fun e b => E (.shape e) { t with arena := b } := by
  unfold TreeM.edit
  dsimp only
  cases x t.arena <;> exact Iff.rfl

/-- A required slot at or below an owned type is empty. -/
def Gap (a : Arena) (m : NodeId) : Prop :=
  (a.parentOf (some m)).isSome ∧ ∃ n, ReflTransGen a.OwnedBy n m ∧ ¬ a.Filled n

/-- A type is made ready for a union. -/
theorem ends_unowned (ha : a.WellOwned) (hm : m.index < a.size) (ht : t.arena.WellOwned)
    (hext : a.Extends t.arena) :
    Ends (unowned m t)
      (fun x t' => Gains t t' ∧ ∃ c, x = some c ∧ StandsFor a t'.arena c m
        ∧ (c = m ∨ t.arena.size ≤ c.index)
        ∧ c.index < t'.arena.size ∧ t'.arena.parentOf (some c) = none ∧ t'.arena.kind c = a.kind m)
      fun _ t' => Gains t t' ∧ Gap a m := by
  have hlt : m.index < t.arena.size := hm.trans_le hext.size
  unfold unowned
  rw [ends_bind, ends_get]
  cases hparent : t.arena.parentOf (some m) with
  | none =>
    rw [if_neg (by simp)]
    exact ⟨.refl ht, m, rfl, .itself (hext.parentOf hm ▸ hparent), .inl rfl, hlt, hparent,
      kind_retained ha.owned ht.owned hext.retains hm⟩
  | some p =>
    have howned : (a.parentOf (some m)).isSome := by rw [← hext.parentOf hm, hparent]; rfl
    rw [if_pos (by rfl), ends_edit_iff]
    refine ends_bind.2 ((ends_cloneDeep ht hlt).imp ?_ ?_)
    · rintro c b ⟨hold, hwell, ⟨hfresh, hc⟩, hparent, htype, hdatum, hkind⟩
      refine ⟨⟨rfl, hold, hwell⟩, c, rfl, .copy howned (hext.size.trans hfresh) ?_ ?_, .inr hfresh,
        hc, hparent, hkind.trans (kind_retained ha.owned ht.owned hext.retains hm)⟩
      · exact htype.trans (hext.retains.type? hm)
      · exact hdatum.trans (bareDatum_retained ha.owned ht.owned hext.retains hm)
    · rintro e b ⟨hold, hwell, n, hn, hempty⟩
      have hn := (hext.retains.under_iff hm ha.owned ht.owned).1 hn
      refine ⟨⟨rfl, hold, hwell⟩, howned, n, hn, fun ⟨k, hk, hfilled⟩ => hempty ⟨k, ?_, hfilled⟩⟩
      rw [hext.get? n (get?_eq_some_lt hk), hk]

/-- The types are made ready one after the other. -/
theorem ends_several (ha : a.WellOwned) : ∀ (ms : List NodeId) {t : Tree},
    (∀ m ∈ ms, m.index < a.size) → ms.Nodup →
    t.arena.WellOwned → a.Extends t.arena → Ends (ms.mapM unowned t)
      (fun xs t' => Gains t t' ∧ ∃ cs, xs = cs.map some ∧ EntriesFor a t'.arena t.arena.size cs ms)
      fun _ t' => Gains t t' ∧ ∃ m ∈ ms, Gap a m
  | [], t, _, _, ht, _ => ⟨.refl ht, [], rfl, .nil, .nil, List.nodup_nil, by simp, by simp⟩
  | m :: ms, t, hlt, hnodup, ht, hext => by
    obtain ⟨hm, hms⟩ := List.forall_mem_cons.1 hlt
    obtain ⟨hnot, hnodup⟩ := List.nodup_cons.1 hnodup
    rw [List.mapM_cons]
    refine ends_bind.2 ((ends_unowned ha hm ht hext).imp ?_ ?_)
    · rintro _ t₁ ⟨h₁, c, rfl, hstands, hplace, hc, hfree, hkind⟩
      have hrest := ends_several ha ms hms hnodup h₁.owned (hext.trans h₁.old)
      refine ends_bind.2 (hrest.imp ?_ ?_)
      · rintro _ t₂ ⟨h₂, cs, rfl, hentries⟩
        refine ⟨h₁.trans h₂, c :: cs, rfl, ?_, ?_, ?_, ?_, ?_⟩
        · exact .cons (hstands.retained h₁.owned.owned h₂.old.retains hc) hentries.stands
        · exact .cons ((kind_retained h₁.owned.owned h₂.owned.owned h₂.old.retains hc).trans hkind)
            hentries.kinds
        · refine List.nodup_cons.2 ⟨fun hmem => ?_, hentries.nodup⟩
          rcases hentries.placed c hmem with hcs | hcs
          · -- an entry that is listed was there before, so it is the type itself
            rcases hplace with rfl | hplace
            · exact hnot hcs
            · exact absurd (hms c hcs) (Nat.not_lt.2 (hext.size.trans hplace))
          · exact absurd hc (Nat.not_lt.2 hcs)
        · refine List.forall_mem_cons.2 ⟨⟨hc.trans_le h₂.old.size, ?_⟩, hentries.free⟩
          rw [h₂.old.parentOf hc, hfree]
        · refine List.forall_mem_cons.2 ⟨hplace.imp_left fun (he : c = m) => he
            ▸ List.mem_cons_self, fun x hx => ?_⟩
          exact (hentries.placed x hx).imp (List.mem_cons_of_mem _) h₁.old.size.trans
      · rintro e t₂ ⟨h₂, x, hx, hgap⟩
        exact ⟨h₁.trans h₂, x, List.mem_cons_of_mem _ hx, hgap⟩
    · rintro e t₁ ⟨h₁, hgap⟩
      exact ⟨h₁, m, List.mem_cons_self, hgap⟩

/-! ## the union -/

theorem ends_anyType (ht : t.arena.WellOwned) : Ends (baseType .anyType t)
    (fun r t' => Gains t t' ∧ t.arena.size ≤ r.index ∧ t'.arena.is (some r) .anyType = true) fun _
    _ => False := by
  have hmake : t.arena.Makeable .anyType [] := ⟨.nil, List.nodup_nil, by simp⟩
  obtain ⟨b, hrun, hsize, hget⟩ := run_alloc hmake
  have hbuild : build .anyType [] t.arena = alloc .anyType [] t.arena := Arena.run_ask_bind rfl
  have hext : t.arena.Extends b := by
    refine ⟨hsize ▸ Nat.le_succ _, fun q hq => ?_⟩
    have hne : q ≠ ⟨t.arena.size⟩ := by
      rintro rfl
      exact absurd hq (Nat.lt_irrefl _)
    rw [hget, if_neg hne]
    simp
  have hwell : (final (alloc .anyType [] t.arena)).WellOwned :=
    ⟨stays_owned_alloc _ _ _ ht.owned, stays_shaped_alloc _ _ _ ht.shaped⟩
  rw [hrun] at hwell
  unfold baseType
  rw [ends_edit_iff, hbuild, hrun]
  exact ⟨⟨rfl, hext, hwell⟩, le_rfl, by simp [Arena.is, type?, hget]⟩

/-- The union of types that are told apart and none of which covers everything. -/
def unite : List NodeId → TreeM NodeId
  | [] => baseType .anyType
  | [single] => pure single
  | several => several.mapM unowned >>= fun owned =>
    TreeM.edit (build .unionType [("types", .list owned)])

/-- The types that a union of these is made of, as they are found. -/
def foundMembers (t : Tree) (types : List (Option NodeId)) : List NodeId :=
  t.arena.unionMembers (t.arena.size + 1) types

theorem mem_foundMembers (ha : t.arena.Owned) {types : List (Option NodeId)} :
    m ∈ t.foundMembers types ↔ t.arena.Member types m :=
  mem_unionMembers ha (sufficesAll_of_le (Nat.le_succ _) types)

theorem unionType_of_any {types : List (Option NodeId)} (hm : m ∈ t.foundMembers types)
    (hany : t.arena.is (some m) .anyType = true) :
    ∃ c ∈ t.foundMembers types, t.arena.is (some c) .anyType = true
      ∧ unionType types t = .ok c t := by
  cases hfind : (t.foundMembers types).find? fun id => t.arena.is (some id) .anyType with
  | none => exact absurd hany (List.find?_eq_none.1 hfind m hm)
  | some c =>
    refine ⟨c, List.mem_of_find?_eq_some hfind, by simpa using List.find?_some hfind, ?_⟩
    unfold foundMembers at hfind
    unfold unionType
    rw [run_get_bind, hfind]
    rfl

theorem unionType_eq_unite {types : List (Option NodeId)}
    (hany : ∀ m ∈ t.foundMembers types, t.arena.is (some m) .anyType = false) :
    unionType types t = unite (t.arena.distinctMembers (t.foundMembers types)) t := by
  have hfind : (t.foundMembers types).find? (fun id => t.arena.is (some id) .anyType) = none :=
    List.find?_eq_none.2 fun m hm => by simp [hany m hm]
  unfold foundMembers at hfind ⊢
  unfold unionType
  rw [run_get_bind, hfind]
  rfl

theorem unite_of_two (hlen : 2 ≤ ms.length) :
    unite ms = (ms.mapM unowned >>= fun owned =>
      TreeM.edit (build .unionType [("types", .list owned)])) := by
  obtain _ | ⟨c, _ | ⟨c', rest⟩⟩ := ms
  · cases hlen
  · exact absurd hlen (by simp)
  · rfl

/-- Several types go into a new union. -/
theorem ends_unite (ha : t.arena.WellOwned) (hlen : 2 ≤ ms.length) (hnodup : ms.Nodup)
    (hms : ∀ m ∈ ms, m.index < t.arena.size ∧ t.arena.is (some m) .unionType = false) :
    Ends (unite ms t) (fun r t' => t' = { t with arena := t'.arena }
      ∧ t.arena.UnionOf t'.arena ms r)
      fun _ t' => Gains t t' ∧ ∃ m ∈ ms, Gap t.arena m := by
  rw [unite_of_two hlen]
  refine ends_bind.2 ((ends_several ha ms (fun m hm => (hms m hm).1) hnodup ha (.refl _)).mono ?_)
  rintro _ t₁ ⟨h₁, cs, rfl, hentries⟩
  obtain ⟨b, hb, hunion, -⟩ := hentries.run_build h₁.owned.owned h₁.old hms
  rw [ends_edit_iff, hb]
  exact ⟨by rw [h₁.tree], hunion⟩

theorem oneOfEach_iff_readName {M : NodeId → Prop}
    (h : OneOfEach (fun m c => a.typeClass m = a.typeClass c) M ms) :
    OneOfEach a.SameType M ms ↔ ∀ m m', M m → M m' → a.is (some m) .genericType = true →
      a.is (some m') .genericType = true → a.readName m = a.readName m' → a.SameType m m' := by
  rw [oneOfEach_sameType_iff h]
  constructor
  · intro hsame m m' hm hm' hg hg' hread
    refine hsame m m' hm hm' ?_
    rw [typeClass_generic hg, typeClass_generic hg', hread]
  · intro hsame m m' hm hm' hclass
    refine sameType_of_typeClass hclass fun hg hg' => hsame m m' hm hm' hg hg' ?_
    rw [typeClass_generic hg, typeClass_generic hg'] at hclass
    exact TypeClass.generic.inj hclass

/-- **A union holds one of each type exactly if their names are told apart.** -/
theorem unionType_exact (ha : t.arena.WellOwned) (types : List (Option NodeId)) :
    (∀ fuel, t.arena.size ≤ fuel → t.arena.unionMembers fuel types
      = t.arena.unionMembers t.arena.size types)
      ∧ ((∃ m, t.arena.Member types m ∧ t.arena.is (some m) .anyType = true) →
        ∃ m, t.arena.Member types m ∧ t.arena.is (some m) .anyType = true
          ∧ unionType types t = .ok m t)
      ∧ ((∀ m, ¬ t.arena.Member types m) → ∃ r t', unionType types t = .ok r t' ∧ Gains t t'
        ∧ t.arena.size ≤ r.index ∧ t'.arena.is (some r) .anyType = true)
      ∧ ((∃ m, t.arena.Member types m) →
        (∀ m, t.arena.Member types m → t.arena.is (some m) .anyType = false) → ∃ chosen, chosen ≠ []
          ∧ OneOfEach (fun m c => t.arena.typeClass m = t.arena.typeClass c)
          (t.arena.Member types) chosen ∧ (OneOfEach t.arena.SameType (t.arena.Member types) chosen
            ↔ ∀ m m', t.arena.Member types m →
            t.arena.Member types m' → t.arena.is (some m) .genericType = true →
            t.arena.is (some m') .genericType = true → t.arena.readName m = t.arena.readName m' →
            t.arena.SameType m m')
          ∧ (∀ c, chosen = [c] → unionType types t = .ok c t)
          ∧ (2 ≤ chosen.length → Ends (unionType types t)
            (fun r t' => t' = { t with arena := t'.arena } ∧ t.arena.UnionOf t'.arena chosen r)
            fun _ t' => Gains t t' ∧ ∃ c ∈ chosen, Gap t.arena c)) := by
  have hmem (m : NodeId) : m ∈ t.foundMembers types ↔ t.arena.Member types m :=
    mem_foundMembers ha.owned
  have hone := oneOfEach_distinctMembers t.arena (t.foundMembers types)
  simp only [hmem] at hone
  have hrun (hany : ∀ m, t.arena.Member types m → t.arena.is (some m) .anyType = false) :=
    unionType_eq_unite fun m hm => hany m ((hmem m).1 hm)
  generalize t.arena.distinctMembers (t.foundMembers types) = chosen at hone hrun
  refine ⟨fun fuel hfuel => unionMembers_of_le ha.owned types hfuel, ?_, fun hnone => ?_,
    fun hsome hany => ?_⟩
  · rintro ⟨m, hm, hany⟩
    obtain ⟨c, hc, hrun⟩ := unionType_of_any ((hmem m).2 hm) hany
    exact ⟨c, (hmem c).1 hc, hrun⟩
  · have hnil : chosen = [] := List.eq_nil_iff_forall_not_mem.2 fun c hc => hnone c (hone.made c hc)
    rw [hrun fun m hm => absurd hm (hnone m), hnil]
    exact (ends_anyType ha).exists_ok
  · obtain ⟨m, hm⟩ := hsome
    obtain ⟨c, hc, -⟩ := hone.all m hm
    refine ⟨chosen, List.ne_nil_of_mem hc, hone, oneOfEach_iff_readName hone, fun c hc => ?_,
      fun hlen => ?_⟩
    · rw [hrun hany, hc]
      rfl
    · rw [hrun hany]
      refine ends_unite ha hlen (hone.distinct.imp fun hne heq => hne (congrArg _ heq))
        fun c hc => ?_
      obtain ⟨u, -, hu⟩ := hone.made c hc
      exact ⟨hu.lt, hu.not_union⟩

def plainNames : Arena := runAll [
  .alloc .identifier [.str "A", .node none],
  .alloc .genericType [.node (some ⟨0⟩), .node none],
  .alloc .numberType [],
  .alloc .identifier [.str "A", .node none],
  .alloc .genericType [.node (some ⟨3⟩), .node none],
  .alloc .unionType [.list [some ⟨2⟩, some ⟨4⟩]]]

/-- The union is opened, and it holds each type once. -/
theorem unionType_plainNames : ∃ chosen, OneOfEach plainNames.SameType
    (plainNames.Member [some ⟨1⟩, some ⟨5⟩]) chosen := by
  have ha : plainNames.WellOwned := wellOwned_runAll _
  obtain ⟨-, -, -, hunion⟩ := unionType_exact (t := ofArena plainNames none) ha [some ⟨1⟩, some ⟨5⟩]
  have hmembers (m : NodeId) : plainNames.Member [some ⟨1⟩, some ⟨5⟩] m
      ↔ m ∈ [(⟨1⟩ : NodeId), ⟨2⟩, ⟨4⟩] := by
    rw [← mem_unionMembers ha.owned (sufficesAll_of_le le_rfl _)]
    exact iff_of_eq (congrArg (m ∈ ·) (by decide +kernel))
  have hname : plainNames.Named (plainNames.child? (some ⟨1⟩) "id") ["A"] :=
    .plain (by decide +kernel)
  have hname' : plainNames.Named (plainNames.child? (some ⟨4⟩) "id") ["A"] :=
    .plain (by decide +kernel)
  have hnone : ∀ m ∈ [(⟨1⟩ : NodeId), ⟨2⟩, ⟨4⟩], plainNames.is (some m) .anyType
      = false := by decide +kernel
  obtain ⟨chosen, -, -, hexact, -⟩ :=
    hunion ⟨⟨1⟩, (hmembers _).2 (by decide)⟩ fun m hm => hnone m ((hmembers m).1 hm)
  refine ⟨chosen, hexact.2 fun m m' hm hm' hg hg' _ => ?_⟩
  have hnot : plainNames.is (some ⟨2⟩) .genericType = false := by decide +kernel
  have hcases {m : NodeId} (hm : plainNames.Member [some ⟨1⟩, some ⟨5⟩] m)
      (hg : plainNames.is (some m) .genericType = true) :
      plainNames.Named (plainNames.child? (some m) "id") ["A"] := by
    have hm := (hmembers m).1 hm
    simp only [List.mem_cons, List.not_mem_nil, or_false] at hm
    rcases hm with rfl | rfl | rfl
    · exact hname
    · rw [hnot] at hg
      cases hg
    · exact hname'
  exact .generic hg hg' (hcases hm hg) (hcases hm' hg')

def qualifiedNames : Arena := runAll [
  .alloc .identifier [.str "B", .node none],
  .alloc .identifier [.str "A", .node none],
  .alloc .qualifiedTypeIdentifier [.node (some ⟨0⟩), .node (some ⟨1⟩)],
  .alloc .genericType [.node (some ⟨2⟩), .node none],
  .alloc .identifier [.str "D", .node none],
  .alloc .identifier [.str "C", .node none],
  .alloc .qualifiedTypeIdentifier [.node (some ⟨4⟩), .node (some ⟨5⟩)],
  .alloc .genericType [.node (some ⟨6⟩), .node none]]

/-- The union of `A.B` and `C.D` is `A.B`. -/
theorem unionType_qualifiedNames : qualifiedNames.WellOwned
    ∧ unionType [some ⟨3⟩, some ⟨7⟩] (ofArena qualifiedNames none)
    = .ok ⟨3⟩ (ofArena qualifiedNames none) ∧ qualifiedNames.Member [some ⟨3⟩, some ⟨7⟩] ⟨7⟩
    ∧ qualifiedNames.Named (qualifiedNames.child? (some ⟨3⟩) "id") ["A", "B"]
    ∧ qualifiedNames.Named (qualifiedNames.child? (some ⟨7⟩) "id") ["C", "D"] := by
  have hnamed (n : NodeId) (x y : String)
      (hn : qualifiedNames.is (some n) .qualifiedTypeIdentifier = true)
      (hx : qualifiedNames.name? (qualifiedNames.child? (some n) "qualification") = some x)
      (hy : qualifiedNames.name? (qualifiedNames.child? (some n) "id") = some y) :
      qualifiedNames.Named (some n) ([x] ++ [y]) := .qualified hn (.plain hx) (.plain hy)
  refine ⟨wellOwned_runAll _, rfl, ⟨⟨7⟩, by decide, .self (by decide) (by decide +kernel)⟩, ?_, ?_⟩
  · exact hnamed ⟨2⟩ "A" "B" (by decide +kernel) (by decide +kernel) (by decide +kernel)
  · exact hnamed ⟨6⟩ "C" "D" (by decide +kernel) (by decide +kernel) (by decide +kernel)

end Tree

end ScopedTree
