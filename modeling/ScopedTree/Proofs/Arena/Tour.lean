import ScopedTree.Proofs.Arena.Copy

/-!
# The walk is a recursion

The walk over a subtree keeps the nodes that are still to visit on a stack. It does what the
recursion does: a node is entered, its children are toured one after the other unless that was
declined, and then comes what is left. So it calls on the nodes of the subtree in pre-order, each
once, and leaves out what lies below the nodes that declined; and the search for a type finds what
is not hidden below a denied type.

* `Arena.Tours`              the recursion, with its calls and what they answered;
* `Arena.Tours.walkFrom`     with steps enough the stack gives the same;
* `Arena.preUpTo`            the nodes of a subtree in pre-order;
* `Arena.Tours.sublist`, `Arena.Tours.mem_calls_iff`   the nodes that are called on;
* `Arena.exposed_iff`, `Arena.Tours.seek`   the nodes that a search looks at, and what it finds;
* `Arena.walk_exact`         all of that, for any walk over an arena.
-/

namespace ScopedTree.Arena

open Relation

variable {σ : Type} {a : Arena} {enter : σ → NodeId → σ × Bool} {s s' s₁ : σ} {roots : List NodeId}
  {calls calls' : List (NodeId × Bool)} {c m n o x : NodeId} {fuel : Nat} {ty : NodeType}
  {denied : List NodeType}

/-! ## the recursion -/

/-- A tour through the subtrees of some nodes. A node is entered; if the answer is yes, its children
are toured; then come the other nodes. The calls are listed with their answers. -/
inductive Tours (a : Arena) (enter : σ → NodeId → σ × Bool) :
    List NodeId → σ → List (NodeId × Bool) → σ → Prop
  | done (s : σ) : Tours a enter [] s [] s
  | cut {m : NodeId} {k : Node} {roots : List NodeId} {s s₁ s' : σ} {calls : List (NodeId × Bool)}
      (hm : a.get? m = some k) (hcall : enter s m = (s₁, false))
      (rest : Tours a enter roots s₁ calls s') :
      Tours a enter (m :: roots) s ((m, false) :: calls) s'
  | into {m : NodeId} {k : Node} {roots : List NodeId} {s s₁ s₂ s' : σ}
    {inner calls : List (NodeId × Bool)}
      (hm : a.get? m = some k) (hcall : enter s m = (s₁, true))
      (below : Tours a enter k.children s₁ inner s₂) (rest : Tours a enter roots s₂ calls s') :
      Tours a enter (m :: roots) s ((m, true) :: (inner ++ calls)) s'

namespace Tours

theorem cons (h : Tours a enter [m] s calls s₁) (h' : Tours a enter roots s₁ calls' s') :
    Tours a enter (m :: roots) s (calls ++ calls') s' := by
  cases h with
  | cut hm hcall rest =>
    cases rest
    exact .cut hm hcall h'
  | into hm hcall below rest =>
    cases rest
    rw [List.append_nil]
    exact .into hm hcall below h'

/-- What a tour does to the state, the stack does in as many steps as there are calls. -/
theorem walkFrom (h : Tours a enter roots s calls s') (fuel : Nat) (stack : List NodeId) :
    a.walkFrom enter (calls.length + fuel) (roots ++ stack) s = a.walkFrom enter fuel stack s' := by
  induction h generalizing fuel stack with
  | done s => rw [List.length_nil, Nat.zero_add, List.nil_append]
  | cut hm hcall rest ih =>
    rw [List.length_cons, Nat.add_right_comm, List.cons_append, Arena.walkFrom, hm]
    dsimp only
    rw [hcall]
    exact ih fuel stack
  | into hm hcall below rest ihbelow ihrest =>
    rw [List.length_cons, Nat.add_right_comm, List.cons_append, Arena.walkFrom, hm]
    dsimp only
    rw [hcall, List.length_append, Nat.add_assoc]
    exact (ihbelow _ _).trans (ihrest fuel stack)

end Tours

theorem exists_tours_all (h : ∀ m ∈ roots, ∀ s, ∃ calls s', Tours a enter [m] s calls s') (s : σ) :
    ∃ calls s', Tours a enter roots s calls s' := by
  induction roots generalizing s with
  | nil => exact ⟨[], s, .done s⟩
  | cons m roots ih =>
    rw [List.forall_mem_cons] at h
    obtain ⟨calls, s₁, htour⟩ := h.1 s
    obtain ⟨calls', s', hrest⟩ := ih h.2 s₁
    exact ⟨calls ++ calls', s', htour.cons hrest⟩

/-- **Each subtree can be toured.** -/
theorem exists_tours (ha : a.Owned) (enter : σ → NodeId → σ × Bool) : ∀ {fuel : Nat} {n : NodeId},
    a.Suffices fuel n → ∀ s, ∃ calls s', Tours a enter [n] s calls s'
  | 0, _, h, _ => absurd rfl (h.pos ha)
  | fuel + 1, n, h, s => by
    obtain ⟨k, hk⟩ := Option.isSome_iff_exists.1 (isSome_get?_iff.2 h.1)
    cases hcall : enter s n with
    | mk s₁ below =>
      cases below with
      | false => exact ⟨_, s₁, .cut hk hcall (.done s₁)⟩
      | true =>
        have hchildren : ∀ c ∈ k.children, ∀ s, ∃ calls s', Tours a enter [c] s calls s' :=
          fun c hc s =>
          exists_tours ha enter (h.child ha (by rw [children_some, hk]; exact hc)) s
        obtain ⟨inner, s', hbelow⟩ := exists_tours_all hchildren s₁
        exact ⟨_, s', .into hk hcall hbelow (.done s')⟩

/-- The visitor that lists the calls and what they answered besides. -/
def recorded (enter : σ → NodeId → σ × Bool) (x : σ × List (NodeId × Bool)) (id : NodeId) :
    (σ × List (NodeId × Bool)) × Bool :=
  let (s, below) := enter x.1 id
  ((s, x.2 ++ [(id, below)]), below)

/-! ## pre-order -/

/-- The nodes of a subtree over at most `fuel` levels, a node before its children: field by field,
in the order of the lists, without holes. -/
def preUpTo (a : Arena) : Nat → NodeId → List NodeId
  | 0, _ => []
  | fuel + 1, n =>
    match a.get? n with
    | none => []
    | some k => n :: k.values.flatMap fun value =>
      match value with
      | .node child => child.toList.flatMap (a.preUpTo fuel)
      | .list items => items.flatMap fun item => item.toList.flatMap (a.preUpTo fuel)
      | _ => []

theorem preUpTo_succ {k : Node} (hk : a.get? n = some k) (fuel : Nat) :
    a.preUpTo (fuel + 1) n = n :: k.children.flatMap (a.preUpTo fuel) := by
  rw [preUpTo, hk]
  unfold Node.children
  dsimp only
  rw [List.flatMap_assoc]
  refine congrArg (n :: ·) (List.flatMap_congr fun value _ => ?_)
  cases value with
  | node child => cases child <;> simp [Value.handles]
  | list items =>
    show items.flatMap _ = (items.filterMap id).flatMap _
    rw [List.filterMap_eq_flatMap_toList, List.flatMap_assoc]
    rfl
  | _ => rfl

theorem perm_preUpTo (ha : a.Owned) : ∀ {fuel : Nat} {n : NodeId}, a.Suffices fuel n →
    (a.preUpTo fuel n).Perm (a.postUpTo fuel n)
  | 0, _, h => absurd rfl (h.pos ha)
  | fuel + 1, n, h => by
    obtain ⟨k, hk⟩ := Option.isSome_iff_exists.1 (isSome_get?_iff.2 h.1)
    have hchildren : a.children (some n) = k.children := by
      rw [children_some, hk]
      rfl
    rw [preUpTo_succ hk, postUpTo, hchildren]
    refine .trans (.cons n (List.Perm.flatMap_left _ fun c hc => ?_))
      (List.perm_append_singleton n _).symm
    exact perm_preUpTo ha (h.child ha (hchildren ▸ hc))

theorem mem_preUpTo (ha : a.Owned) (h : a.Suffices fuel n) :
    m ∈ a.preUpTo fuel n ↔ ReflTransGen a.OwnedBy m n :=
  (perm_preUpTo ha h).mem_iff.trans (mem_postUpTo ha h)

theorem nodup_preUpTo (ha : a.Owned) (h : a.Suffices fuel n) : (a.preUpTo fuel n).Nodup :=
  (perm_preUpTo ha h).nodup_iff.2 (nodup_postUpTo ha fuel n)

/-- Of what lies between a child and what is above it, the child is the highest. -/
theorem Owned.between (ha : a.Owned) (hc : a.OwnedBy c n) (hmc : ReflTransGen a.OwnedBy m c)
    (hmo : ReflTransGen a.OwnedBy m o) (hon : ReflTransGen a.OwnedBy o n) :
    o = n ∨ ReflTransGen a.OwnedBy o c := by
  have hright : Relator.RightUnique a.OwnedBy := fun _ _ _ h h' => h.unique h'
  rcases ReflTransGen.total_of_right_unique hright hmc hmo with hco | hoc
  · rcases ReflTransGen.cases_head hco with rfl | ⟨p, hcp, hpo⟩
    · exact .inr .refl
    · -- what is above the child is the node, or above it
      obtain rfl := hcp.unique hc
      rcases ReflTransGen.cases_head hon with rfl | ⟨q, hoq, hqn⟩
      · exact .inl rfl
      · exact absurd (TransGen.head' hoq (hqn.trans hpo)) (ha.acyclic o)
  · exact .inr hoc

namespace Tours

/-! ## the nodes that are called on -/

/-- Calls come in pre-order. -/
theorem sublist (ha : a.Owned) (h : Tours a enter roots s calls s')
    (hroots : ∀ m ∈ roots, a.Suffices fuel m) :
    (calls.map (·.1)).Sublist (roots.flatMap (a.preUpTo fuel)) := by
  induction h generalizing fuel with
  | done s => exact .refl _
  | @cut m k roots s s₁ s' calls hm hcall rest ih =>
    rw [List.forall_mem_cons] at hroots
    obtain ⟨fuel, rfl⟩ := Nat.exists_eq_succ_of_ne_zero (hroots.1.pos ha)
    rw [List.flatMap_cons, preUpTo_succ hm, List.map_cons, List.cons_append]
    exact .cons_cons m ((ih hroots.2).trans (List.sublist_append_right ..))
  | @into m k roots s s₁ s₂ s' inner calls hm hcall below rest ihbelow ihrest =>
    rw [List.forall_mem_cons] at hroots
    obtain ⟨fuel, rfl⟩ := Nat.exists_eq_succ_of_ne_zero (hroots.1.pos ha)
    have hchildren : ∀ c ∈ k.children, a.Suffices fuel c := fun c hc =>
      hroots.1.child ha (by rw [children_some, hm]; exact hc)
    rw [List.flatMap_cons, preUpTo_succ hm, List.map_cons, List.map_append, List.cons_append]
    exact .cons_cons m ((ihbelow hchildren).append (ihrest hroots.2))

theorem above_of_mem (ha : a.Owned) (h : Tours a enter roots s calls s')
    (hx : x ∈ calls.map (·.1)) :
    ∃ n ∈ roots, ReflTransGen a.OwnedBy x n
      ∧ ∀ o, TransGen a.OwnedBy x o → ReflTransGen a.OwnedBy o n → (o, true) ∈ calls := by
  have hself (m o : NodeId) (ho : TransGen a.OwnedBy m o)
      (hom : ReflTransGen a.OwnedBy o m) : False :=
    ha.acyclic m (ho.trans_left hom)
  induction h with
  | done s => cases hx
  | @cut m k roots s s₁ s' calls hm hcall rest ih =>
    rcases List.mem_cons.1 hx with rfl | hx
    · exact ⟨x, List.mem_cons_self .., .refl, fun o ho hox => (hself x o ho hox).elim⟩
    · obtain ⟨n, hn, hxn, habove⟩ := ih hx
      exact ⟨n, List.mem_cons_of_mem _ hn, hxn, fun o ho hon =>
        List.mem_cons_of_mem _ (habove o ho hon)⟩
  | @into m k roots s s₁ s₂ s' inner calls hm hcall below rest ihbelow ihrest =>
    rw [List.map_cons, List.map_append, List.mem_cons, List.mem_append] at hx
    rcases hx with rfl | hx | hx
    · exact ⟨x, List.mem_cons_self .., .refl, fun o ho hox => (hself x o ho hox).elim⟩
    · obtain ⟨c, hc, hxc, habove⟩ := ihbelow hx
      have hown : a.OwnedBy c m := ha.owner_of_child m c (by rw [children_some, hm]; exact hc)
      refine ⟨m, List.mem_cons_self .., hxc.tail hown, fun o ho hom => ?_⟩
      rcases ha.between hown hxc ho.to_reflTransGen hom with rfl | hoc
      · exact List.mem_cons_self ..
      · exact List.mem_cons_of_mem _ (List.mem_append_left _ (habove o ho hoc))
    · obtain ⟨n, hn, hxn, habove⟩ := ihrest hx
      exact ⟨n, List.mem_cons_of_mem _ hn, hxn, fun o ho hon =>
        List.mem_cons_of_mem _ (List.mem_append_right _ (habove o ho hon))⟩

theorem mem_of_above (ha : a.Owned) (h : Tours a enter roots s calls s') (hn : n ∈ roots)
    (hx : ReflTransGen a.OwnedBy x n) (habove : ∀ o, TransGen a.OwnedBy x o → (o, false) ∉ calls) :
    x ∈ calls.map (·.1) := by
  induction h generalizing n with
  | done s => cases hn
  | @cut m k roots s s₁ s' calls hm hcall rest ih =>
    rcases List.mem_cons.1 hn with rfl | hn
    · rcases reflTransGen_iff_eq_or_transGen.1 hx with rfl | hx
      · exact List.mem_cons_self ..
      · exact absurd (List.mem_cons_self ..) (habove n hx)
    · exact List.mem_cons_of_mem _ (ih hn hx fun o ho hmem =>
        habove o ho (List.mem_cons_of_mem _ hmem))
  | @into m k roots s s₁ s₂ s' inner calls hm hcall below rest ihbelow ihrest =>
    rw [List.map_cons, List.map_append, List.mem_cons, List.mem_append]
    rcases List.mem_cons.1 hn with rfl | hn
    · rcases ReflTransGen.cases_tail hx with rfl | ⟨c, hxc, hcm⟩
      · exact .inl rfl
      · have hc : c ∈ k.children := by
          have hmem := ha.mem_children hcm
          rwa [children_some, hm] at hmem
        exact .inr (.inl (ihbelow hc hxc fun o ho hmem =>
          habove o ho (List.mem_cons_of_mem _ (List.mem_append_left _ hmem))))
    · exact .inr (.inr (ihrest hn hx fun o ho hmem =>
        habove o ho (List.mem_cons_of_mem _ (List.mem_append_right _ hmem))))

theorem nodup_calls (ha : a.Owned) (hn : n.index < a.size) (h : Tours a enter [n] s calls s') :
    (calls.map (·.1)).Nodup := by
  have hfuel : a.Suffices a.size n := suffices_of_le hn le_rfl
  have hsub : (calls.map (·.1)).Sublist ([n].flatMap (a.preUpTo a.size)) :=
    h.sublist ha (List.forall_mem_singleton.2 hfuel)
  rw [List.flatMap_singleton] at hsub
  exact (nodup_preUpTo ha hfuel).sublist hsub

/-- **The nodes that are called on** are those of the subtree that do not lie below a node that said
no. -/
theorem mem_calls_iff (ha : a.Owned) (hn : n.index < a.size) (h : Tours a enter [n] s calls s') :
    m ∈ calls.map (·.1) ↔ ReflTransGen a.OwnedBy m n ∧ ∀ o, TransGen a.OwnedBy m o →
    (o, false) ∉ calls := by
  constructor
  · intro hm
    obtain ⟨_, hroot, hmn, habove⟩ := h.above_of_mem ha hm
    obtain rfl := List.mem_singleton.1 hroot
    refine ⟨hmn, fun o ho hfalse => ?_⟩
    -- a node that said no was called on, and hence lies in the subtree
    obtain ⟨_, hroot, hon, -⟩ := h.above_of_mem ha (List.mem_map_of_mem hfalse)
    obtain rfl := List.mem_singleton.1 hroot
    have hpair := List.inj_on_of_nodup_map (h.nodup_calls ha hn) (habove o ho hon) hfalse rfl
    cases hpair
  · rintro ⟨hmn, habove⟩
    exact h.mem_of_above ha (List.mem_singleton_self n) hmn habove

theorem length_le (ha : a.Owned) (hn : n.index < a.size) (h : Tours a enter [n] s calls s') :
    calls.length ≤ a.size := by
  have hlt (x : NodeId) (hx : x ∈ calls.map (·.1)) : x.index < a.size := by
    rcases ReflTransGen.cases_head ((h.mem_calls_iff ha hn).1 hx).1 with rfl | ⟨o, hxo, -⟩
    · exact hn
    · exact hxo.lt
  rw [← List.length_map (·.1)]
  exact length_le_size (h.nodup_calls ha hn) hlt

theorem recorded (h : Tours a enter roots s calls s') (seen : List (NodeId × Bool)) :
    Tours a (recorded enter) roots (s, seen) calls (s', seen ++ calls) := by
  induction h generalizing seen with
  | done s =>
    rw [List.append_nil]
    exact .done _
  | @cut m k roots s s₁ s' calls hm hcall rest ih =>
    have hlast := ih (seen ++ [(m, false)])
    rw [List.append_assoc, List.singleton_append] at hlast
    refine .cut hm ?_ hlast
    unfold Arena.recorded
    rw [hcall]
  | @into m k roots s s₁ s₂ s' inner calls hm hcall below rest ihbelow ihrest =>
    have hbelow := ihbelow (seen ++ [(m, true)])
    rw [List.append_assoc, List.singleton_append] at hbelow
    have hlast := ihrest (seen ++ (m, true) :: inner)
    rw [List.append_assoc, List.cons_append] at hlast
    refine .into hm ?_ hbelow hlast
    unfold Arena.recorded
    rw [hcall]

end Tours

/-! ## the search for a type -/

/-- Neither a node nor any node between it and `n` has a denied type. -/
def Exposed (a : Arena) (denied : List NodeType) (m n : NodeId) : Prop :=
  ReflTransGen a.OwnedBy m n ∧ ∀ o, ReflTransGen a.OwnedBy m o → ReflTransGen a.OwnedBy o n →
    ∀ ty, a.type? (some o) = some ty → ty ∉ denied

theorem type?_of_get? {k : Node} (hk : a.get? n = some k) : a.type? (some n) = some k.type := by
  unfold type? look
  rw [Option.bind_some, hk]
  rfl

/-- A node of a type that is not denied exposes itself and what its children expose. -/
theorem exposed_iff (ha : a.Owned) {k : Node} (hk : a.get? n = some k) :
    a.Exposed denied m n ↔ k.type ∉ denied ∧ (m = n ∨ ∃ c ∈ k.children, a.Exposed denied m c) := by
  have htype := type?_of_get? hk
  have hown {c : NodeId} : c ∈ k.children ↔ a.OwnedBy c n := by
    rw [← ha.mem_children_iff, children_some, hk]
    rfl
  constructor
  · rintro ⟨hmn, hopen⟩
    refine ⟨hopen n hmn .refl _ htype, ?_⟩
    rcases ReflTransGen.cases_tail hmn with rfl | ⟨c, hmc, hcn⟩
    · exact .inl rfl
    · exact .inr ⟨c, hown.2 hcn, hmc, fun o hmo hoc => hopen o hmo (hoc.tail hcn)⟩
  · rintro ⟨hdenied, rfl | ⟨c, hc, hmc, hopen⟩⟩
    · refine ⟨.refl, fun o hmo hom ty hty => ?_⟩
      rcases ReflTransGen.cases_head hmo with rfl | ⟨p, hmp, hpo⟩
      · cases htype.symm.trans hty
        exact hdenied
      · exact absurd (TransGen.head' hmp (hpo.trans hom)) (ha.acyclic m)
    · refine ⟨hmc.tail (hown.1 hc), fun o hmo hon ty hty => ?_⟩
      rcases ha.between (hown.1 hc) hmc hmo hon with rfl | hoc
      · cases htype.symm.trans hty
        exact hdenied
      · exact hopen o hmo hoc ty hty

/-- What the search for a type does at a node: it goes on below unless a node was found, or the node
has the type or a denied one. -/
def seek (a : Arena) (ty : NodeType) (denied : List NodeType) (found : Bool)
    (id : NodeId) : Bool × Bool :=
  match a.type? (some id) with
  | none => (found, false)
  | some t => if found || denied.contains t then (found, false) else (t == ty, t != ty)

theorem seek_eq {k : Node} (hk : a.get? n = some k) (found : Bool) : a.seek ty denied found n
    = if found || denied.contains k.type then (found, false) else (k.type == ty, k.type != ty) := by
  unfold seek
  rw [type?_of_get? hk]

/-- **The search finds what is exposed.** -/
theorem Tours.seek {found found' : Bool} (ha : a.Owned)
    (h : Tours a (a.seek ty denied) roots found calls found') :
    found' = true ↔ found = true ∨ ∃ n ∈ roots, ∃ m, a.Exposed denied m n
      ∧ a.type? (some m) = some ty := by
  induction h with
  | done found => simp
  | @cut m k roots found found₁ found' calls hm hcall rest ih =>
    refine Iff.trans ih ?_
    rw [List.exists_mem_cons_iff, ← or_assoc]
    refine or_congr_left ?_
    rw [seek_eq hm] at hcall
    split at hcall
    · next hstop =>
      cases hcall
      refine (or_iff_left_of_imp ?_).symm
      rintro ⟨x, hx, -⟩
      rcases Bool.or_eq_true_iff.1 hstop with hfound | hdenied
      · exact hfound
      · exact absurd (List.contains_iff_mem.1 hdenied) ((exposed_iff ha hm).1 hx).1
    · next hgo =>
      obtain ⟨hfound, hdenied⟩ := Bool.or_eq_false_iff.1 (Bool.eq_false_iff.2 hgo)
      simp only [Prod.mk.injEq, bne_eq_false_iff_eq] at hcall
      obtain ⟨rfl, heq⟩ := hcall
      refine iff_of_true (beq_iff_eq.2 heq) (.inr ⟨m, (exposed_iff ha hm).2 ⟨?_, .inl rfl⟩,
        heq ▸ type?_of_get? hm⟩)
      exact fun hmem => Bool.false_ne_true (hdenied.symm.trans (List.contains_iff_mem.2 hmem))
  | @into m k roots found found₁ found₂ found' inner calls hm hcall below rest ihbelow ihrest =>
    refine Iff.trans ihrest ?_
    rw [List.exists_mem_cons_iff, ← or_assoc]
    refine or_congr_left (Iff.trans ihbelow ?_)
    rw [seek_eq hm] at hcall
    split at hcall
    · cases hcall
    · next hgo =>
      obtain ⟨hfound, hdenied⟩ := Bool.or_eq_false_iff.1 (Bool.eq_false_iff.2 hgo)
      simp only [Prod.mk.injEq, bne_iff_ne, ne_eq] at hcall
      obtain ⟨rfl, hne⟩ := hcall
      rw [or_iff_right fun heq => hne (beq_iff_eq.1 heq), or_iff_right (Bool.eq_false_iff.1 hfound)]
      constructor
      · rintro ⟨c, hc, x, hx, hty⟩
        refine ⟨x, (exposed_iff ha hm).2 ⟨?_, .inr ⟨c, hc, hx⟩⟩, hty⟩
        exact fun hmem => Bool.false_ne_true (hdenied.symm.trans (List.contains_iff_mem.2 hmem))
      · rintro ⟨x, hx, hty⟩
        obtain ⟨-, rfl | ⟨c, hc, hxc⟩⟩ := (exposed_iff ha hm).1 hx
        · cases (type?_of_get? hm).symm.trans hty
          exact absurd rfl hne
        · exact ⟨c, hc, x, hxc, hty⟩

/-! ## walks over an arena -/

/-- The node that a walk starts at, if there is one. -/
def top (a : Arena) (root : Option NodeId) : List NodeId :=
  root.toList.filter fun n => (a.get? n).isSome

theorem walkFrom_nil (a : Arena) (enter : σ → NodeId → σ × Bool) (fuel : Nat) (s : σ) :
    a.walkFrom enter fuel [] s = s := by
  cases fuel <;> rfl

theorem top_cases (a : Arena) (root : Option NodeId) :
    a.top root = [] ∧ (∀ n ∈ root, a.get? n = none) ∨ ∃ n, root = some n ∧ n.index < a.size
      ∧ a.top root = [n] := by
  cases root with
  | none => exact .inl ⟨rfl, by simp⟩
  | some n =>
    by_cases hn : n.index < a.size
    · have hsome := isSome_get?_iff.2 hn
      exact .inr ⟨n, rfl, hn, by simp [top, hsome]⟩
    · have hnone : a.get? n = none := by
        rwa [← Option.not_isSome_iff_eq_none, isSome_get?_iff]
      exact .inl ⟨by simp [top, hnone], by simpa using hnone⟩

theorem exists_tours_top (ha : a.Owned) (enter : σ → NodeId → σ × Bool)
    (root : Option NodeId) (s : σ) :
    ∃ calls s', Tours a enter (a.top root) s calls s' := by
  rcases a.top_cases root with ⟨htop, -⟩ | ⟨n, -, hn, htop⟩
  · rw [htop]
    exact ⟨[], s, .done s⟩
  · rw [htop]
    exact exists_tours ha enter (suffices_of_le hn le_rfl) s

theorem Tours.walkFrom_eq (ha : a.Owned) {root : Option NodeId}
    (h : Tours a enter (a.top root) s calls s') (hfuel : a.size < fuel) :
    a.walkFrom enter fuel root.toList s = s' := by
  rcases a.top_cases root with ⟨htop, hnone⟩ | ⟨n, rfl, hn, htop⟩
  · rw [htop] at h
    cases h
    cases root with
    | none => exact a.walkFrom_nil enter fuel s
    | some n =>
      obtain ⟨fuel, rfl⟩ := Nat.exists_eq_succ_of_ne_zero (Nat.ne_zero_of_lt hfuel)
      show a.walkFrom enter (fuel + 1) [n] s = s
      rw [Arena.walkFrom, hnone n rfl]
      exact a.walkFrom_nil enter fuel s
  · rw [htop] at h
    have hle := h.length_le ha hn
    obtain ⟨rest, rfl⟩ := Nat.exists_eq_add_of_le (hle.trans hfuel.le)
    exact (h.walkFrom rest []).trans (a.walkFrom_nil enter rest s')

theorem hasType_iff (ha : a.Owned) (root : Option NodeId) (ty : NodeType) (denied : List NodeType) :
    a.hasType root ty denied = true
      ↔ ∃ n ∈ a.top root, ∃ m, a.Exposed denied m n ∧ a.type? (some m) = some ty := by
  rcases a.top_cases root with ⟨htop, hnone⟩ | ⟨n, rfl, hn, htop⟩
  · have htype : a.type? root = none := by
      cases root with
      | none => rfl
      | some n =>
        unfold type? look
        rw [Option.bind_some, hnone n rfl]
        rfl
    unfold hasType
    rw [htype, htop]
    simp
  · obtain ⟨k, hk⟩ := Option.isSome_iff_exists.1 (isSome_get?_iff.2 hn)
    have hroot {P : NodeId → Prop} : (∃ n' ∈ a.top (some n), P n') ↔ P n := by
      rw [htop]
      simp
    unfold hasType
    rw [type?_of_get? hk, hroot]
    dsimp only
    split
    · next hdenied =>
      refine iff_of_false Bool.false_ne_true ?_
      rintro ⟨m, hm, -⟩
      exact ((exposed_iff ha hk).1 hm).1 (List.contains_iff_mem.1 hdenied)
    · next hdenied =>
      split
      · next heq =>
        refine iff_of_true rfl ⟨n, (exposed_iff ha hk).2 ⟨fun hmem => hdenied ?_, .inl rfl⟩, ?_⟩
        · exact List.contains_iff_mem.2 hmem
        · rw [type?_of_get? hk, beq_iff_eq.1 heq]
      · obtain ⟨calls, found, htour⟩ := exists_tours_top ha (a.seek ty denied) (some n) false
        have hwalk : a.walk (a.seek ty denied) (some n) false = found :=
          htour.walkFrom_eq ha a.size_lt_walkBound
        show a.walk (a.seek ty denied) (some n) false = true ↔ _
        rw [hwalk, htour.seek ha, hroot, or_iff_right Bool.false_ne_true]

/-- **The walk is the recursion.** Over an arena in which ownership is single, from any root and
with any visitor, a walk comes to its end within its bound, and it is the tour through the subtree
of the root. The pre-order lists each node of the subtree once; the walk calls on nodes in that
order, and on exactly those that lie below no node that said no. The search for a type says yes if
and only if the type occurs in the subtree at a node which is not of a denied type, nor is any node
between it and the root. -/
theorem walk_exact (ha : a.Owned) (root : Option NodeId) :
    (∀ (σ : Type) (enter : σ → NodeId → σ × Bool) (s : σ), ∃ calls,
      a.walk (recorded enter) root (s, []) = (a.walk enter root s, calls)
      ∧ (∀ fuel, a.walkBound ≤ fuel → a.walkFrom enter fuel root.toList s = a.walk enter root s)
      ∧ Tours a enter (a.top root) s calls (a.walk enter root s)
      ∧ (∀ fuel, a.size ≤ fuel → ((a.top root).flatMap (a.preUpTo fuel)).Nodup
        ∧ (∀ m, m ∈ (a.top root).flatMap (a.preUpTo fuel) ↔ ∃ n ∈ a.top root,
          ReflTransGen a.OwnedBy m n)
        ∧ (calls.map (·.1)).Sublist ((a.top root).flatMap (a.preUpTo fuel)))
      ∧ ∀ m, m ∈ calls.map (·.1) ↔ (∃ n ∈ a.top root, ReflTransGen a.OwnedBy m n)
        ∧ ∀ o, TransGen a.OwnedBy m o → (o, false) ∉ calls)
    ∧ ∀ ty denied, a.hasType root ty denied = true
      ↔ ∃ n ∈ a.top root, ∃ m, a.Exposed denied m n ∧ a.type? (some m) = some ty := by
  refine ⟨fun σ enter s => ?_, a.hasType_iff ha root⟩
  obtain ⟨calls, s', htour⟩ := exists_tours_top ha enter root s
  have hwalk : a.walk enter root s = s' := htour.walkFrom_eq ha a.size_lt_walkBound
  have hrecorded : a.walk (recorded enter) root (s, []) = (s', calls) :=
    (htour.recorded []).walkFrom_eq ha a.size_lt_walkBound
  rw [hrecorded, hwalk]
  refine ⟨calls, rfl, fun fuel hfuel => htour.walkFrom_eq ha (a.size_lt_walkBound.trans_le hfuel),
    htour, ?_⟩
  rcases a.top_cases root with ⟨htop, -⟩ | ⟨n, rfl, hn, htop⟩
  · rw [htop] at htour ⊢
    cases htour
    exact ⟨fun _ _ => ⟨List.nodup_nil, by simp, .refl _⟩, by simp⟩
  · rw [htop] at htour ⊢
    simp only [List.flatMap_singleton, List.mem_singleton, exists_eq_left]
    refine ⟨fun fuel hfuel => ?_, fun m => htour.mem_calls_iff ha hn⟩
    have henough : a.Suffices fuel n := suffices_of_le hn hfuel
    have hsub := htour.sublist ha (List.forall_mem_singleton.2 henough)
    rw [List.flatMap_singleton] at hsub
    exact ⟨nodup_preUpTo ha henough, fun m => mem_preUpTo ha henough, hsub⟩

def blockAhead : Arena := Arena.runAll [
  .alloc .identifier [.str "y", .node none],
  .alloc .expressionStatement [.node (some ⟨0⟩)],
  .alloc .blockStatement [.list [], .list [some ⟨1⟩]],
  .alloc .emptyStatement [],
  .alloc .program [.str "module", .list [], .list [some ⟨2⟩, some ⟨3⟩]]]

def passBlocks (a : Arena) (seen : List NodeId) (id : NodeId) : List NodeId × Bool :=
  (seen ++ [id], a.type? (some id) != some .blockStatement)

/-- The walk leaves out what is in the block, and so does the search. -/
theorem walk_passBlocks : blockAhead.Owned
    ∧ blockAhead.walk blockAhead.passBlocks (some ⟨4⟩) [] = [⟨4⟩, ⟨2⟩, ⟨3⟩]
    ∧ (∀ m, m ∈ [⟨4⟩, ⟨2⟩, ⟨3⟩]
      ↔ (∃ n ∈ blockAhead.top (some ⟨4⟩), ReflTransGen blockAhead.OwnedBy m n)
      ∧ ∀ o, TransGen blockAhead.OwnedBy m o →
      (o, false) ∉ [(⟨4⟩, true), (⟨2⟩, false), (⟨3⟩, true)])
    ∧ (∃ n ∈ blockAhead.top (some ⟨4⟩), ∃ m, blockAhead.Exposed [] m n
      ∧ blockAhead.type? (some m) = some .identifier)
    ∧ ¬ ∃ n ∈ blockAhead.top (some ⟨4⟩), ∃ m, blockAhead.Exposed [.blockStatement] m n
      ∧ blockAhead.type? (some m) = some .identifier := by
  have ha : blockAhead.Owned := owned_runAll _
  obtain ⟨hwalk, htype⟩ := walk_exact ha (some ⟨4⟩)
  obtain ⟨calls, hrecorded, -, -, -, hmem⟩ := hwalk _ blockAhead.passBlocks []
  have hrun : blockAhead.walk (recorded blockAhead.passBlocks) (some ⟨4⟩) ([], [])
      = ([⟨4⟩, ⟨2⟩, ⟨3⟩], [(⟨4⟩, true), (⟨2⟩, false), (⟨3⟩, true)]) := by decide +kernel
  have hboth := hrecorded.symm.trans hrun
  obtain rfl : calls = [(⟨4⟩, true), (⟨2⟩, false), (⟨3⟩, true)] := congrArg (·.2) hboth
  refine ⟨ha, congrArg (·.1) hboth, hmem, (htype _ _).1 (by decide +kernel), fun h => ?_⟩
  have hfound := (htype _ _).2 h
  have hnone : blockAhead.hasType (some ⟨4⟩) .identifier [.blockStatement]
      = false := by decide +kernel
  exact Bool.false_ne_true (hnone.symm.trans hfound)

end ScopedTree.Arena
