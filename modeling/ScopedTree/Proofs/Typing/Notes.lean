import ScopedTree.Proofs.Typing.Findings

/-!
# Types that are noted

While nothing is edited, to ask for types finds paths, makes nodes and notes types, and each type
that is noted on a path is right.

* `Tree.Later.emptyType`   the type of an empty place stays;
* `Tree.Noted`             the state of a tree after some types were asked for;
* `Tree.Typing`            runs that leave such a state;
* `Tree.Gives`             what a run gives for a type.
-/

namespace ScopedTree

open Arena

namespace Arena

variable {a b : Arena} {m n u : NodeId} {x : Option NodeId} {F : Finding} {outer : Bool}
  {name : String}

theorem Binds.lt (h : a.Binds outer n name m) : m.index < a.size := by
  induction h with
  | here hn => exact get?_eq_some_lt hn
  | inside _ _ _ ih => exact ih

theorem Sites.lt (h : a.Sites n name m) : m.index < a.size := by
  rcases h with h | ⟨_, _, h⟩
  · exact h.lt
  · exact h.lt

theorem Says.not_note (h : a.Says (some u) F) (hF : F.Plain) : a.is (some u) .typeNote = false := by
  refine Bool.eq_false_iff.2 fun hnote => ?_
  have htype : a.type? (some u) = some .typeNote := by
    obtain ⟨o, ho, hty⟩ := is_some.1 hnote
    simp [Arena.type?, ho, hty]
  have hnot : a.is (some u) .unionType = false := Bool.eq_false_iff.2 fun hu =>
    absurd (is_unique hnote hu) (by decide)
  have hkind : a.kind u = .other (some .typeNote) (a.bareDatum u) := by
    unfold kind
    rw [typeClass_of_ne htype (by decide), htype]
    rfl
  exact hF _ ((h.kinds _).1 ⟨u, u, rfl, .self (h.known u rfl) hnot, hkind⟩)

theorem unwrapped_of_not_note (h : a.is x .typeNote = false) : a.unwrapped x = x := by
  unfold unwrapped
  rw [h]
  rfl

theorem Retains.unwrapped (h : Retains a b) (hn : n.index < a.size) :
    b.unwrapped (some n) = a.unwrapped (some n) := by
  unfold Arena.unwrapped
  rw [h.is hn, h.child? hn]

theorem unwrapped_lt (ha : a.Owned) (hn : n.index < a.size) (hu : a.unwrapped (some n) = some u) :
    u.index < a.size := by
  unfold Arena.unwrapped at hu
  split at hu
  · exact (ha.owner_of_child n u (Tree.mem_children_of_child? hu)).lt
  · exact Option.some.inj hu ▸ hn

theorem Complete.exists_unwrapped (ha : a.Complete) (hn : n.index < a.size) :
    ∃ u, a.unwrapped (some n) = some u := by
  unfold Arena.unwrapped
  split
  · next hnote =>
    obtain ⟨o, ho, hty⟩ := is_some.1 hnote
    obtain ⟨o', ho', hfilled⟩ := ha n hn
    obtain rfl := Option.some.inj (ho.symm.trans ho')
    have hsome := hfilled ⟨"type_annotation", .node⟩
      (by rw [hty]; exact List.mem_singleton_self _) rfl
    obtain ⟨u, hu⟩ := Option.isSome_iff_exists.1 hsome
    exact ⟨u, by simp [Arena.child?, ho, hu]⟩
  · exact ⟨n, rfl⟩

theorem says_foundAt (ha : a.Owned) (hu : u.index < a.size) :
    a.Says (some u) (a.foundAt (some u)) := by
  refine ⟨fun _ h => Option.some.inj h ▸ hu, fun k => ?_, fun ty hty => ?_⟩
  · unfold foundAt
    rw [List.mem_map]
    refine ⟨?_, ?_⟩
    · rintro ⟨v, m, hv, hm, hk⟩
      exact ⟨m, (mem_unionMembers ha (sufficesAll_of_le (Nat.le_succ _) _)).2
        ⟨v, List.mem_singleton.2 hv.symm, hm⟩, hk⟩
    · rintro ⟨m, hm, hk⟩
      obtain ⟨v, hv, hm⟩ := (mem_unionMembers ha (sufficesAll_of_le (Nat.le_succ _) _)).1 hm
      exact ⟨v, m, (List.mem_singleton.1 hv).symm, hm, hk⟩
  · show a.type? (some u) == some ty ↔ _
    rw [beq_iff_eq]
    show _ ↔ (a.type? (some u)).filter (·.isA .flowBase) = some ty
    rw [Option.filter_eq_some_iff]
    exact ⟨fun h => ⟨h, hty⟩, fun h => h.1⟩

end Arena

namespace Tree

variable {t₀ t t' t'' : Tree} {r n m u d : NodeId} {p q : PathId} {F : Finding} {x : Option NodeId}
  {α β : Type} {Q Q' : α → Tree → Prop} {R : β → Tree → Prop} {y : Option NodeId}

/-! ## later states -/

namespace Later

theorem trans (h : Later r t₀ t) (h' : Later r t t') : Later r t₀ t' where
  start := h.start
  coherent := h'.coherent
  complete := h'.complete
  retains := h.retains.trans h'.retains
  grows :=
    { arena := rfl
      root := h'.grows.root.trans h.grows.root
      options := h'.grows.options.trans h.grows.options
      rootPath := fun p hp => h'.grows.rootPath p (h.grows.rootPath p hp)
      size := h.grows.size.trans h'.grows.size
      node := fun _ hp => (h'.node (hp.trans_le h.grows.size)).trans (h.node hp)
      parentPath := fun _ hp => (h'.parentPath (hp.trans_le h.grows.size)).trans (h.parentPath hp)
      parentNode := fun _ hp => (h'.parentNode (hp.trans_le h.grows.size)).trans (h.parentNode hp) }
  names := h.names.trans h'.names
  slot p hp := (h'.slot p (hp.trans_le h.grows.size)).trans (h.slot p hp)

theorem nodeIs (h : Later r t₀ t) (hp : p.index < t₀.paths.size) (ty : NodeType) :
    t.nodeIs p ty = t₀.nodeIs p ty := by
  unfold Tree.nodeIs
  rw [h.node hp]
  cases hn : t₀.node p with
  | none => rfl
  | some n => exact h.retains.is (h.lt ((h.node hp).trans hn)) ty

/-- The type of an empty place stays. -/
theorem emptyType (h : Later r t₀ t) (hp : p.index < t₀.paths.size) :
    t.emptyType p = t₀.emptyType p := by
  unfold Tree.emptyType
  rw [h.parentPath hp, h.slot p hp]
  cases hq : t₀.parentPath p with
  | none => rfl
  | some q =>
    have hlt := (h.start.parent_of_parentPath hp hq).1.trans hp
    rw [Option.filter_some, Option.filter_some, h.nodeIs hlt]
    split
    · dsimp only [Option.bind_some]
      rw [h.parentPath hlt]
      cases hd : t₀.parentPath q with
      | none => rfl
      | some d =>
        have hlt' := (h.start.parent_of_parentPath hlt hd).1.trans hlt
        have htype : t.arena.type? (t₀.parentNode d) = t₀.arena.type? (t₀.parentNode d) := by
          cases hm : t₀.parentNode d with
          | none => rfl
          | some m => exact h.retains.type? (h.parent_lt hlt' hm)
        dsimp only
        rw [h.slot d hlt', h.parentNode hlt', htype]
    · rfl

end Later

theorem emptyType_of_slot (h : t.slot p ≠ .field "init") : t.emptyType p = .anyType := by
  unfold emptyType
  cases hq : t.parentPath p with
  | none => rfl
  | some q =>
    have hslot : (t.slot p == .field "init") = false := beq_eq_false_iff_ne.2 h
    rw [Option.filter_some, hslot]
    rfl

theorem fields_emptyType (t : Tree) (p : PathId) : (t.emptyType p).fields = [] := by
  unfold emptyType
  dsimp only
  split
  · rfl
  · split
    · split <;> rfl
    · rfl

theorem Coherent.slot_iff (ht : t.Coherent r) {above : List NodeId}
    (hp : t.Place r p n (m :: above)) (key : String) :
    t.slot p = .field key ↔ t.arena.child? (some m) key = some n := by
  obtain ⟨q, hq, -, hm, -⟩ := ht.parent hp
  obtain ⟨m', hserves⟩ := ht.serves hq hp.node
  obtain rfl := Option.some.inj (hm.symm.trans hserves.parent)
  constructor
  · intro hslot
    have hread := hserves.holds
    rw [hslot] at hread
    exact hread
  · intro hchild
    have hread : t.readSlot (some m) (.field key) = some n := hchild
    exact (place_unique ht.arena.owned hserves.inner (by simp) hserves.holds hread).2

theorem Later.emptyType_start (h : Later r t₀ t) (hroot : t₀.arena.is (some r) .program)
    {node : Option NodeId} (hq : t.Below p q node) (hslot : t.slot q = .field "init")
    (hp : t.node p = some d) (hd : t₀.arena.is (some d) .variableDeclarator = true) :
    t.emptyType q = t₀.emptyStart r d := by
  obtain ⟨above, hpl⟩ := h.coherent.exists_place hp
  have hu := h.under_iff.1 hpl.under
  have howned := h.start.arena.owned
  have hdecl : t.nodeIs p .variableDeclarator = true := by
    unfold Tree.nodeIs
    rw [hp, h.retains.is (h.lt hp)]
    exact hd
  cases above with
  | nil =>
    obtain rfl := under_nil.1 hu
    exact absurd (is_unique hd hroot) (by decide)
  | cons m above =>
    obtain ⟨q', hq', -, -, hpl'⟩ := h.coherent.parent hpl
    have hown : t₀.arena.parentOf (some d) = some m := howned.owner_of_child m d (under_cons.1 hu).2
    unfold Tree.emptyType emptyStart
    rw [hq.parentPath, hslot, Option.filter_some, hdecl, hown]
    simp only [beq_self_eq_true, Bool.and_self, if_true, Option.bind_some]
    rw [hq']
    dsimp only
    cases above with
    | nil =>
      obtain rfl := under_nil.1 hpl'.under
      have hnot : t.slot q' = .root := (h.coherent.slot_root_iff hpl'.lt).2 (h.coherent.top hpl').1
      rw [hnot]
      simp
    | cons g above =>
      have hg := (under_cons.1 (under_cons.1 hu).1).2
      have hown' : t₀.arena.parentOf (some m) = some g := howned.owner_of_child g m hg
      have hne : m ≠ r := by
        rintro rfl
        cases (under_cons.1 hu).1.root_above howned
      obtain ⟨q'', -, -, hparent, hpl''⟩ := h.coherent.parent hpl'
      have hlt := h.lt hpl''.node
      have hleft : (t.slot q' == .field "left") = (t₀.arena.child? (some g) "left" == some m) := by
        rw [Bool.eq_iff_iff, beq_iff_eq, beq_iff_eq, h.coherent.slot_iff hpl' "left",
          h.retains.child? hlt]
      have hbne : (some m != some r) = true := by simpa using hne
      rw [hown', hleft, hparent, h.retains.type? hlt]
      exact if_congr (by rw [hbne, Bool.true_and]) rfl rfl

/-! ## notes -/

def TypeFits (r : NodeId) (t₀ t : Tree) (p : PathId) (x : Option NodeId) : Prop :=
  ∃ fuel F u, t₀.foundLevels? r fuel (t.node p) (t.emptyType p) = some F ∧ x = some u
    ∧ t.arena.Says (some u) F

/-- A later state of `t₀`: paths and nodes have come, and types are noted, all of them right. -/
structure Noted (r : NodeId) (t₀ t : Tree) : Prop extends Later r t₀ t where
  notes : ∀ p node x, (t.path p).inferred = some (node, x) → t.node p = node → TypeFits r t₀ t p x

theorem lt_of_inferred {y : Option NodeId × Option NodeId} (h : (t.path p).inferred = some y) :
    p.index < t.paths.size := by
  by_contra hge
  rw [path_of_size_le (by omega)] at h
  cases h

theorem TypeFits.later (hfit : TypeFits r t₀ t p x) (h : Later r t t')
    (hp : p.index < t.paths.size) :
    TypeFits r t₀ t' p x := by
  obtain ⟨fuel, F, u, hF, rfl, hsaid⟩ := hfit
  refine ⟨fuel, F, u, ?_, rfl, hsaid.retained h.start.arena.owned h.coherent.arena.owned h.retains⟩
  rwa [h.node hp, h.emptyType hp]

namespace Noted

variable (h : Noted r t₀ t)

include h

theorem later (h' : Later r t t') (hinferred : ∀ p, (t'.path p).inferred = (t.path p).inferred) :
    Noted r t₀ t' := by
  refine ⟨h.toLater.trans h', fun p node x hx hnode => ?_⟩
  rw [hinferred] at hx
  have hp := lt_of_inferred hx
  exact (h.notes p node x hx ((h'.node hp).symm.trans hnode)).later h' hp

theorem here : Later r t t := .refl h.coherent h.complete

theorem note (hfit : TypeFits r t₀ t p x) :
    Noted r t₀ (t.updatePath p ({ · with inferred := some (t.node p, x) })) := by
  have h' : Later r t _ := h.here.infer p (some (t.node p, x))
  refine ⟨h.toLater.trans h', fun q node y hy hnode => ?_⟩
  by_cases hq : q = p ∧ p.index < t.paths.size
  · obtain ⟨rfl, hp⟩ := hq
    rw [path_updatePath_self _ _ hp] at hy
    obtain ⟨-, rfl⟩ := Prod.mk.inj (Option.some.inj hy)
    exact hfit.later h' hp
  · rw [path_updatePath, if_neg hq] at hy
    have hlt := lt_of_inferred hy
    exact (h.notes q node y hy ((h'.node hlt).symm.trans hnode)).later h' hlt

end Noted

/-! ## runs -/

/-- The run leaves all notes right, and `Q` holds of its result. -/
def Typing (r : NodeId) (t₀ : Tree) (x : TreeM α) (t : Tree) (Q : α → Tree → Prop) : Prop :=
  Ends (x t) (fun y t' => Noted r t₀ t' ∧ Later r t t' ∧ Q y t') fun _ _ => False

variable {x : TreeM α} {f : α → TreeM β} {Fs : List Finding}

theorem Typing.bind (hx : Typing r t₀ x t Q)
    (hf : ∀ y t', Noted r t₀ t' → Later r t t' → Q y t' → Typing r t₀ (f y) t' R) :
    Typing r t₀ (x >>= f) t R := by
  refine ends_bind.2 (Ends.mono hx fun y t' ⟨h', hl, hQ⟩ => ?_)
  exact Ends.mono (hf y t' h' hl hQ) fun z t'' ⟨h'', hl', hR⟩ => ⟨h'', hl.trans hl', hR⟩

theorem Typing.mono (hx : Typing r t₀ x t Q) (hQ : ∀ y t', Noted r t₀ t' → Later r t t' →
    Q y t' → Q' y t') :
    Typing r t₀ x t Q' := Ends.mono hx fun y t' ⟨h', hl, h⟩ => ⟨h', hl, hQ y t' h' hl h⟩

theorem typing_pure (h : Noted r t₀ t) {y : α} (hQ : Q y t) : Typing r t₀ (pure y) t Q :=
  ⟨h, h.here, hQ⟩

theorem typing_get {f : Tree → TreeM α} (hf : Typing r t₀ (f t) t Q) :
    Typing r t₀ (get >>= f) t Q := hf

theorem typing_same (h : Noted r t₀ t) {y : α} (hrun : x t = .ok y t)
    (hQ : Q y t) : Typing r t₀ x t Q := by
  unfold Typing
  rw [hrun]
  exact ⟨h, h.here, hQ⟩

theorem typing_ofShape (h : Noted r t₀ t) {y : α} (hQ : Q y t) :
    Typing r t₀ (TreeM.ofShape (.ok y)) t Q :=
  ⟨h, h.here, hQ⟩

theorem typing_uncovers (h : Noted r t₀ t)
    (hx : Ends (x t) (fun y t' => t.Uncovers t' r ∧ Q y t') fun _ _ => False) :
    Typing r t₀ x t Q := hx.mono fun _ _ ⟨hext, hQ⟩ =>
  have hlater := h.here.uncovers hext
  ⟨h.later hlater hext.inferred, hlater, hQ⟩

theorem typing_enlarges (h : Noted r t₀ t)
    (hx : Ends (x t) (fun y t' => t.Enlarges t' ∧ Q y t') fun _ _ => False) :
    Typing r t₀ x t Q := hx.mono fun _ t' ⟨hext, hQ⟩ =>
  have hlater := h.here.enlarges hext
  ⟨h.later hlater fun p => by rw [hext.tree]; rfl, hlater, hQ⟩

/-! ## types -/

def TypeOf (F : Finding) (x : Option NodeId) (t : Tree) : Prop :=
  ∃ u, x = some u ∧ t.arena.Says (some u) F

/-- An annotation, of the type in which `F` is found; or nothing, where that is found of it. -/
def Gives (F : Finding) : Option NodeId → Tree → Prop
  | none, _ => F = .any
  | some u, t => u.index < t.arena.size ∧ TypeOf F (t.arena.unwrapped (some u)) t

theorem TypeOf.later (hx : TypeOf F y t) (h : Later r t t') : TypeOf F y t' := by
  obtain ⟨u, rfl, hsaid⟩ := hx
  exact ⟨u, rfl, hsaid.retained h.start.arena.owned h.coherent.arena.owned h.retains⟩

theorem TypeOf.gives (hx : TypeOf F y t) (hF : F.Plain) : Gives F y t := by
  obtain ⟨u, rfl, hsaid⟩ := hx
  refine ⟨hsaid.known u rfl, u, unwrapped_of_not_note (hsaid.not_note hF), hsaid⟩

theorem Typing.gives {x : TreeM (Option NodeId)} (hx : Typing r t₀ x t (TypeOf F)) (hF : F.Plain) :
    Typing r t₀ x t (Gives F) := hx.mono fun _ _ _ _ hy => hy.gives hF

theorem Later.gives_annotated (h : Later r t₀ t) (hu : u.index < t₀.arena.size) :
    Gives (t₀.arena.foundAt (t₀.arena.unwrapped (some u))) (some u) t := by
  have howned := h.start.arena.owned
  have hsize := hu.trans_le h.retains.size
  obtain ⟨v, hv⟩ := h.complete.exists_unwrapped hsize
  refine ⟨hsize, v, hv, ?_⟩
  rw [h.retains.unwrapped hu] at hv
  rw [hv]
  exact (says_foundAt howned (unwrapped_lt howned hu hv)).retained howned
    h.coherent.arena.owned h.retains

theorem typing_baseType (h : Noted r t₀ t) {ty : NodeType} (hty : ty.fields = []) :
    Typing r t₀ (baseType ty) t fun u => TypeOf (.ofType (some ty)) (some u) :=
  typing_enlarges h ((ends_baseType h.coherent.arena h.complete hty).mono fun u _ ⟨hext, hsaid⟩ =>
    ⟨hext, u, rfl, hsaid⟩)

theorem typing_genericType (h : Noted r t₀ t) (name : String) :
    Typing r t₀ (genericType name) t fun u => TypeOf (.ofKind (.generic name)) (some u) :=
  typing_enlarges h ((ends_genericType h.coherent.arena h.complete name).mono fun u _
    ⟨hext, hsaid⟩ =>
    ⟨hext, u, rfl, hsaid⟩)

theorem typing_unionType (h : Noted r t₀ t) {types : List (Option NodeId)}
    (htypes : List.Forall₂ (fun y F => TypeOf F y t) types Fs) :
    Typing r t₀ (unionType types) t fun u => TypeOf (.unite Fs) (some u) := by
  have hsaid : List.Forall₂ t.arena.Says types Fs := htypes.imp fun y F ⟨u, hu, hsaid⟩ => hu ▸ hsaid
  exact typing_enlarges h ((ends_unionType_found h.coherent.arena h.complete hsaid).mono fun u _
    ⟨hext, hsaid⟩ =>
    ⟨hext, u, rfl, hsaid⟩)

end Tree

end ScopedTree
