import ScopedTree.Proofs.Typing.Notes

/-!
# What is inferred is what is found

The type that is inferred for a node is one of which that is found which can be said of the node
without notes, whatever is noted already, if the levels are enough.

* `Tree.Infers`            a run that infers types as they are found;
* `Tree.typing_inferNode`  the type of a node, by its form;
* `Tree.infers_typeLevels` **the type that is inferred is the one that is found**.
-/

namespace ScopedTree.Tree

open Arena

variable {t₀ t t' : Tree} {r n m u : NodeId} {p q : PathId} {F F' : Finding} {x y : Option NodeId}
  {ty : NodeType} {infer : PathId → TreeM (Option NodeId)}
  {found? : Option NodeId → NodeType → Option Finding} {key : String}

/-- What is found of the type of a place is found of the type that is inferred there, and it is no
note. -/
structure Infers (r : NodeId) (t₀ : Tree) (infer : PathId → TreeM (Option NodeId))
    (found? : Option NodeId → NodeType → Option Finding) : Prop where
  run : ∀ t p F, Noted r t₀ t → p.index < t.paths.size →
    found? (t.node p) (t.emptyType p) = some F → Typing r t₀ (infer p) t (TypeOf F)
  plain : ∀ x ty F, ty.fields = [] → found? x ty = some F → F.Plain
  filled : ∀ n ty ty', found? (some n) ty = found? (some n) ty'

theorem TypeOf.is_iff (hx : TypeOf F x t) (hty : ty.isA .flowBase = true) :
    t.arena.is x ty = true ↔ F.base = some ty := by
  obtain ⟨u, rfl, hsaid⟩ := hx
  exact hsaid.base ty hty

theorem typing_baseType? (h : Noted r t₀ t) {o : Option NodeType}
    (ho : ∀ ty, o = some ty → ty.fields = []) :
    Typing r t₀ (baseType? o) t (Gives (.ofType o)) := by
  cases o with
  | none => exact typing_pure h rfl
  | some ty =>
    refine (typing_baseType h (ho ty rfl)).bind fun u t' h' _ hu => ?_
    exact typing_pure h' (hu.gives (Finding.plain_ofType ho))

theorem typing_someGeneric (h : Noted r t₀ t) (name : String) :
    Typing r t₀ (some <$> genericType name) t (Gives (.ofKind (.generic name))) := by
  refine (typing_genericType h name).bind fun u t' h' _ hu => ?_
  exact typing_pure h' (hu.gives (Finding.plain_generic name))

theorem typing_inferNew (h : Noted r t₀ t) (hp : t.node p = some n) :
    Typing r t₀ (inferNew p) t (Gives (t₀.arena.foundNew n)) := by
  have hname := h.fieldName? hp "callee"
  unfold Tree.fieldName? at hname
  rw [h.child? hp] at hname
  unfold inferNew foundNew
  refine typing_get ?_
  rw [hp, h.child? hp]
  dsimp only
  rw [h.is_child, hname]
  cases t₀.arena.name? (t₀.arena.child? (some n) "callee") with
  | none =>
    dsimp only [Option.elim_none]
    rw [ite_self]
    exact typing_pure h rfl
  | some name =>
    dsimp only [Option.elim_some]
    split
    · refine (typing_genericType h name).bind fun u t' h' _ hu => ?_
      exact typing_pure h' (hu.gives (Finding.plain_generic name))
    · exact typing_pure h rfl

theorem Later.has (h : Later r t₀ t) (hp : t.node p = some n) (key : String) :
    t.has p key = ((t₀.arena.look (some n)).bind (·.value? key)).any (·.isPresent) := by
  obtain ⟨k, owner, hk, hb⟩ := h.retains.look (h.lt hp)
  unfold Tree.has Tree.value?
  rw [hp, look_some, look_some, hk, hb]
  rfl

theorem typing_inferCall (hc : Crawled t₀.arena r t₀) (hroot : t₀.arena.is (some r) .program = true)
    (h : Noted r t₀ t) (hp : t.node p = some n) (hn : t₀.arena.type? (some n) = some ty)
    (hkey : ty.requires key = true) (hdot : '.' ∉ key.toList)
    (hF : t₀.foundCall? n key = some F) : Typing r t₀ (inferCall p key) t (Gives F) := by
  obtain ⟨m, hm, hend⟩ := h.ends_required hp hn hkey hdot
  unfold foundCall? at hF
  rw [hm] at hF
  obtain rfl : t₀.arena.foundResult (t₀.sourceOf m) = F := Option.some.inj hF
  unfold inferCall
  refine (typing_uncovers h hend).bind fun q t₁ h₁ _ ⟨hq, _⟩ => ?_
  refine (typing_uncovers h₁ (h₁.ends_resolve hc hroot hq.node)).bind
    fun callee t₂ h₂ _ hcallee => ?_
  have hlt := h₂.lt hcallee
  generalize t₀.sourceOf m = f at hcallee hlt
  have hisA : t₂.nodeIsA callee .function = t₀.arena.isA (some f) .function := by
    unfold nodeIsA
    rw [hcallee, h₂.retains.isA hlt]
  unfold foundResult
  refine typing_get ?_
  rw [hisA, h₂.has hcallee, h₂.has hcallee, hcallee]
  split
  · exact typing_pure h₂ rfl
  · split
    · exact typing_someGeneric h₂ _
    · have hheld : t₂.annotation? (some f) "return_type" = t₀.arena.child? (some f) "return_type" :=
        h₂.retains.child? hlt _
      rw [hheld]
      cases hx : t₀.arena.child? (some f) "return_type" with
      | none => exact typing_pure h₂ rfl
      | some u =>
        have hu := (h.start.arena.owned.owner_of_child f u (mem_children_of_child? hx)).lt
        exact typing_pure h₂ (h₂.gives_annotated hu)

section Forms

variable (hinfer : Infers r t₀ infer found?) (h : Noted r t₀ t)

include hinfer h

theorem typing_below (hq : t.Below p q x) (hslot : t.slot q ≠ .field "init")
    (hF : found? x .anyType = some F) :
    Typing r t₀ (infer q) t (TypeOf F) := by
  refine hinfer.run t q F h hq.lt ?_
  rw [hq.node, emptyType_of_slot hslot]
  exact hF

variable (hp : t.node p = some n)

include hp

theorem typing_inferChild (hn : t₀.arena.type? (some n) = some ty) (hkey : ty.requires key = true)
    (hdot : '.' ∉ key.toList) (hne : key ≠ "init") (hF : t₀.foundIn? found? n key = some F) :
    Typing r t₀ (inferChild infer p key) t (TypeOf F) := by
  obtain ⟨m, hm, hend⟩ := h.ends_required hp hn hkey hdot
  unfold foundIn? at hF
  rw [hm] at hF
  refine (typing_uncovers h hend).bind fun q t' h' _ ⟨hq, hslot⟩ => ?_
  refine typing_below hinfer h' hq ?_ hF
  rw [hslot]
  simpa using hne

theorem typing_two {first second : String} {next : Option NodeId → Option NodeId →
    TreeM (Option NodeId)} {left right : Finding} (hn : t₀.arena.type? (some n) = some ty)
    (hfirst : ty.requires first = true) (hsecond : ty.requires second = true)
    (hdots : '.' ∉ first.toList ∧ '.' ∉ second.toList) (hne : first ≠ "init" ∧ second ≠ "init")
    (hleft : t₀.foundIn? found? n first = some left)
    (hright : t₀.foundIn? found? n second = some right) (hnext : ∀ a b t', Noted r t₀ t' →
      TypeOf left a t' → TypeOf right b t' → Typing r t₀ (next a b) t' (Gives F)) :
    Typing r t₀ (do next (← inferChild infer p first) (← inferChild infer p second)) t
    (Gives F) := by
  refine (typing_inferChild hinfer h hp hn hfirst hdots.1 hne.1 hleft).bind fun a t₁ h₁ hl₁ ha => ?_
  have hp₁ := (hl₁.node (lt_of_node hp)).trans hp
  refine (typing_inferChild hinfer h₁ hp₁ hn hsecond hdots.2 hne.2 hright).bind fun b t₂ h₂
    hl₂ hb => ?_
  exact hnext a b t₂ h₂ (ha.later hl₂) hb

theorem typing_inferEither {first second : String}
    (hn : t₀.arena.type? (some n) = some ty) (hfirst : ty.requires first = true)
    (hsecond : ty.requires second = true) (hdots : '.' ∉ first.toList ∧ '.' ∉ second.toList)
    (hne : first ≠ "init" ∧ second ≠ "init") (hF : t₀.foundEither? found? n first second = some F) :
    Typing r t₀ (inferEither infer p first second) t (Gives F) := by
  have hplain := plain_foundEither? hinfer.plain hF
  obtain ⟨left, hleft, hF⟩ := Option.bind_eq_some_iff.1 hF
  obtain ⟨right, hright, hF⟩ := Option.bind_eq_some_iff.1 hF
  obtain rfl := Option.some.inj hF
  refine typing_two hinfer h hp hn hfirst hsecond hdots hne hleft hright fun a b t' h' ha hb => ?_
  refine (typing_unionType h' (.cons ha (.cons hb .nil))).bind fun u t'' h'' _ hu => ?_
  exact typing_pure h'' (hu.gives hplain)

theorem typing_inferSum (hn : t₀.arena.type? (some n) = some .binaryExpression)
    (hF : t₀.foundSum? found? n = some F) : Typing r t₀ (inferSum infer p) t (Gives F) := by
  obtain ⟨left, hleft, hF⟩ := Option.bind_eq_some_iff.1 hF
  obtain ⟨right, hright, hF⟩ := Option.bind_eq_some_iff.1 hF
  obtain rfl := Option.some.inj hF
  have hplain := Finding.plain_sum left right
  have hkeys : NodeType.requires .binaryExpression "left" = true
      ∧ NodeType.requires .binaryExpression "right" = true := by
    decide
  refine typing_two hinfer h hp hn hkeys.1 hkeys.2
    (by decide) (by decide) hleft hright fun a b t' h' ha hb => typing_get ?_
  have hstring : NodeType.isA .stringType .flowBase = true := by decide
  have hnumber : NodeType.isA .numberType .flowBase = true := by decide
  have hmade (ty : NodeType) (hty : ty.fields = []) : Typing r t₀ (baseType? (some ty)) t'
      (Gives (.ofType (some ty))) :=
    typing_baseType? h' fun ty' heq => Option.some.inj heq ▸ hty
  unfold Finding.sum at hplain ⊢
  simp only [Bool.and_eq_true, Bool.or_eq_true, ha.is_iff hstring, ha.is_iff hnumber,
    hb.is_iff hstring, hb.is_iff hnumber]
  split
  · exact hmade _ rfl
  · next hnumbers =>
    split
    · exact hmade _ rfl
    · next hstrings =>
      rw [if_neg hnumbers, if_neg hstrings] at hplain
      refine (typing_baseType h' rfl).bind fun string t₁ h₁ _ hs => ?_
      refine (typing_baseType h₁ rfl).bind fun number t₂ h₂ hl₂ hn => ?_
      refine (typing_unionType h₂ (.cons (hs.later hl₂) (.cons hn .nil))).bind
        fun u t₃ h₃ _ hu => ?_
      exact typing_pure h₃ (hu.gives hplain)

theorem typing_inferSequence (hn : t₀.arena.type? (some n) = some .sequenceExpression)
    (hF : t₀.foundLast? found? n = some F) : Typing r t₀ (inferSequence infer p) t (Gives F) := by
  have hplain := plain_foundLast? hinfer.plain hF
  obtain ⟨o, ho, hty⟩ := h.exists_get? hp hn
  have hitems : t.arena.items (some n) "expressions" = t₀.arena.items (some n) "expressions" :=
    h.retains.items (h.lt hp) _
  unfold inferSequence
  refine typing_get ?_
  rw [hp, hitems]
  unfold foundLast? at hF
  cases hlen : (t₀.arena.items (some n) "expressions").length with
  | zero =>
    rw [hlen] at hF
    cases hF
    exact typing_pure h rfl
  | succ k =>
    rw [hlen] at hF
    dsimp only at hF ⊢
    split at hF
    · next hk =>
      have hlist : o.type.hasList "expressions" = true := by rw [hty]; decide
      have hend := ends_follow_entry h.coherent ho hp hlist (by decide) hk
      rw [hitems] at hend
      refine Typing.gives ((typing_uncovers h hend).bind fun q t' h' _ ⟨hq, hslot⟩ => ?_) hplain
      exact typing_below hinfer h' hq (by rw [hslot]; simp) hF
    · cases hF

theorem typing_inferDeclarator (hroot : t₀.arena.is (some r) .program = true)
    (hn : t₀.arena.type? (some n) = some .variableDeclarator)
    (hF : t₀.foundStart? r found? n = some F) : Typing r t₀ (inferDeclarator infer p) t
    (Gives F) := by
  have hplain := plain_foundStart? hinfer.plain hF
  have hd : t₀.arena.is (some n) .variableDeclarator = true := by
    unfold Arena.is
    rw [hn]
    rfl
  unfold inferDeclarator
  refine typing_get ?_
  rw [hp, h.run_child hp hn (by decide)]
  refine (typing_ofShape h (Q := fun y t' => y = t₀.arena.child? (some n) "id" ∧ t' = t)
    ⟨rfl, rfl⟩).bind ?_
  rintro _ _ - - ⟨rfl, rfl⟩
  rw [h.is_child]
  unfold foundStart? at hF
  split at hF
  · next hid =>
    rw [if_pos hid]
    have hkey : NodeType.hasChild .variableDeclarator "init" = true := by decide
    have hend := h.ends_child hp hn hkey (by decide)
    refine Typing.gives ((typing_uncovers h hend).bind fun q t' h' hl ⟨hq, hslot⟩ => ?_) hplain
    have hp' := (hl.node (lt_of_node hp)).trans hp
    refine hinfer.run t' q F h' hq.lt ?_
    rw [hq.node, h'.emptyType_start hroot hq hslot hp' hd]
    exact hF
  · next hid =>
    cases hF
    rw [if_neg hid]
    exact typing_pure h rfl

variable (hc : Crawled t₀.arena r t₀) (hroot : t₀.arena.is (some r) .program = true)

include hc hroot

theorem typing_typesWritten {writes : List PathId} {Fs : List Finding}
    (hFs : t₀.foundWritten? r found? n writes = some Fs) :
    Typing r t₀ (typesWritten infer p writes) t fun types t' =>
    List.Forall₂ (fun y F => TypeOf F y t') types Fs := by
  induction writes generalizing t Fs with
  | nil =>
    cases hFs
    exact typing_pure h .nil
  | cons write writes ih =>
    obtain ⟨w, hw, hFs⟩ := Option.bind_eq_some_iff.1 hFs
    have hlt := lt_of_node hw
    have hw₀ := (h.node hlt).trans hw
    unfold typesWritten
    refine (typing_uncovers h (h.ends_resolve hc hroot hw₀)).bind fun source t₁ h₁ hl₁ hsource => ?_
    have hp₁ := (hl₁.node (lt_of_node hp)).trans hp
    have horder := orders_orderLevels h₁.toLater hc hroot Limits.inference source p _ n hsource hp₁
    refine (typing_same h₁ (Q := fun order t' => order = t₀.orderLevelsOf r Limits.inference
      (t₀.sourceOf w) n ∧ t' = t₁) horder ⟨rfl, rfl⟩).bind ?_
    rintro _ t' - - ⟨rfl, ht'⟩
    rw [ht']
    change (if t₀.orderLevelsOf r Limits.inference (t₀.sourceOf w) n == .before then _ else _)
      = some Fs at hFs
    split at hFs
    · next hruns =>
      obtain ⟨F, hF, hFs⟩ := Option.bind_eq_some_iff.1 hFs
      obtain ⟨rest, hrest, hFs⟩ := Option.bind_eq_some_iff.1 hFs
      obtain rfl := Option.some.inj hFs
      rw [if_pos hruns]
      have hw₁ := (h₁.node hlt).trans hw
      have hwrite : Typing r t₀ (infer write) t₁ (TypeOf F) := by
        refine hinfer.run t₁ write F h₁ (lt_of_node hw₁) ?_
        rw [hw₁, hinfer.filled w _ .anyType]
        exact hF
      refine hwrite.bind fun type t₂ h₂ hl₂ htype => ?_
      have hp₂ := (hl₂.node (lt_of_node hp₁)).trans hp₁
      refine (ih h₂ hp₂ hrest).bind fun types t₃ h₃ hl₃ htypes => ?_
      exact typing_pure h₃ (.cons (htype.later hl₃) htypes)
    · next hruns =>
      rw [if_neg hruns]
      exact ih h₁ hp₁ hFs

theorem typing_inferIdentifier (ha : t₀.arena.Unnested)
    (hn : t₀.arena.type? (some n) = some .identifier) (hF : t₀.foundName? r found? n = some F) :
    Typing r t₀ (inferIdentifier infer p) t (Gives F) := by
  have hplain := plain_foundName? ha h.start.arena.owned hinfer.plain hF
  have hid : t₀.arena.is (some n) .identifier = true := by
    unfold Arena.is
    rw [hn]
    rfl
  have hne : n ≠ r := by
    rintro rfl
    exact absurd (is_unique hid hroot) (by decide)
  have hvisit := shouldVisit_of_identifier hid
  obtain ⟨-, hp₀, -, -⟩ := h.scopeOf hc hp hne hvisit
  obtain ⟨s, hrun, hbinding⟩ := h.bindingAt? hc hp hne hvisit ((t₀.arena.name? (some n)).getD "")
  have hname : t.arena.name? (some n) = t₀.arena.name? (some n) := h.retains.name? (h.lt hp)
  unfold foundName? at hF
  rw [pathOf?_eq h.start hp₀, Option.any_some] at hF
  unfold inferIdentifier
  refine typing_get ?_
  rw [h.isReferenced (lt_of_node hp₀)]
  split at hF
  · next hread =>
    rw [if_neg (by simpa using hread)]
    refine (typing_same h (Q := fun y t' => y = s ∧ t' = t) hrun ⟨rfl, rfl⟩).bind ?_
    rintro _ t' - - ⟨rfl, ht'⟩
    rw [ht']
    refine typing_get ?_
    rw [hp, hname, hbinding]
    dsimp only at hF
    cases hb : t₀.bindingAt? n ((t₀.arena.name? (some n)).getD "") with
    | none =>
      rw [hb] at hF
      obtain rfl := Option.some.inj hF
      exact typing_baseType? h fun _ => fields_of_unboundType?
    | some b =>
      rw [hb] at hF
      obtain ⟨d, -, hsites⟩ := hc.node_of_bindingAt? hb
      have hheld : t.annotation? (some b.identifier) "type_annotation"
          = t₀.arena.child? (some b.identifier) "type_annotation" := h.retains.child? hsites.lt _
      dsimp only at hF ⊢
      rw [hheld]
      cases hx : t₀.arena.child? (some b.identifier) "type_annotation" with
      | some u =>
        rw [hx] at hF
        obtain rfl := Option.some.inj hF
        have hu := (h.start.arena.owned.owner_of_child b.identifier u
          (mem_children_of_child? hx)).lt
        exact typing_pure h (h.gives_annotated hu)
      | none =>
        rw [hx] at hF
        obtain ⟨Fs, hFs, rfl⟩ := Option.map_eq_some_iff.1 hF
        refine (typing_typesWritten hinfer h hp hc hroot hFs).bind fun types t₁ h₁ _ htypes => ?_
        cases htypes with
        | nil => exact typing_pure h₁ rfl
        | cons hy hrest =>
          refine (typing_unionType h₁ (.cons hy hrest)).bind fun u t₂ h₂ _ hu => ?_
          exact typing_pure h₂ (hu.gives hplain)
  · next hread =>
    cases hF
    rw [if_pos (by simpa using hread)]
    exact typing_pure h rfl

theorem typing_inferForm (ha : t₀.arena.Unnested) {o : Node} (ho : t.arena.get? n = some o)
    (hF : t₀.foundForm? r found? n o.type = some F) : Typing r t₀ (inferForm infer p o) t
    (Gives F) := by
  have hn : t₀.arena.type? (some n) = some o.type := by
    rw [← h.type? hp]
    simp [Arena.type?, ho]
  have hop : o.text? "operator" = t₀.arena.text? (some n) "operator" := by
    obtain ⟨k, owner, hk, hb⟩ := h.retains.look (h.lt hp)
    obtain rfl := Option.some.inj (ho.symm.trans hb)
    simp only [Arena.text?, look_some, hk]
    rfl
  have hmade {o : Option NodeType} (ho : ∀ ty, o = some ty → ty.fields = [])
      (hF : some (Finding.ofType o) = some F) :
      Typing r t₀ (baseType? o) t (Gives F) := Option.some.inj hF ▸ typing_baseType? h ho
  have hgeneric {name : String} (hF : some (Finding.ofKind (.generic name)) = some F) :
      Typing r t₀ (some <$> genericType name) t (Gives F) :=
      Option.some.inj hF ▸ typing_someGeneric h name
  have hplain {ty : NodeType} (hty : ty.fields = []) : ∀ ty', some ty = some ty' →
      ty'.fields = [] :=
    fun _ heq => Option.some.inj heq ▸ hty
  unfold inferForm
  rw [hop]
  generalize o.type = ty at hn hF
  dsimp only
  split
  · exact typing_inferDeclarator hinfer h hp hroot hn hF
  · exact typing_inferIdentifier hinfer h hp hc hroot ha hn hF
  · exact Option.some.inj hF ▸ typing_inferNew h hp
  · exact hmade (hplain rfl) hF
  · exact hmade (hplain rfl) hF
  · exact hmade (hplain rfl) hF
  · exact hmade (hplain rfl) hF
  · exact hmade (hplain rfl) hF
  · exact hgeneric hF
  · exact hgeneric hF
  · exact hgeneric hF
  · exact hgeneric hF
  · exact hmade (fun _ => fields_of_unaryResult?) hF
  · refine hmade (fun ty h => ?_) hF
    split at h <;> cases h
    rfl
  · change (if _ then _ else _) = some F at hF
    split at hF
    · next hsum =>
      rw [if_pos hsum]
      exact typing_inferSum hinfer h hp hn hF
    · next hsum =>
      rw [if_neg hsum]
      exact hmade (fun _ => fields_of_binaryResult?) hF
  · exact typing_inferEither hinfer h hp hn (by decide) (by decide) (by decide) (by decide) hF
  · exact typing_inferEither hinfer h hp hn (by decide) (by decide) (by decide) (by decide) hF
  · exact typing_inferSequence hinfer h hp hn hF
  · refine Typing.gives ?_ (hinfer.plain _ _ F rfl hF)
    exact typing_inferChild hinfer h hp hn (by decide) (by decide) (by decide) hF
  · exact typing_inferCall hc hroot h hp hn (by decide) (by decide) hF
  · exact typing_inferCall hc hroot h hp hn (by decide) (by decide) hF
  · have hother : t₀.foundForm? r found? n ty
        = some (if ty.isA .function || ty.isA .classNode then .ofKind (.generic "Function")
          else .any) := by
      unfold foundForm?
      split <;> first | contradiction | rfl
    rw [hother] at hF
    split
    · next hcase =>
      rw [if_pos hcase] at hF
      exact hgeneric hF
    · next hcase =>
      rw [if_neg hcase] at hF
      cases hF
      exact typing_pure h rfl

/-- The type of a node is given: that of the annotation it carries, or else that of its form. -/
theorem typing_inferNode (ha : t₀.arena.Unnested) (hF : t₀.foundNode? r found? n = some F) :
    Typing r t₀ (inferNode infer p) t (Gives F) := by
  obtain ⟨o, owner, ho, hb⟩ := h.retains.look (h.lt hp)
  have hn : t₀.arena.type? (some n) = some o.type := by simp [Arena.type?, ho]
  unfold inferNode
  refine typing_get ?_
  rw [hp]
  dsimp only
  rw [look_some, hb]
  have hcarried : (if (o.withOwner owner).type.isA .flowType then none
      else t.annotation? (some n) "type_annotation") = t₀.arena.carried? n := by
    have hheld : t.annotation? (some n) "type_annotation" = t₀.arena.child? (some n)
        "type_annotation" :=
      h.child? hp _
    unfold Arena.carried?
    rw [hheld, hn]
    rfl
  dsimp only
  rw [hcarried]
  unfold foundNode? at hF
  cases hx : t₀.arena.carried? n with
  | some u =>
    rw [hx] at hF
    obtain rfl := Option.some.inj hF
    unfold Arena.carried? at hx
    split at hx
    · cases hx
    · have hu := (h.start.arena.owned.owner_of_child n u (mem_children_of_child? hx)).lt
      exact typing_pure h (h.gives_annotated hu)
  | none =>
    rw [hx, hn] at hF
    exact typing_inferForm hinfer h hp hc hroot ha hb hF

end Forms

/-! ## levels -/

theorem typing_unwrapType (h : Noted r t₀ t) (hu : Gives F (some u) t) :
    Typing r t₀ (unwrapType (some u)) t (TypeOf F) := by
  obtain ⟨hlt, htype⟩ := hu
  unfold unwrapType
  refine typing_get ?_
  unfold Arena.unwrapped at htype
  split
  · next hnote =>
    obtain ⟨o, ho, hty⟩ := is_some.1 hnote
    rw [if_pos hnote] at htype
    have hfield : o.type.field? "type_annotation" = some ⟨"type_annotation", .node⟩ := by
      rw [hty]; rfl
    rw [Moored.child_of_field h.coherent.arena.shaped ho hfield (.inl rfl)]
    exact typing_ofShape h htype
  · next hnote =>
    rw [if_neg hnote] at htype
    exact typing_pure h htype

theorem typing_note (h : Noted r t₀ t) (hl : Later r t' t) (hp : p.index < t'.paths.size)
    {fuel : Nat} (hF : t₀.foundLevels? r fuel (t'.node p) (t'.emptyType p) = some F)
    (hu : Gives F (some u) t) :
    Typing r t₀ (do
      let type ← unwrapType (some u)
      modify (·.updatePath p ({ · with inferred := some (t'.node p, type) }))
      return type) t (TypeOf F) := by
  refine (typing_unwrapType h hu).bind fun type t₁ h₁ hl₁ htype => ?_
  have hl₁ := hl.trans hl₁
  have hfit : TypeFits r t₀ t₁ p type := by
    obtain ⟨v, rfl, hsaid⟩ := htype
    refine ⟨fuel, F, v, ?_, rfl, hsaid⟩
    rwa [hl₁.node hp, hl₁.emptyType hp]
  have hnote := h₁.note hfit
  rw [hl₁.node hp] at hnote
  exact ⟨hnote, h₁.here.infer p _, htype⟩

theorem typing_typeWith (h : Noted r t₀ t) (hp : p.index < t.paths.size) {fuel : Nat}
    (hF : t₀.foundLevels? r fuel (t.node p) (t.emptyType p) = some F)
    (hinfer : Typing r t₀ (infer p) t (Gives F)) : Typing r t₀ (typeWith infer p) t (TypeOf F) := by
  unfold typeWith
  refine (typing_same h (Q := fun _ t' => t' = t) (resync_eq h.coherent p) rfl).bind ?_
  rintro _ t' - - ht'
  rw [ht']
  refine typing_get ?_
  dsimp only
  cases hnoted : (t.path p).inferred.filter (·.1 == t.node p) with
  | some y =>
    obtain ⟨node, x⟩ := y
    obtain ⟨hinferred, hnode⟩ := Option.filter_eq_some_iff.1 hnoted
    have hnode : node = t.node p := by simpa using hnode
    obtain ⟨fuel', F', u, hF', rfl, hsaid⟩ := h.notes p node x hinferred hnode.symm
    obtain rfl := foundLevels?_unique hF hF'
    exact typing_pure h ⟨u, rfl, hsaid⟩
  | none =>
    refine hinfer.bind fun y t₁ h₁ hl₁ hy => ?_
    cases y with
    | some u => exact typing_note h₁ hl₁ hp hF hy
    | none =>
      obtain rfl : F = .any := hy
      have hany : NodeType.fields .anyType = [] := rfl
      refine (typing_baseType h₁ hany).bind fun u t₂ h₂ hl₂ hu => ?_
      exact typing_note h₂ (hl₁.trans hl₂) hp hF (hu.gives Finding.plain_any)

section Levels

variable (hc : Crawled t₀.arena r t₀) (hroot : t₀.arena.is (some r) .program = true)
  (ha : t₀.arena.Unnested)

include hc hroot ha

/-- **The type that is inferred is the one that is found**, if the levels are enough. -/
theorem infers_typeLevels (fuel : Nat) : Infers r t₀ (typeLevels fuel)
    (t₀.foundLevels? r fuel) := by
  obtain ⟨_, hl, -⟩ := hc.linked
  have howned := hl.inScope.coherent.arena.owned
  induction fuel with
  | zero => exact ⟨fun _ _ _ _ _ hF => (nomatch hF), fun _ _ _ _ hF => (nomatch hF),
    fun _ _ _ => rfl⟩
  | succ fuel ih =>
    refine ⟨fun t p F h hp hF => ?_, fun _ _ _ => plain_of_foundLevels? ha howned, fun _ _ _ => rfl⟩
    refine typing_typeWith h hp hF ?_
    cases hn : t.node p with
    | none =>
      rw [hn] at hF
      obtain rfl := Option.some.inj hF
      have hfields := fields_emptyType t p
      unfold inferNode
      refine typing_get ?_
      rw [hn]
      refine (typing_baseType h hfields).bind fun u t' h' _ hu => ?_
      exact typing_pure h' (hu.gives (Finding.plain_ofType fun ty heq =>
        Option.some.inj heq ▸ hfields))
    | some n =>
      rw [hn] at hF
      exact typing_inferNode ih h hn hc hroot ha hF

theorem typing_typeOf (h : Noted r t₀ t) (hp : p.index < t.paths.size)
    (hF : t₀.foundLevels? r Limits.inference (t.node p) (t.emptyType p) = some F) :
    Typing r t₀ (typeOf p) t (TypeOf F) :=
    (infers_typeLevels hc hroot ha Limits.inference).run t p F h hp hF

end Levels

end ScopedTree.Tree
