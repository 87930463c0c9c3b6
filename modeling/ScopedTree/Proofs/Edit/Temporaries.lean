import ScopedTree.Proofs.Edit.Declared
import ScopedTree.Proofs.Edit.Hangs
import ScopedTree.Proofs.Edit.Reached
import ScopedTree.Proofs.Edit.Sequence
import ScopedTree.Proofs.Scope.Requests

/-!
# Temporaries

To insert after an expression keeps its value in a temporary. The declaration of the temporary comes
first; it goes into the bodies and lists of other nodes and leaves the expression where it is,
unless the expression is itself a body.

* `Arena.Bypasses`                            a node is passed by;
* `Tree.Apart.ends_ensureBlock`               to make a body a block passes by what is no body;
* `Tree.Apart.ends_declareUid`                so does the declaration of a temporary, which is bound
  then;
* `Tree.Moored.ends_keep`                     the sequence that keeps a value;
* `Tree.Reached.inserted_around_expression`   what stands at the path of an expression after an
  insertion.
-/

namespace ScopedTree

namespace Arena

variable {a b c : Arena} {e m n q : NodeId} {ty : NodeType} {field : String} {old new : Value}

/-! ## a node that is passed by -/

/-- The node has a body, or declarations. -/
def Hosts (a : Arena) (q : NodeId) : Prop :=
  ∃ ty, a.is (some q) ty = true ∧ ∃ field ∈ ["body", "declarations"],
    (ty.fieldPosition? field).isSome

theorem not_hosts (hq : a.is (some q) ty = true)
    (hty : ∀ field ∈ ["body", "declarations"], ty.fieldPosition? field = none) : ¬ a.Hosts q := by
  rintro ⟨ty', hq', field, hfield, hsome⟩
  obtain rfl := Option.some.inj ((eq_of_beq hq).symm.trans (eq_of_beq hq'))
  rw [hty field hfield] at hsome
  cases hsome

theorem hosts_of_value? {k : Node} {v : Value} (hk : a.get? m = some k)
    (hv : k.value? field = some v) (hfield : field = "body" ∨ field = "declarations") :
    a.Hosts m := by
  obtain ⟨i, hi, -⟩ := Option.bind_eq_some_iff.1 hv
  exact ⟨k.type, is_some.2 ⟨k, hk, rfl⟩, field, by simpa using hfield, Option.isSome_of_eq_some hi⟩

variable {values : List Value}

theorem Confined.keeps (h : Confined a.Hosts a b) (hn : a.Stores n ty values)
    (hty : ∀ field ∈ ["body", "declarations"], ty.fieldPosition? field = none) :
    b.Stores n ty values :=
  h.stores hn (not_hosts hn.is hty)

theorem binds_declarator {id : NodeId} {u : String}
    (hid : a.Stores id .identifier [.str u, .node none])
    (hd : a.Stores n .variableDeclarator [.node (some id), .node none]) : a.Binds true n u id := by
  obtain ⟨i, hi, hity, hivalues⟩ := hid.exists
  obtain ⟨d, hd, hdty, hdvalues⟩ := hd.exists
  obtain ⟨ity, ivalues⟩ := i
  obtain ⟨dty, dvalues⟩ := d
  cases hity
  cases hivalues
  cases hdty
  cases hdvalues
  exact .inside hd (List.mem_singleton_self (some id)) (.here hi rfl rfl)

/-- Nodes were made, and bodies and declarations were written, but not the place of `e`. -/
structure Bypasses (e : NodeId) (a b : Arena) : Prop extends Confined a.Hosts a b where
  owned : b.WellOwned
  parent : b.parentOf (some e) = a.parentOf (some e)
  body : ∀ m, b.slotAt (some m) (.field "body") = some e →
    a.slotAt (some m) (.field "body") = some e

namespace Bypasses

theorem refl (ha : a.WellOwned) : Bypasses e a a := ⟨.refl _ a, ha, rfl, fun _ h => h⟩

theorem trans (h : Bypasses e a b) (h' : Bypasses e b c) : Bypasses e a c where
  toConfined := h.toConfined.trans h'.toConfined fun _ hq ⟨ty, hty, hfield⟩ =>
    ⟨ty, (h.is hq).symm.trans hty, hfield⟩
  owned := h'.owned
  parent := h'.parent.trans h.parent
  body m hm := h.body m (h'.body m hm)

theorem of_makes {cs : List NodeId} (h : Makes a b n ty cs) (hb : b.WellOwned) (he : e ∉ cs) :
    Bypasses e a b where
  toConfined := .of_makes h
  owned := hb
  parent := by rw [h.parent, if_neg he]
  body m hm := by
    by_cases hmn : m = n
    · subst hmn
      exact absurd (h.children ▸ mem_children_of_slotAt hm) he
    · rwa [slotAt_of_content (h.content m hmn)] at hm

/-- A place that is written goes from a node other than the one that is passed by to another. -/
theorem of_overwrites (h : Overwrites a b m field old new) (hb : b.WellOwned) (ha : a.Owned)
    (hfield : field = "body" ∨ field = "declarations") (he : e ∈ old.children ↔ e ∈ new.children)
    (hbody : field = "body" → new.standing (.field "body") ≠ some e) : Bypasses e a b where
  toConfined := by
    obtain ⟨k, -, hk, -, hv, -⟩ := h.get?
    exact .of_overwrites h (hosts_of_value? hk hv hfield)
  owned := hb
  parent := by
    obtain ⟨k, -, hk, -, hv, -⟩ := h.get?
    rw [h.parent]
    split
    · next hnew => exact (ha.owner_of_field hk hv (he.2 hnew)).symm
    · next hnew => rw [if_neg fun hold => hnew (he.1 hold)]
  body q hq := by
    by_cases hqm : q = m
    · subst hqm
      rw [slotAt_overwritten h] at hq
      split at hq
      · next hkey => exact absurd hq (hbody (Option.some.inj hkey).symm)
      · exact hq
    · rwa [slotAt_of_content (h.content_ne hqm)] at hq

theorem of_content (h : Alike a b) (ha : a.WellOwned)
    (hcontent : ∀ q, (b.get? q).map Node.content = (a.get? q).map Node.content) :
    Bypasses e a b where
  toConfined := .of_content h.size hcontent
  owned := h.wellOwned ha
  parent := h.parent e
  body q hq := by rwa [h.slotAt] at hq

end Bypasses

end Arena

namespace Tree

open Arena Relation

variable {t t' t₁ : Tree} {a b c : Arena} {root owner : Option NodeId} {p q : PathId}
  {e k n o x y : NodeId} {s : Slot} {ty : NodeType} {values : List Value}
  {fields : List (String × Value)} {α : Type}

/-! ## declarations that leave a node where it is -/

/-- The path holds `e`, which was passed by since the nodes were `a` below `root`. -/
structure Apart (a : Arena) (root : Option NodeId) (p : PathId) (e : NodeId) (t : Tree) : Prop where
  present : e.index < a.size
  bypasses : Bypasses e a t.arena
  root : t.root = root
  node : t.node p = some e

namespace Apart

theorem of_stays {x : TreeM α} (hover : ∀ b r, Stays (Over b r) x)
    (htells : ∀ b c, Stays (Tells b c p e) x) :
    Stays (Apart a root p e) x := fun t h => by
  obtain ⟨harena, hroot⟩ := hover t.arena t.root t ⟨rfl, rfl⟩
  have hnode := (htells t.arena t.arena.commentsOf t ⟨told_self fun _ => rfl, h.node⟩).node
  exact ⟨h.present, harena ▸ h.bypasses, hroot.trans h.root, hnode⟩

theorem assertLive (q : PathId) : Stays (Apart a root p e) (Tree.assertLive q) :=
  of_stays (fun b r => (Over.nodal b r).crawls.paths.assertLive q) fun _ _ =>
    Tells.charted.assertLive q

theorem follow (q : PathId) (key : String) : Stays (Apart a root p e) (Tree.follow q key) :=
  of_stays (fun b r => (Over.nodal b r).crawls.paths.follow q key) fun _ _ =>
    Tells.charted.follow q key

theorem registerBinding (s : ScopeId) (kind : BindingKind) (q : PathId) :
    Stays (Apart a root p e) (Tree.registerBinding s kind q) :=
  of_stays (fun b r => (Over.nodal b r).crawls.registerBinding s kind q) fun _ _ =>
    Tells.crawls.registerBinding s kind q

variable (h : Apart a root p e t)

include h

theorem lt : e.index < t.arena.size := h.present.trans_le h.bypasses.size

theorem formed (hf : Formed ty values n t t') (he : e ∉ values.flatMap Value.children) :
    Apart a root p e t' :=
  ⟨h.present, h.bypasses.trans (.of_makes hf.makes hf.owned he), hf.root_eq.trans h.root,
    (hf.node p).trans h.node⟩

theorem ends_insertEntries {list : String} (hlist : list = "body" ∨ list = "declarations")
    {nodes : List (Option NodeId)} (he : some e ∉ nodes) (q : PathId)
    (m : Option NodeId) (i : Nat) :
    Ends (insertEntries q m list i nodes t) (fun _ t' => Apart a root p e t') fun _ _ => True := by
  have htells := stays_iff.1 (Tells.insertEntries (a := t.arena) (c := t.arena.commentsOf)
    (p := p) (n := e) q m list i nodes) t ⟨told_self fun _ => rfl, h.node⟩
  refine ((ends_insertEntries_over h.bypasses.owned q m list i nodes).and htells).imp ?_ fun _ _
    _ => trivial
  rintro _ t' ⟨⟨o, old, b, -, hb, -, ⟨rfl, hroot⟩, hover⟩, htold⟩
  refine ⟨h.present, h.bypasses.trans (.of_overwrites hover hb h.bypasses.owned.owned hlist ?_
    fun _ => nofun),
    hroot.trans h.root, htold.node⟩
  rw [mem_children_list, mem_children_list, List.mem_append, List.mem_append, or_right_comm,
    ← List.mem_append, List.take_append_drop]
  exact (or_iff_left he).symm

end Apart

/-! ## bodies that become blocks -/

theorem ends_writeSlot_field (ha : t.arena.WellOwned) {key : String} (hslot : t.slot q = .field key)
    (hparent : t.parentNode q = some o) (x : NodeId) : Ends (writeSlot q (some x) t)
    (fun _ t' => ∃ b old,
      t' = { t with arena := b } ∧ b.WellOwned ∧ Overwrites t.arena b o key (.node old)
      (.node (some x)))
      fun _ _ => True := by
  have hslot : (t.path q).slot = .field key := hslot
  have hparent : (t.path q).parent = some o := hparent
  have hall := ((stays_iff.1 (stays_owned_setChild (some o) key (some x)) _ ha.owned).and
    (stays_iff.1 (stays_shaped_setChild (some o) key (some x)) _ ha.shaped)).and
    (ends_setChild ha.owned (some o) key (some x))
  unfold writeSlot
  rw [run_get_bind]
  simp only [hslot, hparent]
  refine (ends_edit (hall.imp (fun _ _ h => h) fun _ _ _ => trivial)).mono ?_
  rintro old _ ⟨b, ⟨⟨howned, hshaped⟩, o', ho, hover⟩, rfl⟩
  obtain rfl := Option.some.inj ho
  exact ⟨b, old, rfl, ⟨howned, hshaped⟩, hover⟩

/-- The path `p` holds `e`, and `q` stands at the body of `o`. -/
structure Aside (a : Arena) (root : Option NodeId) (p : PathId) (e : NodeId) (q : PathId)
    (o : NodeId) (t : Tree) : Prop where
  apart : Apart a root p e t
  moored : ∃ y, Moored t.arena t.root q y (some o) t
  slot : t.slot q = .field "body"

section Body

variable (hbody : ∀ m, a.slotAt (some m) (.field "body") ≠ some e)

include hbody

theorem Apart.body_ne (h : Apart a root p e t) (m : NodeId) :
    t.arena.slotAt (some m) (.field "body") ≠ some e :=
  fun hm => hbody m (h.bypasses.body m hm)

theorem Apart.overwrites (h : Apart a root p e t) (hb : b.WellOwned) {old : Option NodeId}
    (hover : Overwrites t.arena b o "body" (.node old) (.node (some x))) (hx : x ≠ e) :
    Apart a root p e { t with arena := b } := by
  have hold : old ≠ some e := by
    have hheld := slotAt_held hover (s := .field "body") rfl
    exact fun he => h.body_ne hbody o (hheld.trans he)
  refine ⟨h.present, h.bypasses.trans (.of_overwrites hover hb h.bypasses.owned.owned (.inl rfl) ?_
    ?_), h.root, h.node⟩
  · rw [mem_children_node, mem_children_node]
    exact iff_of_false hold fun he => hx (Option.some.inj he)
  · exact fun _ he => hx (Option.some.inj he)

theorem Apart.ends_detachForWrap (h : Apart a root p e t) (hrooted : t.Rooted 0)
    (hslot : t.slot q = .field "body") (hparent : t.parentNode q = some o)
    (hnode : t.node q = t.arena.slotAt (some o) (.field "body")) :
    Ends (detachForWrap q t) (fun c t' => c ≠ some e ∧ Aside a root p e q o t')
    fun _ _ => True := by
  have ha := h.bypasses.owned
  have hc : t.node q ≠ some e := hnode ▸ h.body_ne hbody o
  have hpq : p ≠ q := by
    rintro rfl
    exact hc h.node
  suffices hapart : Ends (detachForWrap q t) (fun c t' => c ≠ some e ∧ Apart a root p e t') fun _
      _ => True by
    refine (hapart.and (ends_detachForWrap_open hrooted ha hslot hparent hnode)).imp ?_ fun _ _ _ =>
      trivial
    rintro c t' ⟨⟨hne, h'⟩, y, hopen⟩
    exact ⟨hne, h', ⟨y, hopen.moored⟩, hopen.slot⟩
  have hlive := (ends_assertLive_found hrooted ha hslot hparent hnode).and
    ((stays_iff.1 (assertLive (p := p) q) t h).imp (fun _ _ h => h) fun _ _ _ => trivial)
  unfold detachForWrap
  refine ends_bind.2 (hlive.imp (fun _ t₁ h₁ => ?_) fun _ _ _ => trivial)
  obtain ⟨⟨-, -, hslot₁, hparent₁, hnode₁⟩, h₁⟩ := h₁
  rw [run_get_bind]
  have hnoop : build .noop [] t₁.arena = alloc .noop [] t₁.arena := Arena.run_ask_bind rfl
  refine ends_bind.2 ((ends_formed h₁.bypasses.owned hnoop).mono fun x t₂ hformed => ?_)
  have h₂ := h₁.formed hformed nofun
  have hpath : t₂.path q = t₁.path q := by
    rw [hformed.tree]
    rfl
  refine ends_bind.2
    ((ends_writeSlot_field hformed.owned ((congrArg PathData.slot hpath).trans hslot₁)
    ((congrArg PathData.parent hpath).trans hparent₁) x).mono ?_)
  rintro _ _ ⟨b, old, rfl, hb, hover⟩
  have h₃ := h₂.overwrites hbody hb hover (hformed.ne h₁.lt).symm
  rw [run_modify_bind]
  refine ⟨hnode₁ ▸ hc, h₃.present, h₃.bypasses, h₃.root, ?_⟩
  exact (congrArg PathData.node (path_updatePath_ne _ _ hpq)).trans h₃.node

namespace Aside

variable (h : Aside a root p e q o t)

include h

omit hbody in
theorem ends_build (hbuild : build ty fields t.arena = alloc ty values t.arena)
    (he : e ∉ values.flatMap Value.children) : Ends (TreeM.edit (build ty fields) t)
      (fun n t' => Formed ty values n t t' ∧ Aside a root p e q o t') fun _ _ => True := by
  refine (ends_formed h.apart.bypasses.owned hbuild).mono fun n t' hf =>
    ⟨hf, h.apart.formed hf he, ?_, ?_⟩
  · obtain ⟨y, hy⟩ := h.moored
    have hm := hf.moored hy
    exact ⟨y, hf.root_eq ▸ hm⟩
  · have hpath : t'.path q = t.path q := by
      rw [hf.tree]
      rfl
    exact (congrArg PathData.slot hpath).trans h.slot

omit hbody in
theorem ends_bodyStatements {c : Option NodeId} (hc : c ≠ some e) (inFunction : Bool) :
    Ends (bodyStatements c inFunction t) (fun l t' => some e ∉ l ∧ Aside a root p e q o t') fun _
    _ => True := by
  unfold bodyStatements
  rw [run_get_bind]
  split
  · exact ⟨List.not_mem_nil, h⟩
  · split
    · exact ⟨fun hmem => hc (List.mem_singleton.1 hmem).symm, h⟩
    · have hret : build .returnStatement [("argument", .node c)] t.arena
          = alloc .returnStatement [.node c] t.arena := Arena.run_ask_bind rfl
      have hstmt : build .expressionStatement [("expression", .node c)] t.arena
          = alloc .expressionStatement [.node c] t.arena := Arena.run_ask_bind rfl
      have he : e ∉ [Value.node c].flatMap Value.children := by
        rw [List.flatMap_singleton, mem_children_node]
        exact hc
      split
      · refine ends_bind.2 ((h.ends_build hret he).mono fun n t' h' => ⟨fun hmem => ?_, h'.2⟩)
        exact h'.1.ne h.apart.lt (Option.some.inj (List.mem_singleton.1 hmem))
      · refine ends_bind.2 ((h.ends_build hstmt he).mono fun n t' h' => ⟨fun hmem => ?_, h'.2⟩)
        exact h'.1.ne h.apart.lt (Option.some.inj (List.mem_singleton.1 hmem))

omit hbody in
theorem unflag (ho : t.arena.is (some o) .arrowFunctionExpression = true) :
    Aside a root p e q o { t with
    arena := t.arena.update (some o) (·.withValue "expression" (.bool false)) } := by
  obtain ⟨-, hlike, -⟩ := keepsArrows_unflag h.apart.bypasses.owned ho
  have hstep : Bypasses e t.arena
      (t.arena.update (some o) (·.withValue "expression" (.bool false))) := by
    refine ⟨⟨hlike.size.ge, fun k _ => hlike.type? k, fun k _ hk => ?_⟩,
      hlike.wellOwned h.apart.bypasses.owned,
      hlike.parent e, fun m hm => (hlike.slotAt m _).symm.trans hm⟩
    rw [get?_update, if_neg]
    rintro rfl
    exact hk ⟨_, ho, "body", List.mem_cons_self .., by decide⟩
  obtain ⟨y, hy⟩ := h.moored
  exact ⟨⟨h.apart.present, h.apart.bypasses.trans hstep, h.apart.root, h.apart.node⟩,
    ⟨y, hy.rewritten fun o' _ s => hlike.slotAt o' s⟩, h.slot⟩

theorem ends_replaceNode {block : NodeId} (hblock : block ≠ e)
    (hfree : t.arena.parentOf (some block) = none) :
    Ends (replaceNode q block t) (fun _ t' => Apart a root p e t') fun _ _ => True := by
  obtain ⟨y, hy⟩ := h.moored
  have ha := h.apart.bypasses.owned
  have hheld : t.arena.slotAt (some o) (.field "body") = some y := by
    have hholds := Sits.holds hy.stands
    rwa [h.slot, readSlot_eq _ _ Slot.noConfusion] at hholds
  have hpq : p ≠ q := by
    rintro rfl
    exact h.apart.body_ne hbody o (hheld.trans (hy.stands.node.symm.trans h.apart.node))
  refine ((ends_replaceNode_swaps hy ha block).and
    (ends_replaceNode_other hpq h.apart.node block)).imp ?_
    fun _ _ _ => trivial
  rintro _ t' ⟨⟨s, a₁, b, -, hb, -, hpulls, ⟨name, old, hkey, hs, hover, -⟩, harena, hroot⟩, hnode⟩
  obtain rfl := hpulls.eq_of_free hfree
  obtain rfl := ha.owned.slot_unique ((slotAt_held hover hkey).trans hs) hheld
  obtain rfl := Option.some.inj hkey
  obtain ⟨c, rfl⟩ : ∃ c, old = .node c := by
    cases old with
    | node c => exact ⟨c, rfl⟩
    | _ => cases hs
  have h' := h.apart.overwrites hbody hb hover hblock
  have halike := alike_handComments b y block
  refine ⟨h'.present, ?_, hroot.trans h.apart.root, hnode⟩
  rw [harena]
  exact h'.bypasses.trans (.of_content halike hb (content_handComments b y block))

end Aside

/-- To make a body a block leaves a node where it is that is no body. -/
theorem Apart.ends_ensureBlock (h : Apart a root p e t) (hrooted : t.Rooted 0) (k : PathId) :
    Ends (ensureBlock k t) (fun _ t' => Apart a root p e t') fun _ _ => True := by
  cases hn : t.node k with
  | none => exact (ends_ensureBlock_of_none hn).imp (fun _ _ h => h.elim) fun _ _ _ => trivial
  | some n =>
    unfold ensureBlock
    refine ends_bind.2
      (((hrooted.ends_assertLive h.bypasses.owned hn).and ((stays_iff.1 (assertLive k) t h).imp
      (fun _ _ h => h) fun _ _ _ => trivial)).imp ?_ fun _ _ _ => trivial)
    rintro _ t₁ ⟨⟨⟨owner, hmoored⟩, -⟩, h₁⟩
    rw [run_get_bind, hmoored.stands.node]
    refine ends_bind.2 (((hmoored.ends_follow h.bypasses.owned (by decide)).and
      ((stays_iff.1 (follow k "body") t₁ h₁).imp (fun _ _ h => h) fun _ _ _ => trivial)).imp ?_
      fun _ _ _ => trivial)
    rintro q t₂ ⟨⟨hrooted₂, ⟨harena, -⟩, hslot, hparent, hnode⟩, h₂⟩
    rw [← harena] at hnode
    rw [run_get_bind]
    split
    · exact h₂
    refine ends_bind.2 ((h₂.ends_detachForWrap hbody hrooted₂ hslot hparent hnode).mono ?_)
    rintro c t₃ ⟨hc, h₃⟩
    rw [run_get_bind]
    refine ends_bind.2 ((h₃.ends_bodyStatements hc _).mono ?_)
    rintro l t₄ ⟨hl, h₄⟩
    have hbuild : build .blockStatement [("body", .list l)] t₄.arena
        = alloc .blockStatement [.list [], .list l] t₄.arena := Arena.run_ask_bind rfl
    have he : e ∉ [Value.list [], .list l].flatMap Value.children := by
      simpa [Value.children, Value.handles] using hl
    refine ends_bind.2 ((h₄.ends_build hbuild he).mono ?_)
    rintro block t₅ ⟨hformed, h₅⟩
    have hblock : block ≠ e := (hformed.ne h₄.apart.lt).symm
    have hfree := hformed.makes.unowned_new
    rw [run_get_bind]
    dsimp only
    split
    · next harrow =>
      rw [run_modify_bind]
      have hlike := (keepsArrows_unflag h₅.apart.bypasses.owned harrow).2.1
      exact ends_bind.2 (((h₅.unflag harrow).ends_replaceNode hbody hblock
        ((hlike.parent block).trans hfree)).mono fun _ _ h => h)
    · exact ends_bind.2 ((h₅.ends_replaceNode hbody hblock hfree).mono fun _ _ h => h)

end Body

/-! ## temporaries -/

theorem Apart.of_same (h : Apart a root p e t) (harena : t'.arena = t.arena)
    (hroot : t'.root = t.root) (hpaths : t'.paths = t.paths) : Apart a root p e t' := by
  have hnode : t'.node p = t.node p := by
    unfold Tree.node Tree.path
    rw [hpaths]
  exact ⟨h.present, harena ▸ h.bypasses, hroot.trans h.root, hnode.trans h.node⟩

theorem Apart.ends_generateUid (h : Apart a root p e t) (s : ScopeId) (name : String) :
    Ends (generateUid s name t) (fun u t' => t.isTaken s u = false ∧ Apart a root p e t')
    fun _ _ => True := by
  have hsearch := uidSearch_generateUid s name t
  refine ends_iff.2 ⟨fun u t' hrun => ⟨hsearch.not_isTaken hrun, ?_⟩, fun _ _ _ => trivial⟩
  obtain ⟨n, t₁, -, hclaim, -, rfl⟩ := hsearch.of_ok hrun
  have h₁ : Apart a root p e t₁ := by
    rcases claim_cases u t with ⟨-, hrun⟩ | ⟨names, -, ⟨-, hrun⟩ | ⟨-, hrun⟩⟩
    · cases hrun.symm.trans hclaim
      exact h
    · cases hrun.symm.trans hclaim
    · cases hrun.symm.trans hclaim
      exact h.of_same rfl rfl rfl
  obtain ⟨t₂, hnote, -, -, -, hfinal⟩ := reserve_eq s (uidBase name) u (n + 1) t₁
  obtain ⟨-, rfl⟩ := EStateM.Result.ok.inj hnote
  rw [hfinal]
  exact h₁.of_same rfl rfl rfl

theorem ends_insertEntries_one (ha : t.arena.WellOwned) (q : PathId) (m : Option NodeId)
    (list : String) (i : Nat) (x : NodeId) : Ends (insertEntries q m list i [some x] t)
      (fun ps t' => ∃ k, ps = [k] ∧ t'.node k = some x) fun _ _ => True := by
  unfold insertEntries
  refine ends_bind.2 ((ends_edit (ends_listInsert_entries ha m list i [some x])).mono ?_)
  rintro j _ ⟨b, ⟨o, old, rfl, rfl, hover, -⟩, rfl⟩
  have hat : b.slotAt (some o) (.entry list (min i old.length + 0)) = some x := by
    rw [slotAt_overwritten hover, Slot.key?, if_pos rfl, List.append_assoc, Value.standing,
      List.getElem?_append_right (by simp)]
    simp
  refine ends_bind.2 ((stays_iff.1 ((Over.nodal b t.root).pathless.shiftEntries _ _ _ _ _)
    { t with arena := b } ⟨rfl, rfl⟩).imp ?_ fun _ _ _ => trivial)
  rintro _ t₂ ⟨harena, -⟩
  have hread : t₂.readSlot (some o) (.entry list (min i old.length + 0)) = some x := by
    rw [readSlot_eq _ _ Slot.noConfusion, harena]
    exact hat
  have hget : Ends (getOrCreatePath (some q) (some o) (.entry list (min i old.length + 0)) t₂)
      (fun k t' => t'.node k = some x) fun _ _ => True := by
    obtain ⟨k, -, hn, hrun⟩ | ⟨t₃, hrun, hpush⟩ :=
      getOrCreatePath_cases t₂ q (some o) (.entry list (min i old.length + 0))
    · rw [hrun]
      have hlt := lt_of_node (hn.trans hread)
      exact (congrArg PathData.node (path_updatePath_self _ _ hlt)).trans hread
    · rw [hrun]
      exact (congrArg PathData.node hpush.path_new).trans hread
  show Ends ((do
    let paths ← (List.range 1).mapM fun j =>
      getOrCreatePath (some q) (some o) (.entry list (min i old.length + j))
    paths.forM fun p => do
      registerSubtree p
      queueNewPath p true
    return paths : TreeM (List PathId)) t₂) _ _
  rw [List.range_one, List.mapM_cons, List.mapM_nil]
  refine ends_bind.2 (ends_bind.2 (hget.mono fun k t₃ hk => ?_))
  rw [pure_bind, ends_pure]
  have hrest : Stays (Tells t₃.arena t₃.arena.commentsOf k x) ([k].forM fun p => do
      registerSubtree p
      queueNewPath p true : TreeM PUnit) :=
    Stays.forM (fun p => (Tells.crawls.registerSubtree p).bind fun _ => Tells.queueNewPath p true) _
  exact ends_bind.2 ((stays_iff.1 hrest t₃ ⟨told_self fun _ => rfl, hk⟩).imp
    (fun _ t' h => ⟨k, rfl, h.node⟩) fun _ _ _ => trivial)

theorem ends_hangs {x : TreeM α} (hx : Leads t.Hangs (fun _ => t.Hangs) x)
    (h₁ : t.Listed → t.Hangs t₁) :
    Ends (x t₁) (fun _ t' => t.Listed → t.Hangs t') fun _ _ => True := by
  by_cases hl : t.Listed
  · exact (hx t₁ (h₁ hl)).imp (fun _ _ h' _ => h') fun _ _ _ => trivial
  · exact ends_iff.2 ⟨fun _ _ _ hl' => absurd hl' hl, fun _ _ _ => trivial⟩

namespace Apart

theorem trans (h : Apart a root p e t) (h' : Apart t.arena root p e t') : Apart a root p e t' :=
  ⟨h.present, h.bypasses.trans h'.bypasses, h'.root, h'.node⟩

theorem rebase (h : Apart a root p e t) : Apart t.arena root p e t :=
  ⟨h.lt, .refl h.bypasses.owned, h.root, h.node⟩

theorem ends_put {x : NodeId} (h : Apart a root p e t) (hx : x ≠ e) (q : PathId) {list : String}
    (hlist : list = "body" ∨ list = "declarations") (m : Option NodeId) (i : Nat) :
    Ends (insertEntries q m list i [some x] t) (fun ps t' => Apart a root p e t'
      ∧ ∃ k, ps = [k] ∧ t'.node k = some x) fun _ _ => True :=
  ((h.ends_insertEntries hlist (by simpa using hx.symm) q m i).and
    (ends_insertEntries_one h.bypasses.owned q m list i x)).imp (fun _ _ h => h) fun _ _ _ =>
    trivial

theorem ends_unshiftContainer {x : NodeId} (h : Apart a root p e t) (hx : x ≠ e) (q : PathId) :
    Ends (unshiftContainer q "body" [some x] t) (fun ps t' => Apart a root p e t'
      ∧ ∃ k, ps = [k] ∧ t'.node k = some x) fun _ _ => True := by
  unfold unshiftContainer
  refine ends_bind.2 ((stays_iff.1 (assertLive q) t h).imp (fun _ t₁ h₁ => ?_) fun _ _ _ => trivial)
  refine ends_bind.2 ((ends_listField_key t₁ q "body").mono ?_)
  rintro _ _ ⟨rfl, rfl⟩
  rw [run_get_bind]
  exact h₁.ends_put hx q (.inl rfl) _ _

theorem ends_pushContainer {x : NodeId} (h : Apart a root p e t) (hx : x ≠ e) (q : PathId) :
    Ends (pushContainer q "declarations" [some x] t) (fun ps t' => Apart a root p e t'
      ∧ ∃ k, ps = [k] ∧ t'.node k = some x) fun _ _ => True := by
  unfold pushContainer
  refine ends_bind.2 ((stays_iff.1 (assertLive q) t h).imp (fun _ t₁ h₁ => ?_) fun _ _ _ => trivial)
  refine ends_bind.2 ((ends_listField_key t₁ q "declarations").mono ?_)
  rintro _ t₂ ⟨rfl, rfl⟩
  rw [run_get_bind, run_get_bind]
  refine ends_bind.2 ?_
  cases t₂.arena.list (t₂.node q) "declarations" with
  | error e => exact trivial
  | ok items => exact h₁.ends_put hx q (.inr rfl) _ _

theorem ends_build (h : Apart a root p e t)
    (hbuild : build ty fields t.arena = alloc ty values t.arena)
    (he : e ∉ values.flatMap Value.children) : Ends (TreeM.edit (build ty fields) t)
      (fun n t' => Formed ty values n t t' ∧ Apart a root p e t') fun _ _ => True :=
  (ends_formed h.bypasses.owned hbuild).mono fun _ _ hf => ⟨hf, h.formed hf he⟩

section Body

variable (hbody : ∀ m, a.slotAt (some m) (.field "body") ≠ some e)

include hbody

theorem ends_declarationBlock (h : Apart a root p e t) (hrooted : t.Rooted 0) (s : ScopeId) :
    Ends (declarationBlock s t) (fun _ t' => Apart a root p e t') fun _ _ => True := by
  have hat (k : PathId) :
      Ends ((if t.nodeIsA k .loop || t.nodeIsA k .function || t.nodeIs k .catchClause then
      ensureBlock k else pure k : TreeM PathId) t) (fun _ t' => Apart a root p e t')
        fun _ _ => True := by
    split
    · exact h.ends_ensureBlock hbody hrooted k
    · exact h
  unfold declarationBlock
  rw [run_get_bind]
  exact hat _

omit hbody in
theorem ends_declarationFor (h : Apart a root p e t) (s : ScopeId) (block : PathId)
    (kind : String) :
    Ends (declarationFor s block kind false t) (fun _ t' => Apart a root p e t')
    fun _ _ => True := by
  unfold declarationFor
  rw [run_get_bind, if_neg Bool.false_ne_true]
  cases t.pushedDeclaration? s kind with
  | some q => exact h
  | none =>
    have hbuild : build .variableDeclaration [("kind", .str kind),
        ("declarations", .list [])] t.arena
        = alloc .variableDeclaration [.str kind, .list []] t.arena := Arena.run_ask_bind rfl
    refine ends_bind.2 ((h.ends_build hbuild nofun).mono ?_)
    rintro d t₁ ⟨hf, h₁⟩
    refine ends_bind.2 ((h₁.ends_unshiftContainer (hf.ne h.lt).symm block).mono ?_)
    rintro _ t₂ ⟨h₂, k, rfl, -⟩
    exact h₂.of_same rfl rfl rfl

theorem ends_declare (h : Apart a root p e t) (hrooted : t.Rooted 0) (s : ScopeId) {id : NodeId}
    {u : String} (hid : a.Stores id .identifier [.str u, .node none]) (hne : id ≠ e) :
    Ends (declare s (some id) none "var" false t) (fun _ t' => Apart a root p e t'
      ∧ (t.Listed → s.index < t.scopes.size → t'.Owns s u)) fun _ _ => True := by
  have hedits := (Hangs.endures t).edits
  unfold declare
  refine ends_bind.2 (((h.ends_declarationBlock hbody hrooted s).and
    (ends_hangs (hedits.declarationBlock (m := 0) s) .refl)).imp ?_ fun _ _ _ => trivial)
  rintro block t₁ ⟨h₁, hangs₁⟩
  refine ends_bind.2 (((h₁.ends_declarationFor s block "var").and
    (ends_hangs (hedits.declarationFor (m := 0) s block "var" false) hangs₁)).imp ?_
    fun _ _ _ => trivial)
  rintro declaration t₂ ⟨h₂, hangs₂⟩
  have hbuild : build .variableDeclarator [("id", .node (some id)), ("init", .node none)] t₂.arena
      = alloc .variableDeclarator [.node (some id), .node none] t₂.arena := Arena.run_ask_bind rfl
  refine ends_bind.2
    (((h₂.ends_build hbuild (by simpa [Value.children, Value.handles] using hne.symm)).and
    (ends_hangs ((hedits.edit (m := 0) _).leads fun _ _ h => h) hangs₂)).imp ?_
    fun _ _ _ => trivial)
  rintro d t₃ ⟨⟨hf, h₃⟩, hangs₃⟩
  refine ends_bind.2 (((h₃.rebase.ends_pushContainer (hf.ne h₂.lt).symm declaration).and
    (ends_hangs (hedits.pushContainer (m := 0) declaration "declarations" [some d]) hangs₃)).imp ?_
    fun _ _ _ => trivial)
  rintro ps t₄ ⟨⟨h₄, k, rfl, hk⟩, hangs₄⟩
  have hd : t₄.arena.Stores d .variableDeclarator [.node (some id), .node none] :=
    h₄.bypasses.keeps (hf.stores) (by decide)
  replace h₄ := h₃.trans h₄
  have hid := h₄.bypasses.keeps hid (by decide)
  show Ends ((do
    Tree.registerBinding s (.ofKeyword "var") k
    return k : TreeM PathId) t₄) _ _
  refine ends_bind.2 ?_
  have hstays := stays_iff.1 (registerBinding s (.ofKeyword "var") k) t₄ h₄
  by_cases hs : t.Listed ∧ s.index < t.scopes.size
  · have hnot : ¬ t₄.nodeIs k .variableDeclaration = true := by
      unfold nodeIs
      rw [hk]
      exact fun hcase => by cases (eq_of_beq hd.is).symm.trans (eq_of_beq hcase)
    have hlt := hs.2.trans_le (hangs₄ hs.1).size
    refine (hstays.and (ends_registerBinding hlt hnot)).imp ?_ fun _ _ _ => trivial
    rintro _ t' ⟨h', howns, -⟩
    refine ⟨h', fun _ _ => ?_⟩
    rw [hk] at howns
    obtain ⟨ids, hmem, hin⟩ := (binds_declarator hid hd).mem_bindingIds h₄.bypasses.owned.owned
    exact howns _ hmem (List.ne_nil_of_mem hin)
  · exact hstays.imp (fun _ t' h' => ⟨h', fun hl hlt => absurd ⟨hl, hlt⟩ hs⟩) fun _ _ _ => trivial

/-- **A temporary is declared**, and `e` is passed by. -/
theorem ends_declareUid (h : Apart a root p e t) (hrooted : t.Rooted 0) (s : ScopeId)
    (name : String) :
    Ends (declareUid s name t) (fun x t' => Apart a root p e t' ∧ ∃ u, t.isTaken s u = false
      ∧ t'.arena.Stores x .identifier [.str u, .node none] ∧ t'.arena.parentOf (some x) = none
      ∧ a.size ≤ x.index ∧ (t.Listed → s.index < t.scopes.size → t'.Owns s u)) fun _ _ => True := by
  have hidentifier (b : Arena) (u : String) : build .identifier [("name", .str u)] b
      = alloc .identifier [.str u, .node none] b := Arena.run_ask_bind rfl
  have hedits := Rooted.edits
  unfold declareUid
  refine ends_bind.2
    ((((h.ends_generateUid s name).and (stays_iff.1 (hedits.generateUid (m := 0) s name) t
    hrooted)).and (ends_hangs (((Hangs.endures t).edits.generateUid (m := 0) s name).leads
    fun _ _ h => h)
    .refl)).imp ?_ fun _ _ _ => trivial)
  rintro u t₁ ⟨⟨⟨hfree, h₁⟩, hrooted₁⟩, hangs₁⟩
  refine ends_bind.2
    (((h₁.ends_build (hidentifier _ u) nofun).and (stays_iff.1 (hedits.edit (m := 0) _) t₁
    hrooted₁)).imp ?_ fun _ _ _ => trivial)
  rintro id t₂ ⟨⟨hf, h₂⟩, hrooted₂⟩
  have hid : t₂.arena.Stores id .identifier [.str u, .node none] := hf.stores
  refine ends_bind.2 ((h₂.rebase.ends_declare (h₂.body_ne hbody) hrooted₂ s hid
    (hf.ne h₁.lt).symm).mono ?_)
  rintro _ t₃ ⟨h₃, howns⟩
  replace h₃ := h₂.trans h₃
  refine (h₃.ends_build (hidentifier _ u) nofun).mono ?_
  rintro x t₄ ⟨hx, h₄⟩
  refine ⟨h₄, u, hfree, hx.stores, hx.makes.unowned_new, ?_, fun hl hs => ?_⟩
  · rw [hx.makes.fresh]
    exact h₃.bypasses.size
  · have hangs₂ : t.Hangs t₂ := (hangs₁ hl).congr (by rw [hf.tree]) (by rw [hf.tree])
    have howns₃ := howns hangs₂.listed (hs.trans_le hangs₂.size)
    rw [hx.tree]
    exact howns₃

end Body

end Apart

/-! ## items after an expression -/

/-- The path stands in `owner` at the sequence of `u = e`, the expressions `xs` and `u`. -/
def HoldsKept (t : Tree) (p : PathId) (owner : Option NodeId) (u : String) (e : NodeId)
    (xs : List NodeId) : Prop :=
  ∃ assigned target last, t.HoldsSequence p owner (assigned :: xs ++ [last])
    ∧ t.arena.Stores assigned .assignmentExpression [.str "=", .node (some target), .node (some e)]
    ∧ t.arena.Stores target .identifier [.str u, .node none]
    ∧ t.arena.Stores last .identifier [.str u, .node none]

/-- The sequence is made and put at the path of a placeholder. -/
theorem Moored.ends_keep {c : NodeId} {u : String} {items xs : List NodeId}
    (h : Moored t.arena root p c owner t) (ha : t.arena.WellOwned)
    (howner : ∀ o, owner = some o → t.arena.is (some o) .expressionStatement = false)
    (hx : t.arena.Stores x .identifier [.str u, .node none]) (hne : owner ≠ some x)
    (hitems : List.Forall₂ t.arena.Yields items xs) : Ends ((do
      let assign ← TreeM.edit (Arena.assignmentExpression "=" (some x) (some e))
      let first ← TreeM.edit (Arena.expressionStatement (some assign))
      let result ← TreeM.edit (Arena.identifier u)
      let last ← TreeM.edit (Arena.expressionStatement (some result))
      replaceWithStatements p (some first :: items.map some ++ [some last])
      return [p] : TreeM (List PathId)) t)
      (fun ps t' => ps = [p] ∧ t'.HoldsKept p owner u e xs) fun _ _ => True := by
  have hassign (b : Arena) : build .assignmentExpression
      [("operator", .str "="), ("left", .node (some x)), ("right", .node (some e))] b
      = alloc .assignmentExpression [.str "=", .node (some x), .node (some e)] b :=
      Arena.run_ask_bind rfl
  have hstatement (b : Arena) (y : NodeId) : build .expressionStatement
      [("expression", .node (some y))] b
      = alloc .expressionStatement [.node (some y)] b := Arena.run_ask_bind rfl
  have hidentifier (b : Arena) : build .identifier [("name", .str u)] b
      = alloc .identifier [.str u, .node none] b := Arena.run_ask_bind rfl
  refine ends_bind.2 ((ends_formed ha (hassign _)).mono fun assign t₁ h₁ => ?_)
  refine ends_bind.2 ((ends_formed h₁.owned (hstatement _ assign)).mono fun first t₂ h₂ => ?_)
  refine ends_bind.2 ((ends_formed h₂.owned (hidentifier _)).mono fun result t₃ h₃ => ?_)
  refine ends_bind.2 ((ends_formed h₃.owned (hstatement _ result)).mono fun last t₄ h₄ => ?_)
  have hmoored := h₄.moored (h₃.moored (h₂.moored (h₁.moored h)))
  -- what was made stays as it is until the sequence is put in place, and then as well
  have hkeep {b c d : Arena} (h : Confined (fun _ => False) b c)
      (h' : Confined (fun _ => False) c d) :
      Confined (fun _ => False) b d := h.trans h' fun _ _ h => h
  have h₃₄ := h₄.confined fun _ => False
  have h₂₄ := hkeep (h₃.confined _) h₃₄
  have h₁₄ := hkeep (h₂.confined _) h₂₄
  have h₀₄ := hkeep (h₁.confined _) h₁₄
  have hexpr {y : NodeId} {ty : NodeType} {values : List Value} (hy : t₄.arena.Stores y ty values)
      (hty : ty.isA .expression = true) : t₄.arena.isA (some y) .expression = true := by
    obtain ⟨k, hk, rfl, -⟩ := hy.exists
    exact isA_some.2 ⟨k, hk, hty⟩
  have hassigned := h₁₄.stores h₁.stores id
  have hresult := h₃₄.stores h₃.stores id
  have hys : List.Forall₂ t₄.arena.Yields (first :: items ++ [last]) (assign :: xs ++ [result]) :=
    List.rel_append (.cons ⟨hexpr hassigned rfl, .inr (h₂₄.stores h₂.stores id)⟩
      (hitems.imp fun i y h => h₀₄.yields h nofun)) (.cons ⟨hexpr hresult rfl, .inr h₄.stores⟩ .nil)
  have howner₄ (o : NodeId) (ho : owner = some o) : o.index < t.arena.size
      ∧ t₄.arena.is (some o) .expressionStatement = false := by
    have hlt : o.index < t.arena.size := by
      subst ho
      exact Sits.owner_lt h.stands
    exact ⟨hlt, (h₀₄.is hlt).trans (howner o ho)⟩
  have hrun := ends_replaceWithStatements_sequence hmoored h₄.owned
    (fun o ho => (howner₄ o ho).2) hys (by simp)
  rw [List.map_append, List.map_cons] at hrun
  refine ends_bind.2 (hrun.mono ?_)
  rintro _ t' ⟨hholds, hconfined⟩
  have hstays {y : NodeId} {ty : NodeType} {values : List Value} (hy : t₄.arena.Stores y ty values)
      (hty : ty ≠ .expressionStatement) (hyo : owner ≠ some y) : t'.arena.Stores y ty values := by
    refine hconfined.stores hy ?_
    rintro (hs | ho)
    · exact hty (Option.some.inj ((eq_of_beq hy.is).symm.trans (eq_of_beq hs)))
    · exact hyo ho
  have hnew {y : NodeId} (hy : t.arena.size ≤ y.index) : owner ≠ some y :=
    fun ho => absurd (howner₄ y ho).1 (Nat.not_lt.2 hy)
  refine ⟨rfl, assign, x, result, hholds, hstays hassigned (by decide) (hnew ?_),
    hstays (h₀₄.stores hx id) (by decide) hne, hstays hresult (by decide) (hnew ?_)⟩
  · rw [h₁.makes.fresh]
  · rw [h₃.makes.fresh]
    exact (hkeep (h₁.confined _) (h₂.confined _)).size

/-- **After an expression** there is a sequence that keeps its value. -/
theorem ends_insertAfterExpression {items xs : List NodeId} (ht : t.WellOwned)
    (hrooted : t.Rooted 0) (hn : t.node p = some e)
    (hexpr : t.arena.isA (some e) .expression = true)
    (howner : ∀ o, t.arena.OwnedBy e o → t.arena.is (some o) .expressionStatement = false)
    (hbody : ∀ m, t.arena.slotAt (some m) (.field "body") ≠ some e)
    (hitems : List.Forall₂ t.arena.Yields items xs) :
    Ends (insertAfterExpression p (items.map some) t) (fun ps t' => ps = [p] ∧ ∃ s u x t₂ t₃,
      scopeOf p t = .ok (some s) t₂ ∧ declareUid s "temp" t₂ = .ok x t₃ ∧ t₂.isTaken s u = false
        ∧ (t₂.Listed → s.index < t₂.scopes.size → t₃.Owns s u)
        ∧ t'.HoldsKept p (t.arena.parentOf (some e)) u e xs) fun _ _ => True := by
  have hlt : e.index < t.arena.size := by
    obtain ⟨k, hk, -⟩ := isA_some.1 hexpr
    exact get?_eq_some_lt hk
  have h : Apart t.arena t.root p e t := ⟨hlt, .refl ht.arena, rfl, hn⟩
  have hscope : Stays (Apart t.arena t.root p e) (scopeOf p) :=
    Apart.of_stays (fun b r => (Over.nodal b r).crawls.scopeOf p) fun _ _ => Tells.crawls.scopeOf p
  have hrun := (stays_iff.1 hscope t h).and ((Rooted.edits.scopeOf (m := 0) p) t hrooted)
  unfold insertAfterExpression
  cases hs : scopeOf p t with
  | error _ _ =>
    rw [run_bind_of_error hs]
    trivial
  | ok o t₂ =>
    rw [run_bind_of_ok hs]
    rw [hs] at hrun
    obtain ⟨h₂, hrooted₂⟩ := hrun
    cases o with
    | none =>
      dsimp only
      rw [run_get_bind]
      trivial
    | some s =>
      have hrun := (h₂.ends_declareUid hbody hrooted₂ s "temp").and
        ((Rooted.edits.declareUid (m := 0) s "temp") t₂ hrooted₂)
      cases hd : declareUid s "temp" t₂ with
      | error _ _ =>
        dsimp only
        rw [run_bind_of_error hd]
        trivial
      | ok x t₃ =>
        dsimp only
        rw [run_bind_of_ok hd]
        rw [hd] at hrun
        obtain ⟨⟨h₃, u, hfree, hx, hunowned, hnew, howns⟩, hrooted₃⟩ := hrun
        have hname : t₃.arena.name? (some x) = some u := by
          obtain ⟨⟨ty, values⟩, hk, hty, hvalues⟩ := hx.exists
          cases hty
          cases hvalues
          rw [Arena.name?, look_some, hk]
          rfl
        rw [run_get_bind, hname]
        refine ends_bind.2 ((hrooted₃.ends_detachForWrap h₃.bypasses.owned h₃.node).mono ?_)
        rintro _ t₄ ⟨rfl, owner, hv⟩
        have hparent := h₃.bypasses.parent
        obtain rfl : owner = t.arena.parentOf (some e) :=
          (hv.owner_eq h₃.bypasses.owned.owned fun hr =>
            hparent.trans (ht.root e (h₃.root.symm.trans hr))).trans hparent
        obtain ⟨c, hmoored⟩ := hv.moored
        have howner₃ (o : NodeId) (ho : t.arena.parentOf (some e) = some o) :
            t₃.arena.is (some o) .expressionStatement = false :=
          (h₃.bypasses.is (ht.arena.owned.owner_lt ho)).trans (howner o ho)
        have hne : t.arena.parentOf (some e) ≠ some x := fun ho =>
          absurd (ht.arena.owned.owner_lt ho) (Nat.not_lt.2 hnew)
        have hitems₃ := hitems.imp fun i y hi => h₃.bypasses.toConfined.yields hi fun q hq => by
          by_contra hs
          exact not_hosts (Bool.eq_true_of_not_eq_false hs) (by decide) hq
        have hitems₄ := hitems₃.imp fun i y hi => hv.confined.yields hi howner₃
        refine (hmoored.ends_keep hv.owned (fun o ho => ?_) (hv.confined.stores hx hne) hne
          hitems₄).mono ?_
        · rw [hv.confined.is]
          · exact howner₃ o ho
          · exact (ht.arena.owned.owner_lt ho).trans_le h₃.bypasses.size
        · rintro ps t' ⟨rfl, hkept⟩
          exact ⟨rfl, s, u, x, t₂, t₃, rfl, hd, hfree, howns, hkept⟩

/-! ## insertions next to an expression -/

variable {items xs : List NodeId} {s : ScopeId}

theorem WellOwned.inReach_owner (ht : t.WellOwned) (h : t.InReach e)
    (ho : t.arena.OwnedBy e o) : t.InReach o := by
  obtain ⟨r, above, hr, hu, hlen⟩ := h
  cases hu with
  | root => cases (ht.root e hr).symm.trans ho
  | @child m _ above hu hm =>
    obtain rfl := (ht.arena.owned.owner_of_child m e hm).unique ho
    exact ⟨r, above, hr, hu, (Nat.le_succ _).trans hlen⟩

theorem Reached.statementWrapper?_eq_none (h : t.Reached) (ht : t.WellOwned)
    (hn : t.node p = some e) (hlive : assertLive p t = .ok () t₁) (hin : t.InReach e)
    (howner : ∀ o, t.arena.OwnedBy e o → t.arena.is (some o) .expressionStatement = false
      ∧ t.arena.is (some o) .labeledStatement = false) : t₁.statementWrapper? p = none := by
  unfold statementWrapper?
  by_cases hs : t.slot p = .root
  · have hrun : t₁ = t := by
      unfold assertLive at hlive
      rw [run_bind_of_ok (resync_of_root hs), run_get_bind] at hlive
      split at hlive
      · cases hlive
      · cases hlive
        rfl
    rw [hrun, h.rooted.crown p (h.rooted.only p (lt_of_node hn) hs)]
    rfl
  · have hr : (t.path p).removed = false := by
      by_contra hr
      rw [Bool.not_eq_false] at hr
      have hrun : resync p t = .ok () t := by
        unfold resync
        rw [run_get_bind, if_pos (by simp [hr])]
        rfl
      unfold assertLive at hlive
      rw [run_bind_of_ok hrun, run_get_bind, if_pos (by simp [hr])] at hlive
      cases hlive
    obtain ⟨-, -, -, -, -, -, -, hfound⟩ := h.resync_inLine ht.arena hr hs hn
    obtain ⟨o, ho, hline⟩ := hfound t₁ hlive
    obtain ⟨⟨owner, hmoored⟩, -⟩ := (h.rooted.ends_assertLive ht.arena hn).of_ok hlive
    obtain ⟨q, hq, hqn⟩ :=
      hline.below ((ht.inReach_owner hin ho).congr hmoored.arena.symm hmoored.root.symm)
    rw [hq, Option.filter_some, if_neg]
    unfold nodeIs
    rw [hqn, hmoored.arena, (howner o ho).1, (howner o ho).2]
    decide

theorem Crawled.holds_of_scopeOf (hc : Crawled a r t) (hp : t.node p = some e)
    (hrun : Tree.scopeOf p t = .ok (some s) t') : t'.Listed ∧ s.index < t'.scopes.size
      ∧ ∃ above, t.arena.Under r e above ∧ some (t'.scope s).block
      = (t.arena.blocks (e :: above)).head? := by
  obtain ⟨line, hline⟩ := hc.inScope.coherent.exists_line (lt_of_node hp)
  have hlen := hc.length_le hline
  have hgoes := hc.goes fun reads hl => (Linked.assignsQuietly a r reads 0).scopeOf ⟨hl, hc.depth⟩
    hline (hlen.trans (by omega)) (hl.covered hline hc.settled)
  obtain ⟨hc', -, hholds, -⟩ := hgoes.of_ok hrun
  obtain ⟨n, above, hpl, rfl⟩ | ⟨hnone, -⟩ := hline
  · obtain rfl := Option.some.inj (hpl.node.symm.trans hp)
    refine ⟨fun i c hc => (hc'.inScope.listed i c hc).1, hholds.2 s rfl, above, hpl.under, ?_⟩
    have harena : t'.arena = t.arena := by
      obtain ⟨_, hl, -⟩ := hc.linked
      obtain ⟨_, hl', -⟩ := hc'.linked
      exact hl'.arena.trans hl.arena.symm
    rw [← harena]
    exact hholds.1
  · cases hnone.symm.trans hp

/-- **To insert next to an expression keeps its value.** Expressions, or statements made for
expressions, that are inserted before an expression that stands in no statement or label of its own
leave the sequence of them and the expression in its place. Inserted after an expression that is no
body, they leave the sequence of an assignment of the expression to a new name, them and the name.
The name was not taken, and in a crawled tree it is bound in the scope of the nearest block around
the path. -/
theorem Reached.inserted_around_expression (h : t.Reached) (ht : t.WellOwned)
    (hn : t.node p = some e) (hlive : assertLive p t = .ok () t₁) (hin : t.InReach e)
    (hexpr : t.arena.isA (some e) .expression = true)
    (howner : ∀ o, t.arena.OwnedBy e o → t.arena.is (some o) .expressionStatement = false
      ∧ t.arena.is (some o) .labeledStatement = false)
    (hitems : List.Forall₂ t.arena.Yields items xs) (hne : items ≠ []) :
    Ends (insertBefore p (items.map some) t) (fun ps t' => ps = [p]
        ∧ t'.HoldsSequence p (t.arena.parentOf (some e)) (xs ++ [e])) (fun _ _ => True)
      ∧ ((∀ m, t.arena.slotAt (some m) (.field "body") ≠ some e) →
        Ends (insertAfter p (items.map some) t) (fun ps t' => ps = [p] ∧ ∃ s u x t₂ t₃,
            Tree.scopeOf p t₁ = .ok (some s) t₂ ∧ declareUid s "temp" t₂ = .ok x t₃
            ∧ t₂.isTaken s u = false
              ∧ t'.HoldsKept p (t.arena.parentOf (some e)) u e xs
              ∧ ∀ r, Crawled t.arena r t → t₃.Owns s u ∧ ∃ above, t.arena.Under r e above
                ∧ some (t₂.scope s).block = (t.arena.blocks (e :: above)).head?)
                fun _ _ => True) := by
  obtain ⟨⟨owner, hmoored⟩, hagain⟩ := (h.rooted.ends_assertLive ht.arena hn).of_ok hlive
  have hwrap := h.statementWrapper?_eq_none ht hn hlive hin howner
  have hrun (here : PathId → List (Option NodeId) → TreeM (List PathId)) :
      insertWith here p (items.map some) t = here p (items.map some) t₁ :=
    run_insertWith hlive hagain hwrap (by simpa using hne)
  have hn₁ := hmoored.stands.node
  have hrooted₁ := hmoored.rooted
  have harena : t.arena = t₁.arena := hmoored.arena.symm
  have ht₁ : t₁.WellOwned :=
    ⟨harena ▸ ht.arena, fun r hr => harena ▸ ht.root r (hmoored.root.symm.trans hr)⟩
  have hcrawled (r : NodeId) (hc : Crawled t.arena r t) : t₁ = t := by
    cases (assertLive_eq hc.inScope.coherent p).symm.trans hlive
    rfl
  unfold insertBefore insertAfter
  rw [hrun, hrun]
  rw [harena] at hexpr howner hitems hcrawled ⊢
  have howner := fun o ho => (howner o ho).1
  refine ⟨ends_insertBeforeHere_sequence ht₁ hrooted₁ hn₁ hexpr howner hitems hne, fun hbody => ?_⟩
  unfold insertAfterHere
  rw [run_get_bind, if_pos (by unfold nodeIsA; rwa [hn₁])]
  refine (ends_insertAfterExpression ht₁ hrooted₁ hn₁ hexpr howner hbody hitems).mono ?_
  rintro ps t' ⟨rfl, s, u, x, t₂, t₃, hscope, hdeclare, hfree, howns, hkept⟩
  refine ⟨rfl, s, u, x, t₂, t₃, hscope, hdeclare, hfree, hkept, fun r hc => ?_⟩
  obtain rfl := hcrawled r hc
  obtain ⟨hlisted, hs, habove⟩ := hc.holds_of_scopeOf hn₁ hscope
  exact ⟨howns hlisted hs, habove⟩

/-- The program `f(x)`, and a statement `y` that is not part of it. -/
def callAndStatement : Arena := runAll [
  .alloc .identifier [.str "f", .node none],
  .alloc .identifier [.str "x", .node none],
  .alloc .callExpression [.node (some ⟨0⟩), .list [some ⟨1⟩]],
  .alloc .expressionStatement [.node (some ⟨2⟩)],
  .alloc .program [.str "module", .list [], .list [some ⟨3⟩]],
  .alloc .identifier [.str "y", .node none],
  .alloc .expressionStatement [.node (some ⟨5⟩)]]

theorem stays_reached_scopeOfRoot : Stays Reached Tree.scopeOfRoot := by
  have hcall {α : Type} {x : TreeM α} {c : PathCall} (hx : c.run = discard x)
      (hc : ∀ m, c.Known m) :
      Stays Reached x := fun t h => by
    have h := Reached.call c (hc _) h
    rwa [hx, final_discard] at h
  exact (hcall (c := .root) rfl fun _ => trivial).bind fun p =>
    hcall (c := .edit (.scope p)) rfl fun _ => trivial

/-- The statement is put before `x`, and after it in the crawled program. -/
theorem inserted_around_argument : ∃ t t' t'' s u x t₂ t₃,
    scopeOfRoot (ofArena callAndStatement (some ⟨4⟩) {}) = .ok (some ⟨0⟩) t ∧ t.node ⟨4⟩ = some ⟨1⟩
      ∧ insertBefore ⟨4⟩ [some ⟨6⟩] t = .ok [⟨4⟩] t' ∧ t'.HoldsSequence ⟨4⟩ (some ⟨2⟩) [⟨5⟩, ⟨1⟩]
      ∧ insertAfter ⟨4⟩ [some ⟨6⟩] t = .ok [⟨4⟩] t'' ∧ t''.HoldsKept ⟨4⟩ (some ⟨2⟩) u ⟨1⟩ [⟨5⟩]
      ∧ scopeOf ⟨4⟩ t = .ok (some s) t₂ ∧ declareUid s "temp" t₂ = .ok x t₃ ∧ t₃.Owns s u := by
  have hok : passes (scopeOfRoot (ofArena callAndStatement (some ⟨4⟩) {})) (fun o t =>
      decide (o = some ⟨0⟩) && decide (t.node ⟨4⟩ = some ⟨1⟩)
        && passes (assertLive ⟨4⟩ t) (fun _ _ => true)
        && passes (insertBefore ⟨4⟩ [some ⟨6⟩] t) (fun _ _ => true)
        && passes (insertAfter ⟨4⟩ [some ⟨6⟩] t) fun _ _ => true) = true := by
    decide +kernel
  obtain ⟨_, t, hrun, hok⟩ := ok_of_passes hok
  simp only [Bool.and_eq_true, decide_eq_true_eq] at hok
  obtain ⟨⟨⟨⟨rfl, hnode⟩, hlive⟩, hbefore⟩, hafter⟩ := hok
  obtain ⟨_, t₁, hlive, -⟩ := ok_of_passes hlive
  obtain ⟨ps, t', hbefore, -⟩ := ok_of_passes hbefore
  obtain ⟨ps', t'', hafter, -⟩ := ok_of_passes hafter
  have hroot : callAndStatement.is (some ⟨4⟩) .program = true := by decide
  have ha : callAndStatement.WellOwned := wellOwned_runAll _
  have hc : Crawled callAndStatement ⟨4⟩ t :=
    ((ends_scopeOfRoot ha (isScope_of_program hroot) rfl).of_ok hrun).1
  obtain ⟨_, hl, -⟩ := hc.linked
  have harena := hl.arena
  have hcoherent := hc.inScope.coherent
  have hreached := stays_reached_scopeOfRoot _ (.start callAndStatement (some ⟨4⟩) {})
  rw [hrun] at hreached
  change t.Reached at hreached
  have ht : t.WellOwned := by
    refine ⟨harena ▸ ha, fun r hr => ?_⟩
    obtain rfl : ⟨4⟩ = r := Option.some.inj (hcoherent.root.symm.trans hr)
    rw [harena]
    decide
  have hin : t.InReach ⟨1⟩ := by
    refine ⟨⟨4⟩, [⟨2⟩, ⟨3⟩, ⟨4⟩], hcoherent.root, ?_, by decide⟩
    rw [harena]
    exact .child (.child (.child .root (by decide)) (by decide)) (by decide)
  have hitems : List.Forall₂ t.arena.Yields [⟨6⟩] [⟨5⟩] := by
    rw [harena]
    exact .cons ⟨by decide, .inr rfl⟩ .nil
  have hparent : t.arena.parentOf (some ⟨1⟩) = some ⟨2⟩ := by
    rw [harena]
    decide
  obtain ⟨hsequence, hkeeps⟩ := Reached.inserted_around_expression hreached ht hnode hlive hin
    (by rw [harena]; decide) (fun o ho => by
      obtain rfl : ⟨2⟩ = o := Option.some.inj (hparent.symm.trans ho)
      rw [harena]
      decide) hitems (by decide)
  rw [hparent] at hsequence hkeeps
  obtain ⟨rfl, hsequence⟩ := hsequence.of_ok hbefore
  obtain ⟨rfl, s, u, x, t₂, t₃, hscope, hdeclare, -, hkept, howns⟩ := (hkeeps fun m hm => by
    have howner := (harena ▸ ha.owned : t.arena.Owned).owner_of_child m _
      (mem_children_of_slotAt hm)
    obtain rfl : ⟨2⟩ = m := Option.some.inj (hparent.symm.trans howner)
    rw [harena] at hm
    revert hm
    decide).of_ok hafter
  have hsame : t₁ = t := by
    cases (assertLive_eq hcoherent ⟨4⟩).symm.trans hlive
    rfl
  exact ⟨t, t', t'', s, u, x, t₂, t₃, hrun, hnode, hbefore, hsequence, hafter, hkept,
    hsame ▸ hscope, hdeclare, (howns ⟨4⟩ (harena ▸ hc)).1⟩

end Tree

end ScopedTree
