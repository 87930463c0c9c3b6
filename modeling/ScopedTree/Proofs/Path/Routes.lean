import ScopedTree.Proofs.Edit.Updates

/-!
# Routes to a node

A node is found from below, along its owners, or from above, by a key that spells where it stands.
Both go down from the path of the root over the same places, and each place has one path.

* `Slot.keys`, `dottedKey`     a position as it is spelled in keys;
* `Tree.walk`                  follows keys one after the other;
* `Tree.placed`                the way down that all routes come to;
* `Tree.Serves`, `Tree.Lined`  the paths on it, up to date;
* `Tree.Rooted.pathFor_eq`, `Tree.Rooted.walk_eq`   both routes are this way;
* `Tree.Reached.routes_agree`  **all routes to a node give the same path**.
-/

namespace ScopedTree

open Arena Relation

/-- A place as it is spelled in a key. -/
def Slot.keys : Slot → List String
  | root => []
  | field name => [name]
  | entry list index => [list, toString index]

/-- The key that spells a position. -/
def dottedKey (w : List Slot) : String := ".".intercalate (w.flatMap Slot.keys)

def Arena.through (a : Arena) (o : NodeId) : List Slot → List NodeId
  | [] => []
  | s :: w => (a.slotAt (some o) s).elim [] fun c => c :: a.through c w

namespace Tree

/-- Follows the keys of some positions, each from where the one before leads to. -/
def walk (legs : List (List Slot)) : TreeM PathId := do
  legs.foldlM (fun p leg => follow p (dottedKey leg)) (← getRootPath)

/-- The path of the place at a position below a path. -/
def placed (p : PathId) : List Slot → TreeM PathId
  | [] => return p
  | s :: w => do placed (← getOrCreatePath (some p) ((← get).node p) s) w

variable {t t' t'' : Tree} {m : Nat} {p q : PathId} {n o c r : NodeId} {slot s : Slot}
  {w w' : List Slot} {above : List NodeId} {S S' : NodeId → Prop}

theorem placed_append (w' : List Slot) :
    ∀ (w : List Slot) (q : PathId), placed q (w ++ w') = placed q w >>= fun p => placed p w'
  | [], q => rfl
  | s :: w, q => by
    rw [List.cons_append, placed, placed]
    simp only [bind_assoc, placed_append w' w]

/-! ## paths that come when places are looked up -/

/-- Paths may have come. Those that were there hold what they held, and those that hold none of the
nodes `S` are as they were. -/
structure Locates (S : NodeId → Prop) (t t' : Tree) : Prop where
  arena : t'.arena = t.arena
  root : t'.root = t.root
  rootPath : t'.rootPath = t.rootPath
  node : ∀ p, p.index < t.paths.size → t'.node p = t.node p
  removed : ∀ p, p.index < t.paths.size → (t'.path p).removed = (t.path p).removed
  path : ∀ p n, t.node p = some n → ¬ S n → t'.path p = t.path p
  lists : ∀ o, t.cachedPaths o <+: t'.cachedPaths o

namespace Locates

theorem refl (S : NodeId → Prop) (t : Tree) : Locates S t t :=
  ⟨rfl, rfl, rfl, fun _ _ => rfl, fun _ _ => rfl, fun _ _ _ _ => rfl, fun _ => List.prefix_rfl⟩

theorem mono (h : Locates S t t') (hS : ∀ n, S n → S' n) : Locates S' t t' :=
  { h with path := fun p n hn hs => h.path p n hn fun hn' => hs (hS n hn') }

theorem trans (h : Locates S t t') (h' : Locates S t' t'') (hsize : t.paths.size ≤ t'.paths.size) :
    Locates S t t'' where
  arena := h'.arena.trans h.arena
  root := h'.root.trans h.root
  rootPath := h'.rootPath.trans h.rootPath
  node p hp := (h'.node p (hp.trans_le hsize)).trans (h.node p hp)
  removed p hp := (h'.removed p (hp.trans_le hsize)).trans (h.removed p hp)
  path p n hn hs := (h'.path p n ((h.node p (lt_of_node hn)).trans hn) hs).trans (h.path p n hn hs)
  lists o := (h.lists o).trans (h'.lists o)

theorem readSlot (h : Locates S t t') (owner : Option NodeId) (s : Slot) :
    t'.readSlot owner s = t.readSlot owner s := by
  unfold Tree.readSlot
  rw [h.arena, h.root]

end Locates

/-- The path `p` is the one that is found for the place `slot` of `o`, which holds `n`. It stands
there, below the path `q` of `o`. -/
structure Serves (t : Tree) (q : PathId) (o : NodeId) (slot : Slot) (p : PathId)
    (n : NodeId) : Prop where
  owner : t.node q = some o
  inner : slot ≠ .root
  holds : t.readSlot (some o) slot = some n
  found : t.Answers p n o
  parentPath : t.parentPath p = some q
  parent : t.parentNode p = some o
  slot : t.slot p = slot
  fresh : (t.path p).stale = false

namespace Serves

theorem node (h : t.Serves q o slot p n) : t.node p = some n := h.found.node

theorem owned (h : t.Serves q o slot p n) (ha : t.arena.Owned) : t.arena.OwnedBy n o :=
  ha.owner_of_child o n (mem_children_of_readSlot h.inner h.holds)

theorem inLine (h : t.Serves q o slot p n) : t.InLine p n o where
  slot := h.slot.trans_ne h.inner
  node := h.node
  parent := h.parent
  holds := by
    rw [h.slot]
    exact h.holds
  fresh := h.fresh
  below _ := ⟨q, h.parentPath, h.owner⟩

theorem run (h : t.Serves q o slot p n) : getOrCreatePath (some q) (some o) slot t = .ok p t := by
  have hfound : (t.cachedPaths (some o)).find? (t.servesSlot slot (some n)) = some p := h.found
  unfold getOrCreatePath
  rw [if_neg (by simp), run_get_bind]
  dsimp only
  rw [h.holds, hfound]
  show EStateM.Result.ok p (t.updatePath p _) = _
  rw [updatePath_eq_self]
  rw [← h.parentPath, ← h.parent, ← h.slot, ← h.node, ← h.fresh]
  rfl

theorem locates (h : t.Serves q o slot p n) (hrooted : t.Rooted m) (hf : Locates S t t')
    (hn : ¬ S n) :
    t'.Serves q o slot p n := by
  have hpath := hf.path p n h.node hn
  refine ⟨(hf.node q (lt_of_node h.owner)).trans h.owner, h.inner,
    (hf.readSlot _ _).trans h.holds, ?_, (congrArg PathData.parentPath hpath).trans h.parentPath,
    (congrArg PathData.parent hpath).trans h.parent, (congrArg PathData.slot hpath).trans h.slot,
    (congrArg PathData.stale hpath).trans h.fresh⟩
  obtain ⟨new, hnew⟩ := hf.lists (some o)
  have hold : (t.cachedPaths (some o)).find? (fun p => !(t'.path p).removed && t'.node p == some n)
      = some p := by
    refine (List.find?_congr fun p' hp' => ?_).trans h.found
    have hlt := (hrooted.listed (some o) p' hp').1
    rw [hf.removed p' hlt, hf.node p' hlt]
  unfold Answers
  rw [← hnew, List.find?_append, hold, Option.some_or]

end Serves

theorem serves_seated (hq : t.node q = some o) (hs : slot ≠ .root)
    (hread : t.readSlot (some o) slot = some n) (hp : t.Answers p n o) {f : PathData → PathData}
    (hf : f = ({ · with
      parentPath := some q, parent := some o, slot, node := some n, stale := false })) :
    (t.updatePath p f).Serves q o slot p n ∧ Locates (· = n) t (t.updatePath p f) := by
  have hlt := lt_of_node hp.node
  have hself := path_updatePath_self t f hlt
  have hnode (p' : PathId) : (t.updatePath p f).node p' = t.node p' := by
    by_cases he : p' = p
    · subst he
      rw [hp.node]
      exact (congrArg PathData.node hself).trans (by rw [hf])
    · exact congrArg PathData.node (path_updatePath_ne t f he)
  have hremoved (p' : PathId) : ((t.updatePath p f).path p').removed = (t.path p').removed :=
    t.path_updatePath_congr p p' f PathData.removed fun d => by rw [hf]
  refine ⟨⟨(hnode q).trans hq, hs, hread, ?_, ?_, ?_, ?_, ?_⟩,
    ⟨rfl, rfl, rfl, fun p' _ => hnode p', fun p' _ => hremoved p', fun p' n' hn' hne' => ?_,
      fun _ => List.prefix_rfl⟩⟩
  · refine (List.find?_congr fun p' _ => ?_).trans hp
    rw [hnode, hremoved]
  · exact (congrArg PathData.parentPath hself).trans (by rw [hf])
  · exact (congrArg PathData.parent hself).trans (by rw [hf])
  · exact (congrArg PathData.slot hself).trans (by rw [hf])
  · exact (congrArg PathData.stale hself).trans (by rw [hf])
  · refine path_updatePath_ne t f ?_
    rintro rfl
    exact hne' (Option.some.inj (hn'.symm.trans hp.node))

theorem serves_pushed (h : t.Rooted m) (hq : t.node q = some o) (hs : slot ≠ .root)
    (hread : t.readSlot (some o) slot = some n)
    (hnone : (t.cachedPaths (some o)).find? (t.servesSlot slot (some n)) = none)
    (hpush : t.Pushes t' { node := some n, parentPath := some q, parent := some o, slot }) :
    t'.Serves q o slot ⟨t.paths.size⟩ n ∧ Locates (· = n) t t' := by
  have hnew := hpush.path_new
  have hfresh : (t.cachedPaths (some o)).find? (fun p => !(t'.path p).removed
      && t'.node p == some n) = none := by
    refine (List.find?_congr fun p' hp' => ?_).trans hnone
    unfold Tree.node
    rw [hpush.path_old (h.listed _ p' hp').1]
    rfl
  refine ⟨⟨(congrArg PathData.node (hpush.path_old (lt_of_node hq))).trans hq, hs,
    (hpush.readSlot _ _).trans hread, ?_, congrArg PathData.parentPath hnew,
    congrArg PathData.parent hnew, congrArg PathData.slot hnew, congrArg PathData.stale hnew⟩,
    ⟨hpush.arena, hpush.root, hpush.rootPath_eq (Option.some_ne_none q), hpush.grows.node,
      fun p' hp' => congrArg PathData.removed (hpush.path_old hp'),
      fun p' n' hn' _ => hpush.path_old (lt_of_node hn'), fun m => ?_⟩⟩
  · unfold Answers
    rw [hpush.listed, if_pos rfl, List.find?_append, hfresh, Option.none_or,
      List.find?_singleton, if_pos]
    unfold Tree.node
    rw [hnew]
    simp
  · cases m with
    | none => exact List.prefix_rfl
    | some m =>
      rw [hpush.listed]
      exact List.prefix_append ..

theorem Rooted.ends_serves (h : t.Rooted m) (hq : t.node q = some o) (hs : slot ≠ .root)
    (hread : t.readSlot (some o) slot = some n) :
    Ends (getOrCreatePath (some q) (some o) slot t) (fun p t' => t'.Rooted m
      ∧ t'.Serves q o slot p n ∧ Locates (· = n) t t' ∧ t.paths.size ≤ t'.paths.size)
      fun _ _ => False := by
  have hrooted := h.ends_child hs (some o) (q := q)
  obtain ⟨p, hp, hrun⟩ | ⟨hnone, t', hrun, hpush⟩ :=
    getOrCreatePath_find t q (some o) slot
  · rw [hrun] at hrooted ⊢
    rw [hread] at hp hrooted ⊢
    obtain ⟨hserves, hlocates⟩ := serves_seated hq hs hread hp rfl
    exact ⟨hrooted.1, hserves, hlocates, (size_updatePath ..).ge⟩
  · rw [hrun] at hrooted ⊢
    rw [hread] at hnone hpush
    obtain ⟨hserves, hlocates⟩ := serves_pushed h hq hs hread hnone hpush
    exact ⟨hrooted.1, hserves, hlocates, hpush.grows.size⟩

/-! ## the way down -/

/-- The paths on the way from `q`, the path of `o`, down to `p`, the path of `n`, over the places
`w`. -/
inductive Lined (t : Tree) : PathId → NodeId → List Slot → PathId → NodeId → Prop
  | here {q : PathId} {o : NodeId} (h : t.node q = some o) : Lined t q o [] q o
  | child {q q' p : PathId} {o c n : NodeId} {s : Slot} {w : List Slot} (h : t.Serves q o s q' c)
      (hrest : Lined t q' c w p n) : Lined t q o (s :: w) p n

namespace Lined

theorem owner (h : t.Lined q o w p n) : t.node q = some o := by
  cases h with
  | here h => exact h
  | child h _ => exact h.owner

theorem node (h : t.Lined q o w p n) : t.node p = some n := by
  induction h with
  | here h => exact h
  | child _ _ ih => exact ih

theorem run (h : t.Lined q o w p n) : placed q w t = .ok p t := by
  induction h with
  | here => rfl
  | child h _ ih =>
    rw [placed, run_get_bind, h.owner, run_bind_of_ok h.run]
    exact ih

theorem resync_eq (ha : t.arena.Owned) (h : t.Lined q o w p n) (hw : w ≠ []) :
    resync p t = .ok () t := by
  induction h with
  | here => exact absurd rfl hw
  | child h hrest ih =>
    cases hrest with
    | here => exact h.inLine.resync_eq ha h.found.removed
    | child _ _ => exact ih (List.cons_ne_nil _ _)

end Lined

theorem Rooted.ends_placed (ha : t.arena.Owned) : ∀ (w : List Slot) {t' : Tree} {q : PathId}
    {o : NodeId}, t'.Rooted m → t'.arena = t.arena → t'.node q = some o → t.arena.at? o w = some n →
    Ends (placed q w t') (fun p t'' => t''.Rooted m ∧ t''.Lined q o w p n
      ∧ Locates (TransGen t.arena.OwnedBy · o) t' t'' ∧ t'.paths.size ≤ t''.paths.size)
      fun _ _ => False
  | [], t', q, o, h, _, hq, hw => by
    obtain rfl := Option.some.inj hw
    exact ⟨h, .here hq, .refl _ _, le_rfl⟩
  | s :: w, t', q, o, h, harena, hq, hw => by
    obtain ⟨c, hc, hw⟩ := Option.bind_eq_some_iff.1 hw
    have hs : s ≠ .root := by
      rintro rfl
      cases hc
    have hown : t.arena.OwnedBy c o := ha.owner_of_child o c (mem_children_of_slotAt hc)
    have hread : t'.readSlot (some o) s = some c := by
      rw [readSlot_eq t' _ hs, harena]
      exact hc
    rw [placed, run_get_bind, hq]
    refine ends_bind.2 ((h.ends_serves hq hs hread).mono ?_)
    rintro q' t₁ ⟨h₁, hserves, hlocates, hsize⟩
    refine (h₁.ends_placed ha w (hlocates.arena.trans harena) hserves.node hw).mono ?_
    rintro p t₂ ⟨h₂, hline, hlocates₂, hsize₂⟩
    have hlocates : Locates (TransGen t.arena.OwnedBy · o) t' t₁ :=
      hlocates.mono fun k hk => hk ▸ .single hown
    exact ⟨h₂, .child (hserves.locates h₁ hlocates₂ (ha.acyclic c)) hline,
      hlocates.trans (hlocates₂.mono fun k hk => hk.tail hown) hsize, hsize.trans hsize₂⟩

/-! ## from below -/

theorem under_through : ∀ {w : List Slot} {o : NodeId} {above : List NodeId},
    t.arena.Under r o above → t.arena.at? o w = some n → ∃ above', t.arena.Under r n above'
      ∧ n :: above' = (t.arena.through o w).reverse ++ o :: above
      ∧ above'.length = w.length + above.length
  | [], o, above, h, hw => by
    obtain rfl := Option.some.inj hw
    exact ⟨above, h, rfl, (Nat.zero_add _).symm⟩
  | s :: w, o, above, h, hw => by
    obtain ⟨c, hc, hw⟩ := Option.bind_eq_some_iff.1 hw
    obtain ⟨above', h', heq, hlen⟩ := under_through (.child h (mem_children_of_slotAt hc)) hw
    refine ⟨above', h', ?_, ?_⟩
    · rw [heq, Arena.through, hc, Option.elim_some, List.reverse_cons, List.append_assoc]
      rfl
    · rw [hlen, List.length_cons, List.length_cons]
      omega

theorem Rooted.descend_eq (ha : t.arena.WellOwned) : ∀ (w : List Slot) {t' : Tree} {q : PathId}
    {o : NodeId}, t'.Rooted m → t'.arena = t.arena → t'.node q = some o → t.arena.at? o w = some n →
    descend q (some o) ((t.arena.through o w).map some) t' = (some <$> placed q w) t'
  | [], t', q, o, _, _, _, _ => rfl
  | s :: w, t', q, o, h, harena, hq, hw => by
    obtain ⟨c, hc, hrest⟩ := Option.bind_eq_some_iff.1 hw
    have hs : s ≠ .root := by
      rintro rfl
      cases hc
    have hread : t'.readSlot (some o) s = some c := by
      rw [readSlot_eq t' _ hs, harena]
      exact hc
    have hown : t'.arena.OwnedBy c o := by
      rw [harena]
      exact ha.owned.owner_of_child o c (mem_children_of_slotAt hc)
    have hwell : t'.arena.WellOwned := by rwa [harena]
    -- a node stands at one place of its owner
    obtain ⟨s', hs'⟩ := exists_findSlot hwell hown
    obtain rfl : s' = s := by
      refine hwell.owned.slot_unique ?_ ((readSlot_eq t' _ hs).symm.trans hread)
      exact (readSlot_eq t' _ (findSlot_ne_root hs')).symm.trans
        (readSlot_of_findSlot hwell.shaped hs')
    rw [Arena.through, hc, Option.elim_some, List.map_cons, descend, run_get_bind, hs',
      placed, map_bind, run_get_bind, hq, map_bind]
    refine run_bind_congr fun q' t₁ hrun => ?_
    obtain ⟨h₁, hserves, hlocates, -⟩ := (h.ends_serves hq hs hread).of_ok hrun
    exact h₁.descend_eq ha w (hlocates.arena.trans harena) hserves.node hrest

theorem Rooted.ends_top (h : t.Rooted m) : Ends (getRootPath t) (fun q t' => t'.Rooted m
    ∧ t'.rootPath = some q ∧ t'.arena = t.arena ∧ t'.root = t.root ∧ t'.node q = t.root
    ∧ resync q t' = .ok () t') fun _ _ => False := by
  have hends := h.ends_getRootPath
  have hfound : Ends (getRootPath t) (fun q t' => t'.rootPath = some q ∧ t'.arena = t.arena
      ∧ t'.root = t.root) fun _ _ => True := by
    unfold getRootPath
    rw [run_get_bind]
    cases hq : t.rootPath with
    | some q => exact ⟨hq, rfl, rfl⟩
    | none => exact ⟨rfl, rfl, rfl⟩
  refine (hends.and hfound).imp (fun q t' h' => ?_) fun _ _ hf => hf.1
  obtain ⟨⟨h', -, -, -, hq⟩, hroot, harena, hroot'⟩ := h'
  exact ⟨h', hroot, harena, hroot', hq, resync_of_root (h'.top q hroot).2.1⟩

theorem run_getRootPath (h : t.rootPath = some q) : getRootPath t = .ok q t := by
  unfold getRootPath
  rw [run_get_bind, h]
  rfl

/-- A node is looked up by going down from the root over its places. -/
theorem Rooted.pathFor_eq (h : t.Rooted m) (ha : t.arena.WellOwned) (hr : t.root = some r)
    (hw : t.arena.at? r w = some n) (hlen : w.length ≤ Limits.chain) :
    pathFor (some n) t = (some <$> (getRootPath >>= fun q => placed q w)) t := by
  obtain ⟨above, hu, hchain, habove⟩ := under_through .root hw
  have hdown : (n :: above).reverse.map some = some r :: (t.arena.through r w).map some := by
    rw [hchain]
    simp
  unfold pathFor
  rw [run_get_bind, chainFromRoot_of_under ha.owned hr hu (by simpa [habove] using hlen),
    List.append_nil, hdown, map_bind]
  refine run_bind_congr fun q t' hrun => ?_
  obtain ⟨h', -, harena, -, hq, -⟩ := h.ends_top.of_ok hrun
  exact h'.descend_eq ha w harena (hq.trans hr) hw

/-! ## from above -/

theorem not_mem_name {ty : NodeType} {f : Field} (hf : f ∈ ty.fields) : '.' ∉ f.name.toList := by
  have hall : ∀ ty : NodeType, ∀ f ∈ ty.fields, '.' ∉ f.name.toList := by
    intro ty
    cases ty <;> decide
  exact hall ty f hf

theorem kind_of_fits_node {child : Option NodeId} {k : FieldKind} (h : (Value.node child).fits k) :
    k = .node ∨ k = .optNode := by
  cases k <;> simp_all [Value.fits]

theorem kind_of_fits_list {items : List (Option NodeId)} {k : FieldKind}
    (h : (Value.list items).fits k) :
    k = .list := by
  cases k <;> simp_all [Value.fits]

theorem exists_field (ha : t.arena.WellOwned) (hs : t.arena.slotAt (some o) s = some c) :
    ∃ (k : Node) (f : Field) (v : Value), t.arena.get? o = some k ∧ k.type.field? f.name = some f
      ∧ f ∈ k.type.fields ∧ s.key? = some f.name ∧ v.fits f.kind = true
      ∧ v.standing s = some c := by
  obtain ⟨k, name, i, v, hk, hkey, hi, hv, hstand⟩ := exists_of_slotAt hs
  obtain ⟨hlt, hname, -⟩ := List.findIdx?_eq_some_iff_getElem.1 hi
  have hf : k.type.fields[i] ∈ k.type.fields := List.getElem_mem hlt
  have hname : k.type.fields[i].name = name := by simpa using hname
  obtain ⟨v', hv', hfit⟩ := (ha.shaped o k hk).value?_of_mem hf
  obtain rfl : v' = v := by
    rw [hname, Node.value?, hi] at hv'
    exact Option.some.inj (hv'.symm.trans hv)
  refine ⟨k, k.type.fields[i], v', hk, ?_, hf, hname ▸ hkey, hfit, hstand⟩
  cases hfind : k.type.field? k.type.fields[i].name with
  | none =>
    have hno := List.find?_eq_none.1 hfind _ hf
    simp at hno
  | some g =>
    exact congrArg some (List.inj_on_of_nodup_map k.type.nodup_fields
      (mem_fields_of_field? hfind) hf (field?_name hfind))

theorem digitsValue_toDigits (i : Nat) : digitsValue (Nat.toDigits 10 i) = i :=
  Nat.ofDigitChars_ten_toDigits

theorem toList_toString (i : Nat) : (toString i).toList = Nat.toDigits 10 i := by
  simp [toString]

theorem readIndex?_toString {i : Nat} (hi : i < UInt64.size) :
    readIndex? (toString i) = some i := by
  have hdigit {d : Char} (hd : d ∈ Nat.toDigits 10 i) : d.isDigit = true :=
    Nat.isDigit_of_mem_toDigits (by decide) (by decide) hd
  have hall : (Nat.toDigits 10 i).all Char.isDigit = true := List.all_eq_true.2 fun _ => hdigit
  unfold readIndex?
  rw [toList_toString]
  split
  · next heq => exact absurd (hdigit (heq ▸ List.mem_cons_self ..)) (by decide)
  · dsimp only
    rw [hall, if_neg (by simp [Nat.toDigits_ne_nil]), digitsValue_toDigits]
    exact if_pos (decide_eq_true hi)

theorem not_mem_toString (i : Nat) : '.' ∉ (toString i).toList := by
  rw [toList_toString]
  intro h
  exact absurd (Nat.isDigit_of_mem_toDigits (by decide) (by decide) h) (by decide)

theorem not_mem_keys (ha : t.arena.WellOwned) : ∀ {w : List Slot} {o : NodeId},
    t.arena.at? o w = some n → ∀ part ∈ w.flatMap Slot.keys, '.' ∉ part.toList
  | [], _, _, _, h => nomatch h
  | s :: w, o, hw, part, hpart => by
    obtain ⟨c, hc, hrest⟩ := Option.bind_eq_some_iff.1 hw
    obtain ⟨k, f, v, -, -, hf, hkey, -⟩ := exists_field ha hc
    rw [List.flatMap_cons, List.mem_append] at hpart
    rcases hpart with hpart | hpart
    · have hname := not_mem_name hf
      cases s with
      | root => cases hkey
      | field name =>
        obtain rfl := Option.some.inj hkey
        obtain rfl := List.mem_singleton.1 hpart
        exact hname
      | entry list i =>
        obtain rfl := Option.some.inj hkey
        rcases List.mem_cons.1 hpart with rfl | hpart
        · exact hname
        · obtain rfl := List.mem_singleton.1 hpart
          exact not_mem_toString i
    · exact not_mem_keys ha hrest part hpart

theorem followParts_keys (ha : t.arena.WellOwned) (hq : t.node q = some o)
    (hc : t.arena.slotAt (some o) s = some c) (hindex : ∀ list i, s = .entry list i →
      i < UInt64.size)
    (rest : List String) : followParts q (s.keys ++ rest) t
      = (getOrCreatePath (some q) (some o) s >>= fun q' => followParts q' rest) t := by
  obtain ⟨k, f, v, hk, hf, -, hkey, hfit, hstand⟩ := exists_field ha hc
  have hfield : fieldOf q f.name t = .ok (k.type, f) t := by
    have hty : t.nodeType? q = some k.type := by
      unfold nodeType? Arena.type?
      rw [hq, look_some, hk]
      rfl
    unfold fieldOf
    rw [run_get_bind, hty]
    simp only [hf]
    rfl
  cases s with
  | root => cases hkey
  | field name =>
    obtain rfl := Option.some.inj hkey
    cases v with
    | node child =>
      rw [Slot.keys, List.singleton_append, followParts, run_bind_of_ok hfield]
      dsimp only
      rw [run_get_bind, hq]
      rcases kind_of_fits_node hfit with hkind | hkind <;> rw [hkind]
    | _ => cases hstand
  | entry list i =>
    obtain rfl := Option.some.inj hkey
    cases v with
    | list items =>
      rw [Slot.keys, List.cons_append, List.singleton_append, followParts, run_bind_of_ok hfield]
      dsimp only
      rw [run_get_bind, hq, kind_of_fits_list hfit]
      dsimp only
      rw [readIndex?_toString (hindex _ i rfl)]
    | _ => cases hstand

theorem Rooted.followParts_eq (ha : t.arena.WellOwned) : ∀ (w : List Slot) {t' : Tree} {q : PathId}
    {o : NodeId}, t'.Rooted m → t'.arena = t.arena → t'.node q = some o → t.arena.at? o w = some n →
    (∀ list i, Slot.entry list i ∈ w → i < UInt64.size) →
    followParts q (w.flatMap Slot.keys) t' = placed q w t'
  | [], t', q, o, _, _, _, _, _ => by
    rw [List.flatMap_nil, followParts, placed]
  | s :: w, t', q, o, h, harena, hq, hw, hindex => by
    obtain ⟨c, hc, hrest⟩ := Option.bind_eq_some_iff.1 hw
    have hs : s ≠ .root := by
      rintro rfl
      cases hc
    have hread : t'.readSlot (some o) s = some c := by
      rw [readSlot_eq t' _ hs, harena]
      exact hc
    rw [List.flatMap_cons, followParts_keys (by rwa [harena]) hq (by rwa [harena]) fun list i hi =>
      hindex list i (hi ▸ List.mem_cons_self ..), placed, run_get_bind, hq]
    refine run_bind_congr fun q' t₁ hrun => ?_
    obtain ⟨h₁, hserves, hlocates, -⟩ := (h.ends_serves hq hs hread).of_ok hrun
    exact h₁.followParts_eq ha w (hlocates.arena.trans harena) hserves.node hrest
      fun list i hi => hindex list i (List.mem_cons_of_mem _ hi)

theorem Rooted.follow_eq (h : t'.Rooted m) (ha : t.arena.WellOwned) (harena : t'.arena = t.arena)
    (hq : t'.node q = some o) (hline : resync q t' = .ok () t') (hne : w ≠ [])
    (hw : t.arena.at? o w = some n) (hindex : ∀ list i, Slot.entry list i ∈ w → i < UInt64.size) :
    follow q (dottedKey w) t' = placed q w t' := by
  have hkeys : w.flatMap Slot.keys ≠ [] := by
    cases w with
    | nil => exact absurd rfl hne
    | cons s w =>
      cases s with
      | root => cases hw
      | field name => simp [Slot.keys]
      | entry list i => simp [Slot.keys]
  unfold follow dottedKey
  rw [run_bind_of_ok hline, parts_intercalate rfl hkeys (not_mem_keys ha hw)]
  exact h.followParts_eq ha w harena hq hw hindex

theorem Rooted.legs_eq (ha : t.arena.WellOwned) : ∀ (legs : List (List Slot)) {t' : Tree}
    {q : PathId} {o : NodeId}, t'.Rooted m → t'.arena = t.arena → t'.node q = some o →
    resync q t' = .ok () t' → [] ∉ legs → t.arena.at? o legs.flatten = some n →
    (∀ list i, Slot.entry list i ∈ legs.flatten → i < UInt64.size) →
    legs.foldlM (fun p leg => follow p (dottedKey leg)) q t' = placed q legs.flatten t'
  | [], t', q, o, _, _, _, _, _, _, _ => rfl
  | leg :: legs, t', q, o, h, harena, hq, hline, hne, hw, hindex => by
    rw [List.flatten_cons] at hw hindex ⊢
    rw [at?_append] at hw
    obtain ⟨c, hleg, hw⟩ := Option.bind_eq_some_iff.1 hw
    obtain ⟨hne, hnes⟩ := not_or.1 (mt List.mem_cons.2 hne)
    have hfollow := h.follow_eq ha harena hq hline (Ne.symm hne) hleg
      fun list i hi => hindex list i (List.mem_append_left _ hi)
    obtain ⟨q', t₁, hrun, h₁, hlined, hlocates, -⟩ :=
      (h.ends_placed ha.owned leg harena hq hleg).exists_ok
    have harena₁ := hlocates.arena.trans harena
    rw [List.foldlM_cons, placed_append, run_bind_of_ok (hfollow.trans hrun), run_bind_of_ok hrun]
    refine h₁.legs_eq ha legs harena₁ hlined.node ?_ hnes hw
      fun list i hi => hindex list i (List.mem_append_right _ hi)
    exact hlined.resync_eq (by rw [harena₁]; exact ha.owned) (Ne.symm hne)

/-- To walk down a position is to go down over its places. -/
theorem Rooted.walk_eq (h : t.Rooted m) (ha : t.arena.WellOwned) (hr : t.root = some r)
    (hw : t.arena.at? r w = some n) (hindex : ∀ list i, Slot.entry list i ∈ w → i < UInt64.size)
    {legs : List (List Slot)} (hlegs : legs.flatten = w) (hne : [] ∉ legs) :
    walk legs t = (getRootPath >>= fun q => placed q w) t := by
  unfold walk
  refine run_bind_congr fun q t' hrun => ?_
  obtain ⟨h', -, harena, -, hq, hline⟩ := h.ends_top.of_ok hrun
  subst hlegs
  exact h'.legs_eq ha legs harena (hq.trans hr) hline hne hw hindex

/-! ## where the path says it is -/

/-- The way up from a path along the paths that are above it, nearest first. -/
inductive Climbs (t : Tree) : PathId → List PathId → Prop
  | top {p : PathId} (h : t.parentPath p = none) : Climbs t p []
  | step {p q : PathId} {above : List PathId} (h : t.parentPath p = some q)
    (hq : Climbs t q above) :
      Climbs t p (q :: above)

theorem Climbs.ancestorsFrom {above : List PathId} (h : t.Climbs p above) : ∀ {fuel : Nat},
    above.length ≤ fuel → t.ancestorsFrom fuel (t.parentPath p) = above := by
  induction h with
  | top h =>
    intro fuel _
    rw [h]
    cases fuel <;> rfl
  | step h _ ih =>
    intro fuel hlen
    cases fuel with
    | zero => exact absurd hlen (Nat.not_succ_le_zero _)
    | succ fuel =>
      rw [h, Tree.ancestorsFrom, ih (Nat.le_of_succ_le_succ hlen)]

theorem Climbs.ancestry {above : List PathId} (h : t.Climbs p above)
    (hlt : ∀ q ∈ above, q.index < t.paths.size) (hnodup : above.Nodup) :
    t.ancestry p = p :: above := by
  have hlen : above.length ≤ t.paths.size := by
    have hinj : (above.map PathId.index).Nodup :=
      hnodup.map fun q q' heq => by cases q; cases q'; simp_all
    have hsub : above.map PathId.index ⊆ List.range t.paths.size := fun i hi => by
      obtain ⟨q, hq, rfl⟩ := List.mem_map.1 hi
      exact List.mem_range.2 (hlt q hq)
    have hle := (hinj.subperm hsub).length_le
    rwa [List.length_map, List.length_range] at hle
  unfold Tree.ancestry ancestors
  rw [h.ancestorsFrom (hlen.trans (Nat.le_succ _))]

/-- The paths on the way down hold the nodes that it leads through, at the places that it leads
over. -/
theorem Lined.climbs (h : t.Lined q o w p n) : ∀ (above : List PathId) (nodes : List NodeId),
    t.Climbs q above → (q :: above).map t.node = (o :: nodes).map some →
    ∃ above', t.Climbs p above'
      ∧ (p :: above').map t.node = ((t.arena.through o w).reverse ++ o :: nodes).map some
      ∧ (p :: above').reverse.map t.slot = (q :: above).reverse.map t.slot ++ w := by
  induction h with
  | here => exact fun _ _ hq hn => ⟨_, hq, hn, (List.append_nil _).symm⟩
  | @child q q' p o c n s w h hrest ih =>
    intro above nodes hq hn
    have hc : t.arena.slotAt (some o) s = some c := (readSlot_eq t _ h.inner).symm.trans h.holds
    obtain ⟨above', hp, hnodes, hslots⟩ := ih _ (o :: nodes) (.step h.parentPath hq) (by
      rw [List.map_cons, hn, h.node]
      rfl)
    refine ⟨above', hp, ?_, ?_⟩
    · rw [hnodes, Arena.through, hc, Option.elim_some, List.reverse_cons, List.append_assoc]
      rfl
    · rw [hslots, List.reverse_cons, List.map_append, List.map_singleton, h.slot, List.append_assoc]
      rfl

/-! ## all routes -/

/-- What comes of going down from the root: the same when it is done again, and a path that says
where the node is. -/
theorem Rooted.ends_down (h : t.Rooted m) (ha : t.arena.WellOwned) (hr : t.root = some r)
    (hw : t.arena.at? r w = some n) : Ends ((getRootPath >>= fun q => placed q w) t)
      (fun p t' => t'.Rooted m ∧ t'.arena = t.arena ∧ t'.root = t.root ∧ t'.node p = some n
        ∧ (getRootPath >>= fun q => placed q w) t' = .ok p t'
        ∧ (t'.ancestry p).map t'.node = ((t.arena.through r w).reverse ++ [r]).map some
        ∧ (t'.ancestry p).reverse.map t'.slot = .root :: w) fun _ _ => False := by
  refine ends_bind.2 (h.ends_top.mono ?_)
  rintro q t₁ ⟨h₁, hroot₁, harena₁, hr₁, hq, -⟩
  refine (h₁.ends_placed ha.owned w harena₁ (hq.trans hr) hw).mono ?_
  rintro p t' ⟨h', hlined, hlocates, -⟩
  have harena : t'.arena = t.arena := hlocates.arena.trans harena₁
  have hroot' : t'.rootPath = some q := hlocates.rootPath.trans hroot₁
  obtain ⟨-, hslot, -⟩ := h'.top q hroot'
  obtain ⟨above, hclimbs, hnodes, hslots⟩ := hlined.climbs [] []
    (.top (h'.crown q hroot')) (by
      rw [List.map_singleton, hlined.owner]
      rfl)
  obtain ⟨owners, hunder, howners, -⟩ := under_through (t := t) .root hw
  rw [harena] at hnodes
  -- the nodes on the way are different, so the paths are
  have hdistinct : ((p :: above).map t'.node).Nodup := by
    rw [hnodes, ← howners]
    exact (hunder.nodup ha.owned).map fun _ _ => Option.some.inj
  have hheld {p' : PathId} (hp' : p' ∈ above) : ∃ k, t'.node p' = some k := by
    have hmem : t'.node p' ∈ (p :: above).map t'.node :=
      List.mem_map_of_mem (List.mem_cons_of_mem p hp')
    rw [hnodes] at hmem
    obtain ⟨k, -, hk⟩ := List.mem_map.1 hmem
    exact ⟨k, hk.symm⟩
  have hancestry : t'.ancestry p = p :: above := by
    refine hclimbs.ancestry (fun p' hp' => ?_) (List.nodup_cons.1 hdistinct.of_map).2
    obtain ⟨k, hk⟩ := hheld hp'
    exact lt_of_node hk
  refine ⟨h', harena, hlocates.root.trans hr₁, hlined.node, ?_, ?_, ?_⟩
  · rw [run_bind_of_ok (run_getRootPath hroot')]
    exact hlined.run
  · rw [hancestry]
    exact hnodes
  · rw [hancestry, hslots, List.reverse_singleton, List.map_singleton, hslot]
    rfl

/-- **All routes to a node give the same path.** In a tree in use the nodes of which have single
owners, let `n` be the node at a position below the root that is no deeper than is gone through. It
is looked up from below, or from the path of the root by keys that spell the position: by one dotted
key, by one key for each place, or by any keys in between. All of these succeed and give one path,
and so they do when they are repeated, in any order. The path holds `n`, the nodes of its ancestry
are the owners of `n` up to the root, and its location spells the position. -/
theorem Reached.routes_agree (h : t.Reached) (ha : t.arena.WellOwned) (hw : t.at? w = some n)
    (hlen : w.length ≤ Limits.chain) (hindex : ∀ list i, Slot.entry list i ∈ w → i < UInt64.size) :
    ∃ p t', (∀ x, x = t ∨ x = t' → pathFor (some n) x = .ok (some p) t'
        ∧ ∀ legs : List (List Slot), legs.flatten = w → [] ∉ legs → walk legs x = .ok p t')
      ∧ t'.arena = t.arena ∧ t'.root = t.root ∧ t'.node p = some n
      ∧ (∃ r above, t.root = some r ∧ t.arena.Under r n above
        ∧ (t'.ancestry p).map t'.node = (n :: above).map some)
      ∧ t'.location p = t.rootLabel ++ String.join (w.map t.slotLabel) := by
  obtain ⟨r, hr, hw⟩ := Option.bind_eq_some_iff.1 hw
  obtain ⟨p, t', hrun, h', harena, hroot, hnode, hagain, hnodes, hslots⟩ :=
    (h.rooted.ends_down ha hr hw).exists_ok
  have hroutes {x : Tree} (hx : x.Rooted 0) (hxa : x.arena = t.arena) (hxr : x.root = t.root)
      (hdown : (getRootPath >>= fun q => placed q w) x = .ok p t') :
      pathFor (some n) x = .ok (some p) t'
        ∧ ∀ legs : List (List Slot), legs.flatten = w → [] ∉ legs → walk legs x = .ok p t' := by
    have hxw : x.arena.WellOwned := by rwa [hxa]
    have hxat : x.arena.at? r w = some n := by rwa [hxa]
    refine ⟨?_, fun legs hlegs hne => ?_⟩
    · rw [hx.pathFor_eq hxw (hxr.trans hr) hxat hlen, map_eq_pure_bind, run_bind_of_ok hdown]
      rfl
    · rw [hx.walk_eq hxw (hxr.trans hr) hxat hindex hlegs hne]
      exact hdown
  obtain ⟨above, hunder, hchain, -⟩ := under_through (t := t) .root hw
  refine ⟨p, t', ?_, harena, hroot, hnode, ⟨r, above, hr, hunder, by rw [hnodes, hchain]⟩, ?_⟩
  · rintro x (rfl | rfl)
    · exact hroutes h.rooted rfl rfl hrun
    · exact hroutes h' harena hroot hagain
  · have hlabel : t'.slotLabel = t.slotLabel := by
      funext s
      cases s <;> simp only [slotLabel, rootLabel, harena, hroot]
    have hjoin : t'.location p = String.join (((t'.ancestry p).reverse.map t'.slot).map
        t'.slotLabel) := by
      rw [List.map_map]
      rfl
    rw [hjoin, hslots, hlabel, List.map_cons, String.join_cons]
    rfl

def oneStatement : List Arena.Write := [
  .alloc .identifier [.str "x", .node none],
  .alloc .expressionStatement [.node (some ⟨0⟩)],
  .alloc .program [.str "module", .list [], .list [some ⟨1⟩]]]

/-- The path of the statement was looked up before another came ahead of it. -/
def movedStatement : Tree :=
  { final ((PathCall.entries ⟨0⟩ "body").run (final (PathCall.root.run
      (ofArena (Arena.runAll oneStatement) (some ⟨2⟩) { noScope := true })))) with
    arena := Arena.runAll (oneStatement
      ++ [.alloc .emptyStatement [], .listInsert (some ⟨2⟩) "body" 0 [some ⟨3⟩]]) }

theorem reached_movedStatement : movedStatement.Reached :=
  .arena _ (.call _ trivial (.call _ trivial (.start _ _ _)))

/-- The identifier in it is found from below, by one key and by two, below the path made before. -/
theorem routes_agree_movedStatement : movedStatement.slot ⟨1⟩ = .entry "body" 0
    ∧ dottedKey [.entry "body" 1, .field "expression"] = "body.1.expression"
    ∧ ∃ p t', pathFor (some ⟨0⟩) movedStatement = .ok (some p) t'
      ∧ walk [[.entry "body" 1, .field "expression"]] movedStatement = .ok p t'
      ∧ walk [[.entry "body" 1], [.field "expression"]] t' = .ok p t'
      ∧ t'.location p = "program.body[1].expression"
      ∧ (t'.ancestry p).map t'.node = [some ⟨0⟩, some ⟨1⟩, some ⟨2⟩] := by
  obtain ⟨p, t', hroutes, -, -, -, ⟨r, above, hr, hunder, hancestry⟩, hlocation⟩ :=
    reached_movedStatement.routes_agree (Arena.wellOwned_runAll _)
      (w := [.entry "body" 1, .field "expression"]) (n := ⟨0⟩) (by decide +kernel) (by decide)
      (fun list i hi => by
        rcases List.mem_cons.1 hi with heq | hi
        · obtain ⟨-, rfl⟩ := Slot.entry.inj heq
          decide
        · cases List.mem_singleton.1 hi)
  have habove : above = [⟨1⟩, ⟨2⟩] := by
    obtain rfl : ⟨2⟩ = r :=
      Option.some.inj ((by decide +kernel : some ⟨2⟩ = movedStatement.root).trans hr)
    have hchild {c o : NodeId} (hc : decide (c ∈ movedStatement.arena.children (some o)) = true) :=
      of_decide_eq_true hc
    exact hunder.unique (Arena.wellOwned_runAll _).owned
      (.child (.child .root (hchild (by decide +kernel))) (hchild (by decide +kernel)))
  refine ⟨by decide +kernel, by decide +kernel, p, t', (hroutes _ (.inl rfl)).1,
    (hroutes _ (.inl rfl)).2 _ rfl (by decide), (hroutes _ (.inr rfl)).2 _ rfl (by decide), ?_, ?_⟩
  · rw [hlocation]
    decide +kernel
  · rw [hancestry, habove]
    rfl

end Tree

end ScopedTree
