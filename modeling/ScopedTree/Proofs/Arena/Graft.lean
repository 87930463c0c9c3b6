import ScopedTree.Proofs.Arena.Reshape
import ScopedTree.Proofs.Arena.Term

/-!
# Writes as changes of terms

What a write of a field does to the term of all that lies above it.

* `Arena.SameComments`     comments stay where they are;
* `Arena.Valueless`        properties that writes of fields and owners keep, as that one;
* `Arena.term_mapComments`   a node the comments of which change;
* `Arena.term_inserted`    entries that are put into a list;
* `Arena.term_dropped`     an entry that is taken out of a list;
* `Arena.term_replaced`    a node that is put in place of another.
-/

namespace ScopedTree.Arena

open Relation

variable {a b c : Arena} {m n o p q r x y : NodeId} {k : Node} {s : Slot} {w : List Slot}
  {name : String} {old new : Value}

/-! ## comments -/

/-- Comments stay where they are. -/
def SameComments (a b : Arena) : Prop :=
  ∀ q, (b.get? q).map Node.comments = (a.get? q).map Node.comments

@[refl] theorem SameComments.refl (a : Arena) : SameComments a a := fun _ => rfl

theorem SameComments.trans (h : SameComments a b) (h' : SameComments b c) : SameComments a c :=
  fun q => (h' q).trans (h q)

theorem SameComments.elim (h : SameComments a b) (q : NodeId) :
    (b.get? q).elim {} (·.comments) = (a.get? q).elim {} (·.comments) := by
  have hq := h q
  cases hb : b.get? q <;> cases ha : a.get? q <;> simp_all

theorem SameComments.update (h : SameComments a b) (id : Option NodeId) {f : Node → Node}
    (hf : ∀ n, (f n).comments = n.comments) : SameComments a (b.update id f) := by
  refine h.trans fun q => ?_
  cases id with
  | none => rfl
  | some id =>
  rw [get?_update]
  split
  · next he =>
    subst he
    cases b.get? q with
    | none => rfl
    | some n => exact congrArg some (hf n)
  · rfl

/-! ## what writes leave alone -/

/-- A property that depends neither on the values of nodes nor on their owners. -/
def Valueless (P : Arena → Prop) : Prop :=
  ∀ b id (f : Node → Node), (∀ n, (f n).type = n.type ∧ (f n).comments = n.comments) → P b →
    P (b.update id f)

theorem type_withValue (n : Node) (field : String) (v : Value) :
    (n.withValue field v).type = n.type := by
  unfold Node.withValue
  split <;> rfl

theorem comments_withValue (n : Node) (field : String) (v : Value) :
    (n.withValue field v).comments = n.comments := by
  unfold Node.withValue
  split <;> rfl

namespace Valueless

variable {P : Arena → Prop} (h : Valueless P)

include h

theorem withValue (parent : Option NodeId) (field : String) (v : Value) (hb : P b) :
    P (b.update parent (·.withValue field v)) :=
  h b parent _ (fun n => ⟨type_withValue n field v, comments_withValue n field v⟩) hb

theorem setParents (ids : List (Option NodeId)) (parent : Option NodeId) (hb : P b) :
    P (b.setParents ids parent) := by
  induction ids generalizing b with
  | nil => exact hb
  | cons id ids ih => exact ih (h b id _ (fun _ => ⟨rfl, rfl⟩) hb)

theorem setChild (parent : Option NodeId) (field : String) (child : Option NodeId) :
    Stays P (setChild parent field child) := by
  unfold Arena.setChild
  refine (stays_ask _).bind fun held => ?_
  split
  · refine (stays_modify fun b hb => ?_).bind fun _ => stays_pure _
    exact h.setParents [child] parent (h.setParents [held] none (h.withValue parent field _ hb))
  · exact stays_pure _

theorem listSet (parent : Option NodeId) (field : String) (i : Nat) (item : Option NodeId) :
    Stays P (listSet parent field i item) := by
  unfold Arena.listSet
  refine (stays_ask _).bind fun x => ?_
  dsimp only
  split
  · refine (stays_modify fun b hb => ?_).bind fun _ => stays_pure _
    exact h.setParents [item] parent (h.setParents [x.2] none (h.withValue parent field _ hb))
  · exact stays_pure _

theorem listInsert (parent : Option NodeId) (field : String) (i : Nat)
    (items : List (Option NodeId)) :
    Stays P (listInsert parent field i items) := by
  refine (stays_ask _).bind fun _ => (stays_ask _).bind fun held =>
    (stays_modify fun b hb => ?_).bind
    fun _ => stays_pure _
  exact h.setParents items parent (h.withValue parent field _ hb)

theorem listRemove (parent : Option NodeId) (field : String) (i : Nat) :
    Stays P (listRemove parent field i) := by
  unfold Arena.listRemove
  refine (stays_ask _).bind fun held => ?_
  split
  · exact stays_pure _
  · next removed _ =>
    refine (stays_modify fun b hb => ?_).bind fun _ => stays_pure _
    exact h.setParents [removed] none (h.withValue parent field _ hb)

theorem take (id : Option NodeId) : Stays P (take id) := by
  unfold Arena.take
  refine (stays_ask _).bind fun n => ?_
  split
  · next id owner _ =>
    refine (stays_ask _).bind fun _ => stays_modify fun b hb => ?_
    exact h.setParents [some id] none (h b (some owner) _ (fun _ => ⟨rfl, rfl⟩) hb)
  · exact stays_pure _

end Valueless

theorem SameComments.valueless (a : Arena) : Valueless (SameComments a) :=
  fun _ id _ hf h => h.update id fun n => (hf n).2

theorem shown_eq (hcontent : (b.get? q).map Node.content = (a.get? q).map Node.content)
    (hcomments : (b.get? q).map Node.comments = (a.get? q).map Node.comments) :
    (b.get? q).map Node.shown = (a.get? q).map Node.shown := by
  cases hb : b.get? q with
  | none =>
    rw [hb] at hcontent
    rw [Option.map_eq_none_iff.1 hcontent.symm]
  | some n =>
    rw [hb] at hcontent hcomments
    obtain ⟨n', hn', hc⟩ := Option.map_eq_some_iff.1 hcontent.symm
    rw [hn'] at hcomments ⊢
    exact congrArg some (Prod.ext hc.symm (Option.some.inj hcomments))

/-! ## fields that are overwritten -/

theorem Overwrites.shown (h : Overwrites a b o name old new) (hc : SameComments a b) (hq : q ≠ o) :
    (b.get? q).map Node.shown = (a.get? q).map Node.shown := shown_eq (h.content_ne hq) (hc q)

theorem Overwrites.shown_self (h : Overwrites a b o name old new) (hc : SameComments a b)
    (hk : a.get? o = some k) : (b.get? o).map Node.shown = some (k.withValue name new).shown := by
  obtain ⟨k', k'', hk', hk'', -, hcontent, -⟩ := h.get?
  obtain rfl := Option.some.inj (hk.symm.trans hk')
  have hcomments := hc o
  rw [hk'', hk] at hcomments
  rw [hk'']
  exact congrArg some
    (Prod.ext hcontent ((Option.some.inj hcomments).trans (comments_withValue ..).symm))

theorem shown_withValue {k' : Node} (h : k.shown = k'.shown) (name : String) (new : Value) :
    (k.withValue name new).shown = (k'.withValue name new).shown := by
  obtain ⟨hcontent, hcomments⟩ := Prod.mk.inj h
  obtain ⟨htype, hvalues⟩ := Prod.mk.inj hcontent
  unfold Node.withValue
  rw [htype]
  cases k'.type.fieldPosition? name with
  | none => exact h
  | some i => exact Prod.ext (Prod.ext rfl (congrArg (·.set i new) hvalues)) hcomments

/-- **Entries that are put into a list.** -/
theorem term_inserted {items held : List (Option NodeId)} {i : Nat}
    {F : List (Option Term) → List (Option Term)} (ha : a.Owned) (hb : b.Owned)
    (h : Overwrites a b o name (.list held) (.list (held.take i ++ items ++ held.drop i)))
    (hF : (held.take i ++ items ++ held.drop i).map (·.map a.term) = F (held.map (·.map a.term)))
    (hc : SameComments a b) (hat : a.at? r w = some o) :
    b.term r = (a.term r).modifyAt (·.mapList name F) w := by
  obtain ⟨k, -, hk, -, hv, -⟩ := h.get?
  -- below the entries all is as before
  have hentry (d : NodeId) (hd : ¬ ReflTransGen a.OwnedBy o d) : b.term d = a.term d :=
    term_congr ha h.size fun m hm => h.shown hc fun he => hd (he ▸ hm)
  have hchild (d : NodeId) (hd : d ∈ a.children (some o)) : b.term d = a.term d :=
    hentry d fun hod => ha.acyclic d (TransGen.head' (ha.owner_of_child o d hd) hod)
  refine term_modifyAt ha hb h.size hat (fun m _ hm => h.shown hc fun he => hm (he ▸ .refl)) ?_
  refine term_withValue ha hb hk hv _ (h.shown_self hc hk) ?_ fun d hd _ => hchild d hd
  refine congrArg Part.many ?_
  have hread {l : List (Option NodeId)} (hl : ∀ d, some d ∈ l → b.term d = a.term d) :
      l.map (·.map b.term) = l.map (·.map a.term) := by
    refine List.map_congr_left fun d hd => ?_
    cases d with
    | none => rfl
    | some d => exact congrArg some (hl d hd)
  have hheld (d : NodeId) (hd : some d ∈ held) : b.term d = a.term d :=
    hchild d (ha.mem_children (ha.owner_of_field hk hv (mem_children_list.2 hd)))
  have hitems (d : NodeId) (hd : some d ∈ items) : b.term d = a.term d := by
    rcases h.comes d (mem_children_list.2 (List.mem_append_left _ (List.mem_append_right _ hd)))
      with hold | ⟨-, hfree⟩
    · exact hheld d (mem_children_list.1 hold)
    · exact hentry d hfree
  rw [← hF]
  refine hread fun d hd => ?_
  rcases List.mem_append.1 hd with hd | hd
  · rcases List.mem_append.1 hd with hd | hd
    · exact hheld d (List.mem_of_mem_take hd)
    · exact hitems d hd
  · exact hheld d (List.mem_of_mem_drop hd)

/-! ## comments that change -/

/-- Below a node nothing changed but its own comments. -/
theorem term_mapComments {f : NodeComments → NodeComments} (ha : a.Owned) (hb : b.Owned)
    (hsize : b.size = a.size) (hk : a.get? x = some k)
    (hself : (b.get? x).map Node.shown = some (k.content, f k.comments))
    (hbelow : ∀ m, ReflTransGen a.OwnedBy m x → m ≠ x →
      (b.get? m).map Node.shown = (a.get? m).map Node.shown) :
    b.term x = (a.term x).mapComments f := by
  obtain ⟨k', hk', hshown⟩ := Option.map_eq_some_iff.1 hself
  obtain ⟨hcontent, hcomments⟩ := Prod.mk.inj hshown
  obtain ⟨htype, hvalues⟩ := Prod.mk.inj hcontent
  rw [term_eq hb hk', term_eq ha hk, Term.mapComments, htype, hcomments, hvalues]
  refine congrArg (Term.node _ _) (List.map_congr_left fun v hv => Value.read_congr fun d hd => ?_)
  have hown := ha.owner_of_value hk hv hd
  refine term_congr ha hsize fun m hm => hbelow m (hm.tail hown) ?_
  rintro rfl
  exact ha.acyclic m (TransGen.tail' hm hown)

theorem comments_term (ha : a.Owned) (n : NodeId) :
    (a.term n).comments = (a.get? n).elim {} (·.comments) := by
  cases hn : a.get? n with
  | none =>
    rw [term_of_none hn]
    rfl
  | some k =>
    rw [term_eq ha hn]
    rfl

/-- The nodes with the comments of `n` moved to the end of those of `x`. -/
def handComments (a : Arena) (n x : NodeId) : Arena :=
  (a.update (some n) ({ · with comments := {} })).update (some x) fun k =>
    { k with comments := k.comments.absorb ((a.get? n).elim {} (·.comments)) }

theorem alike_handComments (a : Arena) (n x : NodeId) : Alike a (a.handComments n x) :=
  (Alike.update a (some n) (f := ({ · with comments := {} })) fun _ => ⟨rfl, rfl⟩).trans
    (Alike.update _ (some x) (f := fun k => { k with comments := k.comments.absorb _ })
      fun _ => ⟨rfl, rfl⟩)

theorem get?_handComments (hn : m ≠ n) (hx : m ≠ x) : (a.handComments n x).get? m = a.get? m := by
  rw [handComments, get?_update, if_neg hx, get?_update, if_neg hn]

theorem get?_handComments_self (h : x ≠ n) : (a.handComments n x).get? x = (a.get? x).map fun k =>
    { k with comments := k.comments.absorb ((a.get? n).elim {} (·.comments)) } := by
  rw [handComments, get?_update, if_pos rfl, get?_update, if_neg h]

/-! ## entries that go -/

/-- The node is the entry of the list or next to it. -/
def Beside (items : List (Option NodeId)) (i : Nat) (m : NodeId) : Prop :=
  ∃ j, items[j]? = some (some m) ∧ (j = i ∨ j + 1 = i ∨ j = i + 1)

theorem Overwrites.parentOf_erased {items : List (Option NodeId)} {i : Nat}
    (h : Overwrites a b o name (.list items) (.list (items.eraseIdx i))) (ha : a.Owned)
    (hi : items[i]? = some (some n)) : b.parentOf (some n) = none := by
  obtain ⟨k, -, hk, -, hv, -⟩ := h.get?
  have hone : items.count (some n) ≤ 1 := by
    rw [← count_children_list]
    exact ha.count_field_le_one hk hv n
  have hcount := count_eraseIdx hi (some n)
  rw [if_pos rfl] at hcount
  have hnot : n ∉ (Value.list (items.eraseIdx i)).children := fun hn => by
    have hpos := List.count_pos_iff.2 (mem_children_list.1 hn)
    omega
  rw [h.parent, if_neg hnot, if_pos (mem_children_list.2 (List.mem_of_getElem? hi))]

/-- **An entry that is taken out of a list.** The entries next to it may be given its comments. -/
theorem term_dropped {items : List (Option NodeId)} {i : Nat} (ha : a.Owned) (hb : b.Owned)
    (hsize : b.size = a.size) (hk : a.get? o = some k) (hv : k.value? name = some (.list items))
    (hself : (b.get? o).map Node.shown = some (k.withValue name (.list (items.eraseIdx i))).shown)
    (hcontent : ∀ m, m ≠ o → (b.get? m).map Node.content = (a.get? m).map Node.content)
    (hcomments : ∀ m, ¬ Beside items i m →
      (b.get? m).map Node.comments = (a.get? m).map Node.comments) (hat : a.at? r w = some o) :
    ∃ g : Nat → NodeComments → NodeComments, (∀ j, j + 1 ≠ i → j ≠ i + 1 → g j = id)
      ∧ b.term r = (a.term r).modifyAt (·.mapList name fun l =>
        (l.mapIdx fun j τ => τ.map (Term.mapComments (g j))).eraseIdx i) w := by
  have hone (d : NodeId) : items.count (some d) ≤ 1 := by
    rw [← count_children_list]
    exact ha.count_field_le_one hk hv d
  have hentry {j : Nat} {d : NodeId} (hd : items[j]? = some (some d)) : a.OwnedBy d o :=
    ha.owner_of_field hk hv (mem_children_list.2 (List.mem_of_getElem? hd))
  -- below the children of the owner nothing changed but the comments of entries
  have hsame {c m : NodeId} (hc : a.OwnedBy c o) (hm : ReflTransGen a.OwnedBy m c)
      (hfar : ¬ Beside items i m) :
      (b.get? m).map Node.shown = (a.get? m).map Node.shown := by
    refine shown_eq (hcontent m ?_) (hcomments m hfar)
    rintro rfl
    exact ha.acyclic m (TransGen.tail' hm hc)
  let near (j : Nat) : Prop := j + 1 = i ∨ j = i + 1
  let told (j : Nat) : NodeComments := ((items[j]?.join.bind b.get?).map Node.comments).getD {}
  classical
  let g (j : Nat) : NodeComments → NodeComments := if near j then fun _ => told j else id
  have hfar {j : Nat} (hj : j + 1 ≠ i) (hj' : j ≠ i + 1) : g j = id :=
    if_neg (not_or.2 ⟨hj, hj'⟩)
  have hterm {j : Nat} {d : NodeId} (hj : j ≠ i) (hd : items[j]? = some (some d)) :
      b.term d = (a.term d).mapComments (g j) := by
    have hown := hentry hd
    obtain ⟨kd, hkd, -⟩ := hown.get?
    refine term_mapComments ha hb hsize hkd ?_ fun m hm hne => ?_
    · have hdo : d ≠ o := ha.owner_ne hown
      have hc := hcontent d hdo
      rw [hkd] at hc
      obtain ⟨kb, hkb, hc⟩ := Option.map_eq_some_iff.1 hc
      rw [hkb]
      refine congrArg some (Prod.ext hc ?_)
      by_cases hnear : near j
      · have hg : g j kd.comments = told j := congrFun (if_pos hnear) _
        have htold : told j = kb.comments := by
          simp only [told, hd, Option.join_some, Option.bind_some, hkb, Option.map_some,
            Option.getD_some]
        exact htold.symm.trans hg.symm
      · obtain ⟨hj₁, hj₂⟩ := not_or.1 hnear
        have hc := hcomments d fun ⟨j', hj', hbeside⟩ => by
          obtain rfl := entry_unique (hone d) hd hj'
          exact hbeside.elim hj fun h => h.elim hj₁ hj₂
        rw [hkb, hkd] at hc
        rw [hfar hj₁ hj₂]
        exact Option.some.inj hc
    · exact hsame hown hm fun ⟨j', hj', _⟩ => hne (ha.branch_unique (hentry hj') hown .refl hm)
  refine ⟨g, fun j => hfar, term_modifyAt ha hb hsize hat (fun m _ hm => ?_) ?_⟩
  · refine shown_eq (hcontent m ?_) (hcomments m fun ⟨j, hj, _⟩ => hm (.single (hentry hj)))
    rintro rfl
    exact hm .refl
  refine term_withValue ha hb hk hv _ hself ?_ fun d hd hold => ?_
  · refine congrArg Part.many (List.ext_getElem? fun j => ?_)
    have hread {j : Nat} (hj : j ≠ i) : (items[j]?).map (·.map b.term)
        = ((items.map (·.map a.term)).mapIdx fun j τ => τ.map (Term.mapComments (g j)))[j]? := by
      rw [List.getElem?_mapIdx, List.getElem?_map]
      cases hd : items[j]? with
      | none => rfl
      | some d =>
        cases d with
        | none => rfl
        | some d => exact congrArg (some ∘ some) (hterm hj hd)
    rw [List.getElem?_map, List.getElem?_eraseIdx, List.getElem?_eraseIdx]
    split
    · exact hread (by omega)
    · exact hread (by omega)
  · have hown := ha.owner_of_child o d hd
    refine term_congr ha hsize fun m hm => hsame hown hm fun ⟨j, hj, _⟩ => ?_
    obtain rfl := ha.branch_unique (hentry hj) hown .refl hm
    exact hold (mem_children_list.2 (List.mem_of_getElem? hj))

/-! ## nodes that are replaced -/

/-- **A node that is put in place of another.** It comes from below that node, or it is free. -/
theorem term_replaced {φ : Term → Term} (ha : a.Owned) (hb : b.Owned) (hsize : b.size = a.size)
    (hk : a.get? o = some k) (hkey : s.key? = some name) (hv : k.value? name = some old)
    (hs : old.standing s = some n)
    (hself : (b.get? o).map Node.shown = some (k.withValue name (old.put x s)).shown)
    (hsame : ∀ m, m ≠ o → m ≠ x → ¬ ReflTransGen a.OwnedBy m n →
      (b.get? m).map Node.shown = (a.get? m).map Node.shown)
    (hx : ReflTransGen a.OwnedBy x n ∨ a.parentOf (some x) = none ∧ ¬ ReflTransGen a.OwnedBy o x)
    (hterm : b.term x = φ (a.term n)) (hat : a.at? r w = some o) :
    b.term r = (a.term r).modifyAt φ (w ++ [s]) := by
  have hno : a.OwnedBy n o := ha.owner_of_field hk hv (mem_children_of_standing hs)
  -- what is below another child of the owner is left alone
  have hchild (d : NodeId) (hd : a.OwnedBy d o) (hne : d ≠ n) : b.term d = a.term d := by
    refine term_congr ha hsize fun m hm => hsame m ?_ ?_ fun hmn => ?_
    · rintro rfl
      exact ha.acyclic m (TransGen.tail' hm hd)
    · rintro rfl
      rcases hx with hxn | ⟨hfree, -⟩
      · exact hne (ha.branch_unique hd hno hm hxn)
      · rcases ReflTransGen.cases_head hm with rfl | ⟨q, hq, -⟩
        · cases hfree.symm.trans hd
        · cases hfree.symm.trans hq
    · exact hne (ha.branch_unique hd hno hm hmn)
  rw [Term.modifyAt_append]
  refine term_modifyAt ha hb hsize hat
    (fun m hm hmo => hsame m ?_ ?_ fun hmn => hmo (hmn.tail hno)) ?_
  · rintro rfl
    exact hmo .refl
  · rintro rfl
    rcases hx with hxn | ⟨hfree, hox⟩
    · exact hmo (hxn.tail hno)
    · rcases ReflTransGen.cases_head hm with rfl | ⟨q, hq, -⟩
      · exact hox (reaches_of_at? ha hat)
      · cases hfree.symm.trans hq
  rw [Term.modifyAt, hkey, Option.elim_some]
  refine term_withValue ha hb hk hv _ hself ?_ fun d hd hold =>
    hchild d (ha.owner_of_child o d hd) ?_
  · exact read_put (ha.count_field_le_one hk hv n) hs hterm fun d hd hne =>
      hchild d (ha.owner_of_field hk hv hd) hne
  · rintro rfl
    exact hold (mem_children_of_standing hs)

end ScopedTree.Arena
