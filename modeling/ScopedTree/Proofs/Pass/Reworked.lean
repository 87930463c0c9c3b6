import ScopedTree.Proofs.Arena.Place
import ScopedTree.Proofs.Pass.Rework

/-!
# Passes over a tree in which one block is edited

The pass comes to the block on one way down from the root. Before it is there nothing changed, and
afterwards the list of the block stays as the handlers left it.

* `Tree.Stage`                    whether the block was visited;
* `Reworks.visitsAt_block`        the visit of the block;
* `Reworks.visitsAt_up`           the visit of a node above;
* `Reworks.runs_traverse`         the whole pass.
-/

namespace ScopedTree

open Arena ScopedTree.Tree Relation

variable {σ : Type} {v : SelfEditor σ} {d : Dispatch (Watch σ)} {r m n o y z : NodeId}
  {free : NodeId → Prop} {a₀ a b : Arena} {os : List NodeId} {levels k : Nat}
  {turns : List (NodeId × SelfEdit)} {rest : List NodeId} {w w' : Watch σ} {s : Pass (Watch σ)}
  {p : PathId}

/-! ## handlers that are called elsewhere -/

/-- A node of the tree that does not stand in the list of the block. -/
def Arena.Elsewhere (r m : NodeId) (a : Arena) (z : NodeId) : Prop :=
  (z = r ∨ ∃ o, a.OwnedBy z o) ∧ some z ∉ a.items (some m) "body"

namespace Tree.Worked

theorem heard (hv : v.Reworks d r m free a₀ os levels) (h : Worked r m free a₀ os turns rest a w)
    (hw : Heard (a.Elsewhere r m) w w') : Worked r m free a₀ os turns rest a w' := by
  have hlisted (y : NodeId) (hy : y ∈ turned turns ++ rest) : w'.on y = w.on y :=
    hw.on_eq fun hout => hout.2 (h.lists.items_eq ▸ List.mem_map_of_mem hy)
  have horiginal (o : NodeId) (ho : o ∈ os) : w'.on o = w.on o := by
    rcases h.original ho with ⟨-, hmem⟩ | hnone
    · exact hlisted o hmem
    · exact hw.on_eq fun hout => hout.1.elim (hv.ne_root ho) fun ⟨k, hk⟩ => by
        cases hnone.symm.trans hk
  refine ⟨h.order, h.relists, h.lists, h.left, h.dropped, fun x hx => ?_, fun x hx => ?_,
    fun x hx y hy => ?_,
    fun y hy => ?_⟩
  · exact (hw.mem hx).elim (h.seen x) fun hout => hout.1.imp_right .inl
  · rw [horiginal, h.originals x hx]
    rw [h.order]
    exact List.mem_append_left _ (List.mem_map_of_mem hx)
  · rw [hlisted y (h.mem_of_fresh hx hy).2, h.fresh x hx y hy]
  · rw [hlisted y (List.mem_append_right _ hy), h.pending y hy]

theorem quiet (hv : v.Reworks d r m free a₀ os levels) (h : Worked r m free a₀ os turns rest a w)
    (hz : a.Elsewhere r m z) : v.Quiet z := hv.quiet z fun hos => by
  rcases h.original hos with ⟨-, hmem⟩ | hnone
  · exact hz.2 (h.lists.items_eq ▸ List.mem_map_of_mem hmem)
  · exact hz.1.elim (hv.ne_root hos) fun ⟨k, hk⟩ => by cases hnone.symm.trans hk

theorem elsewhere (h : Worked r m free a₀ os turns rest a w) {c : NodeId} (hc : a.OwnedBy c n)
    (hm : ¬ ReflTransGen a.OwnedBy m c) (hlist : some c ∉ a.items (some m) "body")
    (hz : ReflTransGen a.OwnedBy z c) :
    a.Elsewhere r m z := by
  rcases ReflTransGen.cases_head hz with rfl | ⟨k, hk, hkc⟩
  · exact ⟨.inr ⟨n, hc⟩, hlist⟩
  · refine ⟨.inr ⟨k, hk⟩, fun hmem => ?_⟩
    rw [h.lists.items_eq] at hmem
    obtain rfl := hk.unique (h.lists.owned h.relists.owned.owned hmem)
    exact hm hkc

end Tree.Worked

def Arena.Edited (a₀ : Arena) (os : List NodeId) (n : NodeId) : Prop :=
  ∃ o ∈ os, ReflTransGen a₀.OwnedBy n o

/-- All paths on frames are in use for nodes that stay. -/
def Tree.Idle (gone : NodeId → Prop) (t : Tree) : Prop :=
  ∀ q, (t.path q).contexts ≠ [] → ∃ n, t.Live q n ∧ ¬ gone n

namespace Tree.Idle

variable {gone : NodeId → Prop} {t t' t₀ : Tree} {F F' : Frame} {fs : List Frame}
  {done : List PathId} {jobs : List (PathId × NodeId)}

theorem lasts (h : Idle gone t) (h' : Lasts gone t t') : Idle gone t' := fun q hq => by
  rw [h'.contexts] at hq
  obtain ⟨n, hn, hgone⟩ := h q hq
  exact ⟨n, h'.live q n hn hgone, hgone⟩

theorem deeper (h : Idle gone t) : Idle gone t.deeper := fun q hq => by
  obtain ⟨n, hn, hgone⟩ := h q hq
  exact ⟨n, ⟨hn.node, hn.used⟩, hgone⟩

theorem turning (h : Idle gone t₀) (ht : Turning r gone F fs done jobs t₀ t F')
    (hdone : ∀ q ∈ done, ∃ n, t₀.Live q n ∧ ¬ gone n) : Idle gone t := fun q hq => by
  obtain ⟨n, hn, hgone⟩ : ∃ n, t₀.Live q n ∧ ¬ gone n := by
    rw [ht.amid.contexts] at hq
    split at hq
    · next hmem => exact hdone q (ht.entered q hmem)
    · exact h q hq
  exact ⟨n, ht.amid.live q n hn hgone, hgone⟩

end Tree.Idle

/-- The block was visited if it was `reached`, and otherwise nothing changed. -/
def Tree.Stage (r m : NodeId) (free : NodeId → Prop) (a₀ : Arena) (os : List NodeId)
    (reached : Prop) (a : Arena) (w : Watch σ) : Prop :=
  ∃ turns rest, Worked r m free a₀ os turns rest a w ∧ (reached → rest = [])
    ∧ (¬ reached → turns = [] ∧ a = a₀)

namespace Tree.Stage

variable {P Q : Prop}

theorem iff (h : Stage r m free a₀ os P a w) (hPQ : P ↔ Q) : Stage r m free a₀ os Q a w :=
  propext hPQ ▸ h

theorem unchanged (h : Stage r m free a₀ os False a w) : a = a₀ := by
  obtain ⟨_, _, _, _, hnone⟩ := h
  exact (hnone id).2

theorem relists (h : Stage r m free a₀ os P a w) : Relists m "body" a₀ a := by
  obtain ⟨_, _, hW, _⟩ := h
  exact hW.relists

theorem of_empty (h : Stage r m free a₀ [] P a w) (Q : Prop)
    (hQ : Q) : Stage r m free a₀ [] Q a w := by
  obtain ⟨turns, rest, hw, -, -⟩ := h
  refine ⟨turns, rest, hw, fun _ => ?_, fun hn => absurd hQ hn⟩
  have horder := hw.order
  exact (List.append_eq_nil_iff.1 horder.symm).2

theorem heard (hv : v.Reworks d r m free a₀ os levels) (h : Stage r m free a₀ os P a w)
    (hw : Heard (a.Elsewhere r m) w w') : Stage r m free a₀ os P a w' := by
  obtain ⟨turns, rest, h, hrest, hturns⟩ := h
  exact ⟨turns, rest, h.heard hv hw, hrest, hturns⟩

end Tree.Stage

/-! ## the way down -/

section Way

variable (hv : v.Reworks d r m free a₀ os levels)

include hv

theorem SelfEditor.Reworks.not_edited {c : NodeId}
    (hc : c = r ∨ ∃ n, a₀.OwnedBy c n ∧ ReflTransGen a₀.OwnedBy m n)
    (hcos : c ∉ os) : ¬ a₀.Edited os c := by
  rintro ⟨o, ho, hco⟩
  rcases ReflTransGen.cases_head hco with rfl | ⟨k, hk, hko⟩
  · exact hcos ho
  · rcases hc with rfl | ⟨n, hc, hn⟩
    · cases hv.root.symm.trans hk
    · obtain rfl := hk.unique hc
      exact hv.owned.owned.not_above (hv.ownedBy ho) (hn.trans hko)

theorem SelfEditor.Reworks.elsewhere_above (h : Worked r m free a₀ os turns rest a w)
    (hn : ReflTransGen a₀.OwnedBy m n) (hroot : n = r ∨ ∃ o, a₀.OwnedBy n o) :
    a.Elsewhere r m n := by
  have ha := h.relists.owned.owned
  refine ⟨?_, fun hlist => ?_⟩
  · rcases hroot with hroot | ⟨o, ho⟩
    · exact .inl hroot
    · have hom : o ≠ m := fun he => hv.owned.owned.not_above ho (he ▸ hn)
      exact .inr ⟨o, (h.relists.ownedBy_iff hv.owned.owned hom (hv.owned.owned.owner_lt ho)).2 ho⟩
  · rw [h.lists.items_eq] at hlist
    exact ha.not_above (h.lists.owned ha hlist) (h.relists.above hv.owned.owned hn)

theorem SelfEditor.Reworks.runs_aside {x : Node} {f : Field} {P : Prop} (hs : s.tree.Orderly r)
    (hp : s.tree.Live p n) (hx : s.tree.arena.get? n = some x) (hf : f ∈ x.type.fields)
    (hstage : Stage r m free a₀ os P s.tree.arena s.own)
    (hkids : ∀ c ∈ x.fieldChildren f.name, s.tree.arena.Shallow k c
      ∧ ¬ ReflTransGen s.tree.arena.OwnedBy m c ∧ some c ∉ s.tree.arena.items (some m) "body")
    (hdepth : s.tree.depth + k ≤ Limits.traversal) :
    ∃ s', Runs (d.engine.visitField · p (some n) f) s false s'
      ∧ Visited r (fun _ => False) s.tree s'.tree
      ∧ Stage r m free a₀ os P s'.tree.arena s'.own := by
  obtain ⟨turns, rest, hW, -⟩ := id hstage
  have hside (c : NodeId) (hc : c ∈ x.fieldChildren f.name) (z : NodeId)
      (hz : ReflTransGen s.tree.arena.OwnedBy z c) :
      s.tree.arena.Elsewhere r m z := by
    have hcn : s.tree.arena.OwnedBy c n := by
      refine hs.owned.owner_of_child n c ?_
      rw [children_some, hx]
      exact (x.fieldChildren_sublist f.name).mem hc
    exact hW.elsewhere hcn (hkids c hc).2.1 (hkids c hc).2.2 hz
  obtain ⟨s', hrun, hvisited, harena, hheard⟩ :=
    (SelfEditor.hushes hv.drives k).visitField hs hp hx hf
    (fun c hc => ⟨(hkids c hc).1, fun z hz => hW.quiet hv (hside c hc z hz)⟩) hdepth
  refine ⟨s', hrun, hvisited, ?_⟩
  rw [harena]
  exact hstage.heard hv (hheard.mono fun z ⟨c, hc, hz⟩ => hside c hc z hz)

end Way

/-- **A visit of the node** on some level brings the work to its end. -/
def Dispatch.VisitsAt (d : Dispatch (Watch σ)) (r m : NodeId) (free : NodeId → Prop) (a₀ : Arena)
    (os : List NodeId) (depth : Nat) (n : NodeId) : Prop :=
  ∀ (s : Pass (Watch σ)) p k, s.tree.Orderly r → s.tree.Live p n → (s.tree.path p).Calm →
    Idle (a₀.Edited os) s.tree → Stage r m free a₀ os False s.tree.arena s.own → a₀.Shallow k n →
    s.tree.depth + k ≤ Limits.traversal → s.tree.depth = depth →
    ∃ s', Runs (d.engine.visitPath · p) s false s' ∧ Visited r (a₀.Edited os) s.tree s'.tree
      ∧ Stage r m free a₀ os True s'.tree.arena s'.own

def Dispatch.FieldAt (d : Dispatch (Watch σ)) (r m : NodeId) (free : NodeId → Prop) (a₀ : Arena)
    (os : List NodeId) (depth : Nat) (n : NodeId) (f : Field) : Prop :=
  ∀ (s : Pass (Watch σ)) p k, s.tree.Orderly r → s.tree.Live p n → Idle (a₀.Edited os) s.tree →
    Stage r m free a₀ os False s.tree.arena s.own → (∀ c ∈ a₀.children (some n), a₀.Shallow k c) →
    s.tree.depth + k ≤ Limits.traversal → s.tree.depth = depth →
    ∃ s', Runs (d.engine.visitField · p (some n) f) s false s'
      ∧ Visited r (a₀.Edited os) s.tree s'.tree ∧ Stage r m free a₀ os True s'.tree.arena s'.own

section Climb

variable {x : Node} {f : Field} {depth : Nat}

theorem SelfEditor.Reworks.runs_otherField (hv : v.Reworks d r m free a₀ os levels) {g : Field}
    {P : Prop} {k : Nat} (hx : a₀.get? n = some x) (hf : f ∈ x.type.childFields)
    (hg : g ∈ x.type.childFields) (hgf : g ≠ f) (hblock : n = m → f.name = "body")
    (haway : ∀ c ∈ x.fieldChildren g.name, ¬ ReflTransGen a₀.OwnedBy m c)
    (hshallow : ∀ c ∈ a₀.children (some n), a₀.Shallow k c) (hs : s.tree.Orderly r)
    (hp : s.tree.Live p n) (hstage : Stage r m free a₀ os P s.tree.arena s.own)
    (hdepth : s.tree.depth + k ≤ Limits.traversal) :
    ∃ s', Runs (d.engine.visitField · p (some n) g) s false s'
      ∧ Visited r (fun _ => False) s.tree s'.tree
      ∧ Stage r m free a₀ os P s'.tree.arena s'.own := by
  have hrel := hstage.relists
  obtain ⟨x', hx'⟩ := Option.isSome_iff_exists.1 (isSome_get?_iff.2 (hs.filed.held p n hp.node))
  have hmem (h : Field) (hh : h ∈ x.type.childFields) : h ∈ x.type.fields :=
    (List.mem_filter.1 hh).1
  have hname : n = m → g.name ≠ "body" := fun hnm hbody =>
    hgf (List.inj_on_of_nodup_map x.type.nodup_fields (hmem g hg) (hmem f hf)
      (hbody.trans (hblock hnm).symm))
  obtain ⟨htype, hkids⟩ := hrel.fieldChildren_eq hx hx' hname
  refine hv.runs_aside hs hp hx' (htype ▸ hmem g hg) hstage (fun c hc => ?_) hdepth
  have hc₀ : c ∈ a₀.children (some n) := by
    rw [children_some, hx]
    exact (x.fieldChildren_sublist g.name).mem (hkids ▸ hc)
  have hlt : c.index < a₀.size := (hv.owned.owned.owner_of_child n c hc₀).lt
  have hm := haway c (hkids ▸ hc)
  refine ⟨hrel.shallow hv.owned.owned hlt hm (hshallow c hc₀),
    hrel.not_above hv.owned.owned hlt hm, fun hlist => ?_⟩
  -- a child in the list of the block stands in no other field
  obtain ⟨turns, rest, hW, -⟩ := id hstage
  rw [hW.lists.items_eq] at hlist
  have hcn : s.tree.arena.OwnedBy c n := by
    refine hrel.owned.owned.owner_of_child n c ?_
    rw [children_some, hx']
    exact (x'.fieldChildren_sublist g.name).mem hc
  obtain rfl := hcn.unique (hW.lists.owned hrel.owned.owned hlist)
  obtain ⟨y, hy, hvalue⟩ := hW.lists
  obtain rfl : y = x' := Option.some.inj (hy.symm.trans hx')
  refine disjoint_fieldChildren hrel.owned hx' (htype ▸ hg) (htype ▸ hf) hgf hc ?_
  rw [hblock rfl, Node.fieldChildren, hvalue]
  exact mem_children_list.2 hlist

/-- A node above the block is visited, if one of its fields is and the block is not under the
others. -/
theorem SelfEditor.Reworks.visitsAt_of_field (hv : v.Reworks d r m free a₀ os levels)
    (hn : ReflTransGen a₀.OwnedBy m n) (hroot : n = r ∨ ∃ o, a₀.OwnedBy n o)
    (hx : a₀.get? n = some x) (hf : f ∈ x.type.childFields) (hblock : n = m → f.name = "body")
    (hothers : ∀ g ∈ x.type.childFields, g ≠ f → ∀ c ∈ x.fieldChildren g.name,
      ¬ ReflTransGen a₀.OwnedBy m c)
    (hfield : d.FieldAt r m free a₀ os (depth + 1) n f) : d.VisitsAt r m free a₀ os depth n := by
  intro s p k hs hp hcalm hidle hstage hshallow hdepth hlevel
  have hnos : n ∉ os := fun ho => hv.owned.owned.not_above (hv.ownedBy ho) hn
  have hgone : ¬ a₀.Edited os n := by
    refine hv.not_edited (hroot.imp_right fun ⟨o, ho⟩ => ⟨o, ho, hn.tail ho⟩) hnos
  have habove {P : Prop} {b : Arena} {w : Watch σ} (h : Stage r m free a₀ os P b w) :
      b.Elsewhere r m n := by
    obtain ⟨turns, rest, hW, -⟩ := h
    exact hv.elsewhere_above hW hn hroot
  have harena := hstage.unchanged
  have hlt : n.index < a₀.size := isSome_get?_iff.1 (by rw [hx]; rfl)
  have hty₀ : a₀.type? (some n) = some x.type := by simp [Arena.type?, hx]
  have hty : s.tree.arena.type? (some n) = some x.type := harena ▸ hty₀
  obtain ⟨k, rfl⟩ : ∃ l, k = l + 1 := by
    cases k with
    | zero => exact hshallow.elim
    | succ k => exact ⟨k, rfl⟩
  obtain ⟨i, own₁, henter, -⟩ := (hv.quiet n hnos).call hv.drives hp hcalm hty .enter
  have hstage₁ := hstage.heard hv (Heard.replicate (habove hstage) i .enter own₁)
  refine Dispatch.runs_visitPath (P := Stage r m free a₀ os True) (Q := Stage r m free a₀ os True)
    (u := ⟨s.tree, ⟨s.own.log ++ List.replicate i (.quiet n .enter), own₁⟩⟩) hp.node hty
    (hv.admitted n _ hn hty₀)
    henter hs hp hcalm hgone (fun t ht harena' => ?_) fun s' hs' hp' hcalm' hstage' => ?_
  · have ht : Visited r (fun _ => False) s.tree t := ht
    have hp' := ht.live p n hp id
    have hfields : d.Fields r (a₀.Edited os) p n (fun done => Stage r m free a₀ os (f ∈ done))
        x.type.childFields t.deeper := by
      intro done g rest hsplit s₁ hs₁ hlive hstage₁
      have hdepth₁ : s₁.tree.depth = s.tree.depth + 1 := hs₁.depth.trans (congrArg (· + 1) ht.depth)
      have hg : g ∈ x.type.childFields := by simp [hsplit]
      by_cases hgf : g = f
      · subst hgf
        have hnew : g ∉ done := fun hmem => by
          have hnodup : x.type.childFields.Nodup :=
            List.Nodup.of_map _ x.type.nodup_fields |>.filter _
          rw [hsplit, List.nodup_append] at hnodup
          exact hnodup.2.2 g hmem g (List.mem_cons_self ..) rfl
        have hidle₁ : Idle (a₀.Edited os) s₁.tree :=
          (hidle.lasts (ht.toLasts.all _)).deeper.lasts hs₁.toLasts
        obtain ⟨s', hrun, hvisited, hstage'⟩ := hfield s₁ p k hs₁.orderly hlive hidle₁
          (hstage₁.iff (by simp [hnew])) hshallow (by omega) (by omega)
        exact ⟨s', hrun, hvisited, hstage'.iff (by simp)⟩
      · obtain ⟨s', hrun, hvisited, hstage'⟩ := hv.runs_otherField hx hf hg hgf hblock
          (hothers g hg hgf) hshallow hs₁.orderly hlive hstage₁ (by omega)
        refine ⟨s', hrun, ⟨hvisited.toLasts.all _, hvisited.orderly, hvisited.frames⟩,
          hstage'.iff ?_⟩
        simp [Ne.symm hgf]
    obtain ⟨s', hrun, hvisited, hstage'⟩ := Dispatch.runs_visitNode
      (s := ⟨t, ⟨s.own.log ++ List.replicate i (.quiet n .enter), own₁⟩⟩) ht.orderly hp'
      (ht.calm p hcalm hp'.used) hgone
      (harena' ▸ hty) (by rw [ht.depth]; omega) (harena' ▸ hstage₁.iff (by simp)) hfields
    exact ⟨s', hrun, hvisited, hstage'.iff (by simp [hf])⟩
  · obtain ⟨j, own₂, hexit, -⟩ := (hv.quiet n hnos).call hv.drives hp' hcalm'
      ((hstage'.relists.type?_eq hlt).trans hty₀) .exit
    exact ⟨false, _, hexit, hstage'.heard hv (.replicate (habove hstage') j .exit own₂)⟩

theorem Dispatch.shouldVisit_of_child (d : Dispatch σ) {c : NodeId} (h : c ∈ a.children (some n)) :
    d.shouldVisit a n = true := by
  obtain ⟨x, hx, hc⟩ := get?_of_mem_children h
  have hne : x.children ≠ [] := List.ne_nil_of_mem hc
  simp [Dispatch.shouldVisit, hx, hne]

theorem Dispatch.Watches.shouldVisit {ty : NodeType} (h : d.Watches ty)
    (hty : a.type? (some n) = some ty) :
    d.shouldVisit a n = true := by
  obtain ⟨x, hx, rfl⟩ := Option.map_eq_some_iff.1 hty
  have honce := h.once .enter
  by_contra hskip
  have hx : a.get? n = some x := hx
  simp only [Dispatch.shouldVisit, hx, Dispatch.handles, Bool.or_eq_true, not_or, Bool.not_eq_true,
    Bool.not_eq_false', List.isEmpty_iff, List.any_eq_false] at hskip
  obtain ⟨⟨hgeneral, htyped⟩, -⟩ := hskip
  have hentries : d.entries x.type .enter = [] := by
    refine List.filter_eq_nil_iff.2 fun entry hentry hcovers => ?_
    simp only [Bool.and_eq_true] at hcovers
    exact Bool.eq_false_iff.1 (htyped entry hentry) hcovers.2
  simp [Dispatch.generalHandlers, hgeneral, hentries] at honce

/-- What hangs beside the way to the block is visited and stays as it is. -/
theorem SelfEditor.Reworks.runs_sibling (hv : v.Reworks d r m free a₀ os levels) {c y : NodeId}
    {P : Prop} {k : Nat} (hm : ReflTransGen a₀.OwnedBy m c) (hc : a₀.OwnedBy c n)
    (hy : a₀.OwnedBy y n) (hyc : y ≠ c) (hshallow : a₀.Shallow k y) (hs : s.tree.Orderly r)
    (hp : s.tree.Live p y) (hcalm : (s.tree.path p).Calm)
    (hstage : Stage r m free a₀ os P s.tree.arena s.own)
    (hdepth : s.tree.depth + k ≤ Limits.traversal) :
    ∃ s', Runs (d.engine.visitPath · p) s false s' ∧ Visited r (fun _ => False) s.tree s'.tree
      ∧ Stage r m free a₀ os P s'.tree.arena s'.own := by
  have ha := hv.owned.owned
  have hrel := hstage.relists
  have hnm : n ≠ m := by
    rintro rfl
    exact ha.not_above hc hm
  have hyn : s.tree.arena.OwnedBy y n := (hrel.ownedBy_iff ha hnm (ha.owner_lt hy)).2 hy
  have hym := ha.not_above_sibling hc hy hyc hm
  obtain ⟨turns, rest', hW, -⟩ := id hstage
  have hside (z : NodeId) (hz : ReflTransGen s.tree.arena.OwnedBy z y) :
      s.tree.arena.Elsewhere r m z := by
    refine hW.elsewhere hyn (hrel.not_above ha hy.lt hym) (fun hlist => ?_) hz
    rw [hW.lists.items_eq] at hlist
    exact hnm (hyn.unique (hW.lists.owned hrel.owned.owned hlist))
  obtain ⟨ty, hty⟩ := exists_type? hy.lt
  obtain ⟨s', hrun, hhushed⟩ := SelfEditor.hushes hv.drives k s p y ty hs hp hcalm
    ((hrel.type?_eq hy.lt).trans hty) (hrel.shallow ha hy.lt hym hshallow) hdepth
    fun z hz => hW.quiet hv (hside z hz)
  refine ⟨s', hrun, hhushed.toVisited, ?_⟩
  rw [hhushed.arena]
  exact hstage.heard hv (hhushed.heard.mono hside)

/-- A block that is not visited is empty. -/
theorem SelfEditor.Reworks.empty_of_not_visited (hv : v.Reworks d r m free a₀ os levels)
    {c : NodeId} (hm : ReflTransGen a₀.OwnedBy m c) (hc : ¬ d.shouldVisit a₀ c = true) :
    os = [] := by
  by_contra hne
  obtain ⟨o, ho⟩ := List.exists_mem_of_ne_nil os hne
  obtain ⟨y, hy⟩ : ∃ y, a₀.OwnedBy y c := by
    rcases ReflTransGen.cases_tail hm with rfl | ⟨y, -, hy⟩
    · exact ⟨o, hv.ownedBy ho⟩
    · exact ⟨y, hy⟩
  exact hc (d.shouldVisit_of_child (hv.owned.owned.mem_children hy))

theorem SelfEditor.Reworks.fieldAt_up (hv : v.Reworks d r m free a₀ os levels) {c : NodeId}
    (hm : ReflTransGen a₀.OwnedBy m c) (hx : a₀.get? n = some x) (hf : f ∈ x.type.fields)
    (hc : c ∈ x.fieldChildren f.name) (hvisits : d.VisitsAt r m free a₀ os depth c) :
    d.FieldAt r m free a₀ os depth n f := by
  intro s p k hs hp hidle hstage hshallow hdepth hlevel
  have ha := hv.owned.owned
  have hkid (y : NodeId) (hy : y ∈ x.fieldChildren f.name) : y ∈ a₀.children (some n)
      ∧ a₀.OwnedBy y n := by
    have hmem : y ∈ a₀.children (some n) := by
      rw [children_some, hx]
      exact (x.fieldChildren_sublist f.name).mem hy
    exact ⟨hmem, ha.owner_of_child n y hmem⟩
  have hnm : n ≠ m := by
    rintro rfl
    exact ha.not_above (hkid c hc).2 hm
  have hmn : ReflTransGen a₀.OwnedBy m n := hm.tail (hkid c hc).2
  have hgone (y : NodeId) (hy : y ∈ x.fieldChildren f.name) : ¬ a₀.Edited os y :=
    hv.not_edited (.inr ⟨n, (hkid y hy).2, hmn⟩) fun hos =>
      hnm ((hkid y hy).2.unique (hv.ownedBy hos))
  have harena := hstage.unchanged
  have hturns (F : Frame) (jobs : List (PathId × NodeId)) (t₀ : Tree)
      (hlasts : Lasts (fun _ => False) s.tree t₀)
      (hjobs : jobs.map (·.2) = d.comesBy s.tree.arena x f) (hlive : ∀ y ∈ jobs, t₀.Live y.1 y.2) :
      d.Turns r (a₀.Edited os) F s.tree.frames (fun done => Stage r m free a₀ os (c ∈ done))
      jobs t₀ := by
    intro done q y rest hsplit s₁ F' ht hcalm hhead hstage₁
    have hnodes (z : PathId × NodeId) (hz : z ∈ jobs) : z.2 ∈ x.fieldChildren f.name := by
      have hmem : z.2 ∈ jobs.map (·.2) := List.mem_map_of_mem hz
      rw [hjobs] at hmem
      exact (List.mem_filter.1 hmem).1
    have hy : y ∈ x.fieldChildren f.name := hnodes (q, y) (by simp [hsplit])
    have hrest (z : PathId × NodeId) (hz : z ∈ rest) : ¬ a₀.Edited os z.2 :=
      hgone _ (hnodes z (by simp [hsplit, hz]))
    have hlive₁ := ht.live (q, y) (List.mem_cons_self ..)
    have hdepth₁ : s₁.tree.depth = s.tree.depth := ht.amid.depth.trans hlasts.depth
    by_cases hyc : y = c
    · subst hyc
      have hidle₁ : Idle (a₀.Edited os) s₁.tree := by
        refine (hidle.lasts (hlasts.all _)).turning ht fun q' hq' => ?_
        obtain ⟨z, hz, rfl⟩ : ∃ z ∈ jobs, z.1 = q' := by
          rcases List.mem_append.1 hq' with hq' | hq'
          · obtain ⟨z, hz, rfl⟩ := List.mem_map.1 hq'
            exact ⟨z, by simp [hsplit, hz], rfl⟩
          · exact ⟨(q, y), by simp [hsplit], (List.mem_singleton.1 hq').symm⟩
        exact ⟨z.2, hlive z hz, hgone _ (hnodes z hz)⟩
      have hnew : y ∉ done.map (·.2) := fun hmem => by
        have hnodup := d.nodup_comesBy hs.owned (harena ▸ hx) f
        rw [← hjobs, hsplit, List.map_append, List.nodup_append] at hnodup
        exact hnodup.2.2 y hmem y (List.mem_cons_self ..) rfl
      obtain ⟨s₂, hrun₂, hvisited₂, hstage₂⟩ := hvisits s₁ q k ht.amid.orderly hlive₁ hcalm hidle₁
        (hstage₁.iff (by simp [hnew])) (hshallow y (hkid y hy).1) (by omega) (by omega)
      exact ⟨s₂, a₀.Edited os, Dispatch.runs_visitTurn hrun₂ (hvisited₂.frames.trans ht.frames)
        ht.id ht.priority, hvisited₂, hstage₂.iff (by simp), hrest, fun _ _ => id⟩
    · obtain ⟨s₂, hrun₂, hvisited₂, hstage₂⟩ := hv.runs_sibling hm (hkid c hc).2 (hkid y hy).2 hyc
        (hshallow y (hkid y hy).1) ht.amid.orderly hlive₁ hcalm hstage₁ (by omega)
      exact ⟨s₂, fun _ => False, Dispatch.runs_visitTurn hrun₂ (hvisited₂.frames.trans ht.frames)
        ht.id ht.priority, hvisited₂, hstage₂.iff (by simp [Ne.symm hyc]), fun _ _ => id,
        fun _ _ => False.elim⟩
  obtain ⟨s', hrun, hvisited, hstage'⟩ := Dispatch.runs_visitField hs hp (harena ▸ hx) hf
    (hstage.iff (by simp))
    fun F jobs t₀ _ hlasts _ _ _ hjobs hlive => hturns F jobs t₀ hlasts hjobs hlive
  refine ⟨s', hrun, hvisited, ?_⟩
  by_cases hcomes : c ∈ d.comesBy s.tree.arena x f
  · exact hstage'.iff (by simp [hcomes])
  · obtain rfl := hv.empty_of_not_visited hm fun hsees =>
      hcomes (List.mem_filter.2 ⟨hc, harena ▸ hsees⟩)
    exact hstage'.of_empty True trivial

theorem SelfEditor.Reworks.fieldAt_block (hv : v.Reworks d r m free a₀ os levels)
    (hx : a₀.get? m = some x) (hf : f ∈ x.type.fields) (hbody : f.name = "body")
    (hlevels : depth + levels ≤ Limits.traversal) :
    d.FieldAt r m free a₀ os depth m f := by
  intro s p k hs hp hidle hstage hshallow hdepth hlevel
  have harena := hstage.unchanged
  have hcomes : d.comesBy s.tree.arena x f = os := by
    obtain ⟨y, hy, hvalue⟩ := hv.lists
    obtain rfl : y = x := Option.some.inj (hy.symm.trans hx)
    have hkids : y.fieldChildren f.name = os := by
      rw [hbody, Node.fieldChildren, hvalue]
      show (os.map some).filterMap id = os
      simp
    rw [Dispatch.comesBy, hkids, harena]
    refine List.filter_eq_self.2 fun o ho => ?_
    obtain ⟨ty, hty⟩ := exists_type? (hv.ownedBy ho).lt
    exact ((hv.sees o ho).2 ty hty).shouldVisit hty
  have hturns (F : Frame) (jobs : List (PathId × NodeId)) (t₀ : Tree)
      (hlasts : Lasts (fun _ => False) s.tree t₀) (howner : F.owner = some m)
      (hkey : F.key = f.name) (hjobs : jobs.map (·.2) = os) (hlive : ∀ y ∈ jobs, t₀.Live y.1 y.2) :
      d.Turns r (a₀.Edited os) F s.tree.frames (fun done a w => ∃ turns rest, turns.map (·.1) = done
        ∧ Worked r m free a₀ os turns rest a w) jobs t₀ := by
    rintro done q o rest hsplit s₁ F' ht hcalm hhead ⟨turns, rest', hturns, hW⟩
    have hos : os = done.map (·.2) ++ o :: rest.map (·.2) := by
      rw [← hjobs, hsplit, List.map_append, List.map_cons]
    obtain rfl : rest' = o :: rest.map (·.2) := by
      have horder := hW.order
      rw [hturns, hos] at horder
      exact (List.append_cancel_left horder).symm
    have ho : o ∈ os := by simp [hos]
    have hom := hv.ownedBy ho
    have hcontexts : (s₁.tree.path q).contexts = [F'.id] := by
      -- no path of a statement was on a frame before
      have hnone : (t₀.path q).contexts = [] := by
        by_contra hne
        obtain ⟨y, hy, hyos⟩ := hidle.lasts (hlasts.all _) q hne
        obtain rfl := hy.unique (hlive (q, o) (by simp [hsplit]))
        exact hyos ⟨y, ho, .refl⟩
      rw [ht.amid.contexts, hnone] at hhead ⊢
      rw [ht.id]
      split at hhead
      · next hmem => rw [if_pos hmem]
      · cases hhead
    have hlt : F'.id.index < s₁.tree.nextContext :=
      ht.amid.orderly.handedOut q F'.id (hcontexts ▸ List.mem_singleton_self _)
    have hdepth₁ : s₁.tree.depth = s.tree.depth := ht.amid.depth.trans hlasts.depth
    obtain ⟨e, s₂, hrun₂, hvisited₂, hW₂⟩ := hv.turn ht.amid.orderly
      (ht.live (q, o) (List.mem_cons_self ..)) hcalm
      hcontexts ht.frames (ht.owner.trans howner) (ht.key.trans (hkey.trans hbody))
      ht.priority hlt hW (hshallow o (hv.owned.owned.mem_children hom)) (by omega) (by omega)
    rw [ht.id] at hrun₂
    refine ⟨s₂, _, hrun₂, hvisited₂, ⟨turns ++ [(o, e)], _, by simp [hturns], hW₂⟩, fun y hy => ?_,
      fun y _ hy => ⟨o, ho, hy⟩⟩
    have hnodup := hv.nodup
    rw [hos, List.nodup_append, List.nodup_cons] at hnodup
    have hyos : y.2 ∈ os := by
      rw [hos]
      simp only [List.mem_append, List.mem_cons, List.mem_map]
      exact .inr (.inr ⟨y, hy, rfl⟩)
    have hyo : y.2 ≠ o := fun he => hnodup.2.1.1 (he ▸ List.mem_map_of_mem (f := (·.2)) hy)
    exact not_within (hv.owned.owned.not_above hom) (.inl (hv.ownedBy hyos)) hyo
  obtain ⟨turns, rest, hW, -, hnone⟩ := id hstage
  obtain ⟨s', hrun, hvisited, turns', rest', hturns', hW'⟩ :=
    Dispatch.runs_visitField (d := d) hs hp (harena ▸ hx) hf
    (I := fun done a w => ∃ turns rest, turns.map (·.1) = done
      ∧ Worked r m free a₀ os turns rest a w)
    ⟨turns, rest, by rw [(hnone id).1]; rfl, hW⟩ fun F jobs t₀ _ hlasts _ howner hkey hjobs hlive =>
      hturns F jobs t₀ hlasts howner hkey (hjobs.trans hcomes) hlive
  refine ⟨s', hrun, hvisited, turns', rest', hW', fun _ => ?_, fun h => (h trivial).elim⟩
  have horder := hW'.order
  rw [hturns', hcomes] at horder
  exact List.self_eq_append_right.1 horder

/-- **The visit of the block.** -/
theorem SelfEditor.Reworks.visitsAt_block (hv : v.Reworks d r m free a₀ os levels)
    (hroot : m = r ∨ ∃ o, a₀.OwnedBy m o) (hlevels : depth + 1 + levels ≤ Limits.traversal) :
    d.VisitsAt r m free a₀ os depth m := by
  obtain ⟨ty, hty, hblock⟩ := hv.block
  obtain ⟨x, hx, rfl⟩ := Option.map_eq_some_iff.1 hty
  have hx : a₀.get? m = some x := hx
  have hf : (⟨"body", .list⟩ : Field) ∈ x.type.childFields := by
    obtain hblock | hblock := hblock <;> rw [hblock] <;> decide
  refine hv.visitsAt_of_field .refl hroot hx hf (fun _ => rfl) (fun g _ _ c hc => ?_)
    (hv.fieldAt_block hx (List.mem_filter.1 hf).1 rfl hlevels)
  refine hv.owned.owned.not_above (hv.owned.owned.owner_of_child m c ?_)
  rw [children_some, hx]
  exact (x.fieldChildren_sublist g.name).mem hc

/-- **The visit of a node above.** -/
theorem SelfEditor.Reworks.visitsAt_up (hv : v.Reworks d r m free a₀ os levels) {c : NodeId}
    (hm : ReflTransGen a₀.OwnedBy m c) (hc : a₀.OwnedBy c n) (hroot : n = r ∨ ∃ o, a₀.OwnedBy n o)
    (hvisits : d.VisitsAt r m free a₀ os (depth + 1) c) : d.VisitsAt r m free a₀ os depth n := by
  have ha := hv.owned.owned
  obtain ⟨x, hx, hmem⟩ := get?_of_mem_children (ha.mem_children hc)
  rw [(hv.owned.shaped n x hx).children_eq] at hmem
  obtain ⟨f, hf, hcf⟩ := List.mem_flatMap.1 hmem
  refine hv.visitsAt_of_field (hm.tail hc) hroot hx hf (fun hnm => ?_) (fun g hg hgf y hy => ?_)
    (hv.fieldAt_up hm hx (List.mem_filter.1 hf).1 hcf hvisits)
  · exact absurd hm (ha.not_above (hnm ▸ hc))
  · have hyn : a₀.OwnedBy y n := by
      refine ha.owner_of_child n y ?_
      rw [children_some, hx]
      exact (x.fieldChildren_sublist g.name).mem hy
    have hyc : y ≠ c := by
      rintro rfl
      exact disjoint_fieldChildren hv.owned hx hg hf hgf hy hcf
    exact ha.not_above_sibling hc hyn hyc hm

theorem SelfEditor.Reworks.visitsAt_root (hv : v.Reworks d r m free a₀ os levels)
    {above : List NodeId} (h : a₀.Under r n above) (hm : ReflTransGen a₀.OwnedBy m n)
    (hvisits : d.VisitsAt r m free a₀ os (depth + above.length) n) :
    d.VisitsAt r m free a₀ os depth r := by
  induction h with
  | root => exact hvisits
  | @child p c above hp hc ih =>
    have hcp := hv.owned.owned.owner_of_child p c hc
    refine ih (hm.tail hcp) (hv.visitsAt_up hm hcp ?_ hvisits)
    cases hp with
    | root => exact .inl rfl
    | @child o _ _ _ hpo => exact .inr ⟨o, hv.owned.owned.owner_of_child o p hpo⟩

end Climb

/-! ## the whole pass -/

theorem SelfEditor.Reworks.stage (hv : v.Reworks d r m free a₀ os levels) (hw : w.log = []) :
    Stage r m free a₀ os False a₀ w := by
  refine ⟨[], os, ⟨rfl, .refl hv.owned, hv.lists, fun _ _ h _ => h, nofun, fun x hx => ?_, nofun,
    nofun, fun o _ => ?_⟩, False.elim, fun _ => ⟨rfl, rfl⟩⟩
  · rw [hw] at hx
    cases hx
  · rw [Watch.on, hw]
    rfl

/-- **A pass in which the statements of a block are edited.** Each statement is entered once, and
exited unless it went; what was put in is entered and exited once; and the list holds in order what
each statement turned into, as do the paths. -/
theorem SelfEditor.Reworks.runs_traverse (hv : v.Reworks d r m free s.tree.arena os levels)
    (hs : s.tree.Orderly r) (hidle : ∀ q, (s.tree.path q).contexts = []) (hlog : s.own.log = [])
    {above : List NodeId} (hunder : s.tree.arena.Under r m above)
    (hshallow : s.tree.arena.Shallow k r) (hdepth : s.tree.depth + k ≤ Limits.traversal)
    (hlevels : s.tree.depth + above.length + 1 + levels ≤ Limits.traversal) :
    ∃ s' turns, Runs d.traverse s ⟨⟩ s' ∧ s'.tree.Orderly r ∧ turns.map (·.1) = os
      ∧ (∀ x ∈ turns, s'.own.on x.1 = x.2.events x.1)
      ∧ (∀ x ∈ turns, ∀ y ∈ x.2.fresh, s'.own.on y = [.entered y .stay, .exited y])
      ∧ s'.tree.arena.Lists m "body" ((turned turns).map some)
      ∧ ∀ p i y, s'.tree.Live p y → (turned turns)[i]? = some y →
      s'.tree.slot p = .entry "body" i := by
  have hm : ReflTransGen s.tree.arena.OwnedBy m r := hunder.reaches_root hs.owned
  have hroot : m = r ∨ ∃ o, s.tree.arena.OwnedBy m o := by
    rcases ReflTransGen.cases_head hm with hm | ⟨o, hm, -⟩
    · exact .inl hm
    · exact .inr ⟨o, hm⟩
  have hvisits := hv.visitsAt_root hunder .refl (hv.visitsAt_block hroot hlevels)
  obtain ⟨p, t₁, hrun₁, h₁, hp, -, hcontexts, harena₁, -, hdepth₁, -⟩ := hs.ends_getRootPath
  have hgone : ¬ s.tree.arena.Edited os r := hv.not_edited (.inl rfl) fun hr => hv.ne_root hr rfl
  have hidle₁ : Idle (s.tree.arena.Edited os) t₁ := fun q hq => absurd (hcontexts q ▸ hidle q) hq
  have hstage₁ : Stage r m free s.tree.arena os False t₁.arena s.own := harena₁ ▸ hv.stage hlog
  have hturns (F : Frame) (t₀ : Tree) (_ : t₀.Orderly r) (hlasts : Lasts (fun _ => False) t₁ t₀)
      (_ : t₀.arena = t₁.arena) (_ : F.owner = none) (_ : F.key = "") :
      d.Turns r (s.tree.arena.Edited os) F t₁.frames
        (fun done => Stage r m free s.tree.arena os (r ∈ done)) [(p, r)] t₀ := by
    intro done q y rest hsplit s₁ F' ht hcalm _ hstage
    obtain ⟨rfl, hpair, rfl⟩ : done = [] ∧ (q, y) = (p, r) ∧ rest = [] := by
      cases done with
      | nil => simpa [eq_comm] using hsplit
      | cons x done => simp at hsplit
    obtain ⟨rfl, rfl⟩ := Prod.mk.inj hpair
    have hidle₀ : Idle (s.tree.arena.Edited os) s₁.tree :=
      (hidle₁.lasts (hlasts.all _)).turning ht fun q' hq' => ⟨y, by
        obtain rfl : q' = q := by simpa using hq'
        exact hlasts.live q' y hp id, hgone⟩
    have hdepth₀ : s₁.tree.depth = s.tree.depth := ht.amid.depth.trans (hlasts.depth.trans hdepth₁)
    obtain ⟨s₂, hrun₂, hvisited₂, hstage₂⟩ := hvisits s₁ q k ht.amid.orderly
      (ht.live (q, y) (List.mem_cons_self ..)) hcalm
      hidle₀ (hstage.iff (by simp)) hshallow (by omega) hdepth₀
    exact ⟨s₂, _, Dispatch.runs_visitTurn hrun₂ (hvisited₂.frames.trans ht.frames) ht.id
      ht.priority, hvisited₂, hstage₂.iff (by simp), nofun, fun _ _ => id⟩
  obtain ⟨s', ⟨least, hrun⟩, hvisited, hstage⟩ := Dispatch.runs_onFrame (s := ⟨t₁, s.own⟩) h₁
    (by simpa using hp) (by simp) hturns (hstage₁.iff (by simp))
  obtain ⟨turns, rest, hW, hrest, -⟩ := hstage
  obtain rfl := hrest (by simp)
  have hlists : s'.tree.arena.Lists m "body" ((turned turns).map some) := by simpa using hW.lists
  refine ⟨s', turns, ⟨least, fun steps hsteps => ?_⟩, hvisited.orderly, by
    simpa using hW.order.symm, hW.originals,
    hW.fresh, hlists, fun q i y hq hy => (hvisited.orderly.entry hq hlists (by simp [hy])).1⟩
  have hrun := run_bind_of_ok (hrun steps hsteps) (f := fun _ => pure PUnit.unit)
  show d.engine.traverse steps s = _
  unfold Engine.traverse
  rw [run_onTree_bind hrun₁]
  unfold Engine.onFrame at hrun
  simp only [bind_assoc] at hrun
  exact hrun

/-! ## a visitor of all statements -/

/-- The handlers are called on all statements. -/
def SelfEditor.dispatch (v : SelfEditor σ) : Dispatch (Watch σ) where
  typed := [⟨.ofType (.ofGroup .statement), .enter, v.enter⟩,
    ⟨.ofType (.ofGroup .statement), .exit, v.exit⟩]

theorem SelfEditor.drives (v : SelfEditor σ) : v.Drives v.dispatch := by
  refine ⟨nofun, fun x hx => ?_⟩
  simp only [SelfEditor.dispatch, List.mem_cons, List.not_mem_nil, or_false] at hx
  obtain rfl | rfl := hx <;> rfl

theorem SelfEditor.watches (v : SelfEditor σ) {ty : NodeType} (h : ty.isA .statement = true) :
    v.dispatch.Watches ty := by
  have hcovers : VisitKey.covers (.ofType (.ofGroup .statement)) ty = true := h
  refine ⟨rfl, fun phase => ?_, fun phase x hx => ?_⟩
  · cases phase <;> simp [SelfEditor.dispatch, Dispatch.generalHandlers, Dispatch.entries, hcovers]
  · have hx : x ∈ v.dispatch.typed := (List.mem_filter.1 hx).1
    simp only [SelfEditor.dispatch, List.mem_cons, List.not_mem_nil, or_false] at hx
    obtain rfl | rfl := hx <;> rfl

theorem SelfEditor.sees (v : SelfEditor σ) (h : a.isA (some n) .statement = true) :
    v.dispatch.Sees a n := by
  refine ⟨h, fun ty hty => v.watches ?_⟩
  simpa [Arena.isA, hty] using h

theorem exists_emptyStatements (ha : a.WellOwned) : ∃ b c, emptyStatement a = .ok ⟨a.size⟩ b
    ∧ emptyStatement b = .ok ⟨a.size + 1⟩ c ∧ Arena.Grows (fun _ => True) a c
    ∧ ∀ x ∈ [(⟨a.size⟩ : NodeId), ⟨a.size + 1⟩], x.index < c.size ∧ c.parentOf (some x) = none
      ∧ c.type? (some x) = some .emptyStatement ∧ c.children (some x) = [] := by
  have hmake {a : Arena} (ha : a.WellOwned) : ∃ b, emptyStatement a = .ok ⟨a.size⟩ b ∧ b.WellOwned
      ∧ Makes a b ⟨a.size⟩ .emptyStatement [] := by
    obtain ⟨b, hrun⟩ : ∃ b, alloc .emptyStatement [] a = .ok ⟨a.size⟩ b := ⟨_, rfl⟩
    exact ⟨b, hrun, wellOwned_of_ok ha (stays_owned_alloc _ _) (stays_shaped_alloc _ _) hrun,
      (ends_alloc a .emptyStatement []).of_ok hrun⟩
  obtain ⟨b, hrun, hb, hmakes⟩ := hmake ha
  obtain ⟨c, hrun', hc, hmakes'⟩ := hmake hb
  have hsize : c.size = a.size + 2 := by rw [hmakes'.size, hmakes.size]
  rw [hmakes.size] at hrun' hmakes'
  have hlt : (⟨a.size⟩ : NodeId).index < b.size := by simp [hmakes.size]
  refine ⟨b, c, hrun, hrun', (Arena.Grows.of_makes hb hmakes nofun).trans
    (.of_makes hc hmakes' nofun), fun x hx => ?_⟩
  simp only [List.mem_cons, List.not_mem_nil, or_false] at hx
  obtain rfl | rfl := hx
  · exact ⟨by simp [hsize], (hmakes'.parent _).trans hmakes.unowned_new,
      (hmakes'.type_old hlt).trans hmakes.type, (hmakes'.children_old hlt).trans hmakes.children⟩
  · exact ⟨by simp [hsize], hmakes'.unowned_new, hmakes'.type, hmakes'.children⟩

def threeDebuggers : Arena := runAll [
  .alloc .debuggerStatement [], .alloc .debuggerStatement [], .alloc .debuggerStatement [],
  .alloc .blockStatement [.list [], .list [some ⟨0⟩, some ⟨1⟩, some ⟨2⟩]],
  .alloc .program [.str "module", .list [], .list [some ⟨3⟩]]]

/-- The first statement is removed, empty ones are put around the second, and two come in place of
the third. -/
def threeEdits : SelfEditor Unit where
  choose n _ _ :=
    if n = ⟨0⟩ then return (.remove, ()) else if n = ⟨1⟩ ∨ n = ⟨2⟩ then do
      let x ← emptyStatement
      let y ← emptyStatement
      return (if n = ⟨1⟩ then .insert [(.before, [x]), (.after, [y])]
        else .replaceInline [x, y], ())
    else return (.stay, ())
  leave _ _ _ := ()

theorem reworks_threeEdits : threeEdits.Reworks threeEdits.dispatch ⟨4⟩ ⟨3⟩ (fun _ => True)
    threeDebuggers [⟨0⟩, ⟨1⟩, ⟨2⟩] 1 where
  drives := threeEdits.drives
  owned := wellOwned_runAll _
  root := by decide
  within := .single (show threeDebuggers.parentOf (some ⟨3⟩) = some ⟨4⟩ by decide)
  block := ⟨.blockStatement, by decide, .inr rfl⟩
  lists := ⟨_, rfl, rfl⟩
  admitted _ _ _ _ := rfl
  sees o ho := by
    refine threeEdits.sees ?_
    revert o
    decide
  keeps := ⟨trivial, fun _ _ => trivial⟩
  quiet n hn t own := ⟨(), by
    simp only [List.mem_cons, List.not_mem_nil, or_false, not_or] at hn
    simp only [threeEdits, hn.1, hn.2.1, hn.2.2, or_self, if_false]
    rfl⟩
  edits turns o rest t w ht hW := by
    have ho : o ∈ ([⟨0⟩, ⟨1⟩, ⟨2⟩] : List NodeId) := by
      rw [hW.order]
      simp
    have hsize : 5 ≤ t.arena.size := hW.relists.size
    obtain ⟨b, c, hrun, hrun', hgrows, hnew⟩ := exists_emptyStatements hW.relists.owned
    have hloose : Loose ⟨4⟩ c [⟨t.arena.size⟩, ⟨t.arena.size + 1⟩] := by
      refine ⟨by simp, fun x hx => (hnew x hx).1, fun x hx => (hnew x hx).2.1, ?_⟩
      simp
      omega
    have hfresh : ∀ x ∈ [(⟨t.arena.size⟩ : NodeId), ⟨t.arena.size + 1⟩],
        x ∉ ([⟨0⟩, ⟨1⟩, ⟨2⟩] : List NodeId)
        ∧ threeEdits.dispatch.Sees c x ∧ c.Shallow 1 x := fun x hx => by
      obtain ⟨-, -, hty, hchildren⟩ := hnew x hx
      refine ⟨?_, threeEdits.sees (by rw [Arena.isA, hty]; rfl), fun y hy => ?_⟩
      · simp only [List.mem_cons, List.not_mem_nil, or_false] at hx ⊢
        obtain rfl | rfl := hx <;> simp <;> omega
      · rw [hchildren] at hy
        cases hy
    have hmake (f : NodeId → NodeId → SelfEdit × Unit) : (do
        let x ← emptyStatement
        let y ← emptyStatement
        return f x y) t.arena = .ok (f ⟨t.arena.size⟩ ⟨t.arena.size + 1⟩) c := by
      rw [run_bind_of_ok hrun, run_bind_of_ok hrun']
      rfl
    simp only [List.mem_cons, List.not_mem_nil, or_false] at ho
    obtain rfl | rfl | rfl := ho
    · exact ⟨.remove, (), t.arena, rfl, .refl hW.relists.owned, .nil _ _,
        fun x hx => absurd hx List.not_mem_nil⟩
    · exact ⟨_, (), c, hmake fun x y => (.insert [(.before, [x]), (.after, [y])], ()), hgrows,
        hloose, hfresh⟩
    · exact ⟨_, (), c, hmake fun x y => (.replaceInline [x, y], ()), hgrows, hloose, hfresh⟩

/-- The three statements are edited while they are visited. -/
theorem runs_threeEdits : ∃ s' turns,
    Runs threeEdits.dispatch.traverse ⟨ofArena threeDebuggers (some ⟨4⟩) { noScope := true },
      ⟨[], ()⟩⟩ ⟨⟩ s' ∧ s'.tree.Orderly ⟨4⟩ ∧ turns.map (·.1) = [⟨0⟩, ⟨1⟩, ⟨2⟩]
      ∧ (∀ x ∈ turns, s'.own.on x.1 = x.2.events x.1)
      ∧ (∀ x ∈ turns, ∀ y ∈ x.2.fresh, s'.own.on y = [.entered y .stay, .exited y])
      ∧ s'.tree.arena.Lists ⟨3⟩ "body" ((turned turns).map some)
      ∧ ∀ p i y, s'.tree.Live p y → (turned turns)[i]? = some y →
      s'.tree.slot p = .entry "body" i :=
  reworks_threeEdits.runs_traverse (k := 3) (orderly_ofArena (wellOwned_runAll _)
    (by decide) (by decide) rfl)
    (fun _ => rfl) rfl (.child .root (show (⟨3⟩ : NodeId) ∈ threeDebuggers.children (some ⟨4⟩) by
      decide)) (by decide)
    (by decide) (by decide)

end ScopedTree
