import ScopedTree.Proofs.Path.Branches

/-!
# Common ancestors

The deepest common ancestor of some paths is where their ancestries, read from the root down, part.
The branches that lead on from there are ordered like their nodes, so the first of them does not
depend on the order in which the paths are given.

* `Tree.commonBeginning_prefix`, `Tree.prefix_commonBeginning`   the longest common beginning;
* `Tree.Deepest`               the common ancestor that all others are above;
* `Tree.BranchTo`, `Tree.FirstBranchTo`   the branches below it, and the first of them;
* `Tree.exists_common`         what is found for paths just looked up;
* `Tree.Reached.common_ancestors`   **common ancestors do not depend on the order of the paths**.
-/

namespace ScopedTree.Tree

open Arena Relation

variable {t : Tree} {k : Nat} {p q c d e : PathId} {m n o r : NodeId} {ps qs : List PathId}
  {ns : List NodeId} {s : Slot}

/-! ## what is meant -/

/-- The path is one of `ps` or an ancestor of it, for each of `ps`. -/
def AboveAll (t : Tree) (ps : List PathId) (e : PathId) : Prop :=
  ∀ p ∈ ps, e = p ∨ t.isAncestor e p = true

/-- The path is above all of `ps`, and every other such path is among its ancestors. -/
structure Deepest (t : Tree) (ps : List PathId) (d : PathId) : Prop where
  above : t.AboveAll ps d
  below : ∀ e, t.AboveAll ps e → e = d ∨ t.isAncestor e d = true

/-- The path `c` stands below `d`, on the way to one of `ps`. -/
def BranchTo (t : Tree) (ps : List PathId) (d c : PathId) : Prop :=
  t.parentPath c = some d ∧ ∃ p ∈ ps, c = p ∨ t.isAncestor c p = true

/-- Of the children of the node of `d`, in the order of fields and entries, that of `c` comes before
that of `c'`. -/
def VisitedFirst (t : Tree) (d c c' : PathId) : Prop :=
  ∃ o m m', t.node d = some o ∧ t.node c = some m ∧ t.node c' = some m'
    ∧ [m, m'].Sublist (t.arena.children (some o))

/-- Of the branches that lead from `d` to some of `ps`, the path `c` is the one that is visited
first. -/
structure FirstBranchTo (t : Tree) (ps : List PathId) (d c : PathId) : Prop where
  leads : t.BranchTo ps d c
  first : ∀ c', t.BranchTo ps d c' → c' = c ∨ t.VisitedFirst d c c'

/-- The path is `d` itself if that is one of `ps`, and otherwise the first branch that leads to
some. -/
def Earliest (t : Tree) (ps : List PathId) (d e : PathId) : Prop :=
  (d ∈ ps → e = d) ∧ (d ∉ ps → t.FirstBranchTo ps d e)

theorem mem_ancestry_iff_isAncestor : e ∈ t.ancestry p ↔ e = p ∨ t.isAncestor e p = true := by
  show e ∈ p :: t.ancestors p ↔ e = p ∨ (t.ancestors p).contains e = true
  rw [List.mem_cons, List.contains_iff_mem]

theorem aboveAll_iff : t.AboveAll ps e ↔ ∀ p ∈ ps, e ∈ t.ancestry p :=
  forall₂_congr fun _ _ => mem_ancestry_iff_isAncestor.symm

/-! ## common beginnings -/

theorem go_begins : ∀ (first : List PathId) (others : List (List PathId)),
    commonBeginning.go first others <+: first ∧ ∀ l ∈ others, commonBeginning.go first others <+: l
  | [], _ => ⟨List.nil_prefix, fun _ _ => List.nil_prefix⟩
  | p :: ps, others => by
    unfold commonBeginning.go
    split
    · next hall =>
      obtain ⟨hfirst, hothers⟩ := go_begins ps (others.map (·.drop 1))
      refine ⟨List.cons_prefix_cons.2 ⟨rfl, hfirst⟩, fun l hl => ?_⟩
      have hhead := List.all_eq_true.1 hall l hl
      cases l with
      | nil => cases hhead
      | cons q l =>
        obtain rfl : q = p := by simpa using hhead
        exact List.cons_prefix_cons.2 ⟨rfl, hothers l (List.mem_map_of_mem (f := (·.drop 1)) hl)⟩
    · exact ⟨List.nil_prefix, fun _ _ => List.nil_prefix⟩

theorem begins_go : ∀ (begin first : List PathId) (others : List (List PathId)), begin <+: first →
    (∀ l ∈ others, begin <+: l) → begin <+: commonBeginning.go first others
  | [], _, _, _, _ => List.nil_prefix
  | p :: begin, [], _, h, _ => absurd (List.prefix_nil.1 h) (List.cons_ne_nil _ _)
  | p :: begin, q :: first, others, h, hothers => by
    obtain ⟨rfl, hrest⟩ := List.cons_prefix_cons.1 h
    have hall : others.all (·.head? == some p) = true := by
      refine List.all_eq_true.2 fun l hl => ?_
      obtain ⟨rest, rfl⟩ := hothers l hl
      simp
    unfold commonBeginning.go
    rw [if_pos hall]
    refine List.cons_prefix_cons.2 ⟨rfl, begins_go begin first _ hrest fun l hl => ?_⟩
    obtain ⟨l', hl', rfl⟩ := List.mem_map.1 hl
    obtain ⟨rest, rfl⟩ := hothers l' hl'
    exact ⟨rest, rfl⟩

theorem commonBeginning_prefix {ls : List (List PathId)} {l : List PathId} (hl : l ∈ ls) :
    commonBeginning ls <+: l := by
  cases ls with
  | nil => cases hl
  | cons first rest =>
    rcases List.mem_cons.1 hl with rfl | hl
    · exact (go_begins l rest).1
    · exact (go_begins first rest).2 l hl

theorem prefix_commonBeginning {ls : List (List PathId)} {begin : List PathId} (hne : ls ≠ [])
    (h : ∀ l ∈ ls, begin <+: l) : begin <+: commonBeginning ls := by
  cases ls with
  | nil => exact absurd rfl hne
  | cons first rest =>
    exact begins_go begin first rest (h first (List.mem_cons_self ..)) fun l hl =>
      h l (List.mem_cons_of_mem _ hl)

/-! ## the deepest common ancestor -/

def AllFresh (t : Tree) (ps : List PathId) : Prop := ∀ p ∈ ps, ∃ n, t.Fresh p n

theorem Fresh.prefix_of_mem (ha : t.arena.Owned) (hrooted : t.Rooted k) (hp : t.Fresh p n)
    (he : e ∈ t.ancestry p) :
    (t.ancestry e).reverse <+: (t.ancestry p).reverse := by
  obtain ⟨-, l, -, -, hl⟩ := hp.of_mem_ancestry ha hrooted he
  rw [hl, List.reverse_append]
  exact List.prefix_append ..

theorem Fresh.exists_top (h : t.Fresh p n) :
    ∃ q r, t.rootPath = some q ∧ t.root = some r ∧ t.Fresh q r := by
  induction h with
  | top hp hr hn => exact ⟨_, _, hp, hr, .top hp hr hn⟩
  | child _ _ ih => exact ih

theorem Fresh.top_mem_ancestry (ha : t.arena.Owned) (hrooted : t.Rooted k) (hp : t.Fresh p n)
    (hr : t.root = some r) (hq : t.Fresh q r) : q ∈ t.ancestry p := by
  obtain ⟨above, hu⟩ := hp.under hr
  exact (hp.mem_ancestry_iff ha hrooted hq).2 (hu.reaches_root ha)

theorem Fresh.eq_of_prefix (ha : t.arena.Owned) (hrooted : t.Rooted k) (hp : t.Fresh p n)
    {begin : List PathId} (h : begin ++ [d] <+: (t.ancestry p).reverse) :
    d ∈ t.ancestry p ∧ begin ++ [d] = (t.ancestry d).reverse := by
  have hd : d ∈ t.ancestry p := List.mem_reverse.1 (h.subset (by simp))
  obtain ⟨-, l, -, -, hl⟩ := hp.of_mem_ancestry ha hrooted hd
  obtain ⟨rest, hrest⟩ := h
  have hsplit : t.ancestry p = rest.reverse ++ d :: begin.reverse := by
    rw [← List.reverse_reverse (t.ancestry p), ← hrest]
    simp
  have hl : t.ancestry p = l ++ d :: t.ancestors d := hl
  -- `d` is on the way once, so both splits of the way at `d` are the same
  have hnodup := hp.ancestry_nodup ha hrooted
  rw [hl, List.nodup_middle, List.nodup_cons, List.mem_append, not_or] at hnodup
  obtain ⟨-, -, habove⟩ :=
    (List.append_cons_inj_of_notMem hnodup.1.1 hnodup.1.2).1 (hsplit.symm.trans hl).symm
  exact ⟨hd, by simp [Tree.ancestry, habove]⟩

/-- **The ancestries part below one path**, the deepest that is above all. -/
theorem exists_deepest (ha : t.arena.Owned) (hrooted : t.Rooted k) (hps : t.AllFresh ps)
    (hne : ps ≠ []) :
    ∃ d o, t.Fresh d o ∧ t.Deepest ps d ∧ commonBeginning (t.rootFirst ps)
      = (t.ancestry d).reverse := by
  obtain ⟨p, hp⟩ := List.exists_mem_of_ne_nil ps hne
  obtain ⟨n, hfresh⟩ := hps p hp
  obtain ⟨q, r, hq, hr, htop⟩ := hfresh.exists_top
  have hls : t.rootFirst ps ≠ [] := fun h => hne (List.map_eq_nil_iff.1 h)
  have hbegin (e : PathId) (he : t.AboveAll ps e) :
      (t.ancestry e).reverse <+: commonBeginning (t.rootFirst ps) := by
    refine prefix_commonBeginning hls fun l hl => ?_
    obtain ⟨p, hp, rfl⟩ := List.mem_map.1 hl
    obtain ⟨n, hfresh⟩ := hps p hp
    exact hfresh.prefix_of_mem ha hrooted (aboveAll_iff.1 he p hp)
  -- the path of the root is above all, so the common beginning is not empty
  have habove : t.AboveAll ps q := aboveAll_iff.2 fun p hp => by
    obtain ⟨n, hfresh⟩ := hps p hp
    exact hfresh.top_mem_ancestry ha hrooted hr htop
  have hnonempty : commonBeginning (t.rootFirst ps) ≠ [] := fun h => by
    have := hbegin q habove
    rw [h, List.prefix_nil, List.reverse_eq_nil_iff] at this
    exact List.cons_ne_nil _ _ this
  obtain ⟨begin, d, hsplit⟩ := (List.eq_nil_or_concat' _).resolve_left hnonempty
  have hd (p : PathId) (hp : p ∈ ps) : d ∈ t.ancestry p ∧ begin ++ [d]
      = (t.ancestry d).reverse := by
    obtain ⟨n, hfresh⟩ := hps p hp
    refine hfresh.eq_of_prefix ha hrooted ?_
    rw [← hsplit]
    exact commonBeginning_prefix (List.mem_map_of_mem (f := fun p => (t.ancestry p).reverse) hp)
  have heq := hsplit.trans (hd p hp).2
  obtain ⟨o, -, hdo, -, -⟩ := hfresh.of_mem_ancestry ha hrooted (hd p hp).1
  refine ⟨d, o, hdo, ⟨aboveAll_iff.2 fun p hp => (hd p hp).1, fun e he => ?_⟩, heq⟩
  rw [← mem_ancestry_iff_isAncestor, ← List.mem_reverse, ← heq]
  exact (hbegin e he).subset (List.mem_reverse.2 (Fresh.self_mem_ancestry t e))

theorem deepestCommon_of_begin (h : commonBeginning (t.rootFirst ps) = (t.ancestry d).reverse) :
    t.deepestCommon ps = some d := by
  unfold deepestCommon
  rw [h, List.getLast?_reverse]
  rfl

/-! ## the branches below -/

theorem Branch.leads (h : t.Branch p n d o c m) (hp : p ∈ ps) : t.BranchTo ps d c := by
  obtain ⟨s, hs⟩ := h.serves
  exact ⟨hs.parentPath, p, hp, mem_ancestry_iff_isAncestor.1 h.mem_ancestry⟩

theorem BranchTo.serves (ha : t.arena.Owned) (hrooted : t.Rooted k) (hps : t.AllFresh ps)
    (hd : t.Fresh d o) (h : t.BranchTo ps d c) : ∃ m s, t.Serves d o s c m := by
  obtain ⟨hparent, p, hp, hc⟩ := h
  obtain ⟨n, hfresh⟩ := hps p hp
  obtain ⟨m, -, hc, -, -⟩ := hfresh.of_mem_ancestry ha hrooted (mem_ancestry_iff_isAncestor.2 hc)
  cases hc with
  | top hc _ _ => cases (hrooted.crown c hc).symm.trans hparent
  | child hq h =>
    obtain rfl := Option.some.inj (h.parentPath.symm.trans hparent)
    obtain rfl := Option.some.inj (hq.node.symm.trans hd.node)
    exact ⟨m, _, h⟩

theorem nextAfter (ha : t.arena.Owned) (hrooted : t.Rooted k) (hps : t.AllFresh ps)
    (hd : t.Deepest ps d) (hp : p ∈ ps) :
    p = d ∧ (t.ancestry p).reverse[(t.ancestry d).reverse.length]? = none
      ∨ p ≠ d ∧ ∃ c, t.BranchTo ps d c ∧ c ∈ t.ancestry p
        ∧ (t.ancestry p).reverse[(t.ancestry d).reverse.length]? = some c := by
  obtain ⟨n, hfresh⟩ := hps p hp
  by_cases hpd : p = d
  · subst hpd
    exact .inl ⟨rfl, List.getElem?_eq_none le_rfl⟩
  · obtain rfl | ⟨o, c, m, hbranch⟩ := hfresh.branch ha hrooted (aboveAll_iff.1 hd.above p hp)
    · exact absurd rfl hpd
    · obtain ⟨l, hl⟩ := hbranch.ancestry
      refine .inr ⟨hpd, c, hbranch.leads hp, hbranch.mem_ancestry, ?_⟩
      rw [hl, List.reverse_append, List.reverse_cons, List.append_assoc,
        List.getElem?_append_right le_rfl, Nat.sub_self]
      rfl

theorem foldl_first {α : Type} {before : α → α → Bool} : ∀ (l : List α) (x : α),
    (∀ y ∈ x :: l, ∀ z ∈ x :: l, y = z ∨ before y z = true ∨ before z y = true) →
    (∀ y ∈ x :: l, ∀ z ∈ x :: l, ∀ w ∈ x :: l, before y z = true → before z w = true →
      before y w = true) →
    ∃ f, l.foldl (fun first y => if before y first then y else first) x = f ∧ f ∈ x :: l
      ∧ ∀ y ∈ x :: l, y = f ∨ before f y = true
  | [], x, _, _ => ⟨x, rfl, List.mem_singleton_self x, fun y hy => .inl (List.mem_singleton.1 hy)⟩
  | y :: l, x, htotal, htrans => by
    -- the one that is kept comes before the other
    obtain ⟨x', hx', hmem, hx, hy⟩ : ∃ x', (if before y x then y else x) = x' ∧ x' ∈ [x, y]
        ∧ (x = x' ∨ before x' x = true) ∧ (y = x' ∨ before x' y = true) := by
      by_cases h : before y x = true
      · exact ⟨y, if_pos h, by simp, .inr h, .inl rfl⟩
      · refine ⟨x, if_neg h, by simp, .inl rfl, ?_⟩
        rcases htotal x (by simp) y (by simp) with heq | hxy | hyx
        · exact .inl heq.symm
        · exact .inr hxy
        · exact absurd hyx h
    have hsub {z : α} (hz : z ∈ x' :: l) : z ∈ x :: y :: l := by
      rcases List.mem_cons.1 hz with rfl | hz
      · exact List.mem_append_left l hmem
      · exact List.mem_cons_of_mem _ (List.mem_cons_of_mem _ hz)
    obtain ⟨f, hf, hfmem, hfirst⟩ := foldl_first l x' (fun z hz w hw =>
      htotal z (hsub hz) w (hsub hw))
      fun z hz w hw v hv => htrans z (hsub hz) w (hsub hw) v (hsub hv)
    have hafter {z : α} (hzmem : z ∈ x :: y :: l) (hz : z = x' ∨ before x' z = true) : z = f
        ∨ before f z = true := by
      rcases hfirst x' (List.mem_cons_self ..) with rfl | hfx
      · exact hz
      · rcases hz with rfl | hz
        · exact .inr hfx
        · exact .inr (htrans f (hsub hfmem) x' (hsub (List.mem_cons_self ..)) z hzmem hfx hz)
    refine ⟨f, ?_, hsub hfmem, fun z hz => ?_⟩
    · rw [List.foldl_cons, hx', hf]
    · rcases List.mem_cons.1 hz with rfl | hz'
      · exact hafter hz hx
      · rcases List.mem_cons.1 hz' with rfl | hz'
        · exact hafter hz hy
        · exact hfirst z (List.mem_cons_of_mem _ hz')

theorem branches_eq (ha : t.arena.Owned) (hrooted : t.Rooted k) (hps : t.AllFresh ps)
    (hd : t.Deepest ps d) (hmem : d ∉ ps) : ∃ bs : List PathId,
      (t.rootFirst ps).map (·[(t.ancestry d).reverse.length]?) = bs.map some ∧ ∀ c, c ∈ bs
      ↔ t.BranchTo ps d c := by
  have hdp (p : PathId) (hp : p ∈ ps) : d ∈ t.ancestry p := aboveAll_iff.1 hd.above p hp
  have hchoose : ∀ l : List PathId, (∀ p ∈ l, p ∈ ps) →
      ∃ bs : List PathId, l.map (fun p => (t.ancestry p).reverse[(t.ancestry d).reverse.length]?)
        = bs.map some ∧ ∀ c, c ∈ bs ↔ t.parentPath c = some d ∧ ∃ p ∈ l, c ∈ t.ancestry p := by
    intro l hl
    induction l with
    | nil => exact ⟨[], rfl, by simp⟩
    | cons p l ih =>
      obtain ⟨bs, hbs, hiff⟩ := ih fun q hq => hl q (List.mem_cons_of_mem _ hq)
      have hp := hl p (List.mem_cons_self ..)
      rcases nextAfter ha hrooted hps hd hp with ⟨rfl, -⟩ | ⟨-, c, hleads, hc, hnext⟩
      · exact absurd hp hmem
      refine ⟨c :: bs, by rw [List.map_cons, hnext, hbs]; rfl, fun c' => ?_⟩
      rw [List.mem_cons, hiff]
      constructor
      · rintro (rfl | ⟨hparent, q, hq, hc'⟩)
        · exact ⟨hleads.1, p, List.mem_cons_self .., hc⟩
        · exact ⟨hparent, q, List.mem_cons_of_mem _ hq, hc'⟩
      · rintro ⟨hparent, q, hq, hc'⟩
        rcases List.mem_cons.1 hq with rfl | hq
        · -- there is one branch below an ancestor
          left
          obtain ⟨n, hfresh⟩ := hps q hp
          obtain ⟨o, -, hdo, -, -⟩ := hfresh.of_mem_ancestry ha hrooted (hdp q hp)
          obtain ⟨m, s, hs⟩ := BranchTo.serves ha hrooted hps hdo hleads
          obtain ⟨m', s', hs'⟩ := BranchTo.serves ha hrooted hps hdo
            ⟨hparent, q, hp, mem_ancestry_iff_isAncestor.1 hc'⟩
          exact hfresh.branch_unique ha hrooted hdo hs' hs hc' hc
        · exact .inr ⟨hparent, q, hq, hc'⟩
  obtain ⟨bs, hbs, hiff⟩ := hchoose ps fun _ h => h
  refine ⟨bs, ?_, fun c => (hiff c).trans (and_congr_right fun _ => ?_)⟩
  · rw [← hbs]
    exact List.map_map ..
  · exact exists_congr fun p => and_congr_right fun _ => mem_ancestry_iff_isAncestor

theorem comesBefore_irrefl (t : Tree) (p : PathId) : t.comesBefore p p = false := by
  unfold comesBefore
  cases t.arena.type? (t.parentNode p) with
  | none => rfl
  | some ty =>
    simp only [beq_self_eq_true, if_true]
    cases (t.slot p).index? with
    | none => rfl
    | some i => exact decide_eq_false (Nat.lt_irrefl i)

theorem BranchTo.comesBefore_iff (ha : t.arena.Owned) (hrooted : t.Rooted k) (hps : t.AllFresh ps)
    (hd : t.Fresh d o) (hc : t.BranchTo ps d c) (he : t.BranchTo ps d e) :
    t.comesBefore c e = true ↔ t.VisitedFirst d c e := by
  obtain ⟨m, s, hs⟩ := hc.serves ha hrooted hps hd
  obtain ⟨m', s', hs'⟩ := he.serves ha hrooted hps hd
  have hvisited : t.VisitedFirst d c e ↔ [m, m'].Sublist (t.arena.children (some o)) := by
    constructor
    · rintro ⟨_, _, _, ho, hm, hm', h⟩
      rwa [Option.some.inj (hs.node.symm.trans hm), Option.some.inj (hs'.node.symm.trans hm'),
        Option.some.inj (hd.node.symm.trans ho)]
    · exact fun h => ⟨o, m, m', hd.node, hs.node, hs'.node, h⟩
  rw [hvisited]
  by_cases hnodes : m = m'
  · subst hnodes
    obtain rfl := (hd.child hs).unique ha (hd.child hs')
    rw [comesBefore_irrefl]
    exact ⟨fun h => absurd h Bool.false_ne_true, fun h =>
      absurd h (pair_asymm (ha.nodup_children o) h)⟩
  · exact hs.comesBefore_iff ha hs' hnodes

theorem BranchTo.comesBefore_total (ha : t.arena.Owned) (hrooted : t.Rooted k) (hps : t.AllFresh ps)
    (hd : t.Fresh d o) (hc : t.BranchTo ps d c) (he : t.BranchTo ps d e) :
    c = e ∨ t.comesBefore c e = true ∨ t.comesBefore e c = true := by
  obtain ⟨m, s, hs⟩ := hc.serves ha hrooted hps hd
  obtain ⟨m', s', hs'⟩ := he.serves ha hrooted hps hd
  by_cases hnodes : m = m'
  · subst hnodes
    exact .inl ((hd.child hs).unique ha (hd.child hs'))
  · exact .inr (hs.comesBefore_total hs' hnodes)

theorem VisitedFirst.trans (ha : t.arena.Owned) (h : t.VisitedFirst d c e)
    (h' : t.VisitedFirst d e p) :
    t.VisitedFirst d c p := by
  obtain ⟨o, m, m', ho, hm, hm', h⟩ := h
  obtain ⟨_, _, m₂, ho', hm₁, hm₂, h'⟩ := h'
  obtain rfl := Option.some.inj (ho.symm.trans ho')
  obtain rfl := Option.some.inj (hm'.symm.trans hm₁)
  exact ⟨o, m, m₂, ho, hm, hm₂, pair_trans (ha.nodup_children o) h h'⟩

theorem VisitedFirst.asymm (ha : t.arena.Owned) (h : t.VisitedFirst d c e) :
    ¬ t.VisitedFirst d e c := by
  obtain ⟨o, m, m', ho, hm, hm', h⟩ := h
  rintro ⟨_, _, _, ho', hm₁, hm₂, h'⟩
  obtain rfl := Option.some.inj (ho.symm.trans ho')
  obtain rfl := Option.some.inj (hm'.symm.trans hm₁)
  obtain rfl := Option.some.inj (hm.symm.trans hm₂)
  exact pair_asymm (ha.nodup_children o) h h'

theorem getLast?_ancestry_reverse (t : Tree) (d : PathId) :
    (t.ancestry d).reverse.getLast? = some d := by
  rw [List.getLast?_reverse]
  rfl

theorem earliestCommon_of_mem (hbegin : commonBeginning (t.rootFirst ps) = (t.ancestry d).reverse)
    (hmem : d ∈ ps) :
    t.earliestCommon ps = some d := by
  have hnone : ((t.rootFirst ps).map (·[(t.ancestry d).reverse.length]?)).any Option.isNone
      = true := by
    refine List.any_eq_true.2 ⟨none, ?_, rfl⟩
    refine List.mem_map.2 ⟨(t.ancestry d).reverse, ?_, List.getElem?_eq_none le_rfl⟩
    exact List.mem_map_of_mem (f := fun p => (t.ancestry p).reverse) hmem
  unfold earliestCommon
  simp only [hbegin, getLast?_ancestry_reverse, hnone, if_true]

theorem earliestCommon_of_not_mem (ha : t.arena.Owned) (hrooted : t.Rooted k) (hps : t.AllFresh ps)
    (hne : ps ≠ []) (hfresh : t.Fresh d o) (hd : t.Deepest ps d)
    (hbegin : commonBeginning (t.rootFirst ps) = (t.ancestry d).reverse) (hmem : d ∉ ps) :
    ∃ c, t.earliestCommon ps = some c ∧ t.FirstBranchTo ps d c := by
  obtain ⟨bs, hbs, hiff⟩ := branches_eq ha hrooted hps hd hmem
  have hall : (bs.map some).any Option.isNone = false := by simp
  have hreduce : (bs.map some).reduceOption = bs := by simp [List.reduceOption, List.filterMap_map]
  have hrun : t.earliestCommon ps = t.firstBranch bs := by
    unfold earliestCommon
    simp only [hbegin, getLast?_ancestry_reverse, hbs, hall, hreduce, Bool.false_eq_true, if_false]
  cases bs with
  | nil => exact absurd (List.map_eq_nil_iff.1 (List.map_eq_nil_iff.1 hbs)) hne
  | cons b bs =>
    have hbefore {y z : PathId} (hy : y ∈ b :: bs) (hz : z ∈ b :: bs) :=
      BranchTo.comesBefore_iff ha hrooted hps hfresh ((hiff y).1 hy) ((hiff z).1 hz)
    obtain ⟨c, hc, hcmem, hfirst⟩ := foldl_first bs b
      (fun y hy z hz => BranchTo.comesBefore_total ha hrooted hps hfresh ((hiff y).1 hy)
        ((hiff z).1 hz))
      fun y hy z hz w hw hyz hzw =>
        (hbefore hy hw).2 (((hbefore hy hz).1 hyz).trans ha ((hbefore hz hw).1 hzw))
    refine ⟨c, by rw [hrun]; exact congrArg some hc, (hiff c).1 hcmem, fun c' hc' => ?_⟩
    have hc'mem := (hiff c').2 hc'
    exact (hfirst c' hc'mem).imp id (hbefore hcmem hc'mem).1

/-! ## the order of the paths -/

theorem Deepest.unique (ha : t.arena.Owned) (hrooted : t.Rooted k) (hc : t.Fresh c m)
    (hd : t.Fresh d o) (h : t.Deepest ps c) (h' : t.Deepest ps d) : c = d := by
  have hcd := mem_ancestry_iff_isAncestor.2 (h'.below c h.above)
  have hdc := mem_ancestry_iff_isAncestor.2 (h.below d h'.above)
  have hom := (hd.mem_ancestry_iff ha hrooted hc).1 hcd
  have hmo := (hc.mem_ancestry_iff ha hrooted hd).1 hdc
  rcases reflTransGen_iff_eq_or_transGen.1 hom with rfl | hom
  · exact hc.unique ha hd
  · exact absurd (hom.trans_left hmo) (ha.acyclic o)

theorem FirstBranchTo.unique (ha : t.arena.Owned) (h : t.FirstBranchTo ps d c)
    (h' : t.FirstBranchTo ps d e) : c = e := by
  rcases h.first e h'.leads with rfl | hce
  · rfl
  rcases h'.first c h.leads with rfl | hec
  · rfl
  · exact absurd hec (hce.asymm ha)

theorem AboveAll.of_same (hsame : ∀ p, p ∈ qs ↔ p ∈ ps) (h : t.AboveAll ps e) : t.AboveAll qs e :=
  fun p hp => h p ((hsame p).1 hp)

theorem Deepest.of_same (hsame : ∀ p, p ∈ qs ↔ p ∈ ps) (h : t.Deepest ps d) : t.Deepest qs d :=
  ⟨h.above.of_same hsame, fun e he => h.below e (he.of_same fun p => (hsame p).symm)⟩

theorem BranchTo.of_same (hsame : ∀ p, p ∈ qs ↔ p ∈ ps) (h : t.BranchTo ps d c) :
    t.BranchTo qs d c :=
  ⟨h.1, h.2.imp fun p hp => ⟨(hsame p).2 hp.1, hp.2⟩⟩

theorem FirstBranchTo.of_same (hsame : ∀ p, p ∈ qs ↔ p ∈ ps) (h : t.FirstBranchTo ps d c) :
    t.FirstBranchTo qs d c :=
  ⟨h.leads.of_same hsame, fun c' hc' => h.first c' (hc'.of_same fun p => (hsame p).symm)⟩

theorem Earliest.of_same (hsame : ∀ p, p ∈ qs ↔ p ∈ ps) (h : t.Earliest ps d e) :
    t.Earliest qs d e :=
  ⟨fun hmem => h.1 ((hsame d).1 hmem), fun hmem =>
    (h.2 fun hin => hmem ((hsame d).2 hin)).of_same hsame⟩

theorem Earliest.unique (ha : t.arena.Owned) (h : t.Earliest ps d c)
    (h' : t.Earliest ps d e) : c = e := by
  by_cases hmem : d ∈ ps
  · exact (h.1 hmem).trans (h'.1 hmem).symm
  · exact (h.2 hmem).unique ha (h'.2 hmem)

/-- **What is found for fresh paths** is their deepest common ancestor and the earliest. -/
theorem exists_common (ha : t.arena.Owned) (hrooted : t.Rooted k) (hps : t.AllFresh ps)
    (hne : ps ≠ []) :
    ∃ d o e, t.Fresh d o ∧ t.deepestCommon ps = some d ∧ t.Deepest ps d
      ∧ t.earliestCommon ps = some e ∧ t.Earliest ps d e := by
  obtain ⟨d, o, hfresh, hd, hbegin⟩ := exists_deepest ha hrooted hps hne
  have hcommon := deepestCommon_of_begin hbegin
  by_cases hmem : d ∈ ps
  · exact ⟨d, o, d, hfresh, hcommon, hd, earliestCommon_of_mem hbegin hmem, fun _ => rfl,
      fun hnot => absurd hmem hnot⟩
  · obtain ⟨e, he, hfirst⟩ := earliestCommon_of_not_mem ha hrooted hps hne hfresh hd hbegin hmem
    exact ⟨d, o, e, hfresh, hcommon, hd, he, fun hin => absurd hin hmem, fun _ => hfirst⟩

/-- **Common ancestors do not depend on the order of the paths.** In a tree in use the nodes of
which have single owners, the paths of some nodes below the root are looked up. The deepest common
ancestor is the path that is one of them or above, for each, and below which there is no other such.
The earliest is the same path if it is one of them, and else the branch below it that leads to one
of them and is visited before all others that do. Both are the same for all lists with the same
members. -/
theorem Reached.common_ancestors (h : t.Reached) (ha : t.arena.WellOwned)
    (hns : ∀ n ∈ ns, t.InReach n) (hne : ns ≠ []) :
    ∃ (path : NodeId → PathId) (t' : Tree), lookUp ns t = .ok (ns.map fun n => some (path n)) t'
      ∧ ∃ d e, t'.deepestCommon (ns.map path) = some d ∧ t'.Deepest (ns.map path) d
        ∧ t'.earliestCommon (ns.map path) = some e ∧ t'.Earliest (ns.map path) d e
        ∧ ∀ qs, (∀ p, p ∈ qs ↔ p ∈ ns.map path) →
            t'.deepestCommon qs = some d ∧ t'.earliestCommon qs = some e := by
  obtain ⟨path, t', hrun, ht', hfresh⟩ := h.ends_lookUp ha hns
  have howned : t'.arena.Owned := ht'.arena ▸ ha.owned
  have hps : t'.AllFresh (ns.map path) := fun p hp => by
    obtain ⟨n, hn, rfl⟩ := List.mem_map.1 hp
    exact ⟨n, hfresh n hn⟩
  have hne' : ns.map path ≠ [] := fun hnil => hne (List.map_eq_nil_iff.1 hnil)
  obtain ⟨d, o, e, hd, hcommon, hdeepest, hfound, hearliest⟩ :=
    exists_common howned ht'.rooted hps hne'
  refine ⟨path, t', hrun, d, e, hcommon, hdeepest, hfound, hearliest, fun qs hsame => ?_⟩
  have hqs : t'.AllFresh qs := fun q hq => hps q ((hsame q).1 hq)
  have hqne : qs ≠ [] := by
    rintro rfl
    exact hne' (List.eq_nil_iff_forall_not_mem.2 fun p hp => List.not_mem_nil ((hsame p).2 hp))
  obtain ⟨d', o', e', hd', hcommon', hdeepest', hfound', hearliest'⟩ :=
    exists_common howned ht'.rooted hqs hqne
  obtain rfl := hdeepest'.unique howned ht'.rooted hd' hd (hdeepest.of_same hsame)
  obtain rfl := hearliest'.unique howned (hearliest.of_same hsame)
  exact ⟨hcommon', hfound'⟩

def nestedArrays : Arena := runAll [
  .alloc .identifier [.str "a", .node none],
  .alloc .identifier [.str "b", .node none],
  .alloc .identifier [.str "c", .node none],
  .alloc .arrayExpression [.list [some ⟨1⟩, some ⟨2⟩]],
  .alloc .arrayExpression [.list [some ⟨0⟩, some ⟨3⟩]],
  .alloc .expressionStatement [.node (some ⟨4⟩)],
  .alloc .program [.str "module", .list [], .list [some ⟨5⟩]]]

/-- For `c`, `b` and `a`, in this order or another, the same ancestors are found. -/
theorem common_ancestors_nestedArrays : ∃ (path : NodeId → PathId) (t' : Tree),
    lookUp [⟨2⟩, ⟨1⟩, ⟨0⟩] (ofArena nestedArrays (some ⟨6⟩))
        = .ok ([⟨2⟩, ⟨1⟩, ⟨0⟩].map fun n => some (path n)) t'
      ∧ ∃ d e, t'.deepestCommon [path ⟨2⟩, path ⟨1⟩, path ⟨0⟩] = some d
        ∧ t'.earliestCommon [path ⟨2⟩, path ⟨1⟩, path ⟨0⟩] = some e
        ∧ t'.deepestCommon [path ⟨0⟩, path ⟨1⟩, path ⟨2⟩, path ⟨1⟩] = some d
        ∧ t'.earliestCommon [path ⟨0⟩, path ⟨1⟩, path ⟨2⟩, path ⟨1⟩] = some e := by
  have houter : nestedArrays.Under ⟨6⟩ ⟨4⟩ [⟨5⟩, ⟨6⟩] :=
    .child (.child .root (by decide +kernel)) (by decide +kernel)
  have hinner : nestedArrays.Under ⟨6⟩ ⟨3⟩ [⟨4⟩, ⟨5⟩, ⟨6⟩] := .child houter (by decide +kernel)
  have hns : ∀ n ∈ [⟨2⟩, ⟨1⟩, ⟨0⟩], (ofArena nestedArrays (some ⟨6⟩)).InReach n := by
    simp only [List.forall_mem_cons, List.not_mem_nil, IsEmpty.forall_iff, implies_true, and_true]
    exact ⟨⟨⟨6⟩, _, rfl, .child hinner (by decide +kernel), by decide⟩,
      ⟨⟨6⟩, _, rfl, .child hinner (by decide +kernel), by decide⟩,
      ⟨⟨6⟩, _, rfl, .child houter (by decide +kernel), by decide⟩⟩
  obtain ⟨path, t', hrun, d, e, hd, -, he, -, hsame⟩ :=
    (Reached.start nestedArrays (some ⟨6⟩) {}).common_ancestors (wellOwned_runAll _) hns (by simp)
  obtain ⟨hd', he'⟩ := hsame [path ⟨0⟩, path ⟨1⟩, path ⟨2⟩, path ⟨1⟩] fun p => by
    simp only [List.map_cons, List.map_nil, List.mem_cons, List.not_mem_nil, or_false]
    constructor
    · rintro (h | h | h | h) <;> simp only [h, true_or, or_true]
    · rintro (h | h | h) <;> simp only [h, true_or, or_true]
  exact ⟨path, t', hrun, d, e, hd, he, hd', he'⟩

end ScopedTree.Tree
