import ScopedTree.Proofs.Edit.Marked
import ScopedTree.Proofs.Edit.Forget
import ScopedTree.Proofs.Edit.Splice

/-!
# Entries that go

An entry of a list is removed, or a loose node takes its place. In a tree in order that succeeds,
the paths below the entry go out of use, and the tree is in order again.

* `Tree.Reseats`             paths stand elsewhere, before what is below the entry goes;
* `Tree.Clears`              what is below the entry goes;
* `Tree.Departs`             an entry went with all below it;
* `Tree.Orderly.ends_remove`, `ends_replaceWith`   the changes.
-/

namespace ScopedTree.Tree

open Arena Relation

variable {t t' u : Tree} {p q : PathId} {m n o r x : NodeId} {list : String}
  {items : List (Option NodeId)} {i : Nat} {d : Departure}

theorem existingScope_writeArena (t : Tree) (a : Arena) (p : PathId) :
    existingScope { t with arena := a } p = t.existingScope p := by
  have h : ∀ fuel q, ancestorsFrom { t with arena := a } fuel q = t.ancestorsFrom fuel q := by
    intro fuel
    induction fuel with
    | zero => exact fun _ => rfl
    | succ fuel ih =>
      intro q
      cases q with
      | none => rfl
      | some q => exact congrArg (q :: ·) (ih _)
  unfold existingScope ancestry ancestors
  rw [h]
  rfl

/-! ## what goes out of use -/

/-- The list of `m` changed and paths in use stand where their nodes do. Only `p` may hold another
node. -/
structure Reseats (p : PathId) (m : NodeId) (list : String) (t u : Tree) : Prop where
  relists : Relists m list t.arena u.arena
  root : u.root = t.root
  rootPath : u.rootPath = t.rootPath
  options : u.options = t.options
  lists : u.childPaths = t.childPaths
  scopes : u.scopeOfNode = t.scopeOfNode
  bindings : u.bindings = t.bindings
  paths : u.paths.size = t.paths.size
  frames : u.frames = t.frames
  depth : u.depth = t.depth
  nextContext : u.nextContext = t.nextContext
  stand : ∀ q, u.parentPath q = t.parentPath q ∧ u.parentNode q = t.parentNode q
    ∧ (u.slot q = .root ↔ t.slot q = .root) ∧ (u.path q).control = (t.path q).control
  used : ∀ q, (u.path q).removed = (t.path q).removed
  node : ∀ q, q ≠ p → u.node q = t.node q
  fresh : ∀ q n, u.Live q n → (u.path q).stale = false
  holds : ∀ q n o, u.Live q n → t.Live q n → q ≠ p → t.slot q ≠ .root → t.parentNode q = some o →
    u.arena.slotAt (some o) (u.slot q) = some n

namespace Reseats

variable (h : t.Orderly r) (hp : t.Live p o) (hom : t.arena.OwnedBy o m) (hu : Reseats p m list t u)

include h hom hu

theorem within_iff : ReflTransGen u.arena.OwnedBy n o ↔ ReflTransGen t.arena.OwnedBy n o :=
  hu.relists.within_iff h.owned hom.lt fun hm => h.owned.acyclic o (.head' hom hm)

omit hu in
theorem root_stays : ¬ ReflTransGen t.arena.OwnedBy r o := fun hr => by
  rcases ReflTransGen.cases_head hr with rfl | ⟨k, hk, -⟩
  · cases h.free.symm.trans hom
  · cases h.free.symm.trans hk

include hp

theorem path_invalidated (hold : d.old = o) (hholder : d.holder = none ∨ d.holder = some p)
    {paths : Array PathData} {scopes : Array ScopeData} {scopeOfNode : IndexTable ScopeId}
    (hpath : ∀ q, ({ u with paths, scopes, scopeOfNode } : Tree).path q
      = if (∃ k ∈ u.arena.preorder (some d.old), q ∈ u.cachedPaths (some k)) ∧ d.marks u q = true
        then (u.path q).gone else u.path q) :
    ({ u with paths, scopes, scopeOfNode } : Tree).path p = u.path p ∧ ∀ q, q ≠ p →
      (∀ n, t.Live q n → ReflTransGen t.arena.OwnedBy n o →
        ({ u with paths, scopes, scopeOfNode } : Tree).path q = (u.path q).gone)
      ∧ ((∀ n, t.Live q n → ¬ ReflTransGen t.arena.OwnedBy n o) →
        ({ u with paths, scopes, scopeOfNode } : Tree).path q = u.path q) := by
  have howned : u.arena.Owned := hu.relists.owned.owned
  have hcached (k : NodeId) : u.cachedPaths (some k) = t.cachedPaths (some k) := by
    unfold cachedPaths
    rw [hu.lists]
  have hlt : o.index < u.arena.size := hom.lt.trans_le hu.relists.size
  have hpre (k : NodeId) : k ∈ u.arena.preorder (some d.old)
      ↔ ReflTransGen t.arena.OwnedBy k o := by
    rw [hold, mem_preorder howned hlt, within_iff h hom hu]
  refine ⟨?_, fun q hqp => ⟨fun n hq hn => ?_, fun hn => ?_⟩⟩
  · rw [hpath, if_neg]
    rintro ⟨⟨k, hk, hmem⟩, -⟩
    -- the path is listed under the owner of the entry
    rw [hpre] at hk
    rw [hcached] at hmem
    obtain ⟨-, -, hlisted, -⟩ := h.sits hp hom
    obtain rfl := Option.some.inj (h.filed.once _ _ p hlisted hmem)
    exact h.owned.acyclic o (.head' hom hk)
  · have hne : n ≠ o := fun hne => hqp (h.sole q p o (hne ▸ hq) hp)
    obtain ⟨k, hnk, hk⟩ : ∃ k, t.arena.OwnedBy n k ∧ ReflTransGen t.arena.OwnedBy k o := by
      rcases ReflTransGen.cases_head hn with rfl | ⟨k, hnk, hk⟩
      · exact absurd rfl hne
      · exact ⟨k, hnk, hk⟩
    obtain ⟨-, -, hlisted, -⟩ := h.sits hq hnk
    rw [hpath, if_pos]
    refine ⟨⟨k, (hpre k).2 hk, hcached k ▸ hlisted⟩, ?_⟩
    have hin : u.arena.isWithin (some n) (some o) = true :=
      (isWithin_iff howned).2 ((within_iff h hom hu).2 hn)
    have hholder : (some q != d.holder) = true := by
      rcases hholder with hd | hd <;> simp [hd, hqp]
    unfold Departure.marks Departure.inOld
    rw [hholder, hu.used, hq.used, hu.node q hqp, hq.node, hold, hin]
    rfl
  · rw [hpath, if_neg]
    rintro ⟨-, hmarks⟩
    unfold Departure.marks Departure.inOld at hmarks
    rw [hu.node q hqp, hu.used, hold] at hmarks
    simp only [Bool.and_eq_true, Bool.not_eq_true', Option.isSome_iff_exists] at hmarks
    obtain ⟨⟨-, hused⟩, ⟨n, hnode⟩, hin⟩ := hmarks
    rw [hnode] at hin
    exact hn n ⟨hnode, hused⟩ ((within_iff h hom hu).1 ((isWithin_iff howned).1 hin))

end Reseats

/-- Then the paths of what hangs under the entry `o` of `m` went. The path of the entry went too, or
it holds a node that no path held and that stands in its place. -/
structure Clears (p : PathId) (o m : NodeId) (t u w : Tree) : Prop where
  books : ∃ paths scopes scopeOfNode, w = { u with paths, scopes, scopeOfNode }
    ∧ paths.size = u.paths.size ∧ ∀ i, scopeOfNode.get? i = none
  self : w.path p = (u.path p).gone ∧ u.node p = some o
    ∨ w.path p = u.path p ∧ ∃ x, u.node p = some x ∧ x.index < u.arena.size ∧ (∀ k, ¬ t.Live k x)
      ∧ u.arena.slotAt (some m) (u.slot p) = some x
  others : ∀ q, q ≠ p →
    (∀ n, t.Live q n → ReflTransGen t.arena.OwnedBy n o → w.path q = (u.path q).gone)
    ∧ ((∀ n, t.Live q n → ¬ ReflTransGen t.arena.OwnedBy n o) → w.path q = u.path q)

namespace Clears

variable {w : Tree}

theorem path_cases (hw : Clears p o m t u w) (q : PathId) :
    w.path q = (u.path q).gone ∨ w.path q = u.path q := by
  by_cases hqp : q = p
  · exact hqp ▸ hw.self.imp And.left And.left
  · by_cases hq : ∃ n, t.Live q n ∧ ReflTransGen t.arena.OwnedBy n o
    · obtain ⟨n, hq, hn⟩ := hq
      exact .inl ((hw.others q hqp).1 n hq hn)
    · exact .inr ((hw.others q hqp).2 fun n hq' hn => hq ⟨n, hq', hn⟩)

theorem place (hw : Clears p o m t u w) (q : PathId) : w.node q = u.node q
    ∧ w.parentPath q = u.parentPath q ∧ w.parentNode q = u.parentNode q ∧ w.slot q = u.slot q
    ∧ (w.path q).contexts = (u.path q).contexts ∧ (w.path q).stale = (u.path q).stale := by
  unfold Tree.node Tree.parentPath Tree.parentNode Tree.slot
  rcases hw.path_cases q with hq | hq <;> rw [hq] <;> exact ⟨rfl, rfl, rfl, rfl, rfl, rfl⟩

theorem path_of_used (hw : Clears p o m t u w) (hq : (w.path q).removed = false) :
    w.path q = u.path q := by
  rcases hw.path_cases q with hq' | hq'
  · rw [hq'] at hq
    cases hq
  · exact hq'

theorem live (hw : Clears p o m t u w) (hq : w.Live q n) : u.Live q n :=
  ⟨(hw.place q).1.symm.trans hq.node,
    (congrArg PathData.removed (hw.path_of_used hq.used)).symm.trans hq.used⟩

theorem live_of_ne (hu : Reseats p m list t u) (hw : Clears p o m t u w) (hq : w.Live q n)
    (hqp : q ≠ p) :
    t.Live q n ∧ ¬ ReflTransGen t.arena.OwnedBy n o := by
  have hlive : t.Live q n := ⟨(hu.node q hqp).symm.trans (hw.live hq).node,
    (hu.used q).symm.trans (hw.live hq).used⟩
  refine ⟨hlive, fun hn => ?_⟩
  have hgone := hq.used
  rw [(hw.others q hqp).1 n hlive hn] at hgone
  cases hgone

theorem live_self (hw : Clears p o m t u w) (hq : w.Live p n) :
    (∀ k, ¬ t.Live k n) ∧ u.arena.slotAt (some m) (u.slot p) = some n := by
  rcases hw.self with ⟨hgone, -⟩ | ⟨-, x, hx, -, hnot, hslot⟩
  · have hq := hq.used
    rw [hgone] at hq
    cases hq
  · obtain rfl : x = n := Option.some.inj (hx.symm.trans (hw.live hq).node)
    exact ⟨hnot, hslot⟩

theorem node_cases (hp : t.Live p o) (hu : Reseats p m list t u) (hw : Clears p o m t u w)
    (hn : w.node q = some n) : t.node q = some n ∨ n.index < u.arena.size := by
  rw [(hw.place q).1] at hn
  by_cases hqp : q = p
  · subst hqp
    rcases hw.self with ⟨-, ho⟩ | ⟨-, x, hx, hlt, -⟩
    · exact .inl (hp.node.trans (ho.symm.trans hn))
    · exact .inr (Option.some.inj (hx.symm.trans hn) ▸ hlt)
  · exact .inl ((hu.node q hqp).symm.trans hn)

theorem keeps (hp : t.Live p o) (hu : Reseats p m list t u) (hw : Clears p o m t u w)
    (hq : t.Live q n) (hn : ¬ ReflTransGen t.arena.OwnedBy n o) : w.Live q n := by
  have hqp : q ≠ p := by
    rintro rfl
    exact hn (hq.unique hp ▸ .refl)
  have hpath := (hw.others q hqp).2 fun k hk => hq.unique hk ▸ hn
  exact ⟨(congrArg PathData.node hpath).trans ((hu.node q hqp).trans hq.node),
    (congrArg PathData.removed hpath).trans ((hu.used q).trans hq.used)⟩

theorem holds (h : t.Orderly r) (hp : t.Live p o) (hom : t.arena.OwnedBy o m)
    (hu : Reseats p m list t u) (hw : Clears p o m t u w) {o' : NodeId} (hq : w.Live q n)
    (hs : t.slot q ≠ .root) (ho : t.parentNode q = some o') :
    u.arena.slotAt (some o') (w.slot q) = some n := by
  rw [(hw.place q).2.2.2.1]
  by_cases hqp : q = p
  · subst hqp
    obtain ⟨-, hsits, -⟩ := h.sits hp hom
    obtain rfl : m = o' := Option.some.inj (hsits.parent.symm.trans ho)
    exact (hw.live_self hq).2
  · exact hu.holds q n o' (hw.live hq) (hw.live_of_ne hu hq hqp).1 hqp hs ho

/-- **What is refitted**: paths of what hangs under the entry go out of use, and the path of the
entry goes too, or holds another node that stands in its place. -/
theorem refits (h : t.Orderly r) (hp : t.Live p o) (hom : t.arena.OwnedBy o m)
    (hu : Reseats p m list t u) (hw : Clears p o m t u w)
    (hfree : u.arena.parentOf (some r) = none) :
    Refits r (fun n => ReflTransGen t.arena.OwnedBy n o) p t w := by
  obtain ⟨paths, scopes, scopeOfNode, rfl, hsize, hscopes⟩ := hw.books
  exact {
    arena := hu.relists.owned
    size := hu.relists.size
    free := hfree
    root := hu.root
    rootPath := hu.rootPath
    options := hu.options
    lists := hu.lists
    scopes := fun i => (hscopes i).trans (h.scopeless i).symm
    bindings := congrArg Array.size hu.bindings
    paths := hsize.trans hu.paths
    depth := hu.depth
    nextContext := hu.nextContext
    stand := fun q => by
      obtain ⟨-, hparentPath, hparent, hslot, hcontexts, -⟩ := hw.place q
      obtain ⟨hparentPath', hparent', hroot, hcontrol⟩ := hu.stand q
      exact ⟨hparentPath.trans hparentPath', hparent.trans hparent', by rw [hslot]; exact hroot,
        hcontexts.trans (congrArg Prod.fst hcontrol)⟩
    node := fun _ n hn => show _ ∨ n.index < u.arena.size from hw.node_cases hp hu hn
    still := fun q hq => by
      rcases hw.path_cases q with hq' | hq' <;> rw [hq']
      · rfl
      · exact (hu.used q).trans hq
    calm := fun q hq hr => by
      rw [hw.path_of_used hr]
      exact (congrArg Prod.snd (hu.stand q).2.2.2).trans hq
    live := fun _ _ hq hn => hw.keeps hp hu hq hn
    old := fun q n hq => by
      by_cases hqp : q = p
      · subst hqp
        exact .inr ⟨rfl, (hw.live_self hq).1⟩
      · exact .inl (hw.live_of_ne hu hq hqp)
    fresh := fun q n hq => (hw.place q).2.2.2.2.2.trans (hu.fresh q n (hw.live hq))
    holds := fun _ n o' hq hs ho => show u.arena.slotAt (some o') _ = some n from
      hw.holds h hp hom hu hq hs ho }

end Clears

namespace Reseats

variable (h : t.Orderly r) (hp : t.Live p o) (hom : t.arena.OwnedBy o m) (hu : Reseats p m list t u)

include h hom hu hp

theorem exists_gone (hself : u.node p = some o) (hfree : u.arena.parentOf (some r) = none)
    (enclosing : Option ScopeId) :
    ∃ w, (invalidate ⟨o, none, none, enclosing⟩ u).markRemoved p = w ∧ w.Orderly r
      ∧ Lasts (fun n => ReflTransGen t.arena.OwnedBy n o) t w ∧ w.arena = u.arena
      ∧ w.frames = t.frames
      ∧ (w.path p).removed = true ∧ (w.path p).shouldStop = (t.path p).shouldStop := by
  have hscopeless : ∀ i, u.scopeOfNode.get? i = none :=
    fun i => by rw [hu.scopes]; exact h.scopeless i
  have hbindingless : u.bindings.size = 0 := by rw [hu.bindings]; exact h.bindingless
  obtain ⟨paths, scopes, scopeOfNode, hinvalidate, hsize, hscopes, hpath⟩ :=
    exists_invalidated ⟨o, none, none, enclosing⟩ hscopeless hbindingless
  obtain ⟨hkept, hothers⟩ := hu.path_invalidated h hp hom rfl (.inl rfl) hpath
  have hlt : p.index < paths.size := by
    rw [hsize, hu.paths]
    exact hp.lt
  have hmark : (({ u with paths, scopes, scopeOfNode } : Tree).markRemoved p).path p
      = (u.path p).gone :=
    (path_updatePath_self _ _ hlt).trans (congrArg PathData.gone hkept)
  have hrefits : Refits r (fun n => ReflTransGen t.arena.OwnedBy n o) p t
      (({ u with paths, scopes, scopeOfNode } : Tree).markRemoved p) :=
    Clears.refits h hp hom hu
      ⟨⟨_, scopes, scopeOfNode, rfl, (size_updatePath ..).trans hsize, hscopes⟩,
        .inl ⟨hmark, hself⟩,
        fun q hqp => ⟨fun n hq hn => (path_updatePath_ne _ _ hqp).trans ((hothers q hqp).1 n hq hn),
          fun hn => (path_updatePath_ne _ _ hqp).trans ((hothers q hqp).2 hn)⟩⟩ hfree
  have horderly := hrefits.orderly h (root_stays h hom) (fun n k hnk hk => .head hnk hk)
    fun n hn _ => by
    have hused := hn.used
    rw [hmark] at hused
    cases hused
  exact ⟨_, by rw [hinvalidate], horderly, hrefits.lasts, rfl, hu.frames,
    congrArg PathData.removed hmark,
    (congrArg PathData.shouldStop hmark).trans (congrArg (·.2.2.1) (hu.stand p).2.2.2)⟩

theorem exists_filled (hself : u.node p = some x) (hlt : x.index < u.arena.size)
    (hnot : ∀ k, ¬ t.Live k x) (hslot : u.arena.slotAt (some m) (u.slot p) = some x)
    (hfree : u.arena.parentOf (some r) = none) (enclosing : Option ScopeId) :
    ∃ w, invalidate ⟨o, some x, some p, enclosing⟩ u = w ∧ w.Orderly r
      ∧ Lasts (fun n => ReflTransGen t.arena.OwnedBy n o) t w ∧ w.arena = u.arena
      ∧ w.frames = t.frames ∧ w.Live p x := by
  have hscopeless : ∀ i, u.scopeOfNode.get? i = none :=
    fun i => by rw [hu.scopes]; exact h.scopeless i
  have hbindingless : u.bindings.size = 0 := by rw [hu.bindings]; exact h.bindingless
  obtain ⟨paths, scopes, scopeOfNode, hinvalidate, hsize, hscopes, hpath⟩ :=
    exists_invalidated ⟨o, some x, some p, enclosing⟩ hscopeless hbindingless
  obtain ⟨hkept, hothers⟩ := hu.path_invalidated h hp hom rfl (.inr rfl) hpath
  have hrefits : Refits r (fun n => ReflTransGen t.arena.OwnedBy n o) p t
      { u with paths, scopes, scopeOfNode } :=
    Clears.refits h hp hom hu ⟨⟨paths, scopes, scopeOfNode, rfl, hsize, hscopes⟩,
      .inr ⟨hkept, x, hself, hlt, hnot, hslot⟩, hothers⟩ hfree
  have horderly := hrefits.orderly h (root_stays h hom) (fun n k hnk hk => .head hnk hk)
    fun n _ _ =>
    ⟨o, hp, fun k hk hko => h.owned.acyclic o (.head' hk hko)⟩
  exact ⟨_, hinvalidate, horderly, hrefits.lasts, rfl, hu.frames,
    (congrArg PathData.node hkept).trans hself,
    (congrArg PathData.removed hkept).trans ((hu.used p).trans hp.used)⟩

end Reseats

/-! ## an entry that is removed -/

theorem exists_shareComments (hslot : t.slot p = .entry list i) (hp : t.node p = some o)
    (hparent : t.parentNode p = some m) (hl : t.arena.Lists m list items)
    (hi : items[i]? = some (some o)) :
    ∃ a, shareComments p t = .ok ⟨⟩ { t with arena := a } ∧ Shares items i t.arena a := by
  have hrun : ∃ t', shareComments p t = .ok ⟨⟩ t' := by
    unfold shareComments
    rw [run_get_bind, hslot, hp, hparent]
    dsimp only
    split
    · exact ⟨_, rfl⟩
    · rw [run_modify_bind, hl.list_eq, TreeM.ofShape, pure_bind]
      generalize (if i = 0 then none else items[i - 1]?) = before
      generalize items[i + 1]? = after
      cases before <;> cases after <;> exact ⟨_, rfl⟩
  obtain ⟨k, hk, hv⟩ := hl
  have hends := ends_shareComments hslot hp hparent hk hv hi
  obtain ⟨t', hrun⟩ := hrun
  obtain ⟨a, rfl, hshares⟩ := hends.of_ok hrun
  exact ⟨a, hrun, hshares⟩

/-- An entry was taken out of a list, and the paths of later ones moved along. -/
structure Withdrawn (p : PathId) (m o : NodeId) (list : String)
    (items : List (Option NodeId)) (i : Nat) (t : Tree) (a : Arena)
    (paths : Array PathData) : Prop where
  relists : Relists m list t.arena a
  lists : a.Lists m list (items.eraseIdx i)
  gone : a.parentOf (some o) = none
  unowned : ∀ y, t.arena.parentOf (some y) = none → some y ∉ items.eraseIdx i →
    a.parentOf (some y) = none
  slotAt : ∀ q s n, t.arena.slotAt (some q) s = some n → n ≠ o →
    a.slotAt (some q) (if q = m then s.shift list (i + 1) (· - 1) else s) = some n
  shifted : Shifted (some m) (moved list (i + 1) (· - 1)) (some p) { t with arena := a }
    { t with arena := a, paths }

/-- **An entry is taken out of its list**, and then what hangs under it is forgotten. -/
theorem exists_removePlain (ha : t.arena.WellOwned) (hf : t.Filed)
    (hslot : t.slot p = .entry list i) (hp : t.node p = some o) (hparent : t.parentNode p = some m)
    (hl : t.arena.Lists m list items) (hi : items[i]? = some (some o)) : ∃ a paths,
    Withdrawn p m o list items i t a paths
      ∧ removePlain p t = .ok ⟨⟩ ((invalidate ⟨o, none, none, (t.parentPath p).bind t.existingScope⟩
        { t with arena := a, paths }).markRemoved p) := by
  have hom : t.arena.OwnedBy o m := hl.owned ha.owned (List.mem_of_getElem? hi)
  obtain ⟨a, hshare, hshares⟩ := exists_shareComments hslot hp hparent hl hi
  have ha' := hshares.alike.wellOwned ha
  have hcontent : Relists m list t.arena a :=
    .of_content ha' hshares.alike.size.ge (ha.owned.owner_lt hom) fun n _ => hshares.content n
  have hl₁ : a.Lists m list items := by
    obtain ⟨k, hk, hv⟩ := hl
    have hm := hshares.content m
    rw [hk] at hm
    obtain ⟨k', hk', hm⟩ := Option.map_eq_some_iff.1 hm
    exact ⟨k', hk', by rwa [Node.value?_congr hm]⟩
  obtain ⟨b, hremove, hb, hover⟩ := exists_listRemove ha' hl₁ hi
  obtain ⟨hrelists, -, hl₂⟩ := Relists.of_overwrites hb hover
  obtain ⟨paths, hshift, hshifted⟩ := exists_shiftEntries (t := { t with arena := b })
    (hf.edited (hcontent.size.trans hrelists.size)) (some m) list (i + 1) (· - 1) (some p)
  have hremoved : removeFromOwner p { t with arena := a }
    = .ok ⟨⟩ { t with arena := b, paths } := by
    unfold removeFromOwner
    rw [run_get_bind, show Tree.slot { t with arena := a } p = .entry list i from hslot,
      show Tree.parentNode { t with arena := a } p = some m from hparent]
    exact (run_bind_of_ok (run_edit (t := { t with arena := a }) hremove)).trans hshift
  have henclosing : (parentPath { t with arena := a } p).bind (existingScope { t with arena := a })
      = (t.parentPath p).bind t.existingScope :=
    congrArg ((t.parentPath p).bind ·) (funext (existingScope_writeArena t a))
  refine ⟨b, paths, ⟨hcontent.trans hrelists, hl₂, hover.parentOf_erased ha'.owned hi,
    fun y hy hout =>
    hover.unowned (fun hmem => hout (mem_children_list.1 hmem)) ((hshares.alike.parent y).trans hy),
    fun q s n hs hn => ?_, hshifted⟩, ?_⟩
  · have hs₁ : a.slotAt (some q) s = some n := (hshares.alike.slotAt ..).trans hs
    by_cases hqm : q = m
    · subst hqm
      rw [if_pos rfl]
      refine (slotAt_erased hover ?_).trans hs₁
      rintro rfl
      rw [slotAt_held hover rfl] at hs₁
      exact hn (Option.some.inj ((congrArg Option.join hi).symm.trans hs₁)).symm
    · rw [if_neg hqm, slotAt_of_content (hover.content_ne hqm)]
      exact hs₁
  · unfold removePlain
    rw [run_get_bind, hp, run_bind_of_ok hshare, run_get_bind, run_bind_of_ok hremoved, henclosing]
    rfl

theorem removal_eq_plain {ty : NodeType} (hparent : t.parentPath p = some q)
    (hq : t.node q = some m) (hty : t.arena.type? (some m) = some ty)
    (hblock : ty = .program ∨ ty = .blockStatement) :
    t.removal p = .plain := by
  unfold removal
  rw [hparent]
  dsimp only
  rw [hq, hty]
  dsimp only
  have howner : t.removesOwner (some m) ty ((t.slot p).key?.getD "") = false := by
    unfold removesOwner
    obtain rfl | rfl := hblock <;> simp [show NodeType.isA .program .whileLoop = false by decide,
      show NodeType.isA .program .exportDeclaration = false by decide,
      show NodeType.isA .blockStatement .whileLoop = false by decide,
      show NodeType.isA .blockStatement .exportDeclaration = false by decide]
  rw [howner]
  obtain rfl | rfl := hblock <;> simp [show NodeType.isA .program .binary = false by decide,
    show NodeType.isA .program .loop = false by decide,
    show NodeType.isA .blockStatement .binary = false by decide,
    show NodeType.isA .blockStatement .loop = false by decide]

/-- An entry went with all that hangs under it, and the list holds `items` now. -/
structure Departs (r m o : NodeId) (list : String) (items : List (Option NodeId))
    (t t' : Tree) : Prop extends Lasts (fun n => ReflTransGen t.arena.OwnedBy n o) t t' where
  orderly : t'.Orderly r
  relists : Relists m list t.arena t'.arena
  lists : t'.arena.Lists m list items
  gone : t'.arena.parentOf (some o) = none
  unowned : ∀ y, t.arena.parentOf (some y) = none → some y ∉ items →
    t'.arena.parentOf (some y) = none

/-! ## an entry that another node takes the place of -/

theorem slotAt_replaced {a b : Arena} (hi : items[i]? = some (some o))
    (hwrite : Overwrites a b m list (.list items) (.list (items.set i (some x)))) :
    b.slotAt (some m) (.entry list i) = some x
      ∧ ∀ s n, a.slotAt (some m) s = some n → n ≠ o → b.slotAt (some m) s = some n := by
  have hlt : i < items.length := (List.getElem?_eq_some_iff.1 hi).1
  have hread (k : Nat) : b.slotAt (some m) (.entry list k) = (items.set i (some x))[k]?.join :=
    (slotAt_overwritten hwrite _).trans (if_pos rfl)
  refine ⟨by rw [hread, List.getElem?_set_self hlt]; rfl, fun s n hs hn => ?_⟩
  by_cases hkey : s.key? = some list
  · have hheld := (slotAt_held hwrite hkey).symm.trans hs
    cases s with
    | root => cases hs
    | field name => cases hheld
    | entry l j =>
      obtain rfl : l = list := Option.some.inj hkey
      have hs : items[j]?.join = some n := hheld
      have hij : i ≠ j := by
        rintro rfl
        rw [hi] at hs
        exact hn (Option.some.inj hs).symm
      rw [hread, List.getElem?_set_ne hij, hs]
  · rw [slotAt_overwritten hwrite, if_neg hkey]
    exact hs

theorem parentOf_replaced {a b : Arena} (ha : a.Owned) (hi : items[i]? = some (some o)) (hx : x ≠ o)
    (hwrite : Overwrites a b m list (.list items) (.list (items.set i (some x)))) :
    b.parentOf (some o) = none := by
  obtain ⟨k, -, hk, -, hv, -⟩ := hwrite.get?
  have hone : items.count (some o) ≤ 1 := by
    rw [← count_children_list]
    exact ha.count_field_le_one hk hv o
  have hset := mem_set_iff hi hone fun h => hx (Option.some.inj h).symm
  have hnot : o ∉ (Value.list (items.set i (some x))).children := fun hmem =>
    (hset.1 (mem_children_list.1 hmem)).2 rfl
  rw [hwrite.parent, if_neg hnot, if_pos (mem_children_list.2 (List.mem_of_getElem? hi))]

/-- The loose node `x` took the place of an entry of the list of `m`. -/
structure Swapped (m o x : NodeId) (list : String) (items : List (Option NodeId)) (i : Nat)
    (a b : Arena) : Prop where
  relists : Relists m list a b
  lists : b.Lists m list (items.set i (some x))
  here : b.slotAt (some m) (.entry list i) = some x
  slotAt : ∀ k s n, a.slotAt (some k) s = some n → n ≠ o → b.slotAt (some k) s = some n
  gone : b.parentOf (some o) = none
  unowned : ∀ y, a.parentOf (some y) = none → some y ∉ items.set i (some x) →
    b.parentOf (some y) = none

/-- The list is written, and comments are handed on then. -/
theorem exists_swapped {a : Arena} (ha : a.WellOwned) (hr : a.parentOf (some r) = none)
    (hm : ReflTransGen a.OwnedBy m r) (hx : Loose r a [x]) (hl : a.Lists m list items)
    (hi : items[i]? = some (some o)) (hxo : x ≠ o) :
    ∃ b, listSet (some m) list i (some x) a = .ok (some o) b
      ∧ Swapped m o x list items i a (b.handComments o x) := by
  obtain ⟨b, hset, hb, hover⟩ := exists_listSet ha hr hm hx hl hi
  obtain ⟨hrelists, -, hl₁⟩ := Relists.of_overwrites hb hover
  have hlt : m.index < b.size :=
    (ha.owned.owner_lt (hl.owned ha.owned (List.mem_of_getElem? hi))).trans_le hrelists.size
  have halike := alike_handComments b o x
  have hcontent (k : NodeId) : ((b.handComments o x).get? k).map Node.content
      = (b.get? k).map Node.content := by
    refine (content_update_of_eq ?_ (some x) k).trans (content_update_of_eq ?_ (some o) k) <;>
      exact fun _ => rfl
  obtain ⟨hhere, hthere⟩ := slotAt_replaced hi hover
  refine ⟨b, hset, hrelists.trans (.of_content (halike.wellOwned hb) halike.size.ge hlt fun k _ =>
    hcontent k), ?_, (halike.slotAt ..).trans hhere, fun k s n hk hn => ?_,
    (halike.parent o).trans (parentOf_replaced ha.owned hi hxo hover), fun y hy hout =>
      (halike.parent y).trans (hover.unowned (fun hmem => hout (mem_children_list.1 hmem)) hy)⟩
  · obtain ⟨k, hk, hv⟩ := hl₁
    have hk' := hcontent m
    rw [hk] at hk'
    obtain ⟨k', hk', hm⟩ := Option.map_eq_some_iff.1 hk'
    exact ⟨k', hk', by rwa [Node.value?_congr hm]⟩
  · refine (halike.slotAt ..).trans ?_
    by_cases hkm : k = m
    · exact hkm ▸ hthere s n (hkm ▸ hk) hn
    · rw [slotAt_of_content (hover.content_ne hkm)]
      exact hk

/-- The path of the entry holds the node, and no other path stands elsewhere. -/
theorem Swapped.reseats {a : Arena} (hw : Swapped m o x list items i t.arena a) (h : t.Orderly r)
    (hp : t.Live p o) : Reseats p m list t (({ t with arena := a } : Tree).updatePath p
      ({ · with node := some x, scope := none, stale := false })) := by
  have hself := path_updatePath_self ({ t with arena := a } : Tree)
    ({ · with node := some x, scope := none, stale := false }) hp.lt
  have hother (q : PathId) (hqp : q ≠ p) := path_updatePath_ne ({ t with arena := a } : Tree)
    ({ · with node := some x, scope := none, stale := false }) hqp
  have hsame {β : Type} (g : PathData → β) (hg : ∀ d : PathData,
      g { d with node := some x, scope := none, stale := false } = g d) (q : PathId) :=
    path_updatePath_congr { t with arena := a } p q _ g hg
  refine ⟨hw.relists, rfl, rfl, rfl, rfl, rfl, rfl, size_updatePath .., rfl, rfl, rfl,
    fun q => ⟨hsame (·.parentPath) (fun _ => rfl) q, hsame (·.parent) (fun _ => rfl) q,
      Eq.congr (hsame (·.slot) (fun _ => rfl) q) rfl, hsame (·.control) (fun _ => rfl) q⟩,
    hsame (·.removed) fun _ => rfl, fun q hqp => congrArg PathData.node (hother q hqp),
    fun q n hq => ?_, fun q n o' _ hq hqp hs ho => ?_⟩
  · by_cases hqp : q = p
    · rw [hqp, hself]
    · rw [hother q hqp]
      exact (h.seat q n ⟨(congrArg PathData.node (hother q hqp)).symm.trans hq.node,
        (congrArg PathData.removed (hother q hqp)).symm.trans hq.used⟩).fresh
  · have hn : n ≠ o := fun hn => hqp (h.sole q p o (hn ▸ hq) hp)
    obtain ⟨-, o'', -, -, hsits, -⟩ := (h.seat q n hq).below hs
    obtain rfl : o'' = o' := Option.some.inj (hsits.parent.symm.trans ho)
    have hold := hsits.holds
    rw [readSlot_eq _ _ hs] at hold
    rw [slot, hother q hqp]
    exact hw.slotAt o'' _ n hold hn

theorem Orderly.exists_requeued {F : Frame} {fs : List Frame} (h : t.Orderly r)
    (hcontexts : (t.path p).contexts = [F.id]) (hF : t.frames = F :: fs) :
    ∃ t', requeue p t = .ok ⟨⟩ t' ∧ t'.Orderly r ∧ Lasts (fun _ => False) t t' ∧ t'.arena = t.arena
      ∧ t'.frames = F.queue p true :: fs := by
  let f : PathData → PathData := ({ · with shouldSkip := false })
  have hkept (q : PathId) : ((t.updatePath p f).path q).contexts = (t.path q).contexts :=
    t.path_updatePath_congr p q f (·.contexts) fun _ => rfl
  have hqueue : queueNewPath p true (t.updatePath p f) = .ok ⟨⟩ (Bridge.withBooks (t.updatePath p f)
      (F.queue p true :: fs) t.nextContext t.depth) := by
    rw [queueNewPath_of_contexts true (by rw [hkept, hcontexts]; nofun), hkept, hcontexts]
    exact congrArg (EStateM.Result.ok PUnit.unit)
      (Bridge.updateFrame_top (t := t.updatePath p f) hF rfl (Frame.queue p true))
  have hnote : Remains (fun _ => False) t (t.updatePath p f) :=
    (Remains.refl _ t).note p (fun _ => rfl) fun d hd =>
      congrArg (fun flags : Bool × Bool × List String => (false, flags.2)) hd
  have horderly : (t.updatePath p f).Orderly r := h.note p (fun _ => rfl) fun _ _ => .inl
  exact ⟨_, (run_modify_bind ..).trans hqueue, horderly.withBooks _ le_rfl _,
    ⟨hnote.withBooks _ le_rfl, hkept⟩, rfl, rfl⟩

section Entry

variable (h : t.Orderly r) (hp : t.Live p o) (hl : t.arena.Lists m list items)
  (hi : items[i]? = some (some o))

include h hp hl hi

/-- **An entry is removed.** -/
theorem Orderly.ends_remove {ty : NodeType} (hty : t.arena.type? (some m) = some ty)
    (hblock : ty = .program ∨ ty = .blockStatement) :
    ∃ t', remove p t = .ok ⟨⟩ t' ∧ Departs r m o list (items.eraseIdx i) t t' ∧ t'.frames = t.frames
      ∧ (t'.path p).removed = true ∧ (t'.path p).shouldStop = (t.path p).shouldStop := by
  obtain ⟨hslot, hparent, hlisted, q, hq, hlive⟩ := h.entry hp hl hi
  have hom : t.arena.OwnedBy o m := hl.owned h.owned (List.mem_of_getElem? hi)
  obtain ⟨b, paths, hdrawn, hrun⟩ := exists_removePlain h.arena h.filed hslot hp.node hparent hl hi
  have hplace := hdrawn.shifted.place
  have hkeeps := hdrawn.shifted.keeps
  have hfree : b.parentOf (some r) = none := hdrawn.unowned r h.free fun hr => by
    cases h.free.symm.trans (hl.owned h.owned ((List.eraseIdx_sublist ..).mem hr))
  have hseats : Reseats p m list t { t with arena := b, paths } := by
    refine ⟨hdrawn.relists, rfl, rfl, rfl, rfl, rfl, rfl, hdrawn.shifted.size, rfl, rfl, rfl,
      fun q => ⟨(hkeeps q).1, (hplace q).2.1, (hplace q).2.2.2, (hkeeps q).2.1⟩,
        fun q => (hplace q).2.2.1,
      fun q _ => (hplace q).1, fun q n hq => ?_, fun q n o' _ hq hqp hs ho => ?_⟩
    · have hq : t.Live q n := ⟨(hplace q).1.symm.trans hq.node, (hplace q).2.2.1.symm.trans hq.used⟩
      exact (hkeeps q).2.2.trans (h.seat q n hq).fresh
    · have hn : n ≠ o := fun hn => hqp (h.sole q p o (hn ▸ hq) hp)
      obtain ⟨-, o'', -, -, hsits, -⟩ := (h.seat q n hq).below hs
      obtain rfl : o'' = o' := Option.some.inj (hsits.parent.symm.trans ho)
      have hold := hsits.holds
      rw [readSlot_eq _ _ hs] at hold
      rw [h.slot_shifted hdrawn.shifted hq hs ho (by simpa using hqp)]
      exact hdrawn.slotAt o'' _ n hold hn
  obtain ⟨w, hw, horderly, hlasts, harena, hframes, hremoved', hstop⟩ := hseats.exists_gone h hp hom
    ((hplace p).1.trans hp.node) hfree ((t.parentPath p).bind t.existingScope)
  refine ⟨w, ?_, ⟨hlasts, horderly, harena ▸ hdrawn.relists, harena ▸ hdrawn.lists,
    harena ▸ hdrawn.gone, harena ▸ hdrawn.unowned⟩, hframes, hremoved', hstop⟩
  rw [run_remove (h.assertLive_eq hp) (removal_eq_plain hq hlive.node hty hblock), hrun, hw]

theorem Orderly.exists_replaced {F : Frame} {fs : List Frame} (hx : Loose r t.arena [x])
    (hF : t.frames = F :: fs) (hcontexts : (t.path p).contexts = [F.id]) :
    ∃ t', replaceNode p x t = .ok ⟨⟩ t' ∧ Departs r m o list (items.set i (some x)) t t'
      ∧ t'.frames = F.queue p true :: fs ∧ t'.Live p x := by
  obtain ⟨hslot, hparent, hlisted, q, hq, hlive⟩ := h.entry hp hl hi
  have hom : t.arena.OwnedBy o m := hl.owned h.owned (List.mem_of_getElem? hi)
  have hunowned : t.arena.parentOf (some x) = none := hx.unowned x (List.mem_singleton_self x)
  have hxo : x ≠ o := by
    rintro rfl
    cases hunowned.symm.trans hom
  have hout : ¬ ReflTransGen t.arena.OwnedBy x o := fun hin => by
    rcases ReflTransGen.cases_head hin with he | ⟨k, hk, -⟩
    · exact hxo he
    · cases hunowned.symm.trans hk
  obtain ⟨b, hset, hswapped⟩ := exists_swapped h.arena h.free (h.within hlive) hx hl hi hxo
  let u : Tree := ({ t with arena := b.handComments o x } : Tree).updatePath p
    ({ · with node := some x, scope := none, stale := false })
  have hself : u.path p = { t.path p with node := some x, scope := none, stale := false } :=
    path_updatePath_self _ _ hp.lt
  have hnot (k : PathId) : ¬ t.Live k x := fun hk =>
    hx.ne_root x (List.mem_singleton_self x) (h.eq_of_unowned hk hunowned)
  have hfree : (b.handComments o x).parentOf (some r) = none := by
    refine hswapped.unowned r h.free fun hr => ?_
    rcases List.mem_or_eq_of_mem_set hr with hr | hr
    · cases h.free.symm.trans (hl.owned h.owned hr)
    · exact hx.ne_root x (List.mem_singleton_self x) (Option.some.inj hr).symm
  have hslot' : (b.handComments o x).slotAt (some m) (u.slot p) = some x := by
    rw [show u.slot p = .entry list i from (congrArg PathData.slot hself).trans hslot]
    exact hswapped.here
  have hxlt : x.index < (b.handComments o x).size :=
    (hx.present x (List.mem_singleton_self x)).trans_le hswapped.relists.size
  obtain ⟨w, hw, horderly, hlasts, harena, hframes, hlive'⟩ := (hswapped.reseats h hp).exists_filled
    h hp hom (congrArg PathData.node hself) hxlt hnot hslot' hfree none
  obtain ⟨w', hqueue, horderly', hlasts', harena', hframes'⟩ := horderly.exists_requeued
    ((hlasts.contexts p).trans hcontexts) (hframes.trans hF)
  rw [← harena'] at harena
  refine ⟨w', ?_, ⟨hlasts.trans hlasts' fun _ _ _ hf => hf.elim, horderly',
    harena ▸ hswapped.relists, harena ▸ hswapped.lists, harena ▸ hswapped.gone,
    harena ▸ hswapped.unowned⟩, hframes', hlasts'.live p x hlive' id⟩
  have hwrite : writeSlot p (some x) t = .ok (some o) { t with arena := b } := by
    unfold writeSlot
    rw [run_get_bind, show (t.path p).slot = .entry list i from hslot,
      show (t.path p).parent = some m from hparent]
    exact run_edit hset
  unfold replaceNode
  rw [run_get_bind, hp.node,
    if_pos (by simpa using hxo), run_bind_of_ok (run_takeFrom_of_outside h.owned hout)]
  dsimp only
  rw [run_get_bind, hq]
  dsimp only
  rw [if_pos h.off, pure_bind, run_bind_of_ok hwrite, run_moveComments, run_modify_bind,
    run_modify_bind]
  show (registerSubtree p >>= fun _ => requeue p) (invalidate ⟨o, some x, some p, none⟩ u) = _
  rw [hw, run_bind_of_ok (horderly.registerSubtree_eq p), hqueue]

/-- **A node takes the place of an entry**, and it is queued to be visited. -/
theorem Orderly.ends_replaceWith {F : Frame} {fs : List Frame} (hx : Loose r t.arena [x])
    (hF : t.frames = F :: fs) (hcontexts : (t.path p).contexts = [F.id])
    (hprogram : t.arena.is (some o) .program = false)
    (hexpr : t.arena.isA (some o) .expression = false)
    (hexpr' : t.arena.isA (some x) .expression = false) :
    ∃ t', replaceWith p (some x) t = .ok ⟨⟩ t' ∧ Departs r m o list (items.set i (some x)) t t'
      ∧ t'.frames = F.queue p true :: fs ∧ t'.Live p x := by
  obtain ⟨t', hrun, hdeparts⟩ := h.exists_replaced hp hl hi hx hF hcontexts
  obtain ⟨k, hk⟩ := Option.isSome_iff_exists.1
    (isSome_get?_iff.2 (hx.present x (List.mem_singleton_self x)))
  have hne : o ≠ x := by
    rintro rfl
    cases (hx.unowned o (List.mem_singleton_self o)).symm.trans
      (hl.owned h.owned (List.mem_of_getElem? hi) : t.arena.OwnedBy o m)
  have hkexpr : k.type.isA .expression = false := by
    simpa [Arena.isA, Arena.type?, hk] using hexpr'
  refine ⟨t', ?_, hdeparts⟩
  unfold replaceWith replaceSome
  dsimp only
  rw [run_bind_of_ok (h.assertLive_eq hp), run_get_bind, hp.node, if_neg (by simpa using hne), hk]
  simp only [nodeIs, nodeIsA, hp.node, hprogram, hexpr, hkexpr, Bool.false_and, Bool.and_false,
    Bool.false_eq_true, if_false, hrun]

end Entry

end ScopedTree.Tree
