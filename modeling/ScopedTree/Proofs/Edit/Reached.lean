import ScopedTree.Proofs.Edit.Passes
import ScopedTree.Proofs.Path.Resync

/-!
# Paths of a tree in use

Whatever is done to a tree, its paths can be brought in line with it: what a path then says about
where its node stands can be relied on.

* `Tree.Rooted.edits`         edits at known paths leave all other paths below the path of the root;
* `PathCall`                  what is asked of a tree through its paths;
* `Deed.Known`, `Editor.Known`   handlers that edit at paths they know to be there;
* `Tree.Reached`              trees that calls, passes and changes of the arena lead to;
* `Tree.Reached.resync_inLine`   their paths are trustworthy once they are brought in line.
-/

namespace ScopedTree

open ScopedTree.Tree

variable {σ : Type}

/-! ## edits -/

namespace Tree.Rooted

variable {t : Tree} {m : Nat}

/-- **Edits at known paths leave all other paths below the path of the root**, which holds the root.
-/
theorem edits : Edits Rooted (fun m _ => Rooted m) where
  names m := (crawls m).toNames
  le _ _ _ h := h
  crawl s := (crawls _).sweeps.crawl () s
  registerSubtree p := (crawls _).sweeps.registerSubtree () p
  mono _ _ _ hm := ⟨mono hm, fun _ => mono hm⟩
  known m t h := ⟨t.paths.size, h.size, le_rfl, h.all⟩
  child m t p owner slot hs h := (h.ends_child hs owner).imp
    (fun _ t' hend => ⟨t'.paths.size, hend.1.size, hend.2.2.2.1, hend.1.all⟩) fun _ _ hf => hf.elim
  arena _ _ _ h := h.of_congr rfl rfl rfl rfl
  slide _ _ p _ hf h := h.slide p fun d => (hf d).1
  fill m t p x f _ hs hf h := by
    have hstand := (hf (t.path p)).1
    unfold PathData.stand PathData.place at hstand
    simp only [Prod.mk.injEq] at hstand
    obtain ⟨⟨-, -, hslot, -⟩, hq⟩ := hstand
    exact h.updatePath hs ⟨hslot.trans_ne hs, hq.trans_ne (h.below p (lt_of_slot hs) hs)⟩
  fillRoot m t p x f hp hs hf h := by
    have hlt : p.index < t.paths.size := hp.trans_le h.size
    have hstand := (hf (t.path p)).1
    unfold PathData.stand PathData.place at hstand
    simp only [Prod.mk.injEq] at hstand
    obtain ⟨⟨hnode, -, hslot, -⟩, hq⟩ := hstand
    have hroot := h.only p hlt hs
    refine h.of_paths (size_updatePath ..) rfl (fun _ _ hm => hm) (fun q hlt' hs' _ => ?_) fun q
      hs' hq => ?_
    · -- there is one path of the root
      obtain rfl := Option.some.inj ((h.only q hlt' hs').symm.trans hroot)
      have hself := path_updatePath_self { t with root := some x } f hlt'
      exact ⟨(congrArg PathData.slot hself).trans (hslot.trans hs),
        (congrArg PathData.node hself).trans hnode, (congrArg PathData.parentPath hself).trans hq⟩
    · have hother := path_updatePath_ne { t with root := some x } f (p := p) (q := q)
        fun he => hs' (he ▸ hs)
      exact ⟨(congrArg PathData.slot hother).trans_ne hs',
        (congrArg PathData.parentPath hother).trans_ne hq⟩
  registry _ _ _ _ _ h := h.of_congr rfl rfl rfl rfl
  counter _ _ _ _ _ _ _ h := h.of_congr rfl rfl rfl rfl
  queue _ _ _ _ _ h := h.of_congr rfl rfl rfl rfl
  forget m := (crawls m).invalidate (fun _ p h => h.slide p fun _ => ⟨rfl, rfl, Iff.rfl⟩)
    fun _ _ _ h => h.of_congr rfl rfl rfl rfl
  clear _ t n h := by
    refine h.of_paths rfl rfl (fun o p hp => ?_) (fun p _ hs hn => ⟨hs, hn, rfl⟩)
      fun p hs hq => ⟨hs, hq⟩
    cases o with
    | none => exact hp
    | some o =>
      simp only [cachedPaths, Option.bind_some, IndexTable.get?_drop] at hp ⊢
      split at hp
      · cases hp
      · exact hp

end Tree.Rooted

/-! ## calls -/

/-- What is asked of a tree through its paths. -/
inductive PathCall where
  | edit (e : PathEdit)
  | replaceWithMultiple (p : PathId) (nodes : List (Option NodeId))
  | replaceInline (p : PathId) (nodes : List (Option NodeId))
  | replaceWithStatements (p : PathId) (nodes : List (Option NodeId))
  | root
  | pathFor (id : Option NodeId)
  | entries (p : PathId) (key : String)
  | resync (p : PathId)
  | assertLive (p : PathId)
  | request (r : Request) (p : PathId)
  | clear (id : Option NodeId)
  | crawl (s : ScopeId)
  | declare (s : ScopeId) (id init : Option NodeId) (kind : String) (unique : Bool)

namespace PathCall

def run : PathCall → TreeM Unit
  | edit e => e.run
  | replaceWithMultiple p nodes => discard (Tree.replaceWithMultiple p nodes)
  | replaceInline p nodes => discard (Tree.replaceInline p nodes)
  | replaceWithStatements p nodes => discard (Tree.replaceWithStatements p nodes)
  | root => discard Tree.getRootPath
  | pathFor id => discard (Tree.pathFor id)
  | entries p key => discard (Tree.entries p key)
  | resync p => Tree.resync p
  | assertLive p => Tree.assertLive p
  | request r p => r.on p
  | clear id => Tree.clearNode id
  | crawl s => Tree.crawl s
  | declare s id init kind unique => discard (Tree.declare s id init kind unique)

/-- The call writes at paths below `m`, as far as it is told the path. -/
def Known (m : Nat) : PathCall → Prop
  | edit e => e.Known m
  | replaceWithMultiple p _ | replaceInline p _ | replaceWithStatements p _ => p.index < m
  | _ => True

theorem exists_known (c : PathCall) : ∃ m, c.Known m := by
  cases c with
  | edit e => exact e.exists_known
  | replaceWithMultiple p nodes => exact ⟨_, Nat.lt_succ_self _⟩
  | replaceInline p nodes => exact ⟨_, Nat.lt_succ_self _⟩
  | replaceWithStatements p nodes => exact ⟨_, Nat.lt_succ_self _⟩
  | _ => exact ⟨0, trivial⟩

end PathCall

/-- **What edits keep, calls keep.** -/
theorem Tree.Edits.call {P : Nat → Tree → Prop} {E : Nat → TreeError → Tree → Prop} {m : Nat}
    (h : Edits P E) {c : PathCall} (hc : c.Known m) : Leads (P m) (E m) c.run := by
  have hpaths := h.paths m
  have hle := h.le m
  cases c with
  | edit e => exact h.run hc
  | replaceWithMultiple p nodes => exact (h.replaceWithMultiple p hc nodes).discard
  | replaceInline p nodes => exact (h.replaceInline p hc nodes).discard
  | replaceWithStatements p nodes => exact (h.replaceWithStatements p hc nodes).discard
  | root => exact (hpaths.root.leads hle).discard
  | pathFor id => exact ((hpaths.pathFor id).leads hle).discard
  | entries p key => exact ((hpaths.entries p key).leads hle).discard
  | resync p => exact (hpaths.resync p).leads hle
  | assertLive p => exact (hpaths.assertLive p).leads hle
  | request r p => exact (hpaths.request r p).leads hle
  | clear id => exact (h.clearNode id).leads hle
  | crawl s => exact h.crawl s
  | declare s id init kind unique => exact (h.declare s id init kind unique).discard

/-- It does not matter which paths the call is told, if places do not matter at all. -/
theorem Tree.Endures.call {P : Tree → Prop} {k : Nat} (h : Endures P k)
    (c : PathCall) : Stays P c.run := by
  obtain ⟨m, hm⟩ := c.exists_known
  exact (h.edits.call hm).stays

theorem Tree.Rooted.call {m : Nat} {c : PathCall} (hc : c.Known m) : Stays (Rooted m) c.run :=
  (edits.call hc).stays

/-! ## passes -/

/-- The handler knows of the paths that it tells edits to write at: they are below `m`, or they were
there when it looked at the tree. -/
def Deed.Known : Nat → Deed σ → Prop
  | _, done => True
  | _, fail _ => True
  | m, look next => ∀ t own, (next t own).Known (max m t.paths.size)
  | m, note _ next => next.Known m
  | m, request _ _ next => next.Known m
  | m, edit e next => e.Known m ∧ ∀ outcome, (next outcome).Known m

/-- All of its handlers do. -/
structure Editor.Known (v : Editor σ) : Prop where
  general : ∀ x ∈ v.general, ∀ p, (x.2 p).Known 0
  typed : ∀ x ∈ v.typed, ∀ p, (x.2.2 p).Known 0

namespace Tree.Rooted

theorem deed {m : Nat} {deed : Deed σ} (h : deed.Known m) : Stays (Pass.Has (Rooted m))
    deed.run := by
  induction deed generalizing m with
  | done => exact stays_pure _
  | fail e => exact stays_throw e
  | look next ih =>
    intro s hs
    have hknown : s.tree.Rooted (max m s.tree.paths.size) :=
      { hs with size := max_le hs.size le_rfl }
    exact mono (le_max_left ..) (ih s.tree s.own (h s.tree s.own) s hknown)
  | note f next ih => exact (Names.note f).bind fun _ => ih h
  | request r p next ih =>
    exact (PassM.stays_onTree (call (c := .request r p) trivial)).bind fun _ => ih h
  | edit e next ih =>
    exact (PassM.stays_attempt (PassM.stays_onTree (edits.run h.1).stays)).bind
      fun outcome => ih outcome (h.2 outcome)

theorem keeps {v : Editor σ} (hv : v.Known) : v.dispatch.engine.Keeps (Rooted 0) 0 where
  shelved := (crawls 0).toShelved
  assign p := (crawls 0).assign p
  general x hx p := by
    obtain ⟨y, hy, rfl⟩ := List.mem_map.1 hx
    exact deed (hv.general y hy p)
  typed x hx p := by
    obtain ⟨y, hy, rfl⟩ := List.mem_map.1 hx
    exact deed (hv.typed y hy p)

end Tree.Rooted

/-! ## trees in use -/

namespace Tree

/-- A tree that was set up over some nodes and used in any way: nodes were changed at will, calls
and passes were made, and they succeeded or failed. -/
inductive Reached : Tree → Prop
  | start (a : Arena) (root : Option NodeId) (options : Options) : Reached (ofArena a root options)
  | arena {t : Tree} (a : Arena) (h : Reached t) : Reached { t with arena := a }
  | call {t : Tree} (c : PathCall) (hc : c.Known t.paths.size) (h : Reached t) :
      Reached (final (c.run t))
  | traverse {t : Tree} {σ : Type} (v : Editor σ) (hv : v.Known) (steps : Nat) (own : σ)
      (h : Reached t) : Reached (final (v.dispatch.traverse steps ⟨t, own⟩)).tree
  | traversePath {t : Tree} {σ : Type} (v : Editor σ) (hv : v.Known) (steps : Nat)
    (p : PathId) (own : σ)
      (h : Reached t) : Reached (final (v.dispatch.engine.traversePath steps p ⟨t, own⟩)).tree

variable {t t' : Tree} {p : PathId} {n : NodeId}

theorem Reached.rooted (h : t.Reached) : t.Rooted 0 := by
  induction h with
  | start a root options => exact rooted_ofArena a root options
  | arena a h ih => exact ih.of_congr rfl rfl rfl rfl
  | call c hc h ih => exact Rooted.mono (Nat.zero_le _) (Rooted.call hc _ ih.all)
  | traverse v hv steps own h ih => exact (Rooted.keeps hv).traverse steps ⟨_, own⟩ ih
  | traversePath v hv steps p own h ih => exact (Rooted.keeps hv).traversePath steps p ⟨_, own⟩ ih

/-- **Once it is brought in line, a path can be trusted.** However a tree came about, if its nodes
have single owners, a path below the root that holds a node is brought in line with them. It is
stale after that if and only if the node has no owner. If it is not stale it stands where the node
does, below a path of the owner if the owner hangs under the root. To do so again makes no
difference, and only a path that stands where its node does is found live. -/
theorem Reached.resync_inLine (h : t.Reached) (ha : t.arena.WellOwned)
    (hr : (t.path p).removed = false) (hs : t.slot p ≠ .root) (hn : t.node p = some n) :
    ∃ t', resync p t = .ok () t' ∧ t'.arena = t.arena ∧ t'.root = t.root
      ∧ ((t'.path p).stale = true ↔ t.arena.parentOf (some n) = none)
      ∧ ((t'.path p).stale = false → ∃ o, t.arena.OwnedBy n o ∧ t'.InLine p n o)
      ∧ resync p t' = .ok () t'
      ∧ ∀ t'', assertLive p t = .ok () t'' → ∃ o, t.arena.OwnedBy n o ∧ t''.InLine p n o := by
  have hlive (t' : Tree) (hrun : resync p t = .ok () t')
      (hline : (t'.path p).stale = false → ∃ o, t.arena.OwnedBy n o ∧ t'.InLine p n o)
      (t'' : Tree) (hlive : assertLive p t = .ok () t'') :
      ∃ o, t.arena.OwnedBy n o ∧ t''.InLine p n o := by
    unfold assertLive at hlive
    rw [run_bind_of_ok hrun, run_get_bind] at hlive
    split at hlive
    · cases hlive
    · next hfound =>
      cases hlive
      exact hline (by simp_all)
  cases ho : t.arena.parentOf (some n) with
  | none =>
    have hrun := resync_of_unowned hn hs hr ho
    have hself := path_updatePath_self t ({ · with stale := true }) (lt_of_node hn)
    have hstale : ((t.updatePath p ({ · with stale := true })).path p).stale = true :=
      congrArg PathData.stale hself
    have hnone (hst : ((t.updatePath p ({ · with stale := true })).path p).stale = false) :
        ∃ o, t.arena.OwnedBy n o ∧ (t.updatePath p ({ · with stale := true })).InLine p n o := by
      cases hstale.symm.trans hst
    refine ⟨_, hrun, rfl, rfl, ⟨fun _ => rfl, fun _ => hstale⟩, hnone, ?_, hlive _ hrun hnone⟩
    rw [resync_of_unowned ((congrArg PathData.node hself).trans hn)
      ((congrArg PathData.slot hself).trans_ne hs) ((congrArg PathData.removed hself).trans hr) ho,
      updatePath_eq_self _ _ (by rw [hself])]
  | some o =>
    obtain ⟨_, t', hrun, -, harena, hroot, hr', hline⟩ :=
      (h.rooted.ends_resync ha hn hs hr ho).exists_ok
    have hin (_ : (t'.path p).stale = false) : ∃ o, t.arena.OwnedBy n o ∧ t'.InLine p n o :=
      ⟨o, ho, hline⟩
    refine ⟨t', hrun, harena, hroot, ⟨fun hst => ?_, fun hnone => nomatch hnone⟩, hin,
      hline.resync_eq (by rw [harena]; exact ha.owned) hr', hlive t' hrun hin⟩
    cases hline.fresh.symm.trans hst

def twoStatements : Arena := Arena.runAll [
  .alloc .debuggerStatement [],
  .alloc .emptyStatement [],
  .alloc .program [.str "module", .list [], .list [some ⟨0⟩, some ⟨1⟩]]]

/-- The first statement of the program is made again, ahead of the second. -/
def shiftedStatements : Arena := Arena.runAll [
  .alloc .debuggerStatement [],
  .alloc .emptyStatement [],
  .alloc .program [.str "module", .list [], .list [some ⟨0⟩, some ⟨1⟩]],
  .alloc .emptyStatement [],
  .listInsert (some ⟨2⟩) "body" 1 [some ⟨3⟩]]

/-- Two statements, the paths of which are looked up before a third comes between them. -/
def shifted : Tree :=
  { final ((PathCall.entries ⟨0⟩ "body").run (final (PathCall.root.run
      (ofArena twoStatements (some ⟨2⟩) { noScope := true })))) with arena := shiftedStatements }

theorem reached_shifted : shifted.Reached :=
  .arena _ (.call _ trivial (.call _ trivial (.start _ _ _)))

/-- The path of the second statement finds it at its new place. -/
theorem inLine_shifted : shifted.Reached ∧ shifted.slot ⟨2⟩ = .entry "body" 1 ∧ ∃ t',
    resync ⟨2⟩ shifted = .ok () t' ∧ t'.InLine ⟨2⟩ ⟨1⟩ ⟨2⟩ ∧ t'.slot ⟨2⟩ = .entry "body" 2 := by
  have hslot : shifted.slot ⟨2⟩ = .entry "body" 1 := by decide +kernel
  obtain ⟨t', hrun, -, -, -, hline, -, -⟩ := reached_shifted.resync_inLine
    (Arena.wellOwned_runAll _) (p := ⟨2⟩) (n := ⟨1⟩) (by decide +kernel)
    (by rw [hslot]; exact Slot.noConfusion) (by decide +kernel)
  have hok : passes (resync ⟨2⟩ shifted) (fun _ t' => !(t'.path ⟨2⟩).stale
      && decide (t'.slot ⟨2⟩ = .entry "body" 2)
      && decide (shifted.arena.parentOf (some ⟨1⟩) = some ⟨2⟩)) = true := by
    decide +kernel
  obtain ⟨_, t'', hrun', hok⟩ := ok_of_passes hok
  cases hrun.symm.trans hrun'
  simp only [Bool.and_eq_true, Bool.not_eq_true', decide_eq_true_eq] at hok
  obtain ⟨⟨hfresh, hmoved⟩, howner⟩ := hok
  obtain ⟨o, ho, hline⟩ := hline hfresh
  obtain rfl := Arena.OwnedBy.unique ho howner
  exact ⟨reached_shifted, hslot, t', hrun, hline, hmoved⟩

end Tree

end ScopedTree
