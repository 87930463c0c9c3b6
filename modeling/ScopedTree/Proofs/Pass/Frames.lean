import ScopedTree.Proofs.Pass.Walk
import ScopedTree.Proofs.Path.Ground

/-!
# The books of a pass

A pass keeps frames, contexts and flags on the side. What it does to them is put back or concerns
only frames that are gone.

* `Tree.Steady`            a tree to make a pass on, whose contexts were all handed out;
* `Tree.Moves`             contexts may have come, flags are kept on some nodes;
* `ends_onTree`, …         runs of the programs of passes;
* `Engine.ends_childQueue`   the paths of the children in a field.
-/

namespace ScopedTree

def PathData.flags (d : PathData) : Bool × Bool × List String :=
  (d.shouldSkip, d.shouldStop, d.skipKeys)

theorem PathData.skipKeys_of_flags {d d' : PathData} (h : d.flags = d'.flags) :
    d.skipKeys = d'.skipKeys := congrArg (·.2.2) h

theorem PathData.shouldSkip_of_flags {d d' : PathData} (h : d.flags = d'.flags) :
    d.shouldSkip = d'.shouldSkip := congrArg (·.1) h

theorem PathData.shouldStop_of_flags {d d' : PathData} (h : d.flags = d'.flags) :
    d.shouldStop = d'.shouldStop := congrArg (·.2.1) h

section Programs

variable {σ α : Type} {x : TreeM α} {s : Pass σ} {Q : α → Pass σ → Prop}
  {E : TreeError → Pass σ → Prop}

theorem ends_onTree : Ends (PassM.onTree x s) Q E
    ↔ Ends (x s.tree) (fun y t => Q y ⟨t, s.own⟩) fun e t => E e ⟨t, s.own⟩ := by
  obtain ⟨t, own⟩ := s
  unfold PassM.onTree
  dsimp only
  cases x t <;> exact Iff.rfl

theorem ends_runPass {own : σ} {t : Tree} {y : PassM σ α} {Q : α × σ → Tree → Prop}
    {E : TreeError → Tree → Prop} : Ends (TreeM.runPass own y t) Q E
    ↔ Ends (y ⟨t, own⟩) (fun z s => Q (z, s.own) s.tree) fun e s => E e s.tree := by
  unfold TreeM.runPass
  cases y ⟨t, own⟩ <;> exact Iff.rfl

theorem run_onTree_bind {β : Type} {y : α} {t : Tree} {f : α → PassM σ β} (h : x s.tree = .ok y t) :
    (PassM.onTree x >>= f) s = f y ⟨t, s.own⟩ := by
  refine run_bind_of_ok ?_
  obtain ⟨t, own⟩ := s
  unfold PassM.onTree
  dsimp only at h ⊢
  rw [h]

theorem run_ask_bind {β : Type} (f : Tree → α) (g : α → PassM σ β) (s : Pass σ) :
    (PassM.ask f >>= g) s = g (f s.tree) s := rfl

theorem run_modifyTree_bind {β : Type} (f : Tree → Tree) (g : PUnit → PassM σ β) (s : Pass σ) :
    (PassM.onTree (modify f) >>= g) s = g ⟨⟩ ⟨f s.tree, s.own⟩ := rfl

theorem Bridge.Agrees.attempt {β γ δ : Type} {B : Bridge σ β} {x : EStateM TreeError β α}
    {y : PassM σ γ} {S : α → γ → β → Pass σ → Prop} {R : δ → δ → β → Pass σ → Prop} {b : β}
    {f : α → EStateM TreeError β δ} {tidy : Tree → Tree} {k : Except TreeError γ → PassM σ δ}
    (h : B.Agrees S (x b) (y s)) (hbad : ∀ z, Stays B.Bad (f z))
    (hf : ∀ z c b s, S z c b s → B.Agrees R (f z b) (k (.ok c) ⟨tidy s.tree, s.own⟩))
    (hk : ∀ e s, k (.error e) s = .error e s) :
    B.Agrees R ((x >>= f) b)
      ((PassM.attempt y >>= fun res => PassM.onTree (modify tidy) >>= fun _ => k res) s) := by
  cases hy : y s with
  | ok c s' =>
    have ha : PassM.attempt y s = .ok (.ok c) s' := by
      unfold PassM.attempt
      rw [hy]
    rw [hy] at h
    obtain ⟨z, b', hx, hS⟩ := h
    rw [run_bind_of_ok ha, run_bind_of_ok hx]
    exact hf z c b' s' hS
  | error e s' =>
    have ha : PassM.attempt y s = .ok (.error e) s' := by
      unfold PassM.attempt
      rw [hy]
    rw [hy] at h
    have hfail : B.Fails (x b) e s'.own := h
    rw [run_bind_of_ok ha]
    show Ends (k (.error e) ⟨tidy s'.tree, s'.own⟩) _ _
    rw [hk e]
    exact hfail.bind hbad

end Programs

namespace Tree

variable {t t' t'' : Tree} {r n : NodeId} {G : Ground r} {k k' : Nat} {K K' : NodeId → Prop}

/-- A tree to make a pass on, in which every context on a path was handed out before. -/
structure Steady (t : Tree) (G : Ground r) : Prop where
  firm : G.Firm t
  handedOut : ∀ p, ∀ c ∈ (t.path p).contexts, c.index < t.nextContext

/-- Contexts from `k` on may have come to paths, and the flags of the nodes in `K` are kept. -/
structure Moves (G : Ground r) (k : Nat) (K : NodeId → Prop) (t t' : Tree) : Prop where
  grows : G.Grows t t'
  depth : t'.depth = t.depth
  nextContext : t.nextContext ≤ t'.nextContext
  contexts : ∀ p, ∀ c ∈ (t'.path p).contexts, c ∈ (t.path p).contexts ∨ k ≤ c.index
  flags : ∀ p n, t.node p = some n → K n → (t'.path p).flags = (t.path p).flags

theorem Moves.refl (G : Ground r) (k : Nat) (K : NodeId → Prop) (t : Tree) : t.Moves G k K t :=
  ⟨G.refl t, rfl, Nat.le_refl _, fun _ _ h => .inl h, fun _ _ _ _ => rfl⟩

theorem Moves.trans (h : t.Moves G k K t') (h' : t'.Moves G k' K' t'') (hk : k ≤ k')
    (hK : ∀ n, K n → K' n) : t.Moves G k K t'' where
  grows := G.trans h.grows h'.grows
  depth := h'.depth.trans h.depth
  nextContext := h.nextContext.trans h'.nextContext
  contexts p c hc := by
    rcases h'.contexts p c hc with hc | hc
    · exact h.contexts p c hc
    · exact .inr (hk.trans hc)
  flags p n hn hKn := by
    rw [h'.flags p n ((G.sameNode h.grows (lt_of_node hn)).trans hn) (hK n hKn),
      h.flags p n hn hKn]

theorem Moves.mono (h : t.Moves G k K t') (hk : k' ≤ k) (hK : ∀ n, K' n → K n) :
    t.Moves G k' K' t' where
  grows := h.grows
  depth := h.depth
  nextContext := h.nextContext
  contexts p c hc := (h.contexts p c hc).imp_right hk.trans
  flags p n hn hKn := h.flags p n hn (hK n hKn)

theorem SameControl.contexts (h : t.SameControl t') (p : PathId) :
    (t'.path p).contexts = (t.path p).contexts := congrArg (·.1) (h.control p)

theorem SameControl.flags (h : t.SameControl t') (p : PathId) :
    (t'.path p).flags = (t.path p).flags := congrArg (·.2) (h.control p)

theorem SameControl.moves (h : t.SameControl t') (hg : G.Grows t t') : t.Moves G k K t' where
  grows := hg
  depth := h.depth
  nextContext := h.nextContext.ge
  contexts p c hc := by
    rw [h.contexts] at hc
    exact .inl hc
  flags p _ _ _ := h.flags p

theorem SameControl.steady (h : t.SameControl t') (ht : t.Steady G) (ht' : G.Firm t') :
    t'.Steady G where
  firm := ht'
  handedOut p c hc := by
    rw [h.contexts] at hc
    rw [h.nextContext]
    exact ht.handedOut p c hc

theorem LooksUp.moves (h : G.Step t t') : t.Moves G k K t' := h.control.moves h.grows

theorem LooksUp.steady (h : G.Step t t') (ht : t.Steady G) : t'.Steady G :=
  h.control.steady ht h.firm

theorem steady_ofArena {a : Arena} {root : Option NodeId} {options : Options}
    (h : G.Firm (ofArena a root options)) : (ofArena a root options).Steady G where
  firm := h
  handedOut p c hc := by simp [path, ofArena] at hc

theorem Extends.step (h : t.Extends t' r) : (Ground.coherent r).Step t t' :=
  ⟨h.coherent, h.grows, h.names, h.control⟩

end Tree

namespace Engine

open ScopedTree.Tree

variable {σ : Type} {e : Engine σ} {t : Tree} {r n : NodeId} {G : Ground r} {p : PathId}
  {above : List NodeId}

theorem map_getElem_filter_range {α : Type} (l : List (Option α)) (test : Option α → Bool) :
    ((List.range l.length).filter fun i => test l[i]?.join).map (fun i => l[i]?.join)
      = l.filter test := by
  have h : (List.range l.length).map (fun i => l[i]?.join) = l := by
    refine List.ext_getElem (by simp) fun i hi hi' => ?_
    simp [List.getElem?_eq_getElem hi']
  conv_rhs => rw [← h, List.filter_map]
  rfl

theorem filter_any_eq {l : List (Option NodeId)} {takes : NodeId → Bool} :
    l.filter (·.any takes) = ((l.filterMap id).filter takes).map some := by
  induction l with
  | nil => rfl
  | cons x l ih =>
    cases x with
    | none => simpa using ih
    | some c => cases hc : takes c <;> simp [hc, ih]

/-- The paths of the children in a field that a pass has to visit. -/
theorem ends_childQueue (ht : G.Firm t) (hp : G.Place t p n above) {o : Node}
    (ho : t.arena.get? n = some o) {f : Field} (hf : f ∈ o.type.fields) :
    Ends (e.childQueue p (some n) f t)
      (fun qs t' => G.Step t t' ∧ List.Forall₂ (fun c q => G.Place t' q c (n :: above))
        ((o.fieldChildren f.name).filter (e.dispatch.shouldVisit t.arena)) qs)
      fun _ _ => False := by
  obtain ⟨v, hv, _⟩ := ((G.arena ht).shaped n o ho).value?_of_mem hf
  have hfc : o.fieldChildren f.name = v.children := by
    rw [Node.fieldChildren, hv]
    rfl
  have hfield : (do (← t.arena.node (some n)).field f.name : Except ShapeError Value) = .ok v := by
    have hnode : t.arena.node (some n) = .ok o := Arena.node_ok.2 ho
    simp [hnode, bind, Except.bind, Node.field, hv]
  unfold childQueue
  rw [ends_bind, ends_get, hfield, hfc, show (TreeM.ofShape (.ok v) : TreeM Value)
    = pure v from rfl, pure_bind]
  cases v with
  | node child =>
    cases child with
    | none => exact ⟨.refl ht, .nil⟩
    | some c =>
      have hread : t.readSlot (some n) (.field f.name) = some c := by
        simp [Tree.readSlot, Arena.child?, ho, Node.child?, hv]
      by_cases hc : e.dispatch.shouldVisit t.arena c
      · have hkept : [c].filter (e.dispatch.shouldVisit t.arena) = [c] := by simp [hc]
        simp only [Option.any_some, hc, if_true, ends_bind]
        refine (G.ends_child ht hp (by simp)).imp ?_ fun _ _ h => h.elim
        rintro q t' ⟨hstep, _, _, hq⟩
        rw [ends_pure]
        show _ ∧ List.Forall₂ _ ([c].filter _) _
        rw [hkept]
        exact ⟨hstep, .cons (hq c hread) .nil⟩
      · simp only [Option.any_some, hc, Bool.false_eq_true, if_false, ends_pure]
        refine ⟨.refl ht, ?_⟩
        show List.Forall₂ _ ([c].filter _) _
        rw [List.filter_cons_of_neg hc]
        exact .nil
  | list items =>
    have hread : ∀ i, t.readSlot (some n) (.entry f.name i) = items[i]?.join := by
      intro i
      simp [Tree.readSlot, Arena.items, ho, Node.items, hv]
    refine (Ground.ends_mapM
      (P := fun i q t' => ∀ c, items[i]?.join = some c → G.Place t' q c (n :: above)) ?_
      _ t ht fun i _ t' ht' => ?_).mono ?_
    · exact fun i q t₁ t₂ hq hg c hc => G.place hg (hq c hc)
    · refine (G.ends_child ht'.firm (G.place ht'.grows hp) (by simp)).mono ?_
      rintro q t'' ⟨hstep, _, _, hq⟩
      refine ⟨hstep, fun c hc => hq c ?_⟩
      rw [← hc, ← hread i]
      unfold Tree.readSlot
      rw [G.sameArena ht'.grows]
    · rintro qs t' ⟨hstep, hqs⟩
      refine ⟨hstep, ?_⟩
      have hmap : ((List.range items.length).filter fun i =>
          items[i]?.join.any (e.dispatch.shouldVisit t.arena)).map (fun i => items[i]?.join)
          = ((items.filterMap id).filter (e.dispatch.shouldVisit t.arena)).map some := by
        rw [map_getElem_filter_range items (·.any (e.dispatch.shouldVisit t.arena)), filter_any_eq]
      have hplaces : List.Forall₂ (fun c q => ∀ d, c = some d → G.Place t' q d (n :: above))
          (((items.filterMap id).filter (e.dispatch.shouldVisit t.arena)).map some) qs := by
        rw [← hmap, List.forall₂_map_left_iff]
        exact hqs
      rw [List.forall₂_map_left_iff] at hplaces
      exact hplaces.imp fun c _ h => h c rfl
  | _ => exact ⟨.refl ht, .nil⟩

end Engine

end ScopedTree
