import ScopedTree.Proofs.Constant.Evaluate
import ScopedTree.Proofs.Constant.Operands
import ScopedTree.Proofs.Constant.Straight
import ScopedTree.Proofs.Scope.Hygiene

/-!
# Evaluations of straight-line programs are right

A name that is never written and declared once has, after its declaration, the value that it started
with. So what an evaluation finds for a read is what a run finds there, if positions show the reads
that stand before the declaration of their name.

* `Arena.SpellsProgram.starts`     what starts a read is what its only declaration has;
* `Straight.Machine.Agrees`        values that are found on so many levels are those of runs;
* `Straight.Machine.agrees`        they are on all levels;
* `Tree.evaluate_sound`            what is found for a read is what runs find there.
-/

namespace ScopedTree

open ScopedTree.Tree Arena Straight

variable {a : Arena} {t t₀ : Tree} {r n m d : NodeId} {p : PathId} {s₀ : ScopeId} {x : String}
  {stmts : List Stmt} {init : Option NodeId}

/-! ## what reads stand for -/

theorem Tree.isBeforeDeclaration_eq (t : Tree) (p q : PathId) :
    Evaluation.isBeforeDeclaration t p q = t.arena.startsBefore (t.node p) (t.node q) := rfl

theorem Arena.Sites.eq_of_declarator {id id' : NodeId} {y : String} (h : a.Sites d x id')
    (ha : a.Shaped) (hd : a.is (some d) .variableDeclarator) (hm : a.child? (some d) "id" = some id)
    (hid : a.Spells (.read id y) id) : x = y ∧ id' = id := by
  rcases h with hb | ⟨m, hm', hb⟩
  · obtain ⟨o, ho, hty⟩ := is_some.1 hd
    cases hb with
    | here ho' hty' _ =>
      obtain rfl := Option.some.inj (ho.symm.trans ho')
      rw [hty] at hty'
      cases hty'
    | inside ho' hm' hb =>
      obtain rfl := Option.some.inj (ho.symm.trans ho')
      have hbinds : o.type.BindsSlot "id" := by
        rw [hty]
        decide
      have hslot := bindingTargets_of_slot (ha d o ho) hbinds hm'
      have hchild : o.child? "id" = some id := by simpa [child?, ho] using hm
      rw [hchild, List.mem_singleton, Option.some.injEq] at hslot
      rw [hslot] at hb
      exact hid.eq_of_binds hb
  · obtain rfl := Option.some.inj (hm.symm.trans hm')
    exact hid.eq_of_binds hb

namespace Arena.SpellsProgram

variable (hp : a.SpellsProgram r stmts) (hc : Crawled a r t)

include hp hc

/-- What a statement declares is in the table of the one scope, and if the binding does not count as
written, it is declared by nothing else. -/
theorem credits {k : String} {e : Expr} (hs : .declare n k d x e ∈ stmts)
    (hm : a.child? (some d) "id" = some m) :
    ∃ s, s.index < t.scopes.size ∧ (t.scope s).block = r ∧ t.Lists s x ∧ t.Credits s x m := by
  obtain ⟨_, hl, _⟩ := hc.linked
  have ha : a.WellOwned := hl.arena ▸ hl.inScope.coherent.arena
  cases hp.statements _ hs with
  | declare hn hk hkeyword hitems hd hm' hx hi he =>
    obtain rfl := Option.some.inj (hm.symm.trans hm')
    obtain ⟨o, ho, hty⟩ := is_some.1 hn
    obtain ⟨o', ho', hty'⟩ := is_some.1 hd
    obtain ⟨root, hroot, hrty⟩ := is_some.1 hp.program
    have hne : n ≠ r := by
      rintro rfl
      obtain rfl := Option.some.inj (ho.symm.trans hroot)
      rw [hty] at hrty
      cases hrty
    have hhome (test : NodeType → Bool) : a.home test [r] = some r := by
      unfold home
      rw [hp.blocks_eq ha .root]
      cases htest : (a.type? (some r)).any test <;> simp [htest]
    have hhomes : a.Homes n [r] r := by
      by_cases hlet : a.isLet (some n) = true
      · exact .lexical (.inr hlet) (hhome _)
      · refine .hoisted ⟨isA_some.2 ⟨o, ho, by rw [hty]; decide⟩, ?_⟩ ⟨?_, hlet⟩ (hhome _)
        · simp only [isA, type?, look_some, ho, Option.map_some, Option.any_some, hty]
          decide
        · simp [is_of_get ho, hty]
    have hhandles : collectorDispatch.handles o.type := by
      rw [hty]
      decide
    have hvisit : collectorDispatch.shouldVisit a n = true :=
      shouldVisit_of_covers (by simp [type?, ho]) hhandles
    have hbinds : a.Binds true n x m := by
      refine (binds_variableDeclaration ha.shaped hn).2 ⟨d, hitems ▸ List.mem_singleton_self _, ?_⟩
      refine .of_child ho' (ha.shaped d o' ho') (by rw [hty']; decide) (by rw [hty']; decide) hm ?_
      cases hx with
      | read hid hname _ => exact binds_identifier hid hname
    obtain ⟨s, hslt, hblock, hall⟩ :=
      (hc.announced n [r] (hp.under_statement hs) hne hvisit).names r hhomes
    exact ⟨s, hslt, hblock, hall x m (hl.arena ▸ hbinds)⟩

theorem meaning_eq (hrem : Remembers r t t) (hm : a.Spells (.read m x) m)
    (hclear : t.meaning (some m) ≠ .unclear) :
    ∃ p s, t.node p = some m ∧ s.index < t.scopes.size ∧ (t.scope s).block = r
      ∧ t.meaning (some m) = match ((t.scope s).bindings.get? x).bind t.binding? with
        | some b => t.boundMeaning p b
        | none => .unbound x := by
  obtain ⟨_, hl, _⟩ := hc.linked
  have ha : a.WellOwned := hl.arena ▸ hl.inScope.coherent.arena
  obtain ⟨hid, hname⟩ : a.is (some m) .identifier = true ∧ a.name? (some m) = some x := by
    cases hm with
    | read hid hname _ => exact ⟨hid, hname⟩
  rw [← hl.arena] at hid hname
  cases hq : t.pathOf? (some m) with
  | none => exact absurd (by simp [meaning, hq]) hclear
  | some p =>
    have hnode : t.node p = some m := by simpa using List.find?_some hq
    have hread : t.isReferencedIdentifier p = true := by
      by_contra hread
      exact hclear (by simp [meaning, hq, hread])
    obtain ⟨hlt, s, hscope, -, hs, hmeaning⟩ :=
      Evaluation.meaning_of_read hc hp.program hrem hnode hid hread
    obtain ⟨above, hpl⟩ := hrem.coherent.exists_place hnode
    have hholds := hl.inScope.path p _ s hpl.onLine hscope
    have hblocks : t.arena.blocks (m :: above) = [r] := by
      rw [hl.arena]
      exact hp.blocks_eq ha (hl.arena ▸ hpl.under)
    have hblock : (t.scope s).block = r := by
      have hhead := hholds.1
      rw [hblocks] at hhead
      exact Option.some.inj hhead
    -- only one scope is around the read
    have hchain : t.scopeChain s = [s] := by
      have hmap := hl.inScope.map_block_scopeChain hpl.under hholds
      rw [hblocks] at hmap
      obtain ⟨c, hchain, hcblock⟩ := List.map_eq_singleton_iff.1 hmap
      have hc : c.index < t.scopes.size :=
        hl.inScope.lt_of_mem_chain hpl.under hholds (hchain ▸ List.mem_singleton_self c)
      rw [hchain, hl.inScope.eq_of_block hc hs (hcblock.trans hblock.symm)]
    have hget : t.getBinding? s x = (t.scope s).bindings.get? x := by
      unfold getBinding?
      rw [hchain, List.findSome?_singleton, hl.bound.ownBinding?]
    rw [hname, Option.getD_some, bindingOf?, hget] at hmeaning
    exact ⟨p, s, hnode, hs, hblock, hmeaning⟩

theorem not_declares (hrem : Remembers r t t) (hm : a.Spells (.read m x) m) {y : String}
    (hmeaning : t.meaning (some m) = .unbound y) : y = x ∧ ∀ s ∈ stmts, s.declarator? x = none := by
  obtain ⟨_, hl, _⟩ := hc.linked
  obtain ⟨p, s, -, hs, hblock, heq⟩ := hp.meaning_eq hc hrem hm (by simp [hmeaning])
  rw [hmeaning] at heq
  cases hb : ((t.scope s).bindings.get? x).bind t.binding? with
  | some b =>
    rw [hb] at heq
    unfold boundMeaning at heq
    dsimp only at heq
    split at heq
    · cases heq
    · cases hi : t.initializer? b <;> simp [hi] at heq
  | none =>
    rw [hb] at heq
    refine ⟨Meaning.unbound.inj heq, fun stmt hmem => ?_⟩
    cases hd : stmt.declarator? x with
    | none => rfl
    | some d =>
      obtain ⟨n, k, e, rfl⟩ := Stmt.declarator?_eq_some.1 hd
      obtain ⟨id, hid⟩ : ∃ id, a.child? (some d) "id" = some id := by
        cases hp.statements _ hmem with
        | declare _ _ _ _ _ hm _ _ _ => exact ⟨_, hm⟩
      obtain ⟨s', hs', hblock', hlists, -⟩ := hp.credits hc hmem hid
      obtain rfl := hl.inScope.eq_of_block hs hs' (hblock.trans hblock'.symm)
      obtain ⟨b, hb'⟩ := Option.isSome_iff_exists.1 hlists
      obtain ⟨record, hrecord, -⟩ := hl.bound.listed s x b hb'
      simp [hb', hrecord] at hb

/-- **What starts a read is what the only declaration of its name has for a value.** The read does
not stand before the end of it, as far as positions show. -/
theorem starts (hrem : Remembers r t t) (hm : a.Spells (.read m x) m)
    (hmeaning : t.meaning (some m) = .starts init) : ∃ n k d e i, .declare n k d x e ∈ stmts
      ∧ init = some i ∧ a.Spells e i ∧ a.startsBefore (some m) (some d) = false
      ∧ ∀ s ∈ stmts, ∀ d', s.declarator? x = some d' → d' = d := by
  obtain ⟨_, hl, _⟩ := hc.linked
  have ha : a.WellOwned := hl.arena ▸ hl.inScope.coherent.arena
  obtain ⟨p, s, hnode, hs, hblock, heq⟩ := hp.meaning_eq hc hrem hm (by simp [hmeaning])
  rw [hmeaning] at heq
  cases hget : ((t.scope s).bindings.get? x).bind t.binding? with
  | none =>
    rw [hget] at heq
    cases heq
  | some record =>
    rw [hget] at heq
    obtain ⟨b, hb, hrecord⟩ := Option.bind_eq_some_iff.1 hget
    obtain ⟨d, hd, hsites⟩ := hl.bound.sited b record hrecord
    have hname : record.name = x := by
      obtain ⟨_, hr, -, hname⟩ := hl.bound.listed s x b hb
      rwa [Option.some.inj (hrecord.symm.trans hr)]
    unfold boundMeaning at heq
    dsimp only at heq
    split at heq
    · cases heq
    next hafter =>
    simp only [Bool.or_eq_true, Bool.not_eq_true', not_or, Bool.not_eq_true, isBeforeDeclaration_eq,
      hnode, hd, hl.arena] at hafter
    obtain ⟨hwritten, hbefore⟩ := hafter
    cases hinit : t.initializer? record with
    | none => simp [hinit] at heq
    | some start =>
      rw [hinit] at heq
      obtain rfl : init = start := by simpa using heq
      unfold initializer? at hinit
      simp only [hd, hl.arena, Bool.and_eq_true, Option.ite_none_right_eq_some,
        Option.some.injEq] at hinit
      obtain ⟨⟨⟨⟨-, hdeclarator⟩, -⟩, -⟩, hinit⟩ := hinit
      -- the declarator is one of the program
      obtain ⟨n, k, y, e, hmem⟩ : ∃ n k y e, .declare n k d y e ∈ stmts := by
        obtain ⟨above, hpl⟩ := hrem.coherent.exists_place hd
        have hne : d ≠ r := by
          rintro rfl
          obtain ⟨o, ho, hty⟩ := is_some.1 hdeclarator
          simpa [is_of_get ho, hty] using hp.program
        exact (hp.plain ha.shaped (hl.arena ▸ hpl.under) hne).of_declarator
          hp.statements hdeclarator
      have hmem' := hp.statements _ hmem
      cases hmem' with
      | @declare _ _ id i _ _ _ _ _ _ _ _ hid hx hi he =>
        rw [hl.arena, hname] at hsites
        obtain ⟨rfl, hidentifier⟩ := hsites.eq_of_declarator ha.shaped hdeclarator hid hx
        refine ⟨n, k, d, e, i, hmem, hinit.symm.trans hi, he, hbefore, fun stmt hstmt d' hd' => ?_⟩
        -- another declaration of the name would count as a write
        obtain ⟨n', k', e', rfl⟩ := Stmt.declarator?_eq_some.1 hd'
        obtain ⟨id', hid'⟩ : ∃ id', a.child? (some d') "id" = some id' := by
          cases hp.statements _ hstmt with
          | declare _ _ _ _ _ hm _ _ _ => exact ⟨_, hm⟩
        obtain ⟨s', hs', hblock', -, b', record', hr', hscope, hname', hcredit⟩ :=
          hp.credits hc hstmt hid'
        obtain rfl := hl.inScope.eq_of_block hs hs' (hblock.trans hblock'.symm)
        have hget' := (hl.bound.found b' record' hr').2.1
        rw [hscope, hname', hb] at hget'
        obtain rfl := Option.some.inj hget'
        obtain rfl := Option.some.inj (hrecord.symm.trans hr')
        obtain rfl : id = id' :=
          hidentifier.symm.trans (hcredit.resolve_right fun h => h (by simpa using hwritten))
        have howner := ha.owned.owner_of_child d id (mem_children_of_child? hid)
        have howner' := ha.owned.owner_of_child d' id (mem_children_of_child? hid')
        exact howner'.unique howner

end Arena.SpellsProgram

/-! ## values -/

namespace Tree

/-- Positions show of all reads that the evaluation of a node asks for, directly or in turn, which
stand before the end of the only declaration of their name. -/
def Dates (t : Tree) (stmts : List Stmt) (n : NodeId) : Prop :=
  ∀ m, Relation.ReflTransGen t.Asks n m → t.arena.Dated stmts m

theorem Dates.asks (h : t.Dates stmts n) (hm : t.Asks n m) : t.Dates stmts m :=
  fun k hk => h k (.head hm hk)

end Tree

theorem mem_literalTypes : ∀ ty : NodeType, ty.isA .literal = true → ty ∈ [NodeType.stringLiteral,
    .numericLiteral, .nullLiteral, .booleanLiteral, .regExpLiteral, .templateLiteral] := by
  intro ty
  cases ty <;> decide

theorem Tree.constantValue?_of_literal (hn : t.arena.isA (some n) .literal)
    (hplain : t.arena.items (some n) "expressions" = []) (levels : Nat) :
    t.constantValue? (levels + 1) (some n) = t.arena.literalValue? (some n) := by
  obtain ⟨o, ho, hty⟩ := isA_some.1 hn
  have hty := mem_literalTypes o.type hty
  unfold constantValue? literalValue?
  rw [look_some, ho, Option.bind_some, Option.bind_some]
  simp only [List.mem_cons, List.not_mem_nil, or_false] at hty
  unfold formValue?
  rcases hty with hty | hty | hty | hty | hty | hty <;> rw [hty] <;> dsimp only
  · rfl
  · rw [hplain]
    exact templateValue?_congr (by simp) _ _

namespace Straight.Machine

variable {M : Machine} {host : M.Env} {levels : Nat}

/-- Values that are found on so many levels are those that expressions have in a run. -/
def Agrees (M : Machine) (host : M.Env) (stmts : List Stmt) (t : Tree) (levels : Nat) : Prop :=
  ∀ before s rest ρ e n v w, stmts = before ++ s :: rest →
    M.after (M.start host stmts) before = some ρ → e.occurrences ⊆ s.expr.occurrences →
    t.arena.Spells e n → t.Dates stmts n → t.constantValue? levels (some n) = some v →
    M.value? ρ e = some w → w = M.prim v

section Runs

variable (hp : a.SpellsProgram r stmts) (hc : Crawled a r t) (hrem : Remembers r t t)
  (hhost : ∀ x v, unboundValue? x = some v → host x = .holds (M.prim v))

include hp hc hrem hhost

theorem Agrees.holds (h : M.Agrees host stmts t levels) {before rest : List Stmt}
    {s : Stmt} {ρ : M.Env} {v : Primitive} (heq : stmts = before ++ s :: rest)
    (hafter : M.after (M.start host stmts) before = some ρ) (hin : (m, x) ∈ s.expr.occurrences)
    (hm : a.Spells (.read m x) m) (hdates : t.Dates stmts m)
    (hv : t.constantValue? (levels + 1) (some m) = some v) : ρ x = .holds (M.prim v) := by
  obtain ⟨_, hl, _⟩ := hc.linked
  have ha : a.WellOwned := hl.arena ▸ hl.inScope.coherent.arena
  have hvalue : meaningValue? (t.constantValue? levels) (t.meaning (some m)) = some v := by
    cases hm with
    | read hid _ _ =>
      rw [← hl.arena] at hid
      obtain ⟨o, ho, hty⟩ := is_some.1 hid
      rw [constantValue?, look_some, ho, Option.bind_some] at hv
      simpa only [formValue?, hty] using hv
  cases hmeaning : t.meaning (some m) with
  | unclear =>
    rw [hmeaning] at hvalue
    cases hvalue
  | unbound y =>
    obtain ⟨rfl, hnone⟩ := hp.not_declares hc hrem hm hmeaning
    rw [hmeaning] at hvalue
    rw [after_of_not_declares hafter fun s hs => hnone s (heq ▸ List.mem_append_left _ hs),
      start_of_not_declares hnone]
    exact hhost y v hvalue
  | starts init =>
    obtain ⟨n, k, d, e, i, hmem, rfl, he, hbefore, honly⟩ := hp.starts hc hrem hm hmeaning
    obtain ⟨first, last, hsplit, hnone⟩ := hp.exists_only ha hmem honly
    rw [hmeaning] at hvalue
    have hahead : ∀ s' ∈ first ++ [.declare n k d x e], (m, x) ∉ s'.expr.occurrences := by
      intro s' hs' hocc
      have hpos := hdates m .refl x d
        ⟨first, _, last, hsplit, by simp [Stmt.declarator?], hnone, s', hs', hocc⟩
      rw [hl.arena, hbefore] at hpos
      cases hpos
    -- the declaration has run before the statement of the read
    obtain ⟨between, rfl, rfl⟩ : ∃ between, before = first ++ .declare n k d x e :: between
        ∧ last = between ++ s :: rest := by
      rcases List.append_eq_append_iff.1 (heq.symm.trans hsplit) with ⟨later, rfl,
        hrest⟩ | ⟨later, rfl, hrest⟩
      · cases later with
        | nil =>
          obtain ⟨rfl, -⟩ := List.cons.inj hrest
          exact absurd hin (hahead _ (List.mem_append_right _ (List.mem_singleton_self _)))
        | cons s' later =>
          obtain ⟨rfl, -⟩ := List.cons.inj hrest
          exact absurd hin (hahead s (by simp))
      · cases later with
        | nil =>
          obtain ⟨rfl, -⟩ := List.cons.inj hrest
          exact absurd hin (hahead _ (List.mem_append_right _ (List.mem_singleton_self _)))
        | cons s' later =>
          obtain ⟨rfl, rfl⟩ := List.cons.inj hrest
          exact ⟨later, rfl, rfl⟩
    rw [after_append] at hafter
    obtain ⟨ρ₁, hfirst, hafter⟩ := Option.bind_eq_some_iff.1 hafter
    rw [after_cons] at hafter
    obtain ⟨ρ₂, hstep, hafter⟩ := Option.bind_eq_some_iff.1 hafter
    obtain ⟨w, hw, rfl⟩ := Option.map_eq_some_iff.1 hstep
    have hvalue' := h first _ _ ρ₁ e i v w hsplit hfirst (List.Subset.refl _) (hl.arena ▸ he)
      (hdates.asks (.start hmeaning)) hvalue hw
    rw [after_of_not_declares hafter fun s hs => hnone s (by simp [hs]),
      Function.update_self, hvalue']

theorem Agrees.of_unary (h : M.Agrees host stmts t levels) {before rest : List Stmt} {s : Stmt}
    {ρ : M.Env} {op : String} {f : Expr} {o : Node} {v : Primitive} {w : M.Value}
    (heq : stmts = before ++ s :: rest) (hafter : M.after (M.start host stmts) before = some ρ)
    (hin : f.occurrences ⊆ s.expr.occurrences) (hn : t.arena.is (some n) .unaryExpression)
    (hop : t.arena.text? (some n) "operator" = some op)
    (hd : t.arena.child? (some n) "argument" = some d) (hf : t.arena.Spells f d)
    (hdates : t.Dates stmts n) (hty : o.type = .unaryExpression)
    (hv : t.arena.formValue? (t.constantValue? levels) t.meaning (some n) o = some v)
    (hw : M.value? ρ (.unary op f) = some w) : w = M.prim v := by
  obtain ⟨_, hl, _⟩ := hc.linked
  obtain rfl := hl.arena
  simp only [formValue?, hty, unaryValue?, hop, hd, Option.getD_some, beq_iff_eq] at hv
  by_cases hvoid : op = "void"
  · subst hvoid
    obtain rfl : Primitive.undefined = v := by simpa using hv
    rw [value?, if_neg (by simp)] at hw
    obtain ⟨u, -, hw⟩ := Option.bind_eq_some_iff.1 hw
    rw [M.unary_void] at hw
    exact (Option.some.inj hw).symm
  · have hdates' : t.Dates stmts d := hdates.asks (.argument hn hop hvoid hd)
    have hfunction : t.arena.isA (some d) .function = false := hf.not_isA (by decide)
    have hclass : t.arena.isA (some d) .classNode = false := hf.not_isA (by decide)
    rw [if_neg hvoid, hfunction, hclass, Bool.or_self, Bool.and_false, if_neg (by decide)] at hv
    obtain ⟨u, hu, hv⟩ := Option.bind_eq_some_iff.1 hv
    rw [value?] at hw
    split at hw
    · next habsent =>
      -- a name that has a value is not absent
      obtain ⟨y, hy, habsent⟩ := (Option.any_eq_true _ _).1 habsent.2
      cases hf with
      | read hid hx hleaf =>
        obtain rfl := Option.some.inj hy
        have hholds := h.holds hp hc hrem hhost heq hafter (hin (List.mem_singleton_self _))
          (.read hid hx hleaf) hdates' (constantValue?_succ levels _ u hu)
        rw [hholds] at habsent
        cases habsent
      | _ => cases hy
    · obtain ⟨w₁, hw₁, hw⟩ := Option.bind_eq_some_iff.1 hw
      obtain rfl := h before s rest ρ f d u w₁ heq hafter hin hf hdates' hu hw₁
      rw [M.unary_prim _ _ _ hv] at hw
      exact (Option.some.inj hw).symm

theorem Agrees.succ (h : M.Agrees host stmts t levels) : M.Agrees host stmts t (levels + 1) := by
  intro before s rest ρ e n v w heq hafter hin hn hdates hv hw
  obtain ⟨_, hl, _⟩ := hc.linked
  obtain rfl := hl.arena
  have hagree {f : Expr} {d : NodeId} {u : Primitive} {w : M.Value}
      (hf : f.occurrences ⊆ e.occurrences) (hd : t.arena.Spells f d) (hasks : t.Asks n d)
      (hu : t.constantValue? levels (some d) = some u) (hw : M.value? ρ f = some w) :
      w = M.prim u :=
    h before s rest ρ f d u w heq hafter (List.Subset.trans hf hin) hd (hdates.asks hasks) hu hw
  have hform {ty : NodeType} (hn : t.arena.is (some n) ty) : ∃ o, o.type = ty ∧
      t.arena.formValue? (t.constantValue? levels) t.meaning (some n) o = some v := by
    obtain ⟨o, ho, hty⟩ := is_some.1 hn
    rw [constantValue?, look_some, ho, Option.bind_some] at hv
    exact ⟨o, hty, hv⟩
  cases hn with
  | literal hn hknown hplain _ =>
    rw [constantValue?_of_literal hn hplain, hknown] at hv
    rw [value?, hv, M.literal_prim] at hw
    exact (Option.some.inj hw).symm
  | read hid hx hleaf =>
    have hholds := h.holds hp hc hrem hhost heq hafter (hin (List.mem_singleton_self _))
      (.read hid hx hleaf) hdates hv
    rw [value?, hholds] at hw
    exact (Option.some.inj hw).symm
  | @unary _ _ _ f hn hop hd hf =>
    obtain ⟨o, hty, hv⟩ := hform hn
    exact h.of_unary (f := f) hp hc hrem hhost heq hafter hin hn hop hd hf hdates hty hv hw
  | binary hn hop hl' hr hf hg =>
    obtain ⟨o, hty, hv⟩ := hform hn
    simp only [formValue?, hty, binaryValue?, hop, hl', hr, Option.getD_some] at hv
    obtain ⟨u₁, hu₁, hv⟩ := Option.bind_eq_some_iff.1 hv
    obtain ⟨u₂, hu₂, hv⟩ := Option.bind_eq_some_iff.1 hv
    obtain ⟨w₁, hw₁, hw⟩ := Option.bind_eq_some_iff.1 hw
    obtain ⟨w₂, hw₂, hw⟩ := Option.bind_eq_some_iff.1 hw
    obtain rfl := hagree (List.subset_append_left _ _) hf (.operand hn (.inl rfl) hl') hu₁ hw₁
    obtain rfl := hagree (List.subset_append_right _ _) hg (.operand hn (.inr rfl) hr) hu₂ hw₂
    rw [M.binary_prim _ _ _ _ hv] at hw
    exact (Option.some.inj hw).symm
  | logical hn hop hl' hr hf hg =>
    obtain ⟨o, hty, hv⟩ := hform hn
    simp only [formValue?, hty, logicalValue?, hop, hl', hr, Option.getD_some] at hv
    obtain ⟨u, hu, hv⟩ := Option.bind_eq_some_iff.1 hv
    obtain ⟨b, hb, hv⟩ := Option.bind_eq_some_iff.1 hv
    obtain ⟨w₁, hw₁, hw⟩ := Option.bind_eq_some_iff.1 hw
    obtain ⟨b', hb', hw⟩ := Option.bind_eq_some_iff.1 hw
    obtain rfl := hagree (List.subset_append_left _ _) hf (.left hn hl') hu hw₁
    obtain rfl : b = b' := Option.some.inj ((M.decides_prim _ _ _ hb).symm.trans hb')
    cases b with
    | true =>
      obtain rfl := Option.some.inj hv
      exact (Option.some.inj hw).symm
    | false =>
      exact hagree (List.subset_append_right _ _) hg (.right hn hop hl' ⟨levels, hu⟩ hb hr) hv hw
  | conditional hn hl' hc' hd hf hg hk =>
    obtain ⟨o, hty, hv⟩ := hform hn
    simp only [formValue?, hty, conditionalValue?, hl'] at hv
    obtain ⟨u, hu, hv⟩ := Option.bind_eq_some_iff.1 hv
    obtain ⟨w₁, hw₁, hw⟩ := Option.bind_eq_some_iff.1 hw
    obtain rfl :=
      hagree (fun _ h => List.mem_append_left _ (List.mem_append_left _ h)) hf (.test hn hl') hu hw₁
    have hbranch {m : NodeId}
        (hm : t.arena.child? (some n) (if u.truthy then "consequent" else "alternate") = some m) :
        t.Asks n m := .branch hn hl' ⟨levels, hu⟩ hm
    rw [M.truthy_prim] at hw
    cases htruthy : u.truthy with
    | true =>
      rw [htruthy, if_pos rfl] at hbranch hw
      rw [htruthy, if_pos rfl, hc'] at hv
      exact hagree (fun _ h => List.mem_append_left _ (List.mem_append_right _ h)) hg (hbranch hc')
        hv hw
    | false =>
      rw [htruthy, if_neg (by decide)] at hbranch hw
      rw [htruthy, if_neg (by decide), hd] at hv
      exact hagree (List.subset_append_right _ _) hk (hbranch hd) hv hw

/-- **What is found on any number of levels is what runs find.** -/
theorem agrees (levels : Nat) : M.Agrees host stmts t levels := by
  induction levels with
  | zero => exact fun _ _ _ _ _ _ _ _ _ _ _ _ _ hv => nomatch hv
  | succ levels ih => exact ih.succ hp hc hrem hhost

theorem eq_of_means {v : Primitive} {w : M.Value} (hdates : t.Dates stmts n)
    (hv : t.Means (some n) v) (hw : (n, w) ∈ M.run (M.start host stmts) stmts) : w = M.prim v := by
  obtain ⟨before, s, rest, ρ, heq, hafter, hreads⟩ := mem_run hw
  obtain ⟨x, hin, hx⟩ := mem_reads hreads
  obtain ⟨levels, hv⟩ := hv
  have hs : s ∈ stmts := heq ▸ List.mem_append_right _ (List.mem_cons_self ..)
  obtain ⟨i, hi⟩ : ∃ i, a.Spells s.expr i := by
    cases hp.statements s hs with
    | declare _ _ _ _ _ _ _ _ he => exact ⟨_, he⟩
    | evaluate _ _ he => exact ⟨_, he⟩
  have hholds := (agrees hp hc hrem hhost levels).holds hp hc hrem hhost heq hafter hin
    (hi.occurrence hin) hdates (constantValue?_succ levels _ v hv)
  rw [hx] at hholds
  exact Cell.holds.inj hholds

end Runs

end Straight.Machine

namespace Tree

theorem dated_of_last {k : NodeId} {e : Expr}
    (h : ∀ s ∈ stmts, ∀ x, (n, x) ∉ s.expr.occurrences) : a.Dated (stmts ++ [.evaluate k e]) n := by
  rintro x d ⟨before, s, rest, heq, hd, -, s', hs', hin⟩
  rcases rest.eq_nil_or_concat with rfl | ⟨rest, last, rfl⟩
  · obtain ⟨-, hlast⟩ := List.append_inj' heq rfl
    obtain rfl := (List.cons.inj hlast).1
    cases hd
  · rw [List.concat_eq_append, ← List.cons_append, ← List.append_assoc] at heq
    obtain ⟨rfl, -⟩ := List.append_inj' heq rfl
    exact absurd hin (h s' (by simp at hs' ⊢; tauto) x)

/-- The program `y; var y = true; const x = true; x`, whose nodes have no positions. -/
def earlyAndLate : Arena := runAll [
  .alloc .identifier [.str "y", .node none],
  .alloc .expressionStatement [.node (some ⟨0⟩)],
  .alloc .identifier [.str "y", .node none],
  .alloc .booleanLiteral [.bool true],
  .alloc .variableDeclarator [.node (some ⟨2⟩), .node (some ⟨3⟩)],
  .alloc .variableDeclaration [.str "var", .list [some ⟨4⟩]],
  .alloc .identifier [.str "x", .node none],
  .alloc .booleanLiteral [.bool true],
  .alloc .variableDeclarator [.node (some ⟨6⟩), .node (some ⟨7⟩)],
  .alloc .variableDeclaration [.str "const", .list [some ⟨8⟩]],
  .alloc .identifier [.str "x", .node none],
  .alloc .expressionStatement [.node (some ⟨10⟩)],
  .alloc .program [.str "module", .list [], .list [some ⟨1⟩, some ⟨5⟩, some ⟨9⟩, some ⟨11⟩]]]

def earlyAndLateStmts : List Stmt :=
  [.evaluate ⟨1⟩ (.read ⟨0⟩ "y"), .declare ⟨5⟩ "var" ⟨4⟩ "y" (.literal ⟨3⟩ (some (.bool true))),
   .declare ⟨9⟩ "const" ⟨8⟩ "x" (.literal ⟨7⟩ (some (.bool true)))]
    ++ [.evaluate ⟨11⟩ (.read ⟨10⟩ "x")]

theorem spells_earlyAndLate : earlyAndLate.SpellsProgram ⟨12⟩ earlyAndLateStmts where
  program := by decide
  directives := by decide
  body := by decide
  statements := by
    have hread (n : NodeId) (x : String)
        (h : (n, x) ∈ [(⟨0⟩, "y"), (⟨2⟩, "y"), (⟨6⟩, "x"), (⟨10⟩, "x")]) :
        earlyAndLate.Spells (.read n x) n := by
      simp only [List.mem_cons, Prod.mk.injEq, List.not_mem_nil, or_false] at h
      obtain ⟨rfl, rfl⟩ | ⟨rfl, rfl⟩ | ⟨rfl, rfl⟩ | ⟨rfl, rfl⟩ := h <;>
        exact .read (by decide) (by decide) (by decide)
    have htrue (n : NodeId) (h : n ∈ [(⟨3⟩ : NodeId), ⟨7⟩]) :
        earlyAndLate.Spells (.literal n (some (.bool true))) n := by
      simp only [List.mem_cons, List.not_mem_nil, or_false] at h
      obtain rfl | rfl := h <;> exact .literal (by decide) rfl (by decide) (by decide)
    have hfirst := SpellsStmt.evaluate (a := earlyAndLate) (n := ⟨1⟩) (i := ⟨0⟩)
      (by decide) (by decide) (hread ⟨0⟩ "y" (by decide))
    have hvar := SpellsStmt.declare (a := earlyAndLate) (n := ⟨5⟩) (d := ⟨4⟩) (m := ⟨2⟩) (i := ⟨3⟩)
      (k := "var") (x := "y") (by decide) (by decide) (by decide) (by decide)
      (by decide) (by decide) (hread ⟨2⟩ "y" (by decide)) (by decide) (htrue ⟨3⟩ (by decide))
    have hconst := SpellsStmt.declare (a := earlyAndLate) (n := ⟨9⟩) (d := ⟨8⟩)
      (m := ⟨6⟩) (i := ⟨7⟩)
      (k := "const") (x := "x") (by decide) (by decide) (by decide) (by decide)
      (by decide) (by decide) (hread ⟨6⟩ "x" (by decide)) (by decide) (htrue ⟨7⟩ (by decide))
    have hlast := SpellsStmt.evaluate (a := earlyAndLate) (n := ⟨11⟩) (i := ⟨10⟩)
      (by decide) (by decide) (hread ⟨10⟩ "x" (by decide))
    exact List.forall_mem_cons.2 ⟨hfirst, List.forall_mem_cons.2 ⟨hvar, List.forall_mem_cons.2
      ⟨hconst, List.forall_mem_singleton.2 hlast⟩⟩⟩

theorem dates_earlyAndLate {t : Tree} (ht : t.arena = earlyAndLate)
    (hx : t.meaning (some ⟨10⟩) = .starts (some ⟨7⟩)) (htrue : t.meaning (some ⟨7⟩) = .unclear) :
    t.Dates earlyAndLateStmts ⟨10⟩ := by
  have hasks {n m : NodeId} (hn : n = ⟨10⟩ ∨ n = ⟨7⟩) (h : t.Asks n m) : m = ⟨7⟩ := by
    cases h with
    | start hm =>
      rcases hn with rfl | rfl
      · exact Option.some.inj (Meaning.starts.inj (hm.symm.trans hx))
      · cases htrue.symm.trans hm
    | argument hn' | operand hn' | left hn' | right hn' | test hn' | branch hn' =>
      rw [ht] at hn'
      rcases hn with rfl | rfl <;> cases hn'
  intro m hm
  have hm : m = ⟨10⟩ ∨ m = ⟨7⟩ := by
    induction hm with
    | refl => exact .inl rfl
    | tail _ hstep ih => exact .inr (hasks ih hstep)
  rw [ht]
  refine dated_of_last ?_
  rcases hm with rfl | rfl <;> simp [Stmt.expr, Expr.occurrences]

/-- The program `x; var x = true; false && x`, whose nodes have no positions. -/
def hoistedRead : Arena := runAll [
  .alloc .identifier [.str "x", .node none],
  .alloc .expressionStatement [.node (some ⟨0⟩)],
  .alloc .identifier [.str "x", .node none],
  .alloc .booleanLiteral [.bool true],
  .alloc .variableDeclarator [.node (some ⟨2⟩), .node (some ⟨3⟩)],
  .alloc .variableDeclaration [.str "var", .list [some ⟨4⟩]],
  .alloc .booleanLiteral [.bool false],
  .alloc .identifier [.str "x", .node none],
  .alloc .logicalExpression [.str "&&", .node (some ⟨6⟩), .node (some ⟨7⟩)],
  .alloc .expressionStatement [.node (some ⟨8⟩)],
  .alloc .program [.str "module", .list [], .list [some ⟨1⟩, some ⟨5⟩, some ⟨9⟩]]]

def hoistedReadStmts : List Stmt :=
  [.evaluate ⟨1⟩ (.read ⟨0⟩ "x"), .declare ⟨5⟩ "var" ⟨4⟩ "x" (.literal ⟨3⟩ (some (.bool true))),
   .evaluate ⟨9⟩ (.logical "&&" (.literal ⟨6⟩ (some (.bool false))) (.read ⟨7⟩ "x"))]

theorem spells_hoistedRead : hoistedRead.SpellsProgram ⟨10⟩ hoistedReadStmts where
  program := by decide
  directives := by decide
  body := by decide
  statements := by
    have htrue : hoistedRead.Spells (.literal ⟨3⟩ (some (.bool true))) ⟨3⟩ :=
      .literal (by decide) rfl (by decide) (by decide)
    have hfalse : hoistedRead.Spells (.literal ⟨6⟩ (some (.bool false))) ⟨6⟩ :=
      .literal (by decide) rfl (by decide) (by decide)
    have hfirst := SpellsStmt.evaluate (a := hoistedRead) (n := ⟨1⟩) (i := ⟨0⟩) (e := .read ⟨0⟩ "x")
      (by decide) (by decide) (.read (by decide) (by decide) (by decide))
    have hdeclare := SpellsStmt.declare (a := hoistedRead) (n := ⟨5⟩) (d := ⟨4⟩)
      (m := ⟨2⟩) (i := ⟨3⟩) (k := "var") (x := "x") (by decide) (by decide) (by decide) (by decide)
      (by decide) (by decide) (.read (by decide) (by decide) (by decide)) (by decide) htrue
    have hlogical : hoistedRead.Spells
        (.logical "&&" (.literal ⟨6⟩ (some (.bool false))) (.read ⟨7⟩ "x")) ⟨8⟩ :=
      .logical (l := ⟨6⟩) (r := ⟨7⟩) (by decide) (by decide) (by decide) (by decide) hfalse
        (.read (by decide) (by decide) (by decide))
    have hlast : hoistedRead.SpellsStmt (.evaluate ⟨9⟩ _) :=
      .evaluate (i := ⟨8⟩) (by decide) (by decide) hlogical
    exact List.forall_mem_cons.2 ⟨hfirst, List.forall_mem_cons.2 ⟨hdeclare,
      List.forall_mem_singleton.2 hlast⟩⟩

end Tree

end ScopedTree
