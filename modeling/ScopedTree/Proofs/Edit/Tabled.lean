import ScopedTree.Proofs.Constant.Keeps
import ScopedTree.Proofs.Edit.Changes

/-!
# Scopes list their bindings

The table of a scope and the records of bindings say the same: what is listed under a name is a
binding of that scope and name, and a binding whose scope is in use is listed there. Crawls and
edits keep that, since they never list a binding where another one is listed.

* `Tree.tenant?`              the binding that is listed at a home;
* `Tree.Tabled`               tables and records agree;
* `Tree.Settles`              besides, bindings belong where they did;
* `Tree.Settles.fewer`, `Tree.Settles.enter`   bindings go, and a new one comes where there was
  none;
* `Tree.Settles.names`        all that crawls write keeps it;
* `Tree.Settles.endures`      so do edits.
-/

namespace ScopedTree.Tree

variable {sure : Prop} {t₀ t t' : Tree} {s : ScopeId} {b : BindingId} {name : String}
  {record : Binding} {home : ScopeId × String}

/-- The binding that is listed at a home: in the table of the scope, under the name. -/
def tenant? (t : Tree) (home : ScopeId × String) : Option BindingId :=
  (t.scope home.1).bindings.get? home.2

/-- What is listed at a home belongs there. If it is sure that no binding was listed in the place of
another, each binding whose scope is in use is listed where it belongs. -/
structure Tabled (sure : Prop) (t : Tree) : Prop where
  known : ∀ home b, t.tenant? home = some b → b.index < t.bindings.size
  listed : ∀ home b record, t.tenant? home = some b → t.binding? b = some record →
    record.home = home
  placed : sure → ∀ b record, t.binding? b = some record → record.scope.index < t.scopes.size
  found : sure → ∀ b record, t.binding? b = some record → (t.scope record.scope).detached = false →
    t.tenant? record.home = some b

/-- Besides, the bindings of `t₀` that are left belong where they did. -/
structure Settles (sure : Prop) (t₀ t : Tree) : Prop extends Tabled sure t where
  size : t₀.bindings.size ≤ t.bindings.size
  home : ∀ b record₀ record, t₀.binding? b = some record₀ → t.binding? b = some record →
    record.home = record₀.home

theorem Tabled.settles (h : t.Tabled sure) : Settles sure t t where
  toTabled := h
  size := Nat.le_refl _
  home _ _ _ h₀ h := by
    cases h₀.symm.trans h
    rfl

theorem tabled_ofArena (sure : Prop) (a : Arena) (root : Option NodeId) (options : Options) :
    (ofArena a root options).Tabled sure := by
  have hlists (home : ScopeId × String) (b : BindingId) : (ofArena a root options).tenant? home
      ≠ some b := by
    intro h
    cases h
  have hlives (b : BindingId) (record : Binding) : (ofArena a root options).binding? b
      ≠ some record := by
    simp [binding?, ofArena]
  exact ⟨fun home b h => absurd h (hlists home b), fun home b _ h => absurd h (hlists home b),
    fun _ b record h => absurd h (hlives b record), fun _ b record h => absurd h (hlives b record)⟩

/-! ## writes -/

theorem tenant?_updateScope (t : Tree) (s : ScopeId) (f : ScopeData → ScopeData)
    (home : ScopeId × String) :
    (t.updateScope s f).tenant? home = if home.1 = s ∧ s.index < t.scopes.size then
      (f (t.scope s)).bindings.get? home.2 else t.tenant? home := by
  unfold tenant?
  rw [scope_updateScope]
  split <;> rfl

theorem tenant?_of_size_le (hs : t.scopes.size ≤ home.1.index) : t.tenant? home = none := by
  unfold tenant?
  rw [scope_of_size_le hs]
  rfl

theorem tenant?_put (t : Tree) (s : ScopeId) (name : String) (id : BindingId)
    (home : ScopeId × String) :
    (t.updateScope s fun d => { d with bindings := d.bindings.put name id }).tenant? home
      = if home = (s, name) ∧ s.index < t.scopes.size then some id else t.tenant? home := by
  rw [tenant?_updateScope]
  dsimp only
  rw [Table.get?_put]
  by_cases hs : s.index < t.scopes.size
  · by_cases hscope : home.1 = s
    · rw [if_pos ⟨hscope, hs⟩]
      refine if_congr ⟨fun hname => ⟨Prod.ext hscope hname, hs⟩,
        fun h => congrArg Prod.snd h.1⟩ rfl ?_
      rw [← hscope]
      rfl
    · rw [if_neg fun h => hscope h.1, if_neg fun h => hscope (congrArg Prod.fst h.1)]
  · rw [if_neg fun h => hs h.2, if_neg fun h => hs h.2]

theorem tenant?_drop (t : Tree) (s : ScopeId) (name : String) (home : ScopeId × String) :
    (t.updateScope s fun d => { d with bindings := d.bindings.drop name }).tenant? home
      = if home = (s, name) then none else t.tenant? home := by
  rw [tenant?_updateScope]
  dsimp only
  rw [Table.get?_drop]
  by_cases hscope : home.1 = s
  · by_cases hs : s.index < t.scopes.size
    · rw [if_pos ⟨hscope, hs⟩]
      refine if_congr ⟨fun hname => Prod.ext hscope hname, fun h => congrArg Prod.snd h⟩ rfl ?_
      rw [← hscope]
      rfl
    · rw [if_neg fun h => hs h.2]
      have hnone : t.tenant? home = none := tenant?_of_size_le (Nat.le_of_not_lt (hscope ▸ hs))
      rw [hnone, ite_self]
  · rw [if_neg fun h => hscope h.1, if_neg fun h => hscope (congrArg Prod.fst h)]

theorem tenant?_unlist (t : Tree) (s : ScopeId) (name : String) (id : BindingId)
    (home : ScopeId × String) :
    (t.updateScope s fun d =>
      if d.bindings.get? name == some id then { d with bindings := d.bindings.drop name }
        else d).tenant? home
      = if home = (s, name) ∧ t.tenant? (s, name) = some id then none else t.tenant? home := by
  by_cases hid : t.tenant? (s, name) = some id
  · have hleads : ((t.scope s).bindings.get? name == some id) = true := beq_iff_eq.2 hid
    rw [if_congr (and_iff_left hid) rfl rfl, ← tenant?_drop, tenant?_updateScope,
      tenant?_updateScope]
    refine if_congr Iff.rfl ?_ rfl
    rw [if_pos hleads]
  · have hleads : ¬((t.scope s).bindings.get? name == some id) = true :=
      fun h => hid (beq_iff_eq.1 h)
    rw [if_neg fun h => hid h.2, tenant?_updateScope, if_neg hleads]
    split
    · next hc =>
      rw [← hc.1]
      rfl
    · rfl

theorem detached_relisted (t : Tree) (s : ScopeId) (g : ScopeData → Table BindingId) (c : ScopeId) :
    ((t.updateScope s fun d => { d with bindings := g d }).scope c).detached
      = (t.scope c).detached :=
  t.scope_updateScope_congr s c (fun d => { d with bindings := g d }) ScopeData.detached fun _ =>
    rfl

theorem tenant?_retire (t : Tree) (s : ScopeId) (name : String) (b : BindingId)
    (home : ScopeId × String) :
    (t.retire s name b).tenant? home
      = if home = (s, name) ∧ t.tenant? (s, name) = some b then none else t.tenant? home :=
  t.tenant?_unlist s name b home

theorem binding?_retire (t : Tree) (s : ScopeId) (name : String) (b c : BindingId) :
    (t.retire s name b).binding? c = if c = b then none else t.binding? c :=
  Destroys.binding?_destroyBinding _ b c

theorem foldl_destroyBinding (table : Table BindingId) (t : Tree) :
    ∃ bindings, table.foldl (fun t (_, b) => t.destroyBinding b) t = { t with bindings }
      ∧ bindings.size = t.bindings.size
      ∧ ∀ c record, ({ t with bindings } : Tree).binding? c = some record →
        t.binding? c = some record ∧ c ∉ table.map (·.2) := by
  induction table generalizing t with
  | nil => exact ⟨t.bindings, rfl, rfl, fun c record hr => ⟨hr, List.not_mem_nil⟩⟩
  | cons x table ih =>
    obtain ⟨bindings, heq, hsize, hleft⟩ := ih (t.destroyBinding x.2)
    refine ⟨bindings, heq, hsize.trans Array.size_modify, fun c record hr => ?_⟩
    obtain ⟨hr, hmem⟩ := hleft c record hr
    rw [Destroys.binding?_destroyBinding] at hr
    split at hr
    · cases hr
    · next hx => exact ⟨hr, fun hc => (List.mem_cons.1 hc).elim hx hmem⟩

theorem tenant?_emptied (t : Tree) (s : ScopeId) (home : ScopeId × String) :
    (t.updateScope s emptied).tenant? home = if home.1 = s then none else t.tenant? home := by
  rw [tenant?_updateScope]
  by_cases hc : home.1 = s
  · rw [if_pos hc]
    split
    · unfold emptied
      dsimp only
      split <;> rfl
    · next hs => exact tenant?_of_size_le (Nat.le_of_not_lt fun hlt => hs ⟨hc, hc ▸ hlt⟩)
  · rw [if_neg hc, if_neg fun h => hc h.1]

theorem tenant?_withBinding (hs : s.index < t.scopes.size) (name : String) (record : Binding)
    (home : ScopeId × String) : (t.withBinding s name record).tenant? home
      = if home = (s, name) then some ⟨t.bindings.size⟩ else t.tenant? home :=
  (tenant?_put { t with bindings := t.bindings.push (some record) } s name
    ⟨t.bindings.size⟩ home).trans (if_congr (and_iff_left hs) rfl rfl)

theorem detached_withBinding (t : Tree) (s : ScopeId) (name : String) (record : Binding)
    (c : ScopeId) :
    ((t.withBinding s name record).scope c).detached = (t.scope c).detached :=
  detached_relisted { t with bindings := t.bindings.push (some record) } s _ c

namespace Settles

/-- Bindings and entries go, but no entry of a binding that is left. -/
theorem fewer (h : Settles sure t₀ t) (hsize : t'.bindings.size = t.bindings.size)
    (hscopes : t.scopes.size ≤ t'.scopes.size)
    (hrecords : ∀ b record', t'.binding? b = some record' →
      ∃ record, t.binding? b = some record ∧ record'.home = record.home)
    (htenants : ∀ home b, t'.tenant? home = some b → t.tenant? home = some b)
    (hkept : ∀ b record', t'.binding? b = some record' → record'.scope.index < t.scopes.size →
      (t'.scope record'.scope).detached = false → (t.scope record'.scope).detached = false
        ∧ (t.tenant? record'.home = some b → t'.tenant? record'.home = some b)) :
        Settles sure t₀ t' where
  known home b hb := (h.known home b (htenants home b hb)).trans_eq hsize.symm
  listed home b record' hb hrecord' := by
    obtain ⟨record, hrecord, heq⟩ := hrecords b record' hrecord'
    exact heq.trans (h.listed home b record (htenants home b hb) hrecord)
  placed hsure b record' hrecord' := by
    obtain ⟨record, hrecord, heq⟩ := hrecords b record' hrecord'
    rw [show record'.scope = record.scope from congrArg Prod.fst heq]
    exact (h.placed hsure b record hrecord).trans_le hscopes
  found hsure b record' hrecord' hlive := by
    obtain ⟨record, hrecord, heq⟩ := hrecords b record' hrecord'
    have hscope : record'.scope = record.scope := congrArg Prod.fst heq
    obtain ⟨hlive, hkeep⟩ :=
      hkept b record' hrecord' (hscope ▸ h.placed hsure b record hrecord) hlive
    refine hkeep ?_
    rw [heq]
    exact h.found hsure b record hrecord (hscope ▸ hlive)
  size := h.size.trans_eq hsize.symm
  home b record₀ record' h₀ hrecord' := by
    obtain ⟨record, hrecord, heq⟩ := hrecords b record' hrecord'
    exact heq.trans (h.home b record₀ record h₀ hrecord)

theorem of_tables (h : Settles sure t₀ t) (hb : t'.bindings = t.bindings)
    (hscopes : t.scopes.size ≤ t'.scopes.size)
    (htable : ∀ c, (t'.scope c).bindings = (t.scope c).bindings)
    (hlive : ∀ c : ScopeId, c.index < t.scopes.size → (t'.scope c).detached = false →
      (t.scope c).detached = false) : Settles sure t₀ t' := by
  have hbinding (b : BindingId) : t'.binding? b = t.binding? b := by
    unfold binding?
    rw [hb]
  have htenant (home : ScopeId × String) : t'.tenant? home = t.tenant? home := by
    unfold tenant?
    rw [htable]
  refine h.fewer (by rw [hb]) hscopes (fun b record' hr =>
    ⟨record', (hbinding b).symm.trans hr, rfl⟩)
    (fun home b hb => (htenant home).symm.trans hb) fun b record' hr hlt hl =>
    ⟨hlive _ hlt hl, fun hk => ?_⟩
  exact (htenant _).trans hk

theorem congr (h : Settles sure t₀ t) (hscopes : t'.scopes = t.scopes)
    (hb : t'.bindings = t.bindings) :
    Settles sure t₀ t' := by
  have hscope (c : ScopeId) : t'.scope c = t.scope c := by
    unfold Tree.scope
    rw [hscopes]
  exact h.of_tables hb (by rw [hscopes]) (fun c => by rw [hscope]) fun c _ hl => by
    rwa [hscope] at hl

theorem updateScope (h : Settles sure t₀ t) (s : ScopeId) {f : ScopeData → ScopeData}
    (htable : ∀ d, (f d).bindings = d.bindings)
    (hlive : ∀ d, (f d).detached = false → d.detached = false) :
    Settles sure t₀ (t.updateScope s f) := by
  refine h.of_tables rfl (size_scopes_updateScope ..).ge
    (fun c => t.scope_updateScope_congr s c f ScopeData.bindings htable) fun c _ hl => ?_
  rw [scope_updateScope] at hl
  split at hl
  · next hc => rw [hc.1]; exact hlive _ hl
  · exact hl

theorem foldl_updateScope (h : Settles sure t₀ t) {f : ScopeData → ScopeData}
    (htable : ∀ d, (f d).bindings = d.bindings)
    (hlive : ∀ d, (f d).detached = false → d.detached = false)
    (scopes : List ScopeId) : Settles sure t₀ (scopes.foldl (fun t s => t.updateScope s f) t) := by
  induction scopes generalizing t with
  | nil => exact h
  | cons s scopes ih => exact ih (h.updateScope s htable hlive)

theorem pushScope (h : Settles sure t₀ t) {d : ScopeData} (hd : d.bindings = [])
    {scopeOfNode : IndexTable ScopeId} :
    Settles sure t₀ { t with scopes := t.scopes.push d, scopeOfNode } := by
  have hscope (c : ScopeId) (hc : c.index ≠ t.scopes.size) :
      ({ t with scopes := t.scopes.push d, scopeOfNode } : Tree).scope c = t.scope c := by
    unfold Tree.scope
    dsimp only
    rw [Array.getElem?_push, if_neg hc]
  refine h.of_tables rfl ?_ (fun c => ?_) fun c hlt hl => ?_
  · rw [Array.size_push]
    exact Nat.le_succ _
  · by_cases hc : c.index = t.scopes.size
    · rw [scope_of_size_le hc.ge]
      unfold Tree.scope
      dsimp only
      rw [hc, Array.getElem?_push_size]
      exact hd
    · rw [hscope c hc]
  · rwa [hscope c hlt.ne] at hl

theorem updateBinding (h : Settles sure t₀ t) (b : BindingId) {f : Binding → Binding}
    (hf : ∀ x, t.binding? b = some x → (f x).home = x.home) :
    Settles sure t₀ (t.updateBinding b f) := by
  refine h.fewer Array.size_modify le_rfl (fun c record' hr => ?_) (fun _ _ h => h)
    fun c record' hr hlt hl => ⟨hl, fun hk => hk⟩
  rw [binding?_updateBinding] at hr
  split at hr
  · next hc =>
    obtain ⟨record, hrecord, rfl⟩ := Option.map_eq_some_iff.1 hr
    exact ⟨record, hc ▸ hrecord, hf record hrecord⟩
  · exact ⟨record', hr, rfl⟩

theorem retire (h : Settles sure t₀ t) (s : ScopeId) (name : String) (b : BindingId) :
    Settles sure t₀ (t.retire s name b) := by
  refine h.fewer Array.size_modify (size_scopes_updateScope ..).ge (fun c record hr => ?_)
    (fun home c hc => ?_) fun c record hr hlt hl => ⟨?_, fun hk => ?_⟩
  · rw [binding?_retire] at hr
    split at hr
    · cases hr
    · exact ⟨record, hr, rfl⟩
  · rw [tenant?_retire] at hc
    split at hc
    · cases hc
    · exact hc
  · rw [← hl]
    refine (t.scope_updateScope_congr s record.scope _ ScopeData.detached fun d => ?_).symm
    split <;> rfl
  · -- the binding that is retired is not left
    rw [tenant?_retire, if_neg, hk]
    rintro ⟨hhome, hb⟩
    rw [hhome, hb] at hk
    cases hk
    rw [binding?_retire, if_pos rfl] at hr
    cases hr

theorem resetScope (s : ScopeId) : Stays (Settles sure t₀) (Tree.resetScope s) := by
  refine stays_modify fun t h => ?_
  obtain ⟨bindings, heq, hsize, hold⟩ := foldl_destroyBinding (t.scope s).bindings t
  dsimp only
  rw [heq]
  show Settles sure t₀ (({ t with bindings } : Tree).updateScope s emptied)
  have htenant (home : ScopeId × String) :
      (({ t with bindings } : Tree).updateScope s emptied).tenant? home
        = if home.1 = s then none else t.tenant? home := tenant?_emptied { t with bindings } s home
  refine h.fewer hsize (size_scopes_updateScope ..).ge (fun b record hr =>
    ⟨record, (hold b record hr).1, rfl⟩)
    (fun home b hb => ?_) fun b record hr hlt hl => ⟨?_, fun hk => ?_⟩
  · rw [htenant] at hb
    split at hb
    · cases hb
    · exact hb
  · rw [← hl]
    exact (scope_updateScope_congr { t with bindings } s record.scope emptied ScopeData.detached
      fun d => congrArg (·.2.2.2.2) (static_emptied d)).symm
  · -- what the scope lists is destroyed
    refine (htenant record.home).trans ((if_neg fun hc => ?_).trans hk)
    refine (hold b record hr).2 (List.mem_map.2 ⟨(record.name, b), Arena.mem_of_get? ?_, rfl⟩)
    rw [← hc]
    exact hk

/-- A binding comes, at a home where none is listed. -/
theorem enter (h : Settles sure t₀ t) (hs : s.index < t.scopes.size)
    (hhome : record.home = (s, name)) (hfree : ∀ b, t.tenant? (s, name) = some b →
      t.binding? b = none) :
    Settles sure t₀ (t.withBinding s name record) := by
  have hsize : (t.withBinding s name record).bindings.size = t.bindings.size + 1 :=
    Array.size_push ..
  have hscopes : (t.withBinding s name record).scopes.size = t.scopes.size :=
    size_scopes_updateScope ..
  have hold {b : BindingId} {r : Binding} (hr : (t.withBinding s name record).binding? b = some r)
      (hb : b.index < t.bindings.size) : t.binding? b = some r := by
    rw [binding?_withBinding, if_neg] at hr
    · exact hr
    · rintro rfl
      exact Nat.lt_irrefl _ hb
  refine ⟨⟨fun home b hb => ?_, fun home b r hb hr => ?_, fun hsure b r hr => ?_,
    fun hsure b r hr hl => ?_⟩,
    ?_, fun b record₀ r h₀ hr => ?_⟩
  · rw [tenant?_withBinding hs] at hb
    split at hb
    · cases hb
      exact hsize ▸ Nat.lt_succ_self _
    · exact hsize ▸ Nat.lt_succ_of_lt (h.known home b hb)
  · rw [tenant?_withBinding hs] at hb
    split at hb
    · next heq =>
      cases hb
      rw [binding?_withBinding, if_pos rfl] at hr
      cases hr
      rw [heq]
      exact hhome
    · exact h.listed home b r hb (hold hr (h.known home b hb))
  · rw [hscopes]
    rw [binding?_withBinding] at hr
    split at hr
    · cases hr
      rw [show record.scope = s from congrArg Prod.fst hhome]
      exact hs
    · exact h.placed hsure b r hr
  · rw [tenant?_withBinding hs]
    rw [binding?_withBinding] at hr
    split at hr
    · next heq =>
      cases hr
      rw [if_pos hhome, heq]
    · have hfound := h.found hsure b r hr (by rwa [detached_withBinding] at hl)
      rw [if_neg, hfound]
      intro heq
      rw [heq] at hfound
      cases (hfree b hfound).symm.trans hr
  · rw [hsize]
    exact Nat.le_succ_of_le h.size
  · exact h.home b record₀ r h₀ (hold hr ((lt_of_binding? h₀).trans_le h.size))

/-! ## crawls and edits -/

theorem pathless : Pathless (Settles sure t₀) :=
  fun _ _ hsame h => h.congr hsame.scopes hsame.bindings

theorem noteReference (s : ScopeId) (name : String) : Stays (Settles sure t₀)
    (Tree.noteReference s name) :=
  stays_modify fun _ h => h.updateScope _ (fun _ => rfl) fun _ hd => hd

theorem declareName (s : ScopeId) (kind : BindingKind) (p : PathId) (name : String) (id : NodeId) :
    Stays (Settles sure t₀) (Tree.declareName s kind p name id) := by
  refine stays_iff.2 fun t h => ?_
  have hmerge (b : BindingId) : Stays (Settles sure t₀) (do
      modify (·.updateBinding b (Binding.merge kind p id))
      Tree.noteReference s name : TreeM Unit) :=
    (stays_modify fun t h => h.updateBinding b fun x _ => x.home_merge kind p id).bind fun _ =>
      noteReference s name
  unfold Tree.declareName
  rw [ends_bind, ends_get]
  cases hown : (t.ownBinding? s name).bind fun b => (t.binding? b).map (b, ·) with
  | none =>
    dsimp only
    split
    · exact h
    · next hs =>
      rw [ends_bind, ends_modify]
      refine stays_iff.1 (noteReference s name) _ (h.enter (Nat.lt_of_not_le hs) rfl fun b hb => ?_)
      -- a binding that is listed and alive is found
      by_contra hlive
      obtain ⟨record, hrecord⟩ := Option.ne_none_iff_exists'.1 hlive
      unfold ownBinding? at hown
      rw [show (t.scope s).bindings.get? name = some b from hb] at hown
      simp [hrecord] at hown
  | some x =>
    obtain ⟨b, old⟩ := x
    dsimp only
    split
    · exact h
    · split
      · exact stays_iff.1 ((stays_throw _).bind fun _ => hmerge b) t h
      · exact stays_iff.1 (hmerge b) t h

theorem names : Names (Settles sure t₀) where
  paths := pathless.charted
  scope _ s _ hf h := h.updateScope s (fun d => (hf d).2) fun d hd =>
    (congrArg (·.1.2.2) (hf d).1).symm.trans hd
  record _ b _ hf h := h.updateBinding b fun x hx => (hf x hx).home
  declareName := declareName
  resetScope := resetScope
  retire _ s name b h := h.retire s name b
  newScope _ _ _ hd _ h := h.pushScope hd

/-- **Crawls list what they declare, and nothing in the place of another.** -/
theorem crawls : Crawls (Settles sure t₀) 0 where
  __ := names
  stack := pathless.stack
  next _ _ := Nat.zero_le _
  depth _ _ h := h.congr rfl rfl
  push _ _ _ h := h.congr rfl rfl
  pop _ _ _ h := h.congr rfl rfl
  update _ _ _ _ _ h := h.congr rfl rfl

theorem cleared (h : Settles sure t₀ t) (d : Departure) : Settles sure t₀ (d.cleared t) := by
  have hmarked : Settles sure t₀ (markRemovedBelow d (t.arena.preorder (some d.old)) t) :=
    pathless _ _ (sameButPaths_markRemovedBelow d _ t) h
  have hdetached := hmarked.foldl_updateScope (f := ({ · with detached := true })) (fun _ => rfl)
    (fun _ hd => nomatch hd) (d.gone t)
  refine hdetached.foldl_updateScope (fun x => ?_) (fun x hx => ?_) (d.kept t)
  · split <;> rfl
  · split at hx
    · exact hx
    · exact hx

/-- **Edits keep tables and records in agreement.** -/
theorem endures : Endures (Settles sure t₀) 0 where
  toCrawls := crawls
  pathless := pathless
  nodes _ _ _ h := h.congr rfl rfl
  registry _ _ _ _ h := h.congr rfl rfl
  counter _ p _ _ _ _ h := h.updateScope p (fun _ => rfl) fun _ hd => hd
  queue _ _ _ _ h := h.congr rfl rfl
  forget d t h := by
    rw [invalidate_eq]
    exact (names.settled d t (h.cleared d)).congr rfl rfl

theorem learns : Learns (Settles sure t₀) 0 where
  toCrawls := crawls
  remember _ b v h := h.updateBinding b fun x _ => x.home_remember v

end Settles

end ScopedTree.Tree
