import ScopedTree.Proofs.Constant.Value
import ScopedTree.Proofs.Scope.Crawl

/-!
# Straight-line programs

A straight-line program is a list of expressions and of declarations of one name with a value. It is
run statement by statement: a `var` holds undefined before its declaration has run, a `let` or
`const` cannot be read before.

* `Straight.Expr`, `Straight.Stmt`   the programs, with the nodes that they are read off;
* `Straight.Machine`         what there is to compute with; on primitive values, the tables of
  operators;
* `Straight.Machine.run`     the reads that a run reaches, with the values that they have there;
* `Arena.Spells`, `Arena.SpellsProgram`   the nodes that stand for an expression, for a program;
* `Straight.Ahead`           a read that stands before the end of the one declaration of its name;
* `Arena.Plain`              what else there is below the root of a straight-line program.
-/

namespace ScopedTree

namespace Straight

/-! ## programs -/

/-- An expression. -/
inductive Expr where
  /-- A literal, with its value if that is a primitive one. -/
  | literal (node : NodeId) (value : Option Primitive)
  | read (node : NodeId) (name : String)
  | unary (operator : String) (argument : Expr)
  | binary (operator : String) (left right : Expr)
  | logical (operator : String) (left right : Expr)
  | conditional (test consequent alternate : Expr)

def Expr.occurrences : Expr → List (NodeId × String)
  | literal _ _ => []
  | read n x => [(n, x)]
  | unary _ e => e.occurrences
  | binary _ l r | logical _ l r => l.occurrences ++ r.occurrences
  | conditional e c d => e.occurrences ++ c.occurrences ++ d.occurrences

def Expr.name? : Expr → Option String
  | read _ x => some x
  | _ => none

/-- A statement: `var x = e`, `let x = e` or `const x = e`, or an expression. -/
inductive Stmt where
  | declare (node : NodeId) (keyword : String) (declarator : NodeId) (name : String) (init : Expr)
  | evaluate (node : NodeId) (e : Expr)

namespace Stmt

def node : Stmt → NodeId
  | declare n _ _ _ _ | evaluate n _ => n

def expr : Stmt → Expr
  | declare _ _ _ _ e | evaluate _ e => e

def declarator? (x : String) : Stmt → Option NodeId
  | declare _ _ d y _ => if y = x then some d else none
  | evaluate _ _ => none

def keyword? (x : String) : Stmt → Option String
  | declare _ k _ y _ => if y = x then some k else none
  | evaluate _ _ => none

theorem keyword?_eq_none {x : String} {s : Stmt} :
    s.keyword? x = none ↔ s.declarator? x = none := by
  cases s with
  | declare => simp [keyword?, declarator?]
  | evaluate => simp [keyword?, declarator?]

theorem declarator?_eq_some {x : String} {d : NodeId} {s : Stmt} :
    s.declarator? x = some d ↔ ∃ n k e, s = declare n k d x e := by
  cases s with
  | declare n k d' y e =>
    by_cases hy : y = x
    · simp [declarator?, hy]
    · simp [declarator?, hy]
  | evaluate => simp [declarator?]

end Stmt

/-! ## runs -/

/-- What a name stands for in a run. -/
inductive Cell (V : Type) where
  /-- Nothing. -/
  | absent
  /-- A `let` or `const` whose declaration has not run. -/
  | pending
  | holds (value : V)

namespace Cell

variable {V : Type}

def value? : Cell V → Option V
  | holds v => some v
  | _ => none

def isAbsent : Cell V → Bool
  | absent => true
  | _ => false

end Cell

/-- What programs are run with. There may be values that are not primitive, and operators that the
tables do not have; what they do is left open. Primitive values are computed with as the tables say.
-/
structure Machine where
  Value : Type
  prim : Primitive → Value
  literal : NodeId → Option Primitive → Value
  /-- The result of a unary operator, if it does not fail. -/
  unary : String → Value → Option Value
  binary : String → Value → Value → Option Value
  truthy : Value → Bool
  /-- Whether the left side alone decides a logical expression. -/
  decides : String → Value → Option Bool
  literal_prim : ∀ n v, literal n (some v) = prim v
  unary_prim : ∀ op u v, u.applyUnary op = some v → unary op (prim u) = some (prim v)
  unary_void : ∀ u, unary "void" u = some (prim .undefined)
  binary_prim : ∀ op u v w, Primitive.applyBinary op u v = some w →
    binary op (prim u) (prim v) = some (prim w)
  truthy_prim : ∀ u, truthy (prim u) = u.truthy
  decides_prim : ∀ op u b, Evaluation.decidesLeft? op u = some b → decides op (prim u) = some b

namespace Machine

variable (M : Machine)

abbrev Env : Type := String → Cell M.Value

/-- The value of an expression, if its evaluation does not fail. A name that stands for nothing has
a type, but cannot be read otherwise. -/
def value? (ρ : M.Env) : Expr → Option M.Value
  | .literal n v => some (M.literal n v)
  | .read _ x => (ρ x).value?
  | .unary op e =>
    if op = "typeof" ∧ e.name?.any (ρ · |>.isAbsent) then some (M.prim (.string "undefined"))
    else (value? ρ e).bind (M.unary op)
  | .binary op l r => (value? ρ l).bind fun u => (value? ρ r).bind (M.binary op u)
  | .logical op l r =>
    (value? ρ l).bind fun u => (M.decides op u).bind fun b => if b then some u else value? ρ r
  | .conditional e c d => (value? ρ e).bind fun u => if M.truthy u then value? ρ c else value? ρ d

/-- The reads that the evaluation of an expression reaches, with the values that they have. -/
def reads (ρ : M.Env) : Expr → List (NodeId × M.Value)
  | .literal _ _ => []
  | .read n x => (ρ x).value?.toList.map (n, ·)
  | .unary _ e => reads ρ e
  | .binary _ l r => reads ρ l ++ if (M.value? ρ l).isSome then reads ρ r else []
  | .logical op l r =>
    reads ρ l ++ if (M.value? ρ l).bind (M.decides op) = some false then reads ρ r else []
  | .conditional e c d =>
    reads ρ e ++ (M.value? ρ e).elim [] fun u => if M.truthy u then reads ρ c else reads ρ d

/-- The names after a statement, if it does not fail. -/
def step (ρ : M.Env) : Stmt → Option M.Env
  | .declare _ _ _ x e => (M.value? ρ e).map fun v => Function.update ρ x (.holds v)
  | .evaluate _ e => (M.value? ρ e).map fun _ => ρ

/-- The names before the first statement. -/
def start (host : M.Env) (stmts : List Stmt) : M.Env := fun x =>
  match stmts.findSome? (·.keyword? x) with
  | some k => if k = "var" then .holds (M.prim .undefined) else .pending
  | none => host x

def after (ρ : M.Env) (stmts : List Stmt) : Option M.Env := stmts.foldlM M.step ρ

/-- The reads that a run reaches, with the values that they have there. A run ends with the
statement that fails. -/
def run (ρ : M.Env) : List Stmt → List (NodeId × M.Value)
  | [] => []
  | s :: rest => M.reads ρ s.expr ++ (M.step ρ s).elim [] fun ρ' => run ρ' rest

/-- A machine that has only primitive values. -/
def plain : Machine where
  Value := Primitive
  prim := id
  literal _ v := v.getD .undefined
  unary op u := if op = "void" then some .undefined else u.applyUnary op
  binary := Primitive.applyBinary
  truthy := Primitive.truthy
  decides := Evaluation.decidesLeft?
  literal_prim _ _ := rfl
  unary_prim op u v h := by
    have hop : op ≠ "void" := by
      rintro rfl
      simp [Primitive.applyUnary] at h
    rw [if_neg hop]
    exact h
  unary_void _ := rfl
  binary_prim _ _ _ _ h := h
  truthy_prim _ := rfl
  decides_prim _ _ _ h := h

def plainHost : plain.Env := fun x => (unboundValue? x).elim .absent .holds

theorem plainHost_eq (x : String) (v : Primitive) (h : unboundValue? x = some v) :
    plainHost x = .holds (plain.prim v) := by
  unfold plainHost
  rw [h]
  rfl

variable {M} {ρ ρ' : M.Env} {x : String} {n : NodeId} {w : M.Value}
  {before stmts : List Stmt} {s : Stmt}

theorem mem_reads : ∀ {e : Expr}, (n, w) ∈ M.reads ρ e →
    ∃ x, (n, x) ∈ e.occurrences ∧ ρ x = .holds w
  | .literal _ _, h => nomatch h
  | .read m x, h => by
    obtain ⟨v, hv, heq⟩ := List.mem_map.1 h
    obtain ⟨rfl, rfl⟩ := Prod.mk.inj heq
    refine ⟨x, List.mem_singleton_self _, ?_⟩
    cases hx : ρ x <;> simp_all [Cell.value?]
  | .unary _ e, h => mem_reads (e := e) h
  | .binary _ l r, h => by
    rcases List.mem_append.1 h with h | h
    · exact (mem_reads h).imp fun _ => .imp_left (List.mem_append_left _)
    · split at h
      · exact (mem_reads h).imp fun _ => .imp_left (List.mem_append_right _)
      · cases h
  | .logical _ l r, h => by
    rcases List.mem_append.1 h with h | h
    · exact (mem_reads h).imp fun _ => .imp_left (List.mem_append_left _)
    · split at h
      · exact (mem_reads h).imp fun _ => .imp_left (List.mem_append_right _)
      · cases h
  | .conditional e c d, h => by
    rcases List.mem_append.1 h with h | h
    · exact (mem_reads h).imp fun _ => .imp_left fun h =>
        List.mem_append_left _ (List.mem_append_left _ h)
    · cases hu : M.value? ρ e with
      | none => simp [hu] at h
      | some u =>
        rw [hu, Option.elim_some] at h
        split at h
        · exact (mem_reads h).imp fun _ => .imp_left fun h =>
            List.mem_append_left _ (List.mem_append_right _ h)
        · exact (mem_reads h).imp fun _ => .imp_left (List.mem_append_right _)

theorem mem_run : ∀ {stmts : List Stmt} {ρ : M.Env}, (n, w) ∈ M.run ρ stmts →
    ∃ before s rest ρ', stmts = before ++ s :: rest ∧ M.after ρ before = some ρ'
      ∧ (n, w) ∈ M.reads ρ' s.expr
  | [], _, h => nomatch h
  | s :: stmts, ρ, h => by
    rcases List.mem_append.1 h with h | h
    · exact ⟨[], s, stmts, ρ, rfl, rfl, h⟩
    · cases hstep : M.step ρ s with
      | none => simp [hstep] at h
      | some ρ₁ =>
        rw [hstep, Option.elim_some] at h
        obtain ⟨before, s', rest, ρ', rfl, hafter, h⟩ := mem_run h
        refine ⟨s :: before, s', rest, ρ', rfl, ?_, h⟩
        simpa [after, hstep] using hafter

theorem after_append (ρ : M.Env) (before stmts : List Stmt) :
    M.after ρ (before ++ stmts) = (M.after ρ before).bind (M.after · stmts) :=
  List.foldlM_append

theorem after_cons (ρ : M.Env) (s : Stmt) (stmts : List Stmt) :
    M.after ρ (s :: stmts) = (M.step ρ s).bind (M.after · stmts) :=
  List.foldlM_cons

theorem step_of_not_declares (h : M.step ρ s = some ρ') (hs : s.declarator? x = none) :
    ρ' x = ρ x := by
  cases s with
  | declare m k d y e =>
    obtain ⟨v, _, rfl⟩ := Option.map_eq_some_iff.1 h
    have hne : x ≠ y := by
      rintro rfl
      simp [Stmt.declarator?] at hs
    exact Function.update_of_ne hne _ _
  | evaluate m e =>
    obtain ⟨v, _, rfl⟩ := Option.map_eq_some_iff.1 h
    rfl

theorem after_of_not_declares (h : M.after ρ stmts = some ρ')
    (hs : ∀ s ∈ stmts, s.declarator? x = none) :
    ρ' x = ρ x := by
  induction stmts generalizing ρ with
  | nil => rw [Option.some.inj h]
  | cons s stmts ih =>
    rw [after_cons] at h
    obtain ⟨ρ₁, hstep, h⟩ := Option.bind_eq_some_iff.1 h
    obtain ⟨hfirst, hs⟩ := List.forall_mem_cons.1 hs
    exact (ih h hs).trans (step_of_not_declares hstep hfirst)

theorem start_of_not_declares {host : M.Env} (hs : ∀ s ∈ stmts, s.declarator? x = none) :
    M.start host stmts x = host x := by
  have hnone : stmts.findSome? (·.keyword? x) = none :=
    List.findSome?_eq_none_iff.2 fun s hmem => Stmt.keyword?_eq_none.2 (hs s hmem)
  unfold start
  rw [hnone]

end Machine

/-- The read `n` of a name stands in the text up to the end of the only statement that declares the
name, with the declarator `d`. -/
def Ahead (stmts : List Stmt) (n : NodeId) (x : String) (d : NodeId) : Prop :=
  ∃ before s rest, stmts = before ++ s :: rest ∧ s.declarator? x = some d
    ∧ (∀ s' ∈ before ++ rest, s'.declarator? x = none)
    ∧ ∃ s' ∈ before ++ [s], (n, x) ∈ s'.expr.occurrences

end Straight

open Straight

namespace Arena

/-! ## nodes of programs -/

def literalValue? (a : Arena) (id : Option NodeId) : Option Primitive :=
  (a.look id).bind (a.formValue? (fun _ => none) (fun _ => .unclear) id)

/-- The node stands for the expression. Templates count as literals if they have texts only. -/
inductive Spells (a : Arena) : Expr → NodeId → Prop
  | literal {n : NodeId} {v : Option Primitive} (hn : a.isA (some n) .literal)
      (hv : a.literalValue? (some n) = v) (hplain : a.items (some n) "expressions" = [])
      (htexts : ∀ c ∈ a.children (some n), a.is (some c) .templateElement) :
      Spells a (.literal n v) n
  | read {n : NodeId} {x : String} (hn : a.is (some n) .identifier) (hx : a.name? (some n) = some x)
      (hleaf : a.children (some n) = []) : Spells a (.read n x) n
  | unary {n m : NodeId} {op : String} {e : Expr} (hn : a.is (some n) .unaryExpression)
      (hop : a.text? (some n) "operator" = some op) (hm : a.child? (some n) "argument" = some m)
      (he : Spells a e m) : Spells a (.unary op e) n
  | binary {n l r : NodeId} {op : String} {e f : Expr} (hn : a.is (some n) .binaryExpression)
      (hop : a.text? (some n) "operator" = some op) (hl : a.child? (some n) "left" = some l)
      (hr : a.child? (some n) "right" = some r) (he : Spells a e l) (hf : Spells a f r) :
      Spells a (.binary op e f) n
  | logical {n l r : NodeId} {op : String} {e f : Expr} (hn : a.is (some n) .logicalExpression)
      (hop : a.text? (some n) "operator" = some op) (hl : a.child? (some n) "left" = some l)
      (hr : a.child? (some n) "right" = some r) (he : Spells a e l) (hf : Spells a f r) :
      Spells a (.logical op e f) n
  | conditional {n l c d : NodeId} {e f g : Expr} (hn : a.is (some n) .conditionalExpression)
      (hl : a.child? (some n) "test" = some l) (hc : a.child? (some n) "consequent" = some c)
      (hd : a.child? (some n) "alternate" = some d) (he : Spells a e l) (hf : Spells a f c)
      (hg : Spells a g d) : Spells a (.conditional e f g) n

/-- The node of the statement stands for it. -/
inductive SpellsStmt (a : Arena) : Stmt → Prop
  | declare {n d m i : NodeId} {k x : String} {e : Expr} (hn : a.is (some n) .variableDeclaration)
      (hk : a.text? (some n) "kind" = some k) (hkeyword : k ∈ ["var", "let", "const"])
      (hitems : a.items (some n) "declarations" = [some d])
      (hd : a.is (some d) .variableDeclarator) (hm : a.child? (some d) "id" = some m)
      (hx : a.Spells (.read m x) m) (hi : a.child? (some d) "init" = some i) (he : a.Spells e i) :
      SpellsStmt a (.declare n k d x e)
  | evaluate {n i : NodeId} {e : Expr} (hn : a.is (some n) .expressionStatement)
      (hi : a.child? (some n) "expression" = some i) (he : a.Spells e i) :
      SpellsStmt a (.evaluate n e)

/-- The root is a program that has the statements for its body. -/
structure SpellsProgram (a : Arena) (r : NodeId) (stmts : List Stmt) : Prop where
  program : a.is (some r) .program
  directives : a.items (some r) "directives" = []
  body : a.items (some r) "body" = stmts.map fun s => some s.node
  statements : ∀ s ∈ stmts, a.SpellsStmt s

/-- Both nodes have a position, and the first starts before the second ends. -/
def startsBefore (a : Arena) (n d : Option NodeId) : Bool :=
  let span (id : Option NodeId) := (a.look id).elim Span.synthetic (·.span)
  span n != .synthetic && span d != .synthetic && (span n).start < (span d).stop

/-- Positions show if the read stands before the end of the only declaration of its name. -/
def Dated (a : Arena) (stmts : List Stmt) (n : NodeId) : Prop :=
  ∀ x d, Ahead stmts n x d → a.startsBefore (some n) (some d) = true

/-- A node of a straight-line program other than its root. -/
inductive Plain (a : Arena) (stmts : List Stmt) : NodeId → Prop
  | statement {s : Stmt} (hs : s ∈ stmts) : Plain a stmts s.node
  | declarator {n d : NodeId} {k x : String} {e : Expr} (hs : .declare n k d x e ∈ stmts) :
      Plain a stmts d
  | expression {n : NodeId} {e : Expr} (he : a.Spells e n) : Plain a stmts n
  | text {n : NodeId} (hn : a.is (some n) .templateElement) : Plain a stmts n

def spelledTypes : List NodeType :=
  [.stringLiteral, .numericLiteral, .nullLiteral, .booleanLiteral, .regExpLiteral, .templateLiteral,
   .identifier, .unaryExpression, .binaryExpression, .logicalExpression, .conditionalExpression]

variable {a : Arena} {r n m c d : NodeId} {e : Expr} {s : Stmt} {stmts : List Stmt} {ty : NodeType}
  {above : List NodeId}

theorem mem_spelledTypes_of_literal : ∀ ty : NodeType, ty.isA .literal = true →
    ty ∈ spelledTypes := by
  intro ty
  cases ty <;> decide

theorem Spells.type (h : a.Spells e n) : ∃ o, a.get? n = some o ∧ o.type ∈ spelledTypes := by
  cases h with
  | literal hn _ _ _ =>
    obtain ⟨o, ho, hty⟩ := isA_some.1 hn
    exact ⟨o, ho, mem_spelledTypes_of_literal o.type hty⟩
  | read hn _ _ | unary hn _ _ _ | binary hn _ _ _ _ _ | logical hn _ _ _ _ _
  | conditional hn _ _ _ _ _ _ =>
    obtain ⟨o, ho, hty⟩ := is_some.1 hn
    exact ⟨o, ho, by rw [hty]; decide⟩

/-- A node that stands for an expression is in none of the groups that the types of these are not
in. -/
theorem Spells.not_isA (h : a.Spells e n) {group : Alias}
    (hgroup : ∀ ty ∈ spelledTypes, ty.isA group = false) : a.isA (some n) group = false := by
  obtain ⟨o, ho, hty⟩ := h.type
  simp [isA, type?, ho, hgroup _ hty]

theorem Spells.not_is (h : a.Spells e n) (hty : ty ∉ spelledTypes) : ¬ a.is (some n) ty := by
  obtain ⟨o, ho, ho'⟩ := h.type
  intro hn
  obtain ⟨o', ho'', rfl⟩ := is_some.1 hn
  exact hty (Option.some.inj (ho.symm.trans ho'') ▸ ho')

theorem Spells.occurrence {x : String} (h : a.Spells e n) (hm : (m, x) ∈ e.occurrences) :
    a.Spells (.read m x) m := by
  induction h with
  | literal => cases hm
  | read hn hx hleaf =>
    obtain ⟨rfl, rfl⟩ := Prod.mk.inj (List.mem_singleton.1 hm)
    exact .read hn hx hleaf
  | unary _ _ _ _ ih => exact ih hm
  | binary _ _ _ _ _ _ ihe ihf | logical _ _ _ _ _ _ ihe ihf =>
    exact (List.mem_append.1 hm).elim ihe ihf
  | conditional _ _ _ _ _ _ _ ihe ihf ihg =>
    rcases List.mem_append.1 hm with hm | hm
    · exact (List.mem_append.1 hm).elim ihe ihf
    · exact ihg hm

theorem Shaped.mem_children_cases (ha : a.Shaped) (hn : a.is (some n) ty)
    (hc : c ∈ a.children (some n)) : ∃ f ∈ ty.childFields,
      (f.kind ≠ .list ∧ a.child? (some n) f.name = some c)
        ∨ f.kind = .list ∧ some c ∈ a.items (some n) f.name := by
  obtain ⟨o, ho, rfl⟩ := is_some.1 hn
  have hshaped := ha n o ho
  rw [children_some, ho, Option.elim_some, hshaped.children_eq] at hc
  obtain ⟨f, hf, hc⟩ := List.mem_flatMap.1 hc
  obtain ⟨v, hv, hfit⟩ := hshaped.value?_of_mem (List.mem_of_mem_filter hf)
  refine ⟨f, hf, ?_⟩
  rw [Node.fieldChildren, hv, Option.elim_some] at hc
  simp only [child?, items, look_some, ho, Option.bind_some, Option.elim_some, Node.child?,
    Node.items, hv]
  cases v with
  | node child =>
    refine .inl ⟨?_, by simpa [Value.children, Value.handles, eq_comm] using hc⟩
    intro hkind
    rw [hkind] at hfit
    cases hfit
  | list entries =>
    refine .inr ⟨?_, by simpa [Value.children, Value.handles, List.reduceOption_mem_iff] using hc⟩
    cases hkind : f.kind <;> rw [hkind] at hfit <;> first | rfl | cases hfit
  | _ => simp [Value.children, Value.handles] at hc

theorem Shaped.slot_of_child (ha : a.Shaped) (hn : a.is (some n) ty)
    (hslots : ∀ f ∈ ty.childFields, f.kind ≠ .list) (hc : c ∈ a.children (some n)) :
    ∃ key ∈ ty.childFields.map (·.name), a.child? (some n) key = some c := by
  obtain ⟨f, hf, ⟨_, hchild⟩ | ⟨hkind, _⟩⟩ := ha.mem_children_cases hn hc
  · exact ⟨f.name, List.mem_map_of_mem hf, hchild⟩
  · exact absurd hkind (hslots f hf)

theorem Shaped.entry_of_child (ha : a.Shaped) (hn : a.is (some n) ty)
    (hlists : ∀ f ∈ ty.childFields, f.kind = .list) (hc : c ∈ a.children (some n)) :
    ∃ key ∈ ty.childFields.map (·.name), some c ∈ a.items (some n) key := by
  obtain ⟨f, hf, ⟨hkind, _⟩ | ⟨_, hitem⟩⟩ := ha.mem_children_cases hn hc
  · exact absurd (hlists f hf) hkind
  · exact ⟨f.name, List.mem_map_of_mem hf, hitem⟩

/-- A child of a node that stands for an expression stands for one too, or is the text of a
template. -/
theorem Spells.child (ha : a.Shaped) (h : a.Spells e n) (hc : c ∈ a.children (some n)) :
    (∃ f, a.Spells f c) ∨ a.is (some c) .templateElement := by
  cases h with
  | literal _ _ _ htexts => exact .inr (htexts c hc)
  | read _ _ hleaf =>
    rw [hleaf] at hc
    cases hc
  | unary hn _ hm he =>
    obtain ⟨key, hkey, hchild⟩ := ha.slot_of_child hn (by decide) hc
    obtain rfl : key = "argument" := List.mem_singleton.1 hkey
    obtain rfl := Option.some.inj (hm.symm.trans hchild)
    exact .inl ⟨_, he⟩
  | binary hn _ hl hr he hf | logical hn _ hl hr he hf =>
    obtain ⟨key, hkey, hchild⟩ := ha.slot_of_child hn (by decide) hc
    replace hkey : key ∈ ["left", "right"] := hkey
    simp only [List.mem_cons, List.not_mem_nil, or_false] at hkey
    rcases hkey with rfl | rfl
    · obtain rfl := Option.some.inj (hl.symm.trans hchild)
      exact .inl ⟨_, he⟩
    · obtain rfl := Option.some.inj (hr.symm.trans hchild)
      exact .inl ⟨_, hf⟩
  | conditional hn hl hc' hd he hf hg =>
    obtain ⟨key, hkey, hchild⟩ := ha.slot_of_child hn (by decide) hc
    replace hkey : key ∈ ["test", "consequent", "alternate"] := hkey
    simp only [List.mem_cons, List.not_mem_nil, or_false] at hkey
    rcases hkey with rfl | rfl | rfl
    · obtain rfl := Option.some.inj (hl.symm.trans hchild)
      exact .inl ⟨_, he⟩
    · obtain rfl := Option.some.inj (hc'.symm.trans hchild)
      exact .inl ⟨_, hf⟩
    · obtain rfl := Option.some.inj (hd.symm.trans hchild)
      exact .inl ⟨_, hg⟩

theorem Plain.child (ha : a.Shaped) (hs : ∀ s ∈ stmts, a.SpellsStmt s) (h : a.Plain stmts n)
    (hc : c ∈ a.children (some n)) : a.Plain stmts c := by
  cases h with
  | @statement s hmem =>
    cases hs s hmem with
    | declare hn hk hkeyword hitems hd hm hx hi he =>
      obtain ⟨key, hkey, hitem⟩ := ha.entry_of_child hn (by decide) hc
      obtain rfl : key = "declarations" := List.mem_singleton.1 hkey
      change some c ∈ a.items (some _) "declarations" at hitem
      rw [hitems] at hitem
      obtain rfl := Option.some.inj (List.mem_singleton.1 hitem)
      exact .declarator hmem
    | evaluate hn hi he =>
      obtain ⟨key, hkey, hchild⟩ := ha.slot_of_child hn (by decide) hc
      obtain rfl : key = "expression" := List.mem_singleton.1 hkey
      obtain rfl := Option.some.inj (hi.symm.trans hchild)
      exact .expression he
  | declarator hmem =>
    cases hs _ hmem with
    | declare hn hk hkeyword hitems hd hm hx hi he =>
      obtain ⟨key, hkey, hchild⟩ := ha.slot_of_child hd (by decide) hc
      replace hkey : key ∈ ["id", "init"] := hkey
      simp only [List.mem_cons, List.not_mem_nil, or_false] at hkey
      rcases hkey with rfl | rfl
      · obtain rfl := Option.some.inj (hm.symm.trans hchild)
        exact .expression hx
      · obtain rfl := Option.some.inj (hi.symm.trans hchild)
        exact .expression he
  | expression he =>
    rcases he.child ha hc with ⟨f, hf⟩ | htext
    · exact .expression hf
    · exact .text htext
  | text hn =>
    obtain ⟨_, hkey, _⟩ := ha.slot_of_child hn (by decide) hc
    cases hkey

theorem Plain.not_scopable (hs : ∀ s ∈ stmts, a.SpellsStmt s) (h : a.Plain stmts n) :
    a.isA (some n) .scopable = false := by
  have hof {ty : NodeType} (hn : a.is (some n) ty) (hty : ty.isA .scopable = false) :
      a.isA (some n) .scopable = false := by
    obtain ⟨o, ho, rfl⟩ := is_some.1 hn
    simpa [isA, type?, ho] using hty
  cases h with
  | @statement s hmem =>
    cases hs s hmem with
    | declare hn => exact hof hn (by decide)
    | evaluate hn => exact hof hn (by decide)
  | declarator hmem =>
    cases hs _ hmem with
    | declare _ _ _ _ hd => exact hof hd (by decide)
  | expression he => exact he.not_isA (by decide)
  | text hn => exact hof hn (by decide)

theorem Plain.of_declarator (hs : ∀ s ∈ stmts, a.SpellsStmt s) (h : a.Plain stmts d)
    (hd : a.is (some d) .variableDeclarator) : ∃ n k x e, .declare n k d x e ∈ stmts := by
  have hof {ty : NodeType} (hn : a.is (some d) ty) : ty = .variableDeclarator := by
    obtain ⟨o, ho, rfl⟩ := is_some.1 hn
    simpa [Tree.is_of_get ho] using hd
  cases h with
  | @statement s hmem =>
    cases hs s hmem with
    | declare hn => cases hof hn
    | evaluate hn => cases hof hn
  | declarator hmem => exact ⟨_, _, _, _, hmem⟩
  | expression he => exact absurd hd (he.not_is (by decide))
  | text hn => cases hof hn

theorem Spells.eq_of_binds {x y : String} {outer : Bool} {id : NodeId} (h : a.Spells (.read n x) n)
    (hb : a.Binds outer n y id) : y = x ∧ id = n := by
  cases h with
  | read hn hx _ =>
    cases hb with
    | here ho _ hname => exact ⟨by simpa [Arena.name?, ho, hname] using hx, rfl⟩
    | inside ho hm _ =>
      obtain ⟨o, ho', hty⟩ := is_some.1 hn
      obtain rfl := Option.some.inj (ho.symm.trans ho')
      simp [bindingTargets, hty] at hm

namespace SpellsProgram

variable (hp : a.SpellsProgram r stmts)

include hp

theorem child_root (ha : a.Shaped) : c ∈ a.children (some r) ↔ ∃ s ∈ stmts, s.node = c := by
  constructor
  · intro hc
    obtain ⟨key, hkey, hitem⟩ := ha.entry_of_child hp.program (by decide) hc
    replace hkey : key ∈ ["directives", "body"] := hkey
    simp only [List.mem_cons, List.not_mem_nil, or_false] at hkey
    rcases hkey with rfl | rfl
    · rw [hp.directives] at hitem
      cases hitem
    · rw [hp.body] at hitem
      obtain ⟨s, hs, heq⟩ := List.mem_map.1 hitem
      exact ⟨s, hs, Option.some.inj heq⟩
  · rintro ⟨s, hs, rfl⟩
    have hitem : some s.node ∈ a.items (some r) "body" := hp.body ▸ List.mem_map_of_mem hs
    exact mem_children_of_items hitem

theorem plain (ha : a.Shaped) (hu : a.Under r n above) (hne : n ≠ r) : a.Plain stmts n := by
  induction hu with
  | root => exact absurd rfl hne
  | @child p c above hu hc ih =>
    by_cases hpr : p = r
    · rw [hpr] at hc
      obtain ⟨s, hs, rfl⟩ := (hp.child_root ha).1 hc
      exact .statement hs
    · exact (ih hpr).child ha hp.statements hc

theorem blocks_eq (ha : a.WellOwned) (hu : a.Under r n above) : a.blocks (n :: above) = [r] := by
  induction hu with
  | root => exact blocks_cons_of_scope (Tree.isScope_of_program hp.program)
  | @child p c above hu hc ih =>
    have hne : c ≠ r := by
      rintro rfl
      cases (Under.child hu hc).unique ha.owned .root
    have hscopable := (hp.plain ha.shaped (.child hu hc) hne).not_scopable hp.statements
    have hscope : ¬ a.isScope (some c) (p :: above).head? := by
      unfold isScope
      rw [hscopable]
      split <;> simp
    rw [blocks_cons_of_not_scope hscope, ih]

theorem under_statement (hs : s ∈ stmts) : a.Under r s.node [r] := by
  have hitem : some s.node ∈ a.items (some r) "body" := hp.body ▸ List.mem_map_of_mem hs
  exact .child .root (mem_children_of_items hitem)

theorem nodup_nodes (ha : a.WellOwned) : (stmts.map Stmt.node).Nodup := by
  obtain ⟨o, ho, hty⟩ := is_some.1 hp.program
  have hbody : o.fieldChildren "body" = stmts.map Stmt.node := by
    have hitems := hp.body
    simp only [items, look_some, ho, Option.elim_some, Node.items] at hitems
    unfold Node.fieldChildren
    obtain ⟨v, hv, hfit⟩ :=
      (ha.shaped r o ho).value?_of_mem (f := ⟨"body", .list⟩) (by rw [hty]; decide)
    rw [hv] at hitems ⊢
    cases v with
    | list entries =>
      obtain rfl : entries = _ := hitems
      simp [Value.children, Value.handles, List.filterMap_map]
    | _ => cases hfit
  have hnodup := ha.owned.nodup_children r
  rw [children_some, ho, Option.elim_some] at hnodup
  exact hbody ▸ hnodup.sublist (o.fieldChildren_sublist "body")

theorem eq_of_declarator (ha : a.WellOwned) {n' : NodeId} {k k' x x' : String} {e' : Expr}
    (hs : .declare n k d x e ∈ stmts) (hs' : .declare n' k' d x' e' ∈ stmts) : n = n' := by
  have howner {n : NodeId} {k x : String} {e : Expr} (hs : .declare n k d x e ∈ stmts) :
      a.OwnedBy d n := by
    cases hp.statements _ hs with
    | declare _ _ _ hitems =>
      have hitem : some d ∈ a.items (some n) "declarations" := by
        rw [hitems]
        exact List.mem_singleton_self _
      exact ha.owned.owner_of_child n d (mem_children_of_items hitem)
  exact Option.some.inj ((howner hs).symm.trans (howner hs'))

theorem exists_only (ha : a.WellOwned) {k x : String} (hs : .declare n k d x e ∈ stmts)
    (honly : ∀ s ∈ stmts, ∀ d', s.declarator? x = some d' → d' = d) :
    ∃ before rest, stmts = before ++ .declare n k d x e :: rest
      ∧ ∀ s ∈ before ++ rest, s.declarator? x = none := by
  obtain ⟨before, rest, heq⟩ := List.append_of_mem hs
  refine ⟨before, rest, heq, fun s hmem => ?_⟩
  have hin : s ∈ stmts := by
    rw [heq]
    simp only [List.mem_append, List.mem_cons] at hmem ⊢
    tauto
  cases hd : s.declarator? x with
  | none => rfl
  | some d' =>
    obtain rfl := honly s hin d' hd
    obtain ⟨n', k', e', rfl⟩ := Stmt.declarator?_eq_some.1 hd
    have hnode := hp.eq_of_declarator ha hs hin
    have hnodup := hp.nodup_nodes ha
    rw [heq, List.map_append, List.map_cons, List.nodup_middle, List.nodup_cons] at hnodup
    refine absurd ?_ hnodup.1
    rw [← List.map_append]
    exact List.mem_map.2 ⟨_, hmem, hnode.symm⟩

end SpellsProgram

end Arena

end ScopedTree
