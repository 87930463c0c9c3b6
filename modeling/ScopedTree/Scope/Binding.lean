import ScopedTree.Arena.Node
import ScopedTree.Constant.Primitive

/-!
# Bindings

A binding is one declared name of a scope together with the uses found of it.

* `PathId`, `ScopeId`, `BindingId`   handles of paths, scopes and bindings;
* `BindingKind`                      how a name was declared;
* `Binding`                          the record, with `reference`, `dereference` and `reassign`;
* `Binding.remember`                 keeps the value of a constant, `clearMemo` forgets it;
* `Binding.merge`                    takes in a second declaration of the name.
-/

namespace ScopedTree

/-- The handle of a path. -/
structure PathId where
  index : Nat
  deriving DecidableEq, Inhabited

/-- The handle of a scope. -/
structure ScopeId where
  index : Nat
  deriving DecidableEq, Inhabited

/-- The handle of a binding. -/
structure BindingId where
  index : Nat
  deriving DecidableEq, Inhabited

/-- How a name was declared. -/
inductive BindingKind where
  | varName | letName | constName
  /-- A function declaration. -/
  | hoisted
  /-- An import specifier. -/
  | imported
  | param | catchParam
  /-- A declaration in the head of a loop. -/
  | loopVar | loopLet | loopConst
  /-- The own name of a function or class expression. -/
  | selfName
  | unknown
  deriving DecidableEq, Inhabited

namespace BindingKind

def name : BindingKind → String
  | varName => "var"
  | letName => "let"
  | constName => "const"
  | hoisted => "hoisted"
  | imported => "module"
  | param => "param"
  | catchParam => "catch_param"
  | loopVar => "loop_var"
  | loopLet => "loop_let"
  | loopConst => "loop_const"
  | selfName => "local"
  | unknown => "unknown"

def all : List BindingKind :=
  [varName, letName, constName, hoisted, imported, param, catchParam, loopVar, loopLet, loopConst,
   selfName, unknown]

def ofName (name : String) : BindingKind := (all.find? (·.name == name)).getD unknown

def ofKeyword : String → BindingKind
  | "var" => varName
  | "let" => letName
  | "const" => constName
  | _ => unknown

/-- The kind that a declaration keyword gives its names in the head of a loop. -/
def ofLoopKeyword : String → BindingKind
  | "var" => loopVar
  | "let" => loopLet
  | "const" => loopConst
  | _ => unknown

/-- Kinds that share no scope with another declaration of the same name. -/
def isExclusive : BindingKind → Bool
  | letName | constName | loopLet | loopConst | imported | catchParam => true
  | _ => false

/-- Kinds that give way to any other declaration of the same name. -/
def isReplaceable : BindingKind → Bool
  | selfName | unknown => true
  | _ => false

end BindingKind

/-- A declared name and its uses. -/
structure Binding where
  /-- The identifier that declares the name. -/
  identifier : NodeId
  name : String
  scope : ScopeId
  /-- The path of the declaring construct. -/
  path : PathId
  kind : BindingKind
  constantViolations : List PathId := []
  /-- Later declarations of the name, one of which takes over when the first goes away. -/
  redeclarations : List (PathId × BindingKind) := []
  referencePaths : List PathId := []
  constant : Bool := true
  referenced : Bool := false
  references : Nat := 0
  /-- The value that is remembered. -/
  value : Option Primitive := none
  hasValue : Bool := false
  /-- No value is to be remembered. -/
  refused : Bool := false
  deriving Inhabited

namespace Binding

/-- Records a read, once. -/
def reference (b : Binding) (path : PathId) : Binding :=
  if b.referencePaths.contains path then b
  else
    { b with
      referenced := true
      references := b.references + 1
      referencePaths := b.referencePaths ++ [path] }

/-- Forgets a read. -/
def dereference (b : Binding) (path : PathId) : Binding :=
  if b.referencePaths.contains path then
    { b with
      referencePaths := b.referencePaths.erase path
      references := b.references - 1
      referenced := b.references - 1 > 0 }
  else { b with referenced := b.references > 0 }

/-- Forgets what was remembered about the value. -/
def clearMemo (b : Binding) : Binding :=
  { b with value := none, hasValue := false, refused := false }

def refuseMemo (b : Binding) : Binding := { b.clearMemo with refused := true }

/-- Remembers a value, unless that is refused. -/
def remember (b : Binding) (value : Primitive) : Binding :=
  if b.refused then b else { b with value := some value, hasValue := true }

/-- Records a write, once. -/
def reassign (b : Binding) (path : PathId) : Binding :=
  { b.refuseMemo with
    constant := false
    constantViolations :=
      if b.constantViolations.contains path then b.constantViolations
      else b.constantViolations ++ [path] }

/-- Takes in a second declaration of the name, which counts as a write. A binding that gives way
passes to it; others keep it for later. -/
def merge (kind : BindingKind) (path : PathId) (id : NodeId) (b : Binding) : Binding :=
  if b.kind.isReplaceable then
    { b with kind, identifier := id, path }.reassign b.path
  else
    let merged := b.reassign path
    { merged with
      redeclarations :=
        if merged.redeclarations.any (·.1 == path) then merged.redeclarations
        else merged.redeclarations ++ [(path, kind)] }

end Binding

end ScopedTree
