import ScopedTree.Arena.Predicates
import ScopedTree.Path.Ancestry
import ScopedTree.Text.Identifier

/-!
# Virtual types

Some keys pick nodes by where they stand and not by type alone.

* `VirtualType`           the keys;
* `VirtualType.matches`   the check behind a key;
* `Tree.isType`           a type test that takes these keys as well.
-/

namespace ScopedTree

/-- Keys with a check of their own. -/
inductive VirtualType where
  /-- An identifier that is read; the tags of host elements are none. -/
  | referencedIdentifier
  /-- An identifier in a binding position. -/
  | bindingIdentifier
  /-- A node that owns a scope. -/
  | scope
  | blockScoped
  /-- A `var` declaration. -/
  | var
  /-- Any node in a position where it is read. -/
  | referenced
  deriving DecidableEq, Inhabited

namespace VirtualType

def all : List VirtualType :=
  [referencedIdentifier, bindingIdentifier, scope, blockScoped, var, referenced]

def name : VirtualType → String
  | referencedIdentifier => "ReferencedIdentifier"
  | bindingIdentifier => "BindingIdentifier"
  | scope => "Scope"
  | blockScoped => "BlockScoped"
  | var => "Var"
  | referenced => "Referenced"

def ofName? (name : String) : Option VirtualType := all.find? (·.name == name)

/-- Whether nodes of a type can pass the check. -/
def mayCover : VirtualType → NodeType → Bool
  | referencedIdentifier, ty => ty == .identifier || ty == .jsxIdentifier
  | bindingIdentifier, ty => ty == .identifier
  | scope, ty => ty.isA .scopable
  | blockScoped, ty =>
    ty == .functionDeclaration || ty == .classDeclaration || ty == .variableDeclaration
  | var, ty => ty == .variableDeclaration
  | referenced, _ => true

end VirtualType

namespace Tree

def grandparentNode (t : Tree) (p : PathId) : Option NodeId :=
  (t.parentPath p).bind t.parentNode

/-- Whether the node at a path is read where it stands. -/
def isReferenced (t : Tree) (p : PathId) : Bool :=
  t.arena.isReferenced (t.node p) (t.parentNode p) (t.grandparentNode p)

/-- Whether the node at a path is an identifier that is read. A tag of a host element is not. -/
def isReferencedIdentifier (t : Tree) (p : PathId) : Bool :=
  let node := t.node p
  let hostTag := t.arena.is node .jsxIdentifier
    && !t.arena.is (t.parentNode p) .jsxMemberExpression
    && (t.arena.name? node).any isHostTag
  (t.arena.look node).isSome && !hostTag && t.isReferenced p

end Tree

/-- Whether the node at a path passes the check. -/
def VirtualType.matches (v : VirtualType) (t : Tree) (p : PathId) : Bool :=
  let node := t.node p
  match v with
  | referencedIdentifier => t.isReferencedIdentifier p
  | bindingIdentifier => t.arena.is node .identifier && t.arena.isBinding node (t.parentNode p)
  | scope => t.arena.isScope node (t.parentNode p)
  | blockScoped => t.arena.isBlockScoped node
  | var => t.arena.isVar node
  | referenced => t.isReferenced p

namespace Tree

/-- Whether the type of the node at a path is the one named, or in the group named. -/
def isNodeType (t : Tree) (p : PathId) (key : String) : Bool := (t.nodeType? p).any (·.isNamed key)

/-- A type test whose key may be virtual. -/
def isType (t : Tree) (p : PathId) (key : String) : Bool :=
  match VirtualType.ofName? key with
  | some v => v.matches t p
  | none => t.isNodeType p key

end Tree

end ScopedTree
