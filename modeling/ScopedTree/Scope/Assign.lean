import ScopedTree.Scope.Lookup

/-!
# Assigning scopes to paths

A scope is made when a path whose node owns one is first asked for its scope, and it is crawled
right away. How it is crawled is left open here.

* `Tree.assignWith`     assigns a path the scope it lives in;
* `Tree.scopeOfWith`    the scope of a path, assigned if it has none in use;
* `Tree.existingScope`  the nearest scope made so far, without making one.
-/

namespace ScopedTree.Tree

def liveScope? (t : Tree) (p : PathId) : Option ScopeId :=
  (t.path p).scope.filter fun s => !(t.scope s).detached

/-- The scope of a path whose parent lives in `parentScope`: its node's own, which is made if there
is none yet, or else the one of the parent. -/
def scopeFor (p : PathId) (parentScope : Option ScopeId) : TreeM (Option ScopeId) := do
  let t ← get
  let d := t.path p
  match d.node with
  | none => return parentScope
  | some node =>
    if !t.arena.isScope d.node d.parent then return parentScope
    match t.scopeOfNode.get? node.index with
    | some s =>
      modify (·.updateScope s ({ · with path := p }))
      return some s
    | none =>
      let s : ScopeId := ⟨t.scopes.size⟩
      modify fun t =>
        { t with
          scopes := t.scopes.push { block := node, path := p, parent := parentScope }
          scopeOfNode := t.scopeOfNode.put node.index s }
      return some s

variable (crawl : ScopeId → TreeM Unit)

/-- Assigns a path the scope it lives in, after those of its ancestors, over at most `fuel` links.
A scope that was not crawled yet is crawled. -/
def assignUpTo : Nat → PathId → TreeM Unit
  | 0, _ => return
  | fuel + 1, p => do
    let t ← get
    if t.options.noScope then return
    let parentScope ← match t.parentPath p with
      | none => pure none
      | some q =>
        match t.liveScope? q with
        | some s => pure (some s)
        | none => do
          assignUpTo fuel q
          pure ((← get).path q).scope
    let scope ← scopeFor p parentScope
    modify (·.updatePath p ({ · with scope }))
    match scope with
    | none => return
    | some s =>
      if !((← get).scope s).crawled then
        modify (·.updateScope s ({ · with crawled := true }))
        crawl s

/-- Assigns a path the scope it lives in. -/
def assignWith (p : PathId) : TreeM Unit := do
  assignUpTo crawl ((← get).paths.size + 1) p

/-- The scope of a path, assigned if it has none in use. -/
def scopeOfWith (p : PathId) : TreeM (Option ScopeId) := do
  match (← get).liveScope? p with
  | some s => return some s
  | none =>
    assignWith crawl p
    return ((← get).path p).scope

/-- The nearest scope in use that was made for a path or one of its ancestors. -/
def existingScope (t : Tree) (p : PathId) : Option ScopeId :=
  (t.ancestry p).findSome? fun q =>
    t.liveScope? q <|> (((t.node q).bind fun id => t.scopeOfNode.get? id.index).filter
      fun s => !(t.scope s).detached)

end ScopedTree.Tree
