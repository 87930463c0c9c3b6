import ScopedTree.Arena.Text
import ScopedTree.Constant.Evaluate
import ScopedTree.Path.Shape
import ScopedTree.Scope.Lookup

/-!
# Reports

What is known of paths, scopes and bindings, as text and as data.

* `Tree.pathText`, `Tree.scopeText`   a path and a scope in short;
* `Tree.placeReport`, `Tree.standingReport`   where a path stands, and what its node is there;
* `Tree.bindingReport`, `Tree.nameReport`     a binding, and what a name means in a scope;
* `Evaluated.report`, `TreeError.kind`        the outcome of an evaluation, the kind of an error.
-/

namespace ScopedTree

/-- A value as data: the name of its type and what it is. -/
def Primitive.toDatum : Primitive → Datum
  | undefined => .texts ["undefined"]
  | null => .texts ["null"]
  | bool b => .arr [.str "bool", .bool b]
  | number x => .texts ["num", signedText x]
  | string s => .texts ["str", s]

/-- Reads a value from the name of its type and what it is. -/
def Primitive.ofDatum (d : Datum) : Primitive :=
  match d.items with
  | [.str "null"] => .null
  | [.str "bool", b] => .bool b.asFlag
  | [.str "num", x] => .number x.asNumber
  | [.str "str", s] => .string s.asText
  | _ => .undefined

/-- What a key of a visitor stands for, and whether it covers a node type. -/
def keyReport (key : String) (ty : NodeType) : Datum :=
  let parsed := TypeKey.ofName? key
  let group := Alias.ofName? key
  let kind : TypeKey → Datum
    | .ofType _ => .str "type"
    | .ofGroup _ => .str "alias"
  .obj [("parsed", .ofOption kind parsed),
    ("expand", .ofOption (fun k => .texts (k.expand.map (·.name))) parsed),
    ("is_node_type", .bool (ty.isNamed key)),
    ("alias_contains", .ofOption (fun g => .bool (ty.isA g)) group),
    ("members", .ofOption (fun g => .int g.members.length) group),
    ("virtual", .ofOption (fun v => .str v.name) (VirtualType.ofName? key))]

/-- The kind of an error of shape. -/
def ShapeError.kind : ShapeError → String
  | unknownField .. => "UnknownField"
  | fieldKind .. => "FieldKind"
  | missingField .. => "MissingField"
  | alreadyAttached _ => "AlreadyAttached"
  | invalidNode _ => "InvalidNode"

/-- The kind of an error. -/
def TreeError.kind : TreeError → String
  | shape e => e.kind
  | detachedPath _ => "DetachedPath"
  | duplicateDeclaration .. => "DuplicateDeclaration"
  | unknownVisitorKey _ => "UnknownVisitorKey"
  | notAList _ => "NotAList"
  | depthLimit => "DepthLimit"
  | custom .. => "Custom"
  | outOfSteps => "OutOfSteps"

namespace Tree

/-- The location of a path and the type of its node; removed paths have a mark. -/
def pathText (t : Tree) (p : PathId) : String :=
  t.location p ++ ":" ++ (t.nodeType? p).elim "-" (·.name)
    ++ (if (t.path p).removed then "!" else "")

/-- The type of the node that owns a scope and its location. -/
def scopeText (t : Tree) (s : ScopeId) : String :=
  (t.blockType? s).elim "-" (·.name) ++ "@" ++ t.location (t.scope s).path

def pathTexts (t : Tree) (ps : List PathId) : Datum := .texts (ps.map t.pathText)

def typeDatum (ty : Option NodeType) : Datum := .ofOption (fun ty => .str ty.name) ty

/-- Where a path stands, and the flags that passes see. -/
def placeReport (t : Tree) (p : PathId) : Datum :=
  let d := t.path p
  let slot := match d.slot with
    | .root => "root"
    | .field _ => "field"
    | .entry .. => "index"
  .obj [("slot", .str slot), ("key", .ofOption .str d.slot.key?),
    ("list", .ofOption .str d.slot.list?), ("index", .ofOption (fun i => .int i) d.slot.index?),
    ("parent", typeDatum (t.arena.type? d.parent)), ("removed", .bool d.removed),
    ("skip", .bool d.shouldSkip), ("stop", .bool d.shouldStop),
    ("scope", .ofOption (fun s => .str (t.scopeText s)) d.scope)]

/-- What the node at a path is where it stands. -/
def standingReport (t : Tree) (p : PathId) : Datum :=
  .obj [("referenced", .bool (t.isReferenced p)),
    ("referenced_identifier", .bool (t.isReferencedIdentifier p)),
    ("binding_identifier", .bool (VirtualType.bindingIdentifier.matches t p)),
    ("binding", .bool (t.arena.isBinding (t.node p) (t.parentNode p))),
    ("scope", .bool (VirtualType.scope.matches t p)),
    ("block_scoped", .bool (VirtualType.blockScoped.matches t p)),
    ("statement_or_block", .bool (t.isStatementBody p)),
    ("declaration_or_expression", .bool (t.isLoopHead p)),
    ("completion", .flags [t.isCompletionRecord p false, t.isCompletionRecord p true])]

/-- All that is known of a binding. -/
def bindingReport (t : Tree) (b : Binding) : Datum :=
  .obj [("name", .str b.name), ("kind", .str b.kind.name),
    ("identifier", .str (t.arena.nodeText (some b.identifier))),
    ("scope", .str (t.scopeText b.scope)), ("path", .str (t.pathText b.path)),
    ("constant", .bool b.constant), ("referenced", .bool b.referenced),
    ("references", .int b.references), ("refs", t.pathTexts b.referencePaths),
    ("violations", t.pathTexts b.constantViolations),
    ("redeclarations", .texts (b.redeclarations.map fun (p, kind) =>
      t.pathText p ++ " " ++ kind.name)),
    ("has_value", .bool b.hasValue), ("value", .ofOption (·.toDatum) b.value),
    ("deopted", .bool b.refused)]

def scopeReport (t : Tree) (s : ScopeId) : Datum :=
  let own := (t.ownBindings s).filterMap fun (_, id) => (t.binding? id).map t.bindingReport
  .arr [.str (t.scopeText s), .arr own]

/-- The bindings of a scope and of the scopes inside, at most `fuel` deep. -/
def scopeReports (t : Tree) : Nat → ScopeId → List Datum
  | 0, _ => []
  | fuel + 1, s => t.scopeReport s :: (t.childScopes s).flatMap (t.scopeReports fuel)

/-- What a name means in a scope. -/
def nameReport (t : Tree) (s : ScopeId) (name : String) (builtin : Bool) : Datum :=
  let node (id : Option NodeId) : Datum :=
    .ofOption (fun id => .str (t.arena.nodeText (some id))) id
  .obj [("has", .bool (t.hasBinding s name builtin)), ("own", .bool (t.ownBinding? s name).isSome),
    ("parent", .bool (t.parentHasBinding s name builtin)),
    ("label", .bool (t.hasLabel s name)), ("global", .bool (t.hasGlobal s name)),
    ("reference", .bool (t.hasReference s name)), ("uid", .bool (t.hasUid s name)),
    ("label_at", .ofOption (fun p => .str (t.pathText p)) (t.getLabel? s name)),
    ("id", node (t.bindingIdentifier? s name)), ("own_id", node (t.ownBindingIdentifier? s name))]

end Tree

/-- The outcome of an evaluation as data. -/
def Evaluated.report (t : Tree) : Evaluated → Datum
  | known value =>
    .obj [("confident", .bool true), ("value", value.toDatum), ("deopt", .null)]
  | unknown blame =>
    .obj [("confident", .bool false), ("value", .null),
      ("deopt", .ofOption (fun p => .str (t.pathText p)) blame)]

end ScopedTree
