import ScopedTree.Arena.Basic

/-!
# Building nodes

Nodes are built from the fields that are given by name; the others take their defaults.

* `Arena.build`   makes a node of any type;
* `Arena.identifier`, `Arena.program`, …   make the nodes that are needed most often.
-/

namespace ScopedTree.Arena

/-- The values given so far, each field's last. The first wrong field or kind is an error. -/
def gather (ty : NodeType) : Table Value → List (String × Value) →
    Except ShapeError (Table Value)
  | given, [] => .ok given
  | given, (name, value) :: rest =>
    match ty.field? name with
    | none => .error (.unknownField ty name)
    | some f =>
      if value.fits f.kind then gather ty (given.put name value) rest
      else .error (.fieldKind ty name f.kind)

/-- The values of all fields in schema order. -/
def complete (ty : NodeType) (given : Table Value) : List Field → Except ShapeError (List Value)
  | [] => .ok []
  | f :: fs =>
    match given.get? f.name <|> Value.default? f.kind with
    | some value => do return value :: (← complete ty given fs)
    | none => .error (.missingField ty f.name)

/-- Makes a node of type `ty` from some of its fields. -/
def build (ty : NodeType) (fields : List (String × Value)) : ArenaM NodeId := do
  let values ← ask fun _ => do complete ty (← gather ty [] fields) ty.fields
  alloc ty values

def identifier (name : String) : ArenaM NodeId := build .identifier [("name", .str name)]

def stringLiteral (value : String) : ArenaM NodeId := build .stringLiteral [("value", .str value)]

def numericLiteral (value : Float) : ArenaM NodeId :=
  build .numericLiteral [("value", .num value)]

def booleanLiteral (value : Bool) : ArenaM NodeId :=
  build .booleanLiteral [("value", .bool value)]

def nullLiteral : ArenaM NodeId := build .nullLiteral []

def thisExpression : ArenaM NodeId := build .thisExpression []

def noop : ArenaM NodeId := build .noop []

def program (body : List (Option NodeId)) : ArenaM NodeId :=
  build .program [("source_type", .str "module"), ("body", .list body)]

def file (program : Option NodeId) : ArenaM NodeId := build .file [("program", .node program)]

def blockStatement (body : List (Option NodeId)) : ArenaM NodeId :=
  build .blockStatement [("body", .list body)]

def emptyStatement : ArenaM NodeId := build .emptyStatement []

def expressionStatement (expression : Option NodeId) : ArenaM NodeId :=
  build .expressionStatement [("expression", .node expression)]

def variableDeclaration (kind : String) (declarations : List (Option NodeId)) : ArenaM NodeId :=
  build .variableDeclaration [("kind", .str kind), ("declarations", .list declarations)]

def variableDeclarator (id init : Option NodeId) : ArenaM NodeId :=
  build .variableDeclarator [("id", .node id), ("init", .node init)]

def functionDeclaration (id : Option NodeId) (params : List (Option NodeId))
    (body : Option NodeId) : ArenaM NodeId :=
  build .functionDeclaration [("id", .node id), ("params", .list params), ("body", .node body)]

def functionExpression (id : Option NodeId) (params : List (Option NodeId))
    (body : Option NodeId) : ArenaM NodeId :=
  build .functionExpression [("id", .node id), ("params", .list params), ("body", .node body)]

/-- An arrow function; its body is an expression unless it is a block. -/
def arrowFunctionExpression (params : List (Option NodeId)) (body : Option NodeId) :
    ArenaM NodeId := do
  let block := (← get).is body .blockStatement
  build .arrowFunctionExpression
    [("params", .list params), ("body", .node body), ("expression", .bool !block)]

def returnStatement (argument : Option NodeId) : ArenaM NodeId :=
  build .returnStatement [("argument", .node argument)]

def throwStatement (argument : Option NodeId) : ArenaM NodeId :=
  build .throwStatement [("argument", .node argument)]

def ifStatement (test consequent alternate : Option NodeId) : ArenaM NodeId :=
  build .ifStatement
    [("test", .node test), ("consequent", .node consequent), ("alternate", .node alternate)]

def labeledStatement (label body : Option NodeId) : ArenaM NodeId :=
  build .labeledStatement [("label", .node label), ("body", .node body)]

def breakStatement (label : Option NodeId) : ArenaM NodeId :=
  build .breakStatement [("label", .node label)]

def continueStatement (label : Option NodeId) : ArenaM NodeId :=
  build .continueStatement [("label", .node label)]

def whileStatement (test body : Option NodeId) : ArenaM NodeId :=
  build .whileStatement [("test", .node test), ("body", .node body)]

def forStatement (init test update body : Option NodeId) : ArenaM NodeId :=
  build .forStatement
    [("init", .node init), ("test", .node test), ("update", .node update), ("body", .node body)]

def forInStatement (left right body : Option NodeId) : ArenaM NodeId :=
  build .forInStatement [("left", .node left), ("right", .node right), ("body", .node body)]

def forOfStatement (left right body : Option NodeId) : ArenaM NodeId :=
  build .forOfStatement [("left", .node left), ("right", .node right), ("body", .node body)]

def switchStatement (discriminant : Option NodeId) (cases : List (Option NodeId)) :
    ArenaM NodeId :=
  build .switchStatement [("discriminant", .node discriminant), ("cases", .list cases)]

def switchCase (test : Option NodeId) (consequent : List (Option NodeId)) : ArenaM NodeId :=
  build .switchCase [("test", .node test), ("consequent", .list consequent)]

def catchClause (param body : Option NodeId) : ArenaM NodeId :=
  build .catchClause [("param", .node param), ("body", .node body)]

def tryStatement (block handler finalizer : Option NodeId) : ArenaM NodeId :=
  build .tryStatement
    [("block", .node block), ("handler", .node handler), ("finalizer", .node finalizer)]

def assignmentExpression (operator : String) (left right : Option NodeId) : ArenaM NodeId :=
  build .assignmentExpression
    [("operator", .str operator), ("left", .node left), ("right", .node right)]

def binaryExpression (operator : String) (left right : Option NodeId) : ArenaM NodeId :=
  build .binaryExpression
    [("operator", .str operator), ("left", .node left), ("right", .node right)]

def logicalExpression (operator : String) (left right : Option NodeId) : ArenaM NodeId :=
  build .logicalExpression
    [("operator", .str operator), ("left", .node left), ("right", .node right)]

def unaryExpression (operator : String) (argument : Option NodeId) : ArenaM NodeId :=
  build .unaryExpression
    [("operator", .str operator), ("argument", .node argument), ("prefix", .bool true)]

/-- An increment or decrement, whose operator stands before or after the argument. -/
def updateExpression (operator : String) (argument : Option NodeId) (before : Bool) :
    ArenaM NodeId :=
  build .updateExpression
    [("operator", .str operator), ("argument", .node argument), ("prefix", .bool before)]

def conditionalExpression (test consequent alternate : Option NodeId) : ArenaM NodeId :=
  build .conditionalExpression
    [("test", .node test), ("consequent", .node consequent), ("alternate", .node alternate)]

def sequenceExpression (expressions : List (Option NodeId)) : ArenaM NodeId :=
  build .sequenceExpression [("expressions", .list expressions)]

def callExpression (callee : Option NodeId) (arguments : List (Option NodeId)) : ArenaM NodeId :=
  build .callExpression [("callee", .node callee), ("arguments", .list arguments)]

def newExpression (callee : Option NodeId) (arguments : List (Option NodeId)) : ArenaM NodeId :=
  build .newExpression [("callee", .node callee), ("arguments", .list arguments)]

def memberExpression (object property : Option NodeId) (computed : Bool) : ArenaM NodeId :=
  build .memberExpression
    [("object", .node object), ("property", .node property), ("computed", .bool computed)]

def arrayExpression (elements : List (Option NodeId)) : ArenaM NodeId :=
  build .arrayExpression [("elements", .list elements)]

def objectExpression (properties : List (Option NodeId)) : ArenaM NodeId :=
  build .objectExpression [("properties", .list properties)]

def objectProperty (key value : Option NodeId) : ArenaM NodeId :=
  build .objectProperty [("key", .node key), ("value", .node value)]

def spreadElement (argument : Option NodeId) : ArenaM NodeId :=
  build .spreadElement [("argument", .node argument)]

def templateLiteral (quasis expressions : List (Option NodeId)) : ArenaM NodeId :=
  build .templateLiteral [("quasis", .list quasis), ("expressions", .list expressions)]

/-- A piece of template text whose cooked text is the raw one. -/
def templateElement (raw : String) (tail : Bool) : ArenaM NodeId :=
  build .templateElement [("raw", .str raw), ("cooked", .str raw), ("tail", .bool tail)]

def restElement (argument : Option NodeId) : ArenaM NodeId :=
  build .restElement [("argument", .node argument)]

def assignmentPattern (left right : Option NodeId) : ArenaM NodeId :=
  build .assignmentPattern [("left", .node left), ("right", .node right)]

def arrayPattern (elements : List (Option NodeId)) : ArenaM NodeId :=
  build .arrayPattern [("elements", .list elements)]

def objectPattern (properties : List (Option NodeId)) : ArenaM NodeId :=
  build .objectPattern [("properties", .list properties)]

def classDeclaration (id superClass body : Option NodeId) : ArenaM NodeId :=
  build .classDeclaration
    [("id", .node id), ("super_class", .node superClass), ("body", .node body)]

def classExpression (id superClass body : Option NodeId) : ArenaM NodeId :=
  build .classExpression
    [("id", .node id), ("super_class", .node superClass), ("body", .node body)]

def classBody (body : List (Option NodeId)) : ArenaM NodeId :=
  build .classBody [("body", .list body)]

def classMethod (kind : String) (key : Option NodeId) (params : List (Option NodeId))
    (body : Option NodeId) : ArenaM NodeId :=
  build .classMethod
    [("kind", .str kind), ("key", .node key), ("params", .list params), ("body", .node body)]

def importDeclaration (specifiers : List (Option NodeId)) (source : Option NodeId) :
    ArenaM NodeId :=
  build .importDeclaration [("specifiers", .list specifiers), ("source", .node source)]

def importSpecifier (localName imported : Option NodeId) : ArenaM NodeId :=
  build .importSpecifier [("local", .node localName), ("imported", .node imported)]

def importDefaultSpecifier (localName : Option NodeId) : ArenaM NodeId :=
  build .importDefaultSpecifier [("local", .node localName)]

def importNamespaceSpecifier (localName : Option NodeId) : ArenaM NodeId :=
  build .importNamespaceSpecifier [("local", .node localName)]

def exportNamedDeclaration (declaration : Option NodeId) (specifiers : List (Option NodeId))
    (source : Option NodeId) : ArenaM NodeId :=
  build .exportNamedDeclaration
    [("declaration", .node declaration), ("specifiers", .list specifiers), ("source", .node source)]

def exportDefaultDeclaration (declaration : Option NodeId) : ArenaM NodeId :=
  build .exportDefaultDeclaration [("declaration", .node declaration)]

def exportSpecifier (localName exported : Option NodeId) : ArenaM NodeId :=
  build .exportSpecifier [("local", .node localName), ("exported", .node exported)]

end ScopedTree.Arena
