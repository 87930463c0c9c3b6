import ScopedTree.Schema.Alias
import ScopedTree.Schema.Field

/-!
# Node types

The closed set of node types, each with its fields in visiting order and the groups it belongs to.

* `NodeType`           the node types, with `name`, `fields` and `aliases`;
* `NodeType.ofName?`   the type of a name;
* `NodeType.isA`       membership in a group, and `Alias.members` its other side.
-/

namespace ScopedTree

/-- The type of a node. -/
inductive NodeType where
  | arrayExpression | assignmentExpression | binaryExpression | directive | directiveLiteral
  | blockStatement | breakStatement | callExpression | catchClause | conditionalExpression
  | continueStatement | debuggerStatement | doWhileStatement | emptyStatement
  | expressionStatement | file | forInStatement | forStatement | functionDeclaration
  | functionExpression | identifier | ifStatement | labeledStatement | stringLiteral
  | numericLiteral | nullLiteral | booleanLiteral | regExpLiteral | logicalExpression
  | memberExpression | newExpression | program | objectExpression | objectMethod | objectProperty
  | restElement | returnStatement | sequenceExpression | switchCase | switchStatement
  | thisExpression | throwStatement | tryStatement | unaryExpression | updateExpression
  | variableDeclaration | variableDeclarator | whileStatement | withStatement | assignmentPattern
  | arrayPattern | arrowFunctionExpression | classBody | classDeclaration | classExpression
  | exportAllDeclaration | exportDefaultDeclaration | exportNamedDeclaration | exportSpecifier
  | forOfStatement | importDeclaration | importDefaultSpecifier | importNamespaceSpecifier
  | importSpecifier | metaProperty | classMethod | assignmentProperty | objectPattern
  | spreadElement | super | taggedTemplateExpression | templateElement | templateLiteral
  | yieldExpression | anyType | arrayType | booleanType | booleanLiteralType | nullLiteralType
  | classImplements | classProperty | declareClass | declareFunction | declareInterface
  | declareModule | declareTypeAlias | declareVariable | existentialTypeParam | functionType
  | functionTypeParam | genericType | interfaceExtends | interfaceDeclaration | intersectionType
  | mixedType | nullableType | numericLiteralType | numberType | stringLiteralType | stringType
  | thisType | tupleType | typeofType | typeAlias | typeNote | typeCastExpression
  | typeParameterDeclaration | typeParameterInstantiation | objectType | objectTypeCallProperty
  | objectTypeIndexer | objectTypeProperty | qualifiedTypeIdentifier | unionType | voidType
  | jsxAttribute | jsxClosingElement | jsxElement | jsxEmptyExpression | jsxExpressionContainer
  | jsxIdentifier | jsxMemberExpression | jsxNamespacedName | jsxOpeningElement
  | jsxSpreadAttribute | jsxText | noop | parenthesizedExpression | awaitExpression
  | bindExpression | decorator | doExpression | exportDefaultSpecifier | exportNamespaceSpecifier
  | restProperty | spreadProperty
  deriving DecidableEq, Inhabited

namespace NodeType

def all : List NodeType :=
  [arrayExpression, assignmentExpression, binaryExpression, directive, directiveLiteral,
   blockStatement, breakStatement, callExpression, catchClause, conditionalExpression,
   continueStatement, debuggerStatement, doWhileStatement, emptyStatement, expressionStatement,
   file, forInStatement, forStatement, functionDeclaration, functionExpression, identifier,
   ifStatement, labeledStatement, stringLiteral, numericLiteral, nullLiteral, booleanLiteral,
   regExpLiteral, logicalExpression, memberExpression, newExpression, program, objectExpression,
   objectMethod, objectProperty, restElement, returnStatement, sequenceExpression, switchCase,
   switchStatement, thisExpression, throwStatement, tryStatement, unaryExpression,
   updateExpression, variableDeclaration, variableDeclarator, whileStatement, withStatement,
   assignmentPattern, arrayPattern, arrowFunctionExpression, classBody, classDeclaration,
   classExpression, exportAllDeclaration, exportDefaultDeclaration, exportNamedDeclaration,
   exportSpecifier, forOfStatement, importDeclaration, importDefaultSpecifier,
   importNamespaceSpecifier, importSpecifier, metaProperty, classMethod, assignmentProperty,
   objectPattern, spreadElement, super, taggedTemplateExpression, templateElement,
   templateLiteral, yieldExpression, anyType, arrayType, booleanType, booleanLiteralType,
   nullLiteralType, classImplements, classProperty, declareClass, declareFunction,
   declareInterface, declareModule, declareTypeAlias, declareVariable, existentialTypeParam,
   functionType, functionTypeParam, genericType, interfaceExtends, interfaceDeclaration,
   intersectionType, mixedType, nullableType, numericLiteralType, numberType, stringLiteralType,
   stringType, thisType, tupleType, typeofType, typeAlias, typeNote, typeCastExpression,
   typeParameterDeclaration, typeParameterInstantiation, objectType, objectTypeCallProperty,
   objectTypeIndexer, objectTypeProperty, qualifiedTypeIdentifier, unionType, voidType,
   jsxAttribute, jsxClosingElement, jsxElement, jsxEmptyExpression, jsxExpressionContainer,
   jsxIdentifier, jsxMemberExpression, jsxNamespacedName, jsxOpeningElement, jsxSpreadAttribute,
   jsxText, noop, parenthesizedExpression, awaitExpression, bindExpression, decorator,
   doExpression, exportDefaultSpecifier, exportNamespaceSpecifier, restProperty, spreadProperty]

/-- The name of a node type. -/
def name : NodeType → String
  | arrayExpression => "ArrayExpression"
  | assignmentExpression => "AssignmentExpression"
  | binaryExpression => "BinaryExpression"
  | directive => "Directive"
  | directiveLiteral => "DirectiveLiteral"
  | blockStatement => "BlockStatement"
  | breakStatement => "BreakStatement"
  | callExpression => "CallExpression"
  | catchClause => "CatchClause"
  | conditionalExpression => "ConditionalExpression"
  | continueStatement => "ContinueStatement"
  | debuggerStatement => "DebuggerStatement"
  | doWhileStatement => "DoWhileStatement"
  | emptyStatement => "EmptyStatement"
  | expressionStatement => "ExpressionStatement"
  | file => "File"
  | forInStatement => "ForInStatement"
  | forStatement => "ForStatement"
  | functionDeclaration => "FunctionDeclaration"
  | functionExpression => "FunctionExpression"
  | identifier => "Identifier"
  | ifStatement => "IfStatement"
  | labeledStatement => "LabeledStatement"
  | stringLiteral => "StringLiteral"
  | numericLiteral => "NumericLiteral"
  | nullLiteral => "NullLiteral"
  | booleanLiteral => "BooleanLiteral"
  | regExpLiteral => "RegExpLiteral"
  | logicalExpression => "LogicalExpression"
  | memberExpression => "MemberExpression"
  | newExpression => "NewExpression"
  | program => "Program"
  | objectExpression => "ObjectExpression"
  | objectMethod => "ObjectMethod"
  | objectProperty => "ObjectProperty"
  | restElement => "RestElement"
  | returnStatement => "ReturnStatement"
  | sequenceExpression => "SequenceExpression"
  | switchCase => "SwitchCase"
  | switchStatement => "SwitchStatement"
  | thisExpression => "ThisExpression"
  | throwStatement => "ThrowStatement"
  | tryStatement => "TryStatement"
  | unaryExpression => "UnaryExpression"
  | updateExpression => "UpdateExpression"
  | variableDeclaration => "VariableDeclaration"
  | variableDeclarator => "VariableDeclarator"
  | whileStatement => "WhileStatement"
  | withStatement => "WithStatement"
  | assignmentPattern => "AssignmentPattern"
  | arrayPattern => "ArrayPattern"
  | arrowFunctionExpression => "ArrowFunctionExpression"
  | classBody => "ClassBody"
  | classDeclaration => "ClassDeclaration"
  | classExpression => "ClassExpression"
  | exportAllDeclaration => "ExportAllDeclaration"
  | exportDefaultDeclaration => "ExportDefaultDeclaration"
  | exportNamedDeclaration => "ExportNamedDeclaration"
  | exportSpecifier => "ExportSpecifier"
  | forOfStatement => "ForOfStatement"
  | importDeclaration => "ImportDeclaration"
  | importDefaultSpecifier => "ImportDefaultSpecifier"
  | importNamespaceSpecifier => "ImportNamespaceSpecifier"
  | importSpecifier => "ImportSpecifier"
  | metaProperty => "MetaProperty"
  | classMethod => "ClassMethod"
  | assignmentProperty => "AssignmentProperty"
  | objectPattern => "ObjectPattern"
  | spreadElement => "SpreadElement"
  | super => "Super"
  | taggedTemplateExpression => "TaggedTemplateExpression"
  | templateElement => "TemplateElement"
  | templateLiteral => "TemplateLiteral"
  | yieldExpression => "YieldExpression"
  | anyType => "AnyTypeAnnotation"
  | arrayType => "ArrayTypeAnnotation"
  | booleanType => "BooleanTypeAnnotation"
  | booleanLiteralType => "BooleanLiteralTypeAnnotation"
  | nullLiteralType => "NullLiteralTypeAnnotation"
  | classImplements => "ClassImplements"
  | classProperty => "ClassProperty"
  | declareClass => "DeclareClass"
  | declareFunction => "DeclareFunction"
  | declareInterface => "DeclareInterface"
  | declareModule => "DeclareModule"
  | declareTypeAlias => "DeclareTypeAlias"
  | declareVariable => "DeclareVariable"
  | existentialTypeParam => "ExistentialTypeParam"
  | functionType => "FunctionTypeAnnotation"
  | functionTypeParam => "FunctionTypeParam"
  | genericType => "GenericTypeAnnotation"
  | interfaceExtends => "InterfaceExtends"
  | interfaceDeclaration => "InterfaceDeclaration"
  | intersectionType => "IntersectionTypeAnnotation"
  | mixedType => "MixedTypeAnnotation"
  | nullableType => "NullableTypeAnnotation"
  | numericLiteralType => "NumericLiteralTypeAnnotation"
  | numberType => "NumberTypeAnnotation"
  | stringLiteralType => "StringLiteralTypeAnnotation"
  | stringType => "StringTypeAnnotation"
  | thisType => "ThisTypeAnnotation"
  | tupleType => "TupleTypeAnnotation"
  | typeofType => "TypeofTypeAnnotation"
  | typeAlias => "TypeAlias"
  | typeNote => "TypeAnnotation"
  | typeCastExpression => "TypeCastExpression"
  | typeParameterDeclaration => "TypeParameterDeclaration"
  | typeParameterInstantiation => "TypeParameterInstantiation"
  | objectType => "ObjectTypeAnnotation"
  | objectTypeCallProperty => "ObjectTypeCallProperty"
  | objectTypeIndexer => "ObjectTypeIndexer"
  | objectTypeProperty => "ObjectTypeProperty"
  | qualifiedTypeIdentifier => "QualifiedTypeIdentifier"
  | unionType => "UnionTypeAnnotation"
  | voidType => "VoidTypeAnnotation"
  | jsxAttribute => "JSXAttribute"
  | jsxClosingElement => "JSXClosingElement"
  | jsxElement => "JSXElement"
  | jsxEmptyExpression => "JSXEmptyExpression"
  | jsxExpressionContainer => "JSXExpressionContainer"
  | jsxIdentifier => "JSXIdentifier"
  | jsxMemberExpression => "JSXMemberExpression"
  | jsxNamespacedName => "JSXNamespacedName"
  | jsxOpeningElement => "JSXOpeningElement"
  | jsxSpreadAttribute => "JSXSpreadAttribute"
  | jsxText => "JSXText"
  | noop => "Noop"
  | parenthesizedExpression => "ParenthesizedExpression"
  | awaitExpression => "AwaitExpression"
  | bindExpression => "BindExpression"
  | decorator => "Decorator"
  | doExpression => "DoExpression"
  | exportDefaultSpecifier => "ExportDefaultSpecifier"
  | exportNamespaceSpecifier => "ExportNamespaceSpecifier"
  | restProperty => "RestProperty"
  | spreadProperty => "SpreadProperty"

/-- The fields of a node type in visiting order. -/
def fields : NodeType → List Field
  | arrayExpression => [⟨"elements", .list⟩]
  | assignmentExpression => [⟨"operator", .str⟩, ⟨"left", .node⟩, ⟨"right", .node⟩]
  | binaryExpression => [⟨"operator", .str⟩, ⟨"left", .node⟩, ⟨"right", .node⟩]
  | directive => [⟨"value", .node⟩]
  | directiveLiteral => [⟨"value", .str⟩]
  | blockStatement => [⟨"directives", .list⟩, ⟨"body", .list⟩]
  | breakStatement => [⟨"label", .optNode⟩]
  | callExpression => [⟨"callee", .node⟩, ⟨"arguments", .list⟩]
  | catchClause => [⟨"param", .optNode⟩, ⟨"body", .node⟩]
  | conditionalExpression => [⟨"test", .node⟩, ⟨"consequent", .node⟩, ⟨"alternate", .node⟩]
  | continueStatement => [⟨"label", .optNode⟩]
  | debuggerStatement => []
  | doWhileStatement => [⟨"test", .node⟩, ⟨"body", .node⟩]
  | emptyStatement => []
  | expressionStatement => [⟨"expression", .node⟩]
  | file => [⟨"program", .node⟩]
  | forInStatement => [⟨"left", .node⟩, ⟨"right", .node⟩, ⟨"body", .node⟩]
  | forStatement =>
    [⟨"init", .optNode⟩, ⟨"test", .optNode⟩, ⟨"update", .optNode⟩, ⟨"body", .node⟩]
  | functionDeclaration =>
    [⟨"id", .optNode⟩, ⟨"params", .list⟩, ⟨"body", .node⟩, ⟨"return_type", .optNode⟩,
     ⟨"type_parameters", .optNode⟩, ⟨"generator", .bool⟩, ⟨"async", .bool⟩]
  | functionExpression =>
    [⟨"id", .optNode⟩, ⟨"params", .list⟩, ⟨"body", .node⟩, ⟨"return_type", .optNode⟩,
     ⟨"type_parameters", .optNode⟩, ⟨"generator", .bool⟩, ⟨"async", .bool⟩]
  | identifier => [⟨"name", .str⟩, ⟨"type_annotation", .optNode⟩]
  | ifStatement => [⟨"test", .node⟩, ⟨"consequent", .node⟩, ⟨"alternate", .optNode⟩]
  | labeledStatement => [⟨"label", .node⟩, ⟨"body", .node⟩]
  | stringLiteral => [⟨"value", .str⟩]
  | numericLiteral => [⟨"value", .num⟩]
  | nullLiteral => []
  | booleanLiteral => [⟨"value", .bool⟩]
  | regExpLiteral => [⟨"pattern", .str⟩, ⟨"flags", .str⟩]
  | logicalExpression => [⟨"operator", .str⟩, ⟨"left", .node⟩, ⟨"right", .node⟩]
  | memberExpression => [⟨"object", .node⟩, ⟨"property", .node⟩, ⟨"computed", .bool⟩]
  | newExpression => [⟨"callee", .node⟩, ⟨"arguments", .list⟩]
  | program => [⟨"source_type", .str⟩, ⟨"directives", .list⟩, ⟨"body", .list⟩]
  | objectExpression => [⟨"properties", .list⟩]
  | objectMethod =>
    [⟨"kind", .str⟩, ⟨"key", .node⟩, ⟨"params", .list⟩, ⟨"body", .node⟩, ⟨"decorators", .list⟩,
     ⟨"return_type", .optNode⟩, ⟨"type_parameters", .optNode⟩, ⟨"computed", .bool⟩,
     ⟨"generator", .bool⟩, ⟨"async", .bool⟩]
  | objectProperty =>
    [⟨"key", .node⟩, ⟨"value", .node⟩, ⟨"decorators", .list⟩, ⟨"computed", .bool⟩,
     ⟨"shorthand", .bool⟩]
  | restElement => [⟨"argument", .node⟩, ⟨"type_annotation", .optNode⟩]
  | returnStatement => [⟨"argument", .optNode⟩]
  | sequenceExpression => [⟨"expressions", .list⟩]
  | switchCase => [⟨"test", .optNode⟩, ⟨"consequent", .list⟩]
  | switchStatement => [⟨"discriminant", .node⟩, ⟨"cases", .list⟩]
  | thisExpression => []
  | throwStatement => [⟨"argument", .node⟩]
  | tryStatement => [⟨"block", .node⟩, ⟨"handler", .optNode⟩, ⟨"finalizer", .optNode⟩]
  | unaryExpression => [⟨"operator", .str⟩, ⟨"argument", .node⟩, ⟨"prefix", .bool⟩]
  | updateExpression => [⟨"operator", .str⟩, ⟨"argument", .node⟩, ⟨"prefix", .bool⟩]
  | variableDeclaration => [⟨"kind", .str⟩, ⟨"declarations", .list⟩]
  | variableDeclarator => [⟨"id", .node⟩, ⟨"init", .optNode⟩]
  | whileStatement => [⟨"test", .node⟩, ⟨"body", .node⟩]
  | withStatement => [⟨"object", .node⟩, ⟨"body", .node⟩]
  | assignmentPattern => [⟨"left", .node⟩, ⟨"right", .node⟩]
  | arrayPattern => [⟨"elements", .list⟩, ⟨"type_annotation", .optNode⟩]
  | arrowFunctionExpression =>
    [⟨"params", .list⟩, ⟨"body", .node⟩, ⟨"return_type", .optNode⟩, ⟨"type_parameters", .optNode⟩,
     ⟨"async", .bool⟩, ⟨"expression", .bool⟩]
  | classBody => [⟨"body", .list⟩]
  | classDeclaration =>
    [⟨"id", .optNode⟩, ⟨"body", .node⟩, ⟨"super_class", .optNode⟩, ⟨"mixins", .list⟩,
     ⟨"type_parameters", .optNode⟩, ⟨"super_type_parameters", .optNode⟩, ⟨"implements", .list⟩,
     ⟨"decorators", .list⟩]
  | classExpression =>
    [⟨"id", .optNode⟩, ⟨"body", .node⟩, ⟨"super_class", .optNode⟩, ⟨"mixins", .list⟩,
     ⟨"type_parameters", .optNode⟩, ⟨"super_type_parameters", .optNode⟩, ⟨"implements", .list⟩,
     ⟨"decorators", .list⟩]
  | exportAllDeclaration => [⟨"source", .node⟩]
  | exportDefaultDeclaration => [⟨"declaration", .node⟩]
  | exportNamedDeclaration =>
    [⟨"declaration", .optNode⟩, ⟨"specifiers", .list⟩, ⟨"source", .optNode⟩]
  | exportSpecifier => [⟨"local", .node⟩, ⟨"exported", .node⟩]
  | forOfStatement => [⟨"left", .node⟩, ⟨"right", .node⟩, ⟨"body", .node⟩]
  | importDeclaration => [⟨"specifiers", .list⟩, ⟨"source", .node⟩, ⟨"import_kind", .optStr⟩]
  | importDefaultSpecifier => [⟨"local", .node⟩]
  | importNamespaceSpecifier => [⟨"local", .node⟩]
  | importSpecifier => [⟨"local", .node⟩, ⟨"imported", .node⟩, ⟨"import_kind", .optStr⟩]
  | metaProperty => [⟨"meta", .node⟩, ⟨"property", .node⟩]
  | classMethod =>
    [⟨"kind", .str⟩, ⟨"key", .node⟩, ⟨"params", .list⟩, ⟨"body", .node⟩, ⟨"decorators", .list⟩,
     ⟨"return_type", .optNode⟩, ⟨"type_parameters", .optNode⟩, ⟨"computed", .bool⟩,
     ⟨"static", .bool⟩, ⟨"generator", .bool⟩, ⟨"async", .bool⟩]
  | assignmentProperty =>
    [⟨"key", .node⟩, ⟨"value", .node⟩, ⟨"decorators", .list⟩, ⟨"computed", .bool⟩,
     ⟨"shorthand", .bool⟩]
  | objectPattern => [⟨"properties", .list⟩, ⟨"type_annotation", .optNode⟩]
  | spreadElement => [⟨"argument", .node⟩]
  | super => []
  | taggedTemplateExpression => [⟨"tag", .node⟩, ⟨"quasi", .node⟩]
  | templateElement => [⟨"raw", .str⟩, ⟨"cooked", .optStr⟩, ⟨"tail", .bool⟩]
  | templateLiteral => [⟨"quasis", .list⟩, ⟨"expressions", .list⟩]
  | yieldExpression => [⟨"argument", .optNode⟩, ⟨"delegate", .bool⟩]
  | anyType => []
  | arrayType => [⟨"element_type", .node⟩]
  | booleanType => []
  | booleanLiteralType => [⟨"value", .bool⟩]
  | nullLiteralType => []
  | classImplements => [⟨"id", .node⟩, ⟨"type_parameters", .optNode⟩]
  | classProperty =>
    [⟨"key", .node⟩, ⟨"value", .optNode⟩, ⟨"type_annotation", .optNode⟩, ⟨"decorators", .list⟩,
     ⟨"computed", .bool⟩, ⟨"static", .bool⟩]
  | declareClass =>
    [⟨"id", .node⟩, ⟨"type_parameters", .optNode⟩, ⟨"extends", .list⟩, ⟨"body", .node⟩]
  | declareFunction => [⟨"id", .node⟩]
  | declareInterface =>
    [⟨"id", .node⟩, ⟨"type_parameters", .optNode⟩, ⟨"extends", .list⟩, ⟨"body", .node⟩]
  | declareModule => [⟨"id", .node⟩, ⟨"body", .node⟩]
  | declareTypeAlias => [⟨"id", .node⟩, ⟨"type_parameters", .optNode⟩, ⟨"right", .node⟩]
  | declareVariable => [⟨"id", .node⟩]
  | existentialTypeParam => []
  | functionType =>
    [⟨"type_parameters", .optNode⟩, ⟨"params", .list⟩, ⟨"rest", .optNode⟩, ⟨"return_type", .node⟩]
  | functionTypeParam => [⟨"name", .node⟩, ⟨"type_annotation", .node⟩, ⟨"optional", .bool⟩]
  | genericType => [⟨"id", .node⟩, ⟨"type_parameters", .optNode⟩]
  | interfaceExtends => [⟨"id", .node⟩, ⟨"type_parameters", .optNode⟩]
  | interfaceDeclaration =>
    [⟨"id", .node⟩, ⟨"type_parameters", .optNode⟩, ⟨"extends", .list⟩, ⟨"mixins", .list⟩,
     ⟨"body", .node⟩]
  | intersectionType => [⟨"types", .list⟩]
  | mixedType => []
  | nullableType => [⟨"type_annotation", .node⟩]
  | numericLiteralType => [⟨"value", .num⟩]
  | numberType => []
  | stringLiteralType => [⟨"value", .str⟩]
  | stringType => []
  | thisType => []
  | tupleType => [⟨"types", .list⟩]
  | typeofType => [⟨"argument", .node⟩]
  | typeAlias => [⟨"id", .node⟩, ⟨"type_parameters", .optNode⟩, ⟨"right", .node⟩]
  | typeNote => [⟨"type_annotation", .node⟩]
  | typeCastExpression => [⟨"expression", .node⟩, ⟨"type_annotation", .node⟩]
  | typeParameterDeclaration => [⟨"params", .list⟩]
  | typeParameterInstantiation => [⟨"params", .list⟩]
  | objectType => [⟨"properties", .list⟩, ⟨"indexers", .list⟩, ⟨"call_properties", .list⟩]
  | objectTypeCallProperty => [⟨"value", .node⟩, ⟨"static", .bool⟩]
  | objectTypeIndexer => [⟨"id", .node⟩, ⟨"key", .node⟩, ⟨"value", .node⟩, ⟨"static", .bool⟩]
  | objectTypeProperty =>
    [⟨"key", .node⟩, ⟨"value", .node⟩, ⟨"optional", .bool⟩, ⟨"static", .bool⟩]
  | qualifiedTypeIdentifier => [⟨"id", .node⟩, ⟨"qualification", .node⟩]
  | unionType => [⟨"types", .list⟩]
  | voidType => []
  | jsxAttribute => [⟨"name", .node⟩, ⟨"value", .optNode⟩]
  | jsxClosingElement => [⟨"name", .node⟩]
  | jsxElement =>
    [⟨"opening_element", .node⟩, ⟨"children", .list⟩, ⟨"closing_element", .optNode⟩,
     ⟨"self_closing", .bool⟩]
  | jsxEmptyExpression => []
  | jsxExpressionContainer => [⟨"expression", .node⟩]
  | jsxIdentifier => [⟨"name", .str⟩]
  | jsxMemberExpression => [⟨"object", .node⟩, ⟨"property", .node⟩]
  | jsxNamespacedName => [⟨"namespace", .node⟩, ⟨"name", .node⟩]
  | jsxOpeningElement => [⟨"name", .node⟩, ⟨"attributes", .list⟩, ⟨"self_closing", .bool⟩]
  | jsxSpreadAttribute => [⟨"argument", .node⟩]
  | jsxText => [⟨"value", .str⟩]
  | noop => []
  | parenthesizedExpression => [⟨"expression", .node⟩]
  | awaitExpression => [⟨"argument", .node⟩]
  | bindExpression => [⟨"object", .optNode⟩, ⟨"callee", .node⟩]
  | decorator => [⟨"expression", .node⟩]
  | doExpression => [⟨"body", .node⟩]
  | exportDefaultSpecifier => [⟨"exported", .node⟩]
  | exportNamespaceSpecifier => [⟨"exported", .node⟩]
  | restProperty => [⟨"argument", .node⟩]
  | spreadProperty => [⟨"argument", .node⟩]

/-- The groups of a node type. -/
def aliases : NodeType → List Alias
  | arrayExpression => [.expression]
  | assignmentExpression => [.expression]
  | binaryExpression => [.expression, .binary]
  | directive => []
  | directiveLiteral => []
  | blockStatement => [.scopable, .blockParent, .block, .statement]
  | breakStatement => [.statement, .terminatorless, .completionStatement]
  | callExpression => [.expression]
  | catchClause => [.scopable]
  | conditionalExpression => [.expression, .conditional]
  | continueStatement => [.statement, .terminatorless, .completionStatement]
  | debuggerStatement => [.statement]
  | doWhileStatement => [.scopable, .blockParent, .statement, .loop, .whileLoop]
  | emptyStatement => [.statement]
  | expressionStatement => [.statement, .expressionWrapper]
  | file => []
  | forInStatement => [.scopable, .blockParent, .statement, .loop, .forLoop, .forXStatement]
  | forStatement => [.scopable, .blockParent, .statement, .loop, .forLoop]
  | functionDeclaration =>
    [.scopable, .blockParent, .statement, .function, .functionParent, .pureish, .declaration]
  | functionExpression =>
    [.expression, .scopable, .blockParent, .function, .functionParent, .pureish]
  | identifier => [.expression, .lVal]
  | ifStatement => [.statement, .conditional]
  | labeledStatement => [.statement]
  | stringLiteral => [.expression, .pureish, .literal, .immutable]
  | numericLiteral => [.expression, .pureish, .literal, .immutable]
  | nullLiteral => [.expression, .pureish, .literal, .immutable]
  | booleanLiteral => [.expression, .pureish, .literal, .immutable]
  | regExpLiteral => [.expression, .literal]
  | logicalExpression => [.expression, .binary]
  | memberExpression => [.expression, .lVal]
  | newExpression => [.expression]
  | program => [.scopable, .blockParent, .block, .functionParent]
  | objectExpression => [.expression]
  | objectMethod =>
    [.scopable, .blockParent, .function, .functionParent, .userWhitespacable, .method,
     .objectMember]
  | objectProperty => [.userWhitespacable, .objectMember, .property]
  | restElement => [.lVal]
  | returnStatement => [.statement, .terminatorless, .completionStatement]
  | sequenceExpression => [.expression]
  | switchCase => []
  | switchStatement => [.scopable, .blockParent, .statement]
  | thisExpression => [.expression]
  | throwStatement => [.statement, .terminatorless, .completionStatement]
  | tryStatement => [.statement]
  | unaryExpression => [.expression, .unaryLike]
  | updateExpression => [.expression]
  | variableDeclaration => [.statement, .declaration]
  | variableDeclarator => []
  | whileStatement => [.scopable, .blockParent, .statement, .loop, .whileLoop]
  | withStatement => [.statement]
  | assignmentPattern => [.lVal, .pattern]
  | arrayPattern => [.lVal, .pattern]
  | arrowFunctionExpression =>
    [.expression, .scopable, .blockParent, .function, .functionParent, .pureish]
  | classBody => []
  | classDeclaration => [.scopable, .statement, .pureish, .declaration, .classNode]
  | classExpression => [.expression, .scopable, .pureish, .classNode]
  | exportAllDeclaration => [.statement, .declaration, .moduleDeclaration, .exportDeclaration]
  | exportDefaultDeclaration => [.statement, .declaration, .moduleDeclaration, .exportDeclaration]
  | exportNamedDeclaration => [.statement, .declaration, .moduleDeclaration, .exportDeclaration]
  | exportSpecifier => [.moduleSpecifier]
  | forOfStatement => [.scopable, .blockParent, .statement, .loop, .forLoop, .forXStatement]
  | importDeclaration => [.statement, .declaration, .moduleDeclaration]
  | importDefaultSpecifier => [.moduleSpecifier]
  | importNamespaceSpecifier => [.moduleSpecifier]
  | importSpecifier => [.moduleSpecifier]
  | metaProperty => [.expression]
  | classMethod => [.scopable, .blockParent, .function, .functionParent, .method]
  | assignmentProperty => []
  | objectPattern => [.lVal, .pattern]
  | spreadElement => [.unaryLike]
  | super => [.expression]
  | taggedTemplateExpression => [.expression]
  | templateElement => []
  | templateLiteral => [.expression, .literal]
  | yieldExpression => [.expression, .terminatorless]
  | anyType => [.flow, .flowType, .flowBase]
  | arrayType => [.flow, .flowType]
  | booleanType => [.flow, .flowType, .flowBase]
  | booleanLiteralType => [.flow, .flowType]
  | nullLiteralType => []
  | classImplements => [.flow]
  | classProperty => [.property, .flow]
  | declareClass => [.statement, .declaration, .flow, .flowDeclaration]
  | declareFunction => [.statement, .declaration, .flow, .flowDeclaration]
  | declareInterface => [.statement, .declaration, .flow, .flowDeclaration]
  | declareModule => [.statement, .declaration, .flow, .flowDeclaration]
  | declareTypeAlias => [.statement, .declaration, .flow, .flowDeclaration]
  | declareVariable => [.statement, .declaration, .flow, .flowDeclaration]
  | existentialTypeParam => [.flow]
  | functionType => [.flow, .flowType]
  | functionTypeParam => [.flow]
  | genericType => [.flow, .flowType]
  | interfaceExtends => [.flow]
  | interfaceDeclaration => [.statement, .declaration, .flow, .flowDeclaration]
  | intersectionType => [.flow, .flowType]
  | mixedType => [.flow, .flowType, .flowBase]
  | nullableType => [.flow, .flowType]
  | numericLiteralType => [.flow, .flowType]
  | numberType => [.flow, .flowType, .flowBase]
  | stringLiteralType => [.flow, .flowType]
  | stringType => [.flow, .flowType, .flowBase]
  | thisType => [.flow, .flowType, .flowBase]
  | tupleType => [.flow, .flowType]
  | typeofType => [.flow, .flowType]
  | typeAlias => [.statement, .declaration, .flow, .flowDeclaration]
  | typeNote => [.flow, .flowType]
  | typeCastExpression => [.expression, .expressionWrapper, .flow]
  | typeParameterDeclaration => [.flow]
  | typeParameterInstantiation => [.flow]
  | objectType => [.flow, .flowType]
  | objectTypeCallProperty => [.userWhitespacable, .flow]
  | objectTypeIndexer => [.userWhitespacable, .flow]
  | objectTypeProperty => [.userWhitespacable, .flow]
  | qualifiedTypeIdentifier => [.flow]
  | unionType => [.flow, .flowType]
  | voidType => [.flow, .flowType, .flowBase]
  | jsxAttribute => [.immutable, .jsx]
  | jsxClosingElement => [.immutable, .jsx]
  | jsxElement => [.expression, .immutable, .jsx]
  | jsxEmptyExpression => [.expression, .jsx]
  | jsxExpressionContainer => [.immutable, .jsx]
  | jsxIdentifier => [.expression, .jsx]
  | jsxMemberExpression => [.expression, .jsx]
  | jsxNamespacedName => [.jsx]
  | jsxOpeningElement => [.immutable, .jsx]
  | jsxSpreadAttribute => [.jsx]
  | jsxText => [.jsx]
  | noop => []
  | parenthesizedExpression => [.expression, .expressionWrapper]
  | awaitExpression => [.expression, .terminatorless]
  | bindExpression => [.expression]
  | decorator => []
  | doExpression => [.expression]
  | exportDefaultSpecifier => [.moduleSpecifier]
  | exportNamespaceSpecifier => [.moduleSpecifier]
  | restProperty => [.unaryLike]
  | spreadProperty => [.unaryLike]

/-- The node type of a name. -/
def ofName? (name : String) : Option NodeType :=
  all.find? (·.name == name)

/-- The place of a node type in schema order. -/
def index (ty : NodeType) : Nat := all.idxOf ty

def fieldPosition? (ty : NodeType) (name : String) : Option Nat :=
  ty.fields.findIdx? (·.name == name)

def field? (ty : NodeType) (name : String) : Option Field :=
  ty.fields.find? (·.name == name)

def childFields (ty : NodeType) : List Field :=
  ty.fields.filter (·.kind.isChild)

/-- Membership in a group. -/
def isA (ty : NodeType) (group : Alias) : Bool :=
  ty.aliases.contains group

end NodeType

/-- The node types of a group, in schema order. -/
def Alias.members (group : Alias) : List NodeType :=
  NodeType.all.filter (·.isA group)

end ScopedTree
