/-!
# Groups of node types

A group (`Alias`) is named like a node type and stands for several of them.
-/

namespace ScopedTree

/-- Named groups of node types. -/
inductive Alias where
  | expression | binary | scopable | blockParent | block | statement | terminatorless
  | completionStatement | conditional | loop | whileLoop | expressionWrapper | forLoop
  | forXStatement | function | functionParent | pureish | declaration | lVal | literal | immutable
  | userWhitespacable | method | objectMember | property | unaryLike | pattern | classNode
  | moduleDeclaration | exportDeclaration | moduleSpecifier | flow | flowType | flowBase
  | flowDeclaration | jsx
  deriving DecidableEq, Inhabited

def Alias.all : List Alias :=
  [.expression, .binary, .scopable, .blockParent, .block, .statement, .terminatorless,
   .completionStatement, .conditional, .loop, .whileLoop, .expressionWrapper, .forLoop,
   .forXStatement, .function, .functionParent, .pureish, .declaration, .lVal, .literal,
   .immutable, .userWhitespacable, .method, .objectMember, .property, .unaryLike, .pattern,
   .classNode, .moduleDeclaration, .exportDeclaration, .moduleSpecifier, .flow, .flowType,
   .flowBase, .flowDeclaration, .jsx]

def Alias.name : Alias → String
  | expression => "Expression"
  | binary => "Binary"
  | scopable => "Scopable"
  | blockParent => "BlockParent"
  | block => "Block"
  | statement => "Statement"
  | terminatorless => "Terminatorless"
  | completionStatement => "CompletionStatement"
  | conditional => "Conditional"
  | loop => "Loop"
  | whileLoop => "While"
  | expressionWrapper => "ExpressionWrapper"
  | forLoop => "For"
  | forXStatement => "ForXStatement"
  | function => "Function"
  | functionParent => "FunctionParent"
  | pureish => "Pureish"
  | declaration => "Declaration"
  | lVal => "LVal"
  | literal => "Literal"
  | immutable => "Immutable"
  | userWhitespacable => "UserWhitespacable"
  | method => "Method"
  | objectMember => "ObjectMember"
  | property => "Property"
  | unaryLike => "UnaryLike"
  | pattern => "Pattern"
  | classNode => "Class"
  | moduleDeclaration => "ModuleDeclaration"
  | exportDeclaration => "ExportDeclaration"
  | moduleSpecifier => "ModuleSpecifier"
  | flow => "Flow"
  | flowType => "FlowTypeAnnotation"
  | flowBase => "FlowBaseAnnotation"
  | flowDeclaration => "FlowDeclaration"
  | jsx => "JSX"

def Alias.ofName? (name : String) : Option Alias :=
  Alias.all.find? (·.name == name)

end ScopedTree
