import AtomixJS.Compiler.Format

/-!
# The syntax tree

The nodes of `@babel/types` that `pipe` looks into, with the fields it reads.
Every other node is an `other` with its type, which is what a rejection names.
A position in the tree where `pipe` only asks whether it holds an identifier is
an `Option`: the name, or `none` for any other node.
-/

namespace AtomixJS.Compiler

/-- A JavaScript string of ASCII characters. -/
def jsString (s : String) : JSString := s.toList.map fun c => c.toNat.toUInt16

/-- The operator of a `BinaryExpression`. -/
inductive BinaryOperator
  | plus | minus | times | divide | percent | and | or | xor | lshift | rshift | urshift
  | teq | nteq | gt | geq | lt | leq
  | other (text : String)
  deriving DecidableEq

/-- The operator of a `UnaryExpression`. -/
inductive UnaryOperator
  | minus | not | tilde | typeof | void
  | other (text : String)
  deriving DecidableEq

/-- The meta data that the transformation leaves on a `Super`. -/
structure SuperExtra where
  targetName : JSString
  isStatic : Bool
  deriving DecidableEq

/-- A property of an `ObjectPattern`, or a `RestElement`. -/
inductive PatternProperty
  | objectProperty (key value : Option JSString)
  | restElement
  deriving DecidableEq

/-- The `id` of a `VariableDeclarator`. -/
inductive DeclaratorId
  | identifier (name : JSString)
  | objectPattern (properties : List PatternProperty)
  | other (type : String)
  deriving DecidableEq

mutual

inductive Expression
  | stringLiteral (value : JSString)
  | numericLiteral (value : Binary64)
  | booleanLiteral (value : Bool)
  | nullLiteral
  | identifier (name : JSString)
  | thisExpression
  | binaryExpression (operator : BinaryOperator) (left right : Expression)
  | unaryExpression (operator : UnaryOperator) (argument : Expression)
  /-- `argumentsId` is the identity of the array of arguments, which a call of
  `reverse` changes in place. -/
  | callExpression (callee : Expression) (argumentsId : ℕ) (arguments : List Expression)
  | objectExpression (properties : List Property)
  | arrayExpression (elements : List (Option Expression))
  | memberExpression (object property : Expression) (computed : Bool)
  /-- An assignment, whose operator is `=` or not. -/
  | assignmentExpression (simple : Bool) (left : AssignmentTarget) (right : Expression)
  | functionExpression (function : FunctionNode)
  | super (extra : Option SuperExtra)
  | other (type : String)

/-- A property of an `ObjectExpression`.  A method has no value, a spread has
neither key nor value. -/
inductive Property
  | objectProperty (key : Option JSString) (value : Expression)
  | objectMethod (key : Option JSString)
  | spreadElement

/-- The `left` of an `AssignmentExpression`: everything else is a pattern. -/
inductive AssignmentTarget
  | identifier (name : JSString)
  | memberExpression (object property : Expression) (computed : Bool)
  | pattern

/-- The shared fields of `FunctionExpression` and `FunctionDeclaration`; a
parameter is its name when it is an identifier. -/
inductive FunctionNode
  | mk (id : Option JSString) (params : List (Option JSString)) (body : Block)

/-- A `BlockStatement`; `isVirtual` is the entry of its `extra`. -/
inductive Block
  | mk (isVirtual : Bool) (body : List Statement)

inductive Statement
  | expressionStatement (expression : Expression)
  | declaration (declaration : Declaration)
  | blockStatement (block : Block)
  | returnStatement (argument : Option Expression)
  | ifStatement (test : Expression) (consequent : Statement) (alternate : Option Statement)
  | whileStatement (test : Expression) (body : Statement)
  | exportNamedDeclaration (declaration : Option Declaration) (specifiers : List Specifier)
  | exportDefaultDeclaration (declaration : DefaultDeclaration)
  | other (type : String)

inductive Declaration
  | variableDeclaration (declarations : List Declarator)
  | functionDeclaration (function : FunctionNode)
  | other (type : String)

/-- A `VariableDeclarator`. -/
inductive Declarator
  | mk (id : DeclaratorId) (init : Option Expression)

/-- What an `ExportDefaultDeclaration` declares. -/
inductive DefaultDeclaration
  | expression (expression : Expression)
  | declaration (declaration : Declaration)

/-- A specifier of an `ExportNamedDeclaration`; the exported name is that of an
identifier or the value of a string literal. -/
inductive Specifier
  | exportSpecifier (binding : Expression) (exported : JSString)
  | exportDefaultSpecifier
  | exportNamespaceSpecifier (exported : JSString)

end

/-- A function declaration leaves the function on the stack, and whoever emits
it takes it off. -/
def Statement.isFunctionDeclaration : Statement → Bool
  | .declaration (.functionDeclaration _) => true
  | _ => false

end AtomixJS.Compiler
