import AtomixJS.Compiler.Ast
import AtomixJS.Core.Operators
import AtomixJS.Lib.Simulation

/-!
# The structured core of the language

Expressions and statements without functions and objects, and what they mean.
An environment is the lexical scope chain, the innermost scope first; a scope
maps names to values.  An operator means the value that its handler computes,
except that the pairs of operands for which the handlers of arithmetic have no
proper result are left out.

`fits` says whether a value can be pushed when a number of operands lie below
it.  The meaning of a program on a machine without a limit is the one for
`fun _ => true`.
-/

namespace AtomixJS.Compiler

open Simulation (Outcome)

/-! ## Syntax -/

inductive CoreExpression
  | int (n : Fin (2 ^ 31))
  | bool (value : Bool)
  | null
  /-- `undefined` is the identifier of that name. -/
  | identifier (name : JSString)
  | binary (operator : BinaryOpcode) (left right : CoreExpression)
  | unary (operator : UnaryOpcode) (argument : CoreExpression)
  | void (argument : CoreExpression)
  | assign (name : JSString) (value : CoreExpression)

inductive CoreStatement
  | expression (expression : CoreExpression)
  /-- A `let` or `const` with its declarators. -/
  | declare (declarators : List (JSString × Option CoreExpression))
  | block (body : List CoreStatement)
  | ifThen (test : CoreExpression) (consequent : CoreStatement)
  | ifElse (test : CoreExpression) (consequent alternate : CoreStatement)
  | while (test : CoreExpression) (body : CoreStatement)

/-- The operator of an opcode. -/
def operatorOf : BinaryOpcode → BinaryOperator
  | .add => .plus
  | .minus => .minus
  | .mul => .times
  | .div => .divide
  | .mod => .percent
  | .binaryAnd => .and
  | .binaryOr => .or
  | .binaryXor => .xor
  | .binaryLshft => .lshift
  | .binaryRshft => .rshift
  | .binaryZrshft => .urshift
  | .teq => .teq
  | .nteq => .nteq
  | .gt => .gt
  | .geq => .geq
  | .lt => .lt
  | .leq => .leq

def unaryOperatorOf : UnaryOpcode → UnaryOperator
  | .negate => .minus
  | .not => .not
  | .binaryNot => .tilde
  | .typeof => .typeof

/-! ## The nodes of the syntax tree -/

def CoreExpression.node : CoreExpression → Expression
  | .int n => .numericLiteral (Binary64.ofInt n.val)
  | .bool value => .booleanLiteral value
  | .null => .nullLiteral
  | .identifier name => .identifier name
  | .binary operator left right => .binaryExpression (operatorOf operator) left.node right.node
  | .unary operator argument => .unaryExpression (unaryOperatorOf operator) argument.node
  | .void argument => .unaryExpression .void argument.node
  | .assign name value => .assignmentExpression true (.identifier name) value.node

def declaratorNode (declarator : JSString × Option CoreExpression) : Declarator :=
  .mk (.identifier declarator.1) (declarator.2.map CoreExpression.node)

mutual

def CoreStatement.node : CoreStatement → Statement
  | .expression e => .expressionStatement e.node
  | .declare declarators => .declaration (.variableDeclaration (declarators.map declaratorNode))
  | .block body => .blockStatement (.mk false (nodes body))
  | .ifThen test consequent => .ifStatement test.node consequent.node none
  | .ifElse test consequent alternate =>
    .ifStatement test.node consequent.node (some alternate.node)
  | .while test body => .whileStatement test.node body.node

def nodes : List CoreStatement → List Statement
  | [] => []
  | statement :: rest => statement.node :: nodes rest

end

/-! ## Environments -/

/-- The bindings of the scopes of a chain, the innermost first. -/
abbrev Env := List (JSString → Option JSValue)

namespace Env

def lookup (env : Env) (name : JSString) : Option JSValue := env.findSome? (· name)

def declare (name : JSString) (v : JSValue) : Env → Option Env
  | [] => none
  | scope :: rest => some (Function.update scope name (some v) :: rest)

/-- The innermost scope that has the name gets the value. -/
def assign (name : JSString) (v : JSValue) : Env → Option Env
  | [] => none
  | scope :: rest =>
    if (scope name).isSome then some (Function.update scope name (some v) :: rest)
    else (assign name v rest).map (scope :: ·)

/-- A scope without bindings inside. -/
def enter (env : Env) : Env := (fun _ => none) :: env

end Env

/-! ## Meaning -/

def isArithmetic : BinaryOpcode → Bool
  | .add | .minus | .mul | .div | .mod => true
  | _ => false

/-- No arithmetic on undefined, objects or functions, and no division by null. -/
def applicable (operator : BinaryOpcode) (left right : JSValue) : Bool :=
  !(isArithmetic operator && (left.isOpaque || right.isOpaque)) &&
    !((operator = .div || operator = .mod) && right.isNull)

section

variable (address : JSValue → CInt) (fits : ℕ → Bool)

/-- The value of an expression above `depth` operands, and the environment after
it. -/
def eval : CoreExpression → ℕ → Env → Outcome (JSValue × Env)
  | .int n, depth, env => do
    Outcome.require (fits depth)
    pure (.integer (BitVec.ofNat 32 n.val), env)
  | .bool value, depth, env => do
    Outcome.require (fits depth)
    pure (.boolean value, env)
  | .null, depth, env => do
    Outcome.require (fits depth)
    pure (.null, env)
  | .identifier name, depth, env => do
    Outcome.require (fits depth)
    if name = jsString "undefined" then pure (.undefined, env)
    else
      let v ← Outcome.ofOption (env.lookup name)
      pure (v, env)
  | .binary operator left right, depth, env => do
    let (l, env) ← eval left depth env
    let (r, env) ← eval right (depth + 1) env
    Outcome.require (applicable operator l r)
    let v ← Outcome.ofOption (binaryValue address operator l r).toOption
    pure (v, env)
  | .unary operator argument, depth, env => do
    let (r, env) ← eval argument depth env
    let v ← Outcome.ofOption (unaryValue address operator r).toOption
    pure (v, env)
  | .void argument, depth, env => do
    let (_, env) ← eval argument depth env
    Outcome.require (fits depth)
    pure (.undefined, env)
  | .assign name value, depth, env => do
    let (v, env) ← eval value depth env
    Outcome.require (fits (depth + 1))
    let env ← Outcome.ofOption (env.assign name v)
    pure (v, env)

def execDeclarators : List (JSString × Option CoreExpression) → ℕ → Env → Outcome Env
  | [], _, env => pure env
  | (name, none) :: rest, depth, env => do
    Outcome.require (fits depth)
    let env ← Outcome.ofOption (env.declare name .undefined)
    execDeclarators rest depth env
  | (name, some init) :: rest, depth, env => do
    let (v, env) ← eval address fits init depth env
    let env ← Outcome.ofOption (env.declare name v)
    execDeclarators rest depth env

/-- The test of an `if` or a `while`. -/
def evalTest (test : CoreExpression) (depth : ℕ) (env : Env) : Outcome (Bool × Env) := do
  let (v, env) ← eval address fits test depth env
  let falsy ← Outcome.ofOption (valueIsFalsy v).toOption
  pure (!falsy, env)

mutual

/-- The environment after a statement whose loops make at most `fuel` rounds
each. -/
def exec (fuel : ℕ) : CoreStatement → ℕ → Env → Outcome Env
  | .expression e, depth, env => do
    let (_, env) ← eval address fits e depth env
    pure env
  | .declare declarators, depth, env => execDeclarators address fits declarators depth env
  | .block body, depth, env => do
    let env ← execAll fuel body depth env.enter
    pure env.tail
  | .ifThen test consequent, depth, env => do
    let (holds, env) ← evalTest address fits test depth env
    if holds then exec fuel consequent depth env else pure env
  | .ifElse test consequent alternate, depth, env => do
    let (holds, env) ← evalTest address fits test depth env
    if holds then exec fuel consequent depth env else exec fuel alternate depth env
  | .while test body, depth, env =>
    Outcome.loop (fun env => evalTest address fits test depth env)
      (fun env => exec fuel body depth env) fuel env

def execAll (fuel : ℕ) : List CoreStatement → ℕ → Env → Outcome Env
  | [], _, env => pure env
  | statement :: rest, depth, env => do
    let env ← exec fuel statement depth env
    execAll fuel rest depth env

end

end

/-- The pairs for which a handler of arithmetic answers without taking an operand
off are left out. -/
theorem binaryShortcut_of_applicable {operator : BinaryOpcode} {l r : JSValue}
    (h : applicable operator l r = true) : binaryShortcut operator l r = none := by
  cases operator <;> cases l <;> cases r <;> first | rfl | exact nomatch h

end AtomixJS.Compiler
