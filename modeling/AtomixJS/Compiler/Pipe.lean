import AtomixJS.Compiler.Ast

/-!
# The code generator

`pipe.ts`.  A context holds the two sections that are filled, and which arrays
of call arguments have been reversed: `node.arguments.reverse()` reverses the
array of the node in place, so a node that is emitted a second time has its
arguments in source order.  An error is a thrown text; what was emitted before
is lost with it.
-/

namespace AtomixJS.Compiler

structure PipeContext where
  data : DataSection
  stable : STableSection
  reversed : List ℕ

namespace PipeContext

variable (ctx : PipeContext)

/-- The context that a compilation starts from. -/
def empty : PipeContext := ⟨DataSection.empty, STableSection.empty, []⟩

def code : List Instruction := ctx.data.instructions

def getCount : ℕ := ctx.data.count

/-- `ctx.data.addInstruction`, which returns the count before it. -/
def addInstruction (instruction : Instruction) : PipeContext :=
  { ctx with data := (ctx.data.addInstruction instruction).2 }

def replaceInstruction (index : ℕ) (instruction : Instruction) : Except String PipeContext := do
  let data ← ctx.data.replaceInstruction index instruction
  pure { ctx with data }

def registerString (x : JSString) : ℕ × PipeContext :=
  ((ctx.stable.registerString x).1, { ctx with stable := (ctx.stable.registerString x).2 })

/-- An instruction whose operand is the index of a string. -/
def addNamed (instruction : ℕ → Instruction) (name : JSString) : PipeContext :=
  (ctx.registerString name).2.addInstruction (instruction (ctx.registerString name).1)

/-- `node.arguments.reverse()`: whether the arguments are now in source order. -/
def reverseArguments (id : ℕ) : Bool × PipeContext :=
  if id ∈ ctx.reversed then (true, { ctx with reversed := ctx.reversed.erase id })
  else (false, { ctx with reversed := id :: ctx.reversed })

end PipeContext

def notDeclared (type : String) : String := s!"Type \"{type}\" is not declared in the pipe."

def binaryOpcode : BinaryOperator → Except String BinaryOpcode
  | .plus => .ok .add
  | .minus => .ok .minus
  | .times => .ok .mul
  | .divide => .ok .div
  | .percent => .ok .mod
  | .and => .ok .binaryAnd
  | .or => .ok .binaryOr
  | .xor => .ok .binaryXor
  | .lshift => .ok .binaryLshft
  | .rshift => .ok .binaryRshft
  | .urshift => .ok .binaryZrshft
  | .teq => .ok .teq
  | .nteq => .ok .nteq
  | .gt => .ok .gt
  | .geq => .ok .geq
  | .lt => .ok .lt
  | .leq => .ok .leq
  | .other text => .error ("Unsupported operator " ++ text)

def pipeUnaryOperator (operator : UnaryOperator) (ctx : PipeContext) :
    Except String PipeContext :=
  match operator with
  | .minus => .ok (ctx.addInstruction (.unary .negate))
  | .not => .ok (ctx.addInstruction (.unary .not))
  | .tilde => .ok (ctx.addInstruction (.unary .binaryNot))
  | .typeof => .ok (ctx.addInstruction (.unary .typeof))
  | .void => .ok ((ctx.addInstruction .pop).addInstruction .ldUndf)
  | .other text => .error ("Unsupported operator " ++ text)

def pipeNumericLiteral (value : Binary64) (ctx : PipeContext) : PipeContext :=
  match value.whole? with
  | some n => ctx.addInstruction (.ldInt n)
  | none => ctx.addInstruction (.ldDouble value)

def pipeIdentifier (name : JSString) (ctx : PipeContext) : PipeContext :=
  if name = jsString "undefined" then ctx.addInstruction .ldUndf
  else ctx.addNamed .loadLocal name

/-- The object of a member expression, twice when a call needs it as `this`. -/
def pipeMemberObject (object : Expression)
    (pipeObject : PipeContext → Except String PipeContext) (doubleObject : Bool)
    (ctx : PipeContext) : Except String PipeContext :=
  match object with
  | .super none => .error "Missing meta data"
  | .super (some extra) =>
    if extra.targetName = [] then .error "Missing meta data"
    else
      let ctx := if doubleObject then ctx.addInstruction .ldThis else ctx
      let ctx := ctx.addNamed .loadLocal extra.targetName
      .ok (if extra.isStatic then ctx else ctx.addNamed .objLoad (jsString "prototype"))
  | _ => do
    let ctx ← pipeObject ctx
    pure (if doubleObject then ctx.addInstruction .dup else ctx)

def pipeMemberProperty (property : Expression)
    (pipeProperty : PipeContext → Except String PipeContext) (computed : Bool)
    (ctx : PipeContext) : Except String PipeContext :=
  if computed then do
    let ctx ← pipeProperty ctx
    pure (ctx.addInstruction .objCload)
  else
    match property with
    | .identifier name => .ok (ctx.addNamed .objLoad name)
    | _ => .error "Undefined property"

/-- `pipeMemberExpression`, with the emission of its two children. -/
def pipeMemberExpression (object property : Expression)
    (pipeObject pipeProperty : PipeContext → Except String PipeContext)
    (computed doubleObject : Bool) (ctx : PipeContext) : Except String PipeContext := do
  let ctx ← pipeMemberObject object pipeObject doubleObject ctx
  pipeMemberProperty property pipeProperty computed ctx

def pipePatternProperty (ctx : PipeContext) : PatternProperty → Except String PipeContext
  | .objectProperty (some key) (some value) =>
    let ctx := ctx.addInstruction .dup
    let (keyIdx, ctx) := ctx.registerString key
    let (valueIdx, ctx) := ctx.registerString value
    .ok ((ctx.addInstruction (.objLoad keyIdx)).addInstruction (.allocLocal valueIdx))
  | _ => .error "Unsupported property type"

def pipeDeclaratorId (id : DeclaratorId) (ctx : PipeContext) : Except String PipeContext :=
  match id with
  | .identifier name => .ok (ctx.addNamed .allocLocal name)
  | .objectPattern properties => properties.foldlM pipePatternProperty ctx
  | .other type => .error ("Unsupported identifier " ++ type)

/-- The parameters of a function from number `i` on. -/
def pipeParams : List (Option JSString) → ℕ → PipeContext → Except String PipeContext
  | [], _, ctx => .ok ctx
  | none :: _, _, _ => .error "Unsupported param type"
  | some name :: params, i, ctx =>
    pipeParams params (i + 1) ((ctx.addInstruction (.loadArg (i + 1))).addNamed .allocLocal name)

/-- The exports of the names that a declaration declares. -/
def pipeExportDeclarator (ctx : PipeContext) : Declarator → Except String PipeContext
  | .mk (.identifier name) _ => .ok ((pipeIdentifier name ctx).addNamed .exportAs name)
  | _ => .error "Unexpected variable id"

def pipeExportDeclaration (declaration : Declaration) (ctx : PipeContext) :
    Except String PipeContext :=
  match declaration with
  | .variableDeclaration declarations => declarations.foldlM pipeExportDeclarator ctx
  | .functionDeclaration (.mk (some name) _ _) => .ok (ctx.addNamed .exportAs name)
  | .functionDeclaration (.mk none _ _) => .error "Missing declaration id"
  | .other _ => .error "Unsupported declaration type"

mutual

def pipeExpression : Expression → PipeContext → Except String PipeContext
  | .stringLiteral value, ctx => .ok (ctx.addNamed .ldString value)
  | .numericLiteral value, ctx => .ok (pipeNumericLiteral value ctx)
  | .booleanLiteral value, ctx => .ok (ctx.addInstruction (if value then .ldTrue else .ldFalse))
  | .nullLiteral, ctx => .ok (ctx.addInstruction .ldNull)
  | .identifier name, ctx => .ok (pipeIdentifier name ctx)
  | .thisExpression, ctx => .ok (ctx.addInstruction .ldThis)
  | .binaryExpression operator left right, ctx => do
    let ctx ← pipeExpression left ctx
    let ctx ← pipeExpression right ctx
    let opcode ← binaryOpcode operator
    pure (ctx.addInstruction (.binary opcode))
  | .unaryExpression operator argument, ctx => do
    let ctx ← pipeExpression argument ctx
    pipeUnaryOperator operator ctx
  | .callExpression callee argumentsId arguments, ctx => do
    let (sourceOrder, ctx) := ctx.reverseArguments argumentsId
    let ctx ← (if sourceOrder then pipeArguments arguments ctx else pipeReversed arguments ctx)
    let ctx ←
      (match callee with
        | .memberExpression object property computed =>
          pipeMemberExpression object property (pipeExpression object) (pipeExpression property)
            computed true ctx
        | callee => pipeExpression callee (ctx.addInstruction .ldUndf))
    pure (ctx.addInstruction (.call arguments.length))
  | .objectExpression properties, ctx => pipeProperties properties (ctx.addInstruction .objAlloc)
  | .arrayExpression elements, ctx =>
    let ctx := (ctx.addInstruction .arrAlloc).addInstruction .dup
    let (lengthIdx, ctx) := ctx.registerString (jsString "length")
    let ctx := ctx.addInstruction (.ldInt elements.length)
    pipeElements elements 0 (ctx.addInstruction (.objStore lengthIdx))
  | .memberExpression object property computed, ctx =>
    pipeMemberExpression object property (pipeExpression object) (pipeExpression property)
      computed false ctx
  | .assignmentExpression simple left right, ctx =>
    if !simple then .error "Unsupported operator"
    else
      match left with
      | .identifier name => do
        let ctx ← pipeExpression right ctx
        pure ((ctx.addInstruction .dup).addNamed .storeLocal name)
      | .memberExpression object property computed => do
        let ctx ← pipeExpression right ctx
        let ctx := ctx.addInstruction .dup
        match computed, property with
        | false, .identifier name =>
          let ctx ← pipeExpression object ctx
          pure ((ctx.addInstruction .swap).addNamed .objStore name)
        | _, property =>
          let ctx ← pipeExpression object ctx
          let ctx ← pipeExpression property ctx
          pure (ctx.addInstruction .objCstore)
      -- neither branch of the source applies, and nothing is emitted
      | .pattern => .ok ctx
  | .functionExpression function, ctx => pipeFunction function ctx
  | .super _, _ => .error (notDeclared "Super")
  | .other type, _ => .error (notDeclared type)

/-- Arguments in source order. -/
def pipeArguments : List Expression → PipeContext → Except String PipeContext
  | [], ctx => .ok ctx
  | argument :: arguments, ctx => do
    let ctx ← pipeExpression argument ctx
    pipeArguments arguments ctx

/-- Arguments from the last one to the first. -/
def pipeReversed : List Expression → PipeContext → Except String PipeContext
  | [], ctx => .ok ctx
  | argument :: arguments, ctx => do
    let ctx ← pipeReversed arguments ctx
    pipeExpression argument ctx

def pipeProperties : List Property → PipeContext → Except String PipeContext
  | [], ctx => .ok ctx
  | .objectProperty (some key) value :: properties, ctx => do
    let (idx, ctx) := (ctx.addInstruction .dup).registerString key
    let ctx ← pipeExpression value ctx
    pipeProperties properties (ctx.addInstruction (.objStore idx))
  | .objectMethod (some _) :: _, _ | .spreadElement :: _, _ => .error "TypeError"
  | .objectProperty none _ :: _, _ | .objectMethod none :: _, _ => .error "Undefined key type"

/-- The elements of an array from index `i` on. -/
def pipeElements : List (Option Expression) → ℕ → PipeContext → Except String PipeContext
  | [], _, ctx => .ok ctx
  | none :: _, _, _ => .error "TypeError"
  | some element :: elements, i, ctx => do
    let ctx ← pipeExpression element (ctx.addInstruction .dup)
    pipeElements elements (i + 1) (ctx.addNamed .objStore (jsString (toString i)))

def pipeFunction : FunctionNode → PipeContext → Except String PipeContext
  | .mk id params body, ctx => do
    let funcStart := ctx.getCount
    let ctx := ctx.addInstruction .nop
    match id with
    | some name =>
      let (idx, ctx) := ctx.registerString name
      let ctx ← pipeParams params 0 ctx
      let ctx ← pipeBlock body ctx
      ctx.replaceInstruction funcStart (.funcDecl idx (ctx.getCount - funcStart - 1))
    | none =>
      let ctx ← pipeParams params 0 ctx
      let ctx ← pipeBlock body ctx
      ctx.replaceInstruction funcStart (.funcDeclE (ctx.getCount - funcStart - 1))

def pipeBlock : Block → PipeContext → Except String PipeContext
  | .mk isVirtual body, ctx => do
    let ctx := if isVirtual then ctx else ctx.addInstruction .pushScope
    let ctx ← pipeItems body ctx
    pure (if isVirtual then ctx else ctx.addInstruction .popScope)

/-- The statements of a block or of the program. -/
def pipeItems : List Statement → PipeContext → Except String PipeContext
  | [], ctx => .ok ctx
  | item :: items, ctx => do
    let ctx ← pipeStatement item ctx
    pipeItems items (if item.isFunctionDeclaration then ctx.addInstruction .pop else ctx)

def pipeStatement : Statement → PipeContext → Except String PipeContext
  | .expressionStatement expression, ctx => do
    let ctx ← pipeExpression expression ctx
    pure (ctx.addInstruction .pop)
  | .declaration declaration, ctx => pipeDeclaration declaration ctx
  | .blockStatement block, ctx => pipeBlock block ctx
  | .returnStatement none, ctx => .ok (ctx.addInstruction .ret)
  | .returnStatement (some argument), ctx => do
    let ctx ← pipeExpression argument ctx
    pure (ctx.addInstruction .ret)
  | .ifStatement test consequent none, ctx => do
    let ctx ← pipeExpression test ctx
    let jmpToElseOrEnd := ctx.getCount
    let ctx ← pipeStatement consequent (ctx.addInstruction .nop)
    ctx.replaceInstruction jmpToElseOrEnd (.jmpF ctx.getCount)
  | .ifStatement test consequent (some alternate), ctx => do
    let ctx ← pipeExpression test ctx
    let jmpToElseOrEnd := ctx.getCount
    let ctx ← pipeStatement consequent (ctx.addInstruction .nop)
    let jmpToEnd := ctx.getCount
    let ctx ← (ctx.addInstruction .nop).replaceInstruction jmpToElseOrEnd (.jmpF (jmpToEnd + 1))
    let ctx ← pipeStatement alternate ctx
    ctx.replaceInstruction jmpToEnd (.jmp ctx.getCount)
  | .whileStatement test body, ctx => do
    let start := ctx.getCount
    let ctx ← pipeExpression test ctx
    let jmpEnd := ctx.getCount
    let ctx ← pipeStatement body (ctx.addInstruction .pop)
    let ctx := ctx.addInstruction (.jmp start)
    ctx.replaceInstruction jmpEnd (.jmpF ctx.getCount)
  | .exportNamedDeclaration none specifiers, ctx =>
    pipeSpecifiers specifiers (fun _ => .error "TypeError") ctx
  | .exportNamedDeclaration (some declaration) specifiers, ctx => do
    let ctx ← pipeDeclaration declaration ctx
    let ctx ← pipeExportDeclaration declaration ctx
    pipeSpecifiers specifiers (pipeDeclaration declaration) ctx
  | .exportDefaultDeclaration declaration, ctx => do
    let ctx ←
      (match declaration with
        | .expression expression => pipeExpression expression ctx
        | .declaration declaration => pipeDeclaration declaration ctx)
    pure (ctx.addNamed .exportAs (jsString "default"))
  | .other type, _ => .error (notDeclared type)

def pipeDeclaration : Declaration → PipeContext → Except String PipeContext
  | .variableDeclaration declarations, ctx => pipeDeclarators declarations ctx
  | .functionDeclaration function, ctx => pipeFunction function ctx
  | .other type, _ => .error (notDeclared type)

def pipeDeclarators : List Declarator → PipeContext → Except String PipeContext
  | [], ctx => .ok ctx
  | declarator :: declarators, ctx => do
    let ctx ← pipeDeclarator declarator ctx
    pipeDeclarators declarators ctx

def pipeDeclarator : Declarator → PipeContext → Except String PipeContext
  | .mk id none, ctx => pipeDeclaratorId id (ctx.addInstruction .ldUndf)
  | .mk id (some init), ctx => do
    let ctx ← pipeExpression init ctx
    pipeDeclaratorId id ctx

/-- The specifiers, with the emission of the declaration they belong to. -/
def pipeSpecifiers : List Specifier → (PipeContext → Except String PipeContext) → PipeContext →
    Except String PipeContext
  | [], _, ctx => .ok ctx
  | .exportSpecifier binding exported :: specifiers, pipeAgain, ctx => do
    let ctx ← pipeExpression binding ctx
    pipeSpecifiers specifiers pipeAgain (ctx.addNamed .exportAs exported)
  | .exportDefaultSpecifier :: specifiers, pipeAgain, ctx => do
    let ctx ← pipeAgain ctx
    pipeSpecifiers specifiers pipeAgain (ctx.addNamed .exportAs (jsString "default"))
  | .exportNamespaceSpecifier exported :: specifiers, pipeAgain, ctx =>
    pipeSpecifiers specifiers pipeAgain
      ((pipeIdentifier exported ctx).addNamed .exportAs exported)

end

/-- `beginPipe` of a program with the given body. -/
def beginPipe (program : List Statement) (ctx : PipeContext) : Except String PipeContext :=
  pipeItems program ctx

end AtomixJS.Compiler
