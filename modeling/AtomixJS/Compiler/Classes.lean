import AtomixJS.Compiler.Transform

/-!
# Classes

The visitors of `transform.ts` for classes, `new` and `super`.  `transformClass`
turns a class into the call of a function that declares the constructor, installs
the members and returns the constructor.

Of a `ClassMethod` the flags `generator` and `async` are left out, which `pipe` does
not look at.  The identities of the arrays of arguments are parameters, as in
`importDeclaration`.
-/

namespace AtomixJS.Compiler

/-! ## The nodes of a class -/

/-- The `kind` of a `ClassMethod`. -/
inductive MethodKind
  | constructor | method | get | set
  deriving DecidableEq

structure ClassMethod where
  kind : MethodKind
  isStatic : Bool
  key : Expression
  computed : Bool
  params : List (Option JSString)
  body : Block

structure ClassProperty where
  isStatic : Bool
  key : Expression
  computed : Bool
  value : Option Expression

/-- A node in the body of a class.  Members with a private name, accessor properties
and so on are `other`. -/
inductive ClassMember
  | classMethod (method : ClassMethod)
  | classProperty (property : ClassProperty)
  | staticBlock (body : List Statement)
  | other (type : String)

/-- A `ClassDeclaration` or a `ClassExpression`. -/
structure ClassNode where
  id : Option JSString
  superClass : Option Expression
  body : List ClassMember

/-- The arrays of arguments that `transformClass` makes. -/
structure ClassArrays where
  create : ℕ
  setPrototypeOf : ℕ
  call : ℕ

def Block.statements : Block → List Statement
  | .mk _ body => body

/-- `node.type == "Identifier"`. -/
def Expression.isIdentifier : Expression → Bool
  | .identifier _ => true
  | _ => false

/-! ## `transformClass` -/

/-- `object.name` -/
def memberOf (object : Expression) (name : String) : Expression :=
  .memberExpression object (.identifier (jsString name)) false

/-- `object[key] = value` or `object.key = value` -/
def assignMember (object key : Expression) (computed : Bool) (value : Expression) : Statement :=
  .expressionStatement
    (.assignmentExpression true (.memberExpression object key computed) value)

namespace ClassMethod

/-- A method that is not an accessor. -/
def isMethod (isStatic : Bool) (method : ClassMethod) : Bool :=
  method.kind = .method && method.isStatic = isStatic

/-- `nodes.functionExpression(undefined, method.params, method.body)` -/
def function (method : ClassMethod) : Expression :=
  .functionExpression (.mk none method.params method.body)

/-- The statement that installs a method.  Whether its key is computed is taken from
the type of the key. -/
def install (object : Expression) (method : ClassMethod) : Statement :=
  assignMember object method.key (!method.key.isIdentifier) method.function

end ClassMethod

namespace ClassProperty

def hasValue (isStatic : Bool) (property : ClassProperty) : Bool :=
  property.isStatic = isStatic && property.value.isSome

def initializer (property : ClassProperty) : Expression :=
  property.value.getD (.identifier (jsString "undefined"))

/-- The statement that initialises a static field. -/
def install (object : Expression) (property : ClassProperty) : Statement :=
  assignMember object property.key (!property.key.isIdentifier) property.initializer

/-- The statement that initialises a field of an instance.  `memberExpression` takes
only an identifier as a property that is not computed. -/
def installInstance (property : ClassProperty) : Except String Statement :=
  if property.key.isIdentifier then
    .ok (assignMember .thisExpression property.key false property.initializer)
  else .error "TypeError"

end ClassProperty

namespace ClassMember

def method? (isStatic : Bool) : ClassMember → Option ClassMethod
  | .classMethod method => if method.isMethod isStatic then some method else none
  | _ => none

def property? (isStatic : Bool) : ClassMember → Option ClassProperty
  | .classProperty property => if property.hasValue isStatic then some property else none
  | _ => none

def staticBlock? : ClassMember → Option (List Statement)
  | .staticBlock body => some body
  | _ => none

def constructor? : ClassMember → Option ClassMethod
  | .classMethod method => if method.kind = .constructor then some method else none
  | _ => none

end ClassMember

namespace ClassNode

variable (node : ClassNode)

def constructorMethod : Option ClassMethod := node.body.findSome? ClassMember.constructor?

def methods : List ClassMethod := node.body.filterMap (ClassMember.method? false)

def staticMethods : List ClassMethod := node.body.filterMap (ClassMember.method? true)

def properties : List ClassProperty := node.body.filterMap (ClassMember.property? false)

def staticProperties : List ClassProperty := node.body.filterMap (ClassMember.property? true)

def staticBlocks : List (List Statement) := node.body.filterMap ClassMember.staticBlock?

/-- The statements that link a class to its superclass. -/
def extendsNodes (arrays : ClassArrays) (identifier : JSString) : Except String (List Statement) :=
  match node.superClass with
  | none => .ok []
  | some (.identifier superClass) => .ok
    [assignMember (.identifier identifier) (.identifier (jsString "prototype")) false
        (.callExpression (memberOf (.identifier (jsString "Object")) "create") arrays.create
          [memberOf (.identifier superClass) "prototype"]),
      .expressionStatement
        (.callExpression (memberOf (.identifier (jsString "Object")) "setPrototypeOf")
          arrays.setPrototypeOf [.identifier identifier, .identifier superClass])]
  | some _ => .error "SuperClass must be an identifier"

/-- The function that is the constructor: the fields first, then the body. -/
def constructorFunction (identifier : JSString) (fields : List Statement) : FunctionNode :=
  .mk (some identifier) ((node.constructorMethod.map ClassMethod.params).getD [])
    (.mk false (fields ++ (node.constructorMethod.map (·.body.statements)).getD []))

/-- The statements that install methods, static methods and static fields. -/
def installers (identifier : JSString) : List Statement :=
  node.methods.map (ClassMethod.install (memberOf (.identifier identifier) "prototype")) ++
    node.staticMethods.map (ClassMethod.install (.identifier identifier)) ++
    node.staticProperties.map (ClassProperty.install (.identifier identifier))

/-- The body of the function around the constructor. -/
def generatedBody (identifier : JSString) (fields extendsNodes : List Statement) :
    List Statement :=
  [.declaration (.functionDeclaration (node.constructorFunction identifier fields))] ++
    extendsNodes ++
    [assignMember (memberOf (.identifier identifier) "prototype")
      (.identifier (jsString "constructor")) false (.identifier identifier)] ++
    node.installers identifier ++
    node.staticBlocks.flatten ++
    [.returnStatement (some (.identifier identifier))]

end ClassNode

def transformClass (arrays : ClassArrays) (node : ClassNode) (identifier : JSString) :
    Except String Expression := do
  let extendsNodes ← node.extendsNodes arrays identifier
  let fields ← node.properties.mapM ClassProperty.installInstance
  pure (.callExpression
    (.functionExpression (.mk none [] (.mk false (node.generatedBody identifier fields extendsNodes))))
    arrays.call [])

/-! ## Visitors -/

/-- `ClassExpression`. -/
def classExpression (arrays : ClassArrays) (node : ClassNode) : Except String Expression :=
  transformClass arrays node (jsString "__C__")

/-- `ClassDeclaration`. -/
def classDeclaration (arrays : ClassArrays) (node : ClassNode) : Except String Statement :=
  match node.id with
  | none => .error "Missing class identifier"
  | some id => do
    let call ← transformClass arrays node id
    pure (constDeclaration (.identifier id) call)

/-- `NewExpression`: `Object.instantiate(callee, ...arguments)`. -/
def newExpression (argumentsId : ℕ) (callee : Expression) (arguments : List Expression) :
    Expression :=
  .callExpression (memberOf (.identifier (jsString "Object")) "instantiate") argumentsId
    (callee :: arguments)

/-- The name of the superclass, for the visitors of `super`. -/
def superClassName (superClass : Option Expression) : Except String JSString :=
  match superClass with
  | none => .error "Class has no superClass"
  | some (.identifier name) => .ok name
  | some _ => .error "SuperClass must be an identifier"

/-- `CallExpression` of `super`: `SuperClass.call(this, ...arguments)`. -/
def superCall (argumentsId : ℕ) (superClass : Option Expression) (arguments : List Expression) :
    Except String Expression := do
  let name ← superClassName superClass
  pure (.callExpression (memberOf (.identifier name) "call") argumentsId
    (.thisExpression :: arguments))

/-- `Super`: what `pipe` finds at a `super` that is the object of a member. -/
def superMember (superClass : Option Expression) (isStatic : Bool) : Except String Expression := do
  let name ← superClassName superClass
  pure (.super (some ⟨name, isStatic⟩))

/-! ## Ancestors -/

/-- A node above another one, with what the visitors of `super` look at.  Members with a
private name are among the others: `transformClass` leaves them out with all that is in
them. -/
inductive Ancestor
  | classDeclaration (superClass : Option Expression)
  | classExpression (superClass : Option Expression)
  | classMethod (isStatic : Bool)
  | classProperty (isStatic : Bool)
  | staticBlock
  | other (type : String)

/-- The nodes above a node, its parent first. -/
abbrev NodePath := List Ancestor

/-- `node.type == "ClassDeclaration" || node.type == "ClassExpression"`, with the
`superClass` of the node. -/
def Ancestor.class? : Ancestor → Option (Option Expression)
  | .classDeclaration superClass | .classExpression superClass => some superClass
  | _ => none

/-- `node.type == "ClassMethod" && node.static || node.type == "StaticBlock"` -/
def Ancestor.isStaticContext : Ancestor → Bool
  | .classMethod isStatic => isStatic
  | .staticBlock => true
  | _ => false

/-- The superclass of the class that `findParent` finds. -/
def classContext (path : NodePath) : Except String (Option Expression) :=
  match path.findSome? Ancestor.class? with
  | none => .error "Missing class context"
  | some superClass => .ok superClass

/-- The visitor `CallExpression`, at a call of `super`. -/
def visitSuperCall (argumentsId : ℕ) (path : NodePath) (arguments : List Expression) :
    Except String Expression := do
  let superClass ← classContext path
  superCall argumentsId superClass arguments

/-- The visitor `Super`. -/
def visitSuper (path : NodePath) : Except String Expression := do
  let isStatic := (path.find? Ancestor.isStaticContext).isSome
  let superClass ← classContext path
  superMember superClass isStatic

end AtomixJS.Compiler
