import AtomixJS.Compiler.Ast
import AtomixJS.Lib.PosixPath
import AtomixJS.Lib.Utf8

/-!
# Hashes and imports

`hash.ts`, and the visitor of `transform.ts` that turns an import into a call of
`Module.importModule`.  The working directory of the process is a parameter.
-/

namespace AtomixJS.Compiler

open PosixPath

/-! ## `hash.ts` -/

/-- `FNV_OFFSET_BASIS`. -/
def fnvOffsetBasis : UInt64 := 0xCBF29CE484222325

/-- `FNV_PRIME`. -/
def fnvPrime : UInt64 := 0x100000001b3

/-- The two words of a hash, the low one first. -/
def hashString (s : JSString) : UInt32 × UInt32 :=
  let hash := (Utf8.encode s).foldl (fun hash b => (hash * b.toUInt64) ^^^ fnvPrime) fnvOffsetBasis
  (hash.toUInt32, (hash >>> 32).toUInt32)

/-- `replace(/\\/g, "/")`. -/
def replaceBackslashes (s : JSString) : JSString := s.map fun c => if c = 92 then slash else c

/-- A path that is not absolute yet. -/
def makeAbsolute (cwd file : JSString) : JSString :=
  if isAbsolute file then file else replaceBackslashes (join [cwd, file])

/-- `file.replace(root, "")`, which takes out the first occurrence. -/
def removeFirst (root : JSString) : JSString → JSString
  | [] => []
  | c :: file =>
    if root <+: c :: file then (c :: file).drop root.length else c :: removeFirst root file

/-- The text that stands for a file in its hash. -/
def fileSignature (cwd file root pre : JSString) : JSString :=
  pre ++ removeFirst (makeAbsolute cwd root) (makeAbsolute cwd file)

def hashFilePath (cwd file root pre : JSString) : UInt32 × UInt32 :=
  hashString (fileSignature cwd file root pre)

/-! ## The `hash` command -/

/-- `toString(16)` of a word. -/
def hexText (word : UInt32) : List Char := Nat.toDigits 16 word.toNat

/-- The line that the command prints for a hash. -/
def hashLine (hash : UInt32 × UInt32) : List Char := '0' :: 'x' :: (hexText hash.1 ++ hexText hash.2)

/-- `hash <string>`. -/
def hashCommand (s : JSString) : List Char := hashLine (hashString s)

/-! ## `ImportDeclaration` -/

/-- A specifier of an `ImportDeclaration`, with the name of its `local`.  The
imported name is that of an identifier, or `none` for a string literal. -/
inductive ImportSpecifier
  | importDefaultSpecifier (localName : JSString)
  | importNamespaceSpecifier (localName : JSString)
  | importSpecifier (imported : Option JSString) (localName : JSString)

structure ImportDeclaration where
  source : JSString
  specifiers : List ImportSpecifier

/-- `sourceHash`, for an import in the file `input`. -/
def sourceHash (cwd source input root pre : JSString) : UInt32 × UInt32 :=
  if source.head? = some dot then hashFilePath cwd (join [basename input, source]) root pre
  else hashString source

/-- `Module.importModule(hash[0], hash[1])`. -/
def importCall (argumentsId : ℕ) (hash : UInt32 × UInt32) : Expression :=
  .callExpression
    (.memberExpression (.identifier (jsString "Module")) (.identifier (jsString "importModule"))
      false)
    argumentsId
    [.numericLiteral (Binary64.ofInt hash.1.toNat), .numericLiteral (Binary64.ofInt hash.2.toNat)]

/-- `const id = init`. -/
def constDeclaration (id : DeclaratorId) (init : Expression) : Statement :=
  .declaration (.variableDeclaration [.mk id (some init)])

/-- The statements that take the place of an import. -/
def importDeclaration (cwd input root pre : JSString) (argumentsId : ℕ)
    (declaration : ImportDeclaration) : List Statement :=
  let call := importCall argumentsId (sourceHash cwd declaration.source input root pre)
  let defaultSpec := declaration.specifiers.findSome? fun
    | .importDefaultSpecifier name => some name
    | _ => none
  let namespaceSpec := declaration.specifiers.findSome? fun
    | .importNamespaceSpecifier name => some name
    | _ => none
  let namedSpecs := declaration.specifiers.filterMap fun
    | .importSpecifier imported name => some (PatternProperty.objectProperty imported (some name))
    | _ => none
  let props := (defaultSpec.map fun name =>
    PatternProperty.objectProperty (some (jsString "default")) (some name)).toList ++ namedSpecs
  match namespaceSpec with
  | some name =>
    constDeclaration (.identifier name) call ::
      if props = [] then [] else [constDeclaration (.objectPattern props) (.identifier name)]
  | none =>
    if props = [] then [.expressionStatement call]
    else [constDeclaration (.objectPattern props) call]

/-! ## `AssignmentExpression` -/

def BinaryOperator.text : BinaryOperator → String
  | .plus => "+"
  | .minus => "-"
  | .times => "*"
  | .divide => "/"
  | .percent => "%"
  | .and => "&"
  | .or => "|"
  | .xor => "^"
  | .lshift => "<<"
  | .rshift => ">>"
  | .urshift => ">>>"
  | .teq => "==="
  | .nteq => "!=="
  | .gt => ">"
  | .geq => ">="
  | .lt => "<"
  | .leq => "<="
  | .other text => text

/-- The operators that `pipe` knows. -/
def binaryOperators : List BinaryOperator :=
  [.plus, .minus, .times, .divide, .percent, .and, .or, .xor, .lshift, .rshift, .urshift, .teq,
    .nteq, .gt, .geq, .lt, .leq]

def BinaryOperator.ofText (text : String) : BinaryOperator :=
  (binaryOperators.find? (·.text = text)).getD (.other text)

/-- `operator.substring(0, operator.length - 1)`. -/
def withoutLast (operator : String) : String := String.ofList operator.toList.dropLast

/-- `node.left as Expression`.  The parser takes a pattern in front of `=` only. -/
def AssignmentTarget.toExpression : AssignmentTarget → Expression
  | .identifier name => .identifier name
  | .memberExpression object property computed => .memberExpression object property computed
  | .pattern => .other "Pattern"

/-- The visitor of an assignment: `left operator= right` becomes
`left = left operator right`, with one node for both occurrences of `left`. -/
def assignmentExpression (operator : String) (left : AssignmentTarget) (right : Expression) :
    Expression :=
  if operator = "=" then .assignmentExpression true left right
  else
    .assignmentExpression true left
      (.binaryExpression (.ofText (withoutLast operator)) left.toExpression right)

theorem ofText_text {operator : BinaryOperator} (h : operator ∈ binaryOperators) :
    BinaryOperator.ofText operator.text = operator := by
  simp only [binaryOperators, List.mem_cons, List.not_mem_nil, or_false] at h
  rcases h with rfl | rfl | rfl | rfl | rfl | rfl | rfl | rfl | rfl | rfl | rfl | rfl | rfl | rfl |
    rfl | rfl | rfl <;> decide

theorem withoutLast_append (text : String) : withoutLast (text ++ "=") = text := by
  simp [withoutLast]

end AtomixJS.Compiler
