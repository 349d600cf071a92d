import AtomixJS.Lib.Binary64

/-!
# Values of the virtual machine

`JSValue` is the tagged union of `value.impl.h`.  Pointers into the heap are
indices, and the two kinds of string keep apart: a `CString` is what a C string
function sees, the bytes before the terminating zero.

Every C function of the model that can go wrong returns in `Except Fault`.  A
fault is the end of the program: a `PANIC` of the source, a step that C leaves
undefined (a read outside an array, a signed overflow, a conversion of a double
that does not fit), or a recursion without end.
-/

namespace AtomixJS

/-- How a C function fails to return. -/
inductive Fault
  | panic (message : String)
  | undefinedBehaviour (what : String)
  | divergence
  deriving DecidableEq, Repr

/-- A C string without its terminating zero. -/
abbrev CString := List UInt8

/-- The C string of a literal of the source. -/
def cString (s : String) : CString := s.toList.map fun c => c.toNat.toUInt8

/-- `int32_t`. -/
abbrev CInt := BitVec 32

abbrev ObjectRef := ℕ
abbrev FunctionRef := ℕ
abbrev ScopeRef := ℕ
abbrev ModuleRef := ℕ

/-- `struct JSValue`.  A boolean is kept as the truth value of its `as_int`,
an accessor box as its getter and setter. -/
inductive JSValue
  | integer (asInt : CInt)
  | double (asDouble : Binary64)
  | string (chars : CString)
  | object (ref : ObjectRef)
  | func (ref : FunctionRef)
  | undefined
  | null
  | boolean (state : Bool)
  | symbol (ref : ObjectRef)
  | gsBox (getter setter : Option FunctionRef)
  deriving DecidableEq, Repr

namespace JSValue

/-- `JS_VALUE_DOUBLE(JS_NaN)`. -/
def nan : JSValue := double Binary64.nan

def isUndefined : JSValue → Bool
  | undefined => true
  | _ => false

/-- An operand that the arithmetic handlers answer with NaN: undefined, an
object or a function. -/
def isOpaque : JSValue → Bool
  | undefined | object _ | func _ => true
  | _ => false

def isNull : JSValue → Bool
  | null => true
  | _ => false

def isNumber : JSValue → Bool
  | integer _ | double _ => true
  | _ => false

end JSValue

/-! ## Truth -/

/-- `value_is_falsy`. -/
def valueIsFalsy : JSValue → Except Fault Bool
  | .integer i => .ok (i = 0)
  | .boolean b => .ok !b
  | .double d => .ok (d.eq (Binary64.zero false) || d.eq (Binary64.zero true))
  -- the source does not look at the content of a string
  | .string _ => .ok false
  | .object _ | .func _ | .symbol _ => .ok false
  | .undefined | .null => .ok true
  | .gsBox _ _ => .error (.panic "Undefined JSValue Type")

/-- `value_is_truthy`. -/
def valueIsTruthy (v : JSValue) : Except Fault Bool := do
  return !(← valueIsFalsy v)

/-- The test of `value_is_NaN` and `double_to_string`.  Both of its halves look
at the exponent field. -/
def exponentAllOnes (d : Binary64) : Bool :=
  let exponent := d.bits &&& 0x7FF0000000000000#64
  exponent = 0x7FF0000000000000#64 && exponent ≠ 0

/-- `value_is_NaN`. -/
def valueIsNaN : JSValue → Bool
  | .double d => exponentAllOnes d
  | _ => false

/-! ## Text -/

/-- `int_to_string`. -/
def intToString (i : CInt) : CString :=
  let digits := (Nat.toDigits 10 i.toInt.natAbs).map fun c => c.toNat.toUInt8
  if i.toInt < 0 then cString "-" ++ digits else digits

/-- The exponent of the leading decimal digit of `a` units of `2 ^ (-1074)`. -/
def decimalExponent (a : ℕ) : ℤ :=
  if Binary64.one ≤ a then
    ((List.range 309).findIdx fun k => a < 10 ^ (k + 1) * Binary64.one)
  else -1 - (List.range 324).findIdx fun k => Binary64.one ≤ a * 10 ^ (k + 1)

/-- Seven significant digits, as a number below `10 ^ 7`, and the exponent of
the first one. -/
def sevenDigits (a : ℕ) : ℕ × ℤ :=
  let e := decimalExponent a
  let digits :=
    if e ≤ 6 then Binary64.halfEven (a * 10 ^ (6 - e).toNat) Binary64.one
    else Binary64.halfEven a (Binary64.one * 10 ^ (e - 6).toNat)
  if digits = 10 ^ 7 then (10 ^ 6, e + 1) else (digits, e)

/-- A fraction without its trailing zeros, and without its point if nothing is
left. -/
def fraction (digits : List Char) : List Char :=
  match (digits.reverse.dropWhile (· = '0')).reverse with
  | [] => []
  | d :: ds => '.' :: d :: ds

/-- What `snprintf` writes for a finite double under `%.7g`. -/
def formatG7 (d : Binary64) : CString :=
  let sign := if d.negative then ['-'] else []
  let text :=
    if d.scaledAbs = 0 then ['0']
    else
      let (number, e) := sevenDigits d.scaledAbs
      let digits := Nat.toDigits 10 number
      if e < -4 ∨ 7 ≤ e then
        let exponent := Nat.toDigits 10 e.natAbs
        digits.take 1 ++ fraction (digits.drop 1) ++ ['e', if e < 0 then '-' else '+'] ++
          List.replicate (2 - exponent.length) '0' ++ exponent
      else if e < 0 then ['0'] ++ fraction (List.replicate (-1 - e).toNat '0' ++ digits)
      else digits.take (e + 1).toNat ++ fraction (digits.drop (e + 1).toNat)
  (sign ++ text).map fun c => c.toNat.toUInt8

/-- `double_to_string`. -/
def doubleToString (d : Binary64) : CString :=
  if exponentAllOnes d then cString "NaN" else formatG7 d

/-- `value_to_string`. -/
def valueToString : JSValue → Except Fault CString
  | .integer i => .ok (intToString i)
  | .double d => .ok (doubleToString d)
  | .boolean b => .ok (cString (if b then "true" else "false"))
  | .null => .ok (cString "null")
  | .undefined => .ok (cString "undefined")
  | .object _ => .ok (cString "[Object]")
  | .func _ => .ok (cString "[Function]")
  | .string chars => .ok chars
  | .symbol _ => .ok (cString "[Symbol]")
  | .gsBox _ _ => .error (.panic "Undefined JSValue Type")

example : doubleToString (Binary64.div (Binary64.ofInt 1) (Binary64.ofInt 3)) =
    cString "0.3333333" := by decide +kernel

end AtomixJS
