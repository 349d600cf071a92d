import AtomixJS.Core.Vm

/-!
# The operator handlers

The seventeen handlers of binary operators have one shape.  They check for two
operands, read them, may answer some pairs at once by overwriting the top slot,
and otherwise take one operand off and overwrite the new top with the result.
`binaryHandler` is that shape; a handler is given by its shortcut, the answer
for the pairs it treats at once, and by its value for all others.

What C leaves undefined is a fault: a signed overflow, a shift by a negative or
too large count or of a negative number to the left, and the conversion of a
double that does not fit an `int`.  Where a handler reads `as_int` of a value
that holds a pointer it sees the low half of an address; which one is not known,
so it is a parameter.
-/

namespace AtomixJS

variable (address : JSValue → CInt)

/-- The member `as_int` of a value.  It overlays the first four bytes of the
union, the low half of a double or of a pointer. -/
def asInt : JSValue → CInt
  | .integer i => i
  | .boolean b => if b then 1 else 0
  | .undefined | .null => 0
  | .double d => d.bits.setWidth 32
  | v => address v

/-- `(double)v.value.as_int`, or the double itself. -/
def asDouble : JSValue → Binary64
  | .double d => d
  | v => Binary64.ofInt (asInt address v).toInt

/-- A boolean or null becomes an integer by changing its type. -/
def retag : JSValue → JSValue
  | .boolean b => .integer (if b then 1 else 0)
  | .null => .integer 0
  | v => v

/-- A boolean becomes an integer by changing its type. -/
def retagBoolean : JSValue → JSValue
  | .boolean b => .integer (if b then 1 else 0)
  | v => v

/-- The result of a signed operation. -/
def signed (i : ℤ) : Except Fault CInt :=
  if -2 ^ 31 ≤ i ∧ i < 2 ^ 31 then .ok (BitVec.ofInt 32 i)
  else .error (.undefinedBehaviour "signed integer overflow")

/-- `(int)d`. -/
def toInt (d : Binary64) : Except Fault CInt :=
  match d.toInt32? with
  | some i => .ok i
  | none => .error (.undefinedBehaviour "conversion of a double to int")

/-- `r == (int)r ? JS_VALUE_INT((int)r) : JS_VALUE_DOUBLE(r)`. -/
def narrow (r : Binary64) : Except Fault JSValue := do
  let i ← toInt r
  return if r.eq (Binary64.ofInt i.toInt) then .integer i else .double r

/-- `+0.0` and `-0.0` compare equal to `0.0`. -/
def isZero (d : Binary64) : Bool := d.eq (Binary64.zero false)

/-! ## Shape of a handler -/

/-- The shape of the binary operators. -/
def binaryHandler (shortcut : JSValue → JSValue → Option JSValue)
    (value : JSValue → JSValue → Except Fault JSValue) (vm : VM) : Except Fault VM := do
  vm.need 2
  let left ← vm.slot (vm.stats.stackCounter - 2)
  let right ← vm.slot (vm.stats.stackCounter - 1)
  match shortcut left right with
  | some v => vm.setTop v
  | none =>
    let vm := vm.drop 1
    vm.setTop (← value left right)

/-- The shape of the operators that replace the top of the stack. -/
def unaryHandler (value : JSValue → Except Fault JSValue) (vm : VM) : Except Fault VM := do
  vm.need 1
  let right ← vm.slot (vm.stats.stackCounter - 1)
  vm.setTop (← value right)

/-- Integers, doubles, or a panic. -/
def arithmetic (ints : CInt → CInt → Except Fault JSValue)
    (doubles : Binary64 → Binary64 → Except Fault JSValue) (left right : JSValue) :
    Except Fault JSValue :=
  match left, right with
  | .integer l, .integer r => ints l r
  | .double _, _ | _, .double _ => doubles (asDouble address left) (asDouble address right)
  | _, _ => .error (.panic "Unsupported operation")

/-! ## Arithmetic -/

def addShortcut (left right : JSValue) : Option JSValue :=
  if left.isUndefined || right.isUndefined then some .nan else none

/-- `inst_add`. -/
def addValue (left right : JSValue) : Except Fault JSValue :=
  arithmetic address (fun l r => return .integer (← signed (l.toInt + r.toInt)))
    (fun l r => .ok (.double (l.add r))) (retag left) (retag right)

/-- The pairs that `inst_minus` and `inst_mul` answer with NaN. -/
def opaqueShortcut (left right : JSValue) : Option JSValue :=
  if left.isOpaque || right.isOpaque then some .nan else none

/-- `inst_minus`. -/
def minusValue (left right : JSValue) : Except Fault JSValue :=
  arithmetic address (fun l r => return .integer (← signed (l.toInt - r.toInt)))
    (fun l r => .ok (.double (l.sub r))) (retag left) (retag right)

/-- `inst_mul`. -/
def mulValue (left right : JSValue) : Except Fault JSValue :=
  arithmetic address (fun l r => return .integer (← signed (l.toInt * r.toInt)))
    (fun l r => narrow (l.mul r)) (retag left) (retag right)

/-- The pairs that `inst_div` and `inst_mod` answer with NaN. -/
def quotientShortcut (left right : JSValue) : Option JSValue :=
  if left.isOpaque || right.isOpaque || right.isNull then some .nan else none

/-- A number, a boolean or null becomes a double. -/
def divOperand : JSValue → JSValue
  | .null => .double (Binary64.ofInt 0)
  | .integer i => .double (Binary64.ofInt i.toInt)
  | .boolean b => .double (Binary64.ofInt (if b then 1 else 0))
  | v => v

/-- The quotient of `inst_div`, with its own treatment of a zero divisor. -/
def divDoubles (l r : Binary64) : Except Fault JSValue :=
  if isZero r && isZero l then .ok .nan
  else if isZero r then .ok (.double (Binary64.infinity !((Binary64.zero false).lt l)))
  else narrow (l.div r)

/-- `inst_div`. -/
def divValue (left right : JSValue) : Except Fault JSValue :=
  arithmetic address (fun _ _ => .error (.panic "Unsupported operation")) divDoubles
    (divOperand left) (divOperand right)

/-- The remainder of two integers in `inst_mod`. -/
def modInts (l r : CInt) : Except Fault JSValue :=
  if r = 0 then .ok .nan
  else if l.toInt = -2 ^ 31 ∧ r.toInt = -1 then
    .error (.undefinedBehaviour "signed integer overflow")
  else .ok (.integer (BitVec.ofInt 32 (l.toInt.tmod r.toInt)))

/-- The remainder of two doubles in `inst_mod`. -/
def modDoubles (l r : Binary64) : Except Fault JSValue :=
  if isZero r then .ok .nan else narrow (l.fmod r)

/-- `inst_mod`. -/
def modValue (left right : JSValue) : Except Fault JSValue :=
  arithmetic address modInts modDoubles (retag left) (retagBoolean right)

/-! ## Bits -/

/-- The `int` of a number. -/
def numberToInt : JSValue → Except Fault CInt
  | .double d => toInt d
  | v => .ok (asInt address v)

/-- The bitwise operators on two numbers. -/
def bitwise (op : CInt → CInt → Except Fault CInt) (left right : JSValue) :
    Except Fault JSValue := do
  let l ← numberToInt address left
  let r ← numberToInt address right
  return .integer (← op l r)

/-- `inst_binary_and`. -/
def binaryAndValue (left right : JSValue) : Except Fault JSValue :=
  if !left.isNumber || !right.isNumber then .ok (.integer 0)
  else bitwise address (fun l r => .ok (l &&& r)) left right

/-- What `inst_binary_or` and `inst_binary_xor` do when an operand is not a
number: the one that is, as an `int`. -/
def orFallback (left right : JSValue) : Except Fault JSValue :=
  match left, right with
  | .integer _, _ => .ok left
  | .double l, _ => return .integer (← toInt l)
  | _, .integer _ => .ok right
  | _, .double r => return .integer (← toInt r)
  | _, _ => .ok (.integer 0)

/-- `inst_binary_or`. -/
def binaryOrValue (left right : JSValue) : Except Fault JSValue :=
  if !left.isNumber || !right.isNumber then orFallback left right
  else bitwise address (fun l r => .ok (l ||| r)) left right

/-- `inst_binary_xor`. -/
def binaryXorValue (left right : JSValue) : Except Fault JSValue :=
  if !left.isNumber || !right.isNumber then orFallback left right
  else bitwise address (fun l r => .ok (l ^^^ r)) left right

/-- The shift handlers.  A count that is not a number leaves the left operand,
a double still as a double. -/
def shift (op : CInt → CInt → Except Fault CInt) (left right : JSValue) :
    Except Fault JSValue :=
  if !left.isNumber then .ok (.integer 0)
  else if !right.isNumber then
    match left with
    | .double l => return .double (Binary64.ofInt (← toInt l).toInt)
    | _ => .ok left
  else bitwise address op left right

/-- A shift count that C allows. -/
def shiftCount (r : CInt) : Except Fault ℕ :=
  if 0 ≤ r.toInt ∧ r.toInt < 32 then .ok r.toNat
  else .error (.undefinedBehaviour "shift count")

/-- `inst_binary_lshft`. -/
def binaryLshftValue (left right : JSValue) : Except Fault JSValue :=
  shift address (fun l r => do
    let count ← shiftCount r
    if l.toInt < 0 then .error (.undefinedBehaviour "left shift of a negative number")
    else signed (l.toInt * 2 ^ count)) left right

/-- `inst_binary_rshft`. -/
def binaryRshftValue (left right : JSValue) : Except Fault JSValue :=
  shift address (fun l r => return l.sshiftRight (← shiftCount r)) left right

/-- `inst_binary_zrshft`. -/
def binaryZrshftValue (left right : JSValue) : Except Fault JSValue :=
  shift address (fun l r => return l >>> (← shiftCount r)) left right

/-! ## Comparison -/

/-- `inst_teq` up to the negation of its answer. -/
def tripleEquals (left right : JSValue) : Except Fault Bool :=
  match left, right with
  | .double l, .integer r => .ok (l.eq (Binary64.ofInt r.toInt))
  | .integer l, .double r => .ok ((Binary64.ofInt l.toInt).eq r)
  | .integer l, .integer r => .ok (l = r)
  | .double l, .double r => .ok (l.eq r)
  | .null, .null | .undefined, .undefined => .ok true
  | .func l, .func r | .object l, .object r => .ok (l = r)
  | .string _, .string _ | .boolean _, .boolean _ | .symbol _, .symbol _
  | .gsBox _ _, .gsBox _ _ => .error (.panic "Unknown comparison")
  | _, _ => .ok false

/-- `inst_teq`. -/
def teqValue (left right : JSValue) : Except Fault JSValue :=
  return .boolean (← tripleEquals left right)

/-- `inst_nteq`. -/
def nteqValue (left right : JSValue) : Except Fault JSValue :=
  return .boolean !(← tripleEquals left right)

/-- Null becomes the integer 0. -/
def nullToInt : JSValue → JSValue
  | .null => .integer 0
  | v => v

/-- The shape of the relational handlers. -/
def relational (ints : ℤ → ℤ → Bool) (doubles : Binary64 → Binary64 → Bool)
    (left right : JSValue) : Except Fault JSValue :=
  let left := retagBoolean left
  let right := retagBoolean right
  if left.isUndefined || right.isUndefined then .ok (.boolean false)
  else
    match nullToInt left, nullToInt right with
    | .integer l, .integer r => .ok (.boolean (ints l.toInt r.toInt))
    | .double l, .double r => .ok (.boolean (doubles l r))
    | .double l, .integer r => .ok (.boolean (doubles l (Binary64.ofInt r.toInt)))
    | .integer l, .double r => .ok (.boolean (doubles (Binary64.ofInt l.toInt) r))
    | _, _ => .error (.panic "Unknown comparison")

/-- `inst_gt`. -/
def gtValue : JSValue → JSValue → Except Fault JSValue :=
  relational (fun l r => r < l) (fun l r => r.lt l)

/-- `inst_geq`. -/
def geqValue : JSValue → JSValue → Except Fault JSValue :=
  relational (fun l r => r ≤ l) (fun l r => r.le l)

/-- `inst_lt`. -/
def ltValue : JSValue → JSValue → Except Fault JSValue :=
  relational (fun l r => l < r) (fun l r => l.lt r)

/-- `inst_leq`. -/
def leqValue : JSValue → JSValue → Except Fault JSValue :=
  relational (fun l r => l ≤ r) (fun l r => l.le r)

/-! ## One operand -/

/-- `inst_binary_not`. -/
def binaryNotValue (right : JSValue) : Except Fault JSValue :=
  if right.isOpaque then .ok (.integer (BitVec.ofInt 32 (-1)))
  else
    match retag right with
    | .double d => return .integer (~~~(← toInt d))
    | v => .ok (.integer (~~~asInt address v))

/-- `inst_not`. -/
def notValue (right : JSValue) : Except Fault JSValue :=
  return .boolean (← valueIsFalsy right)

/-- `inst_negate`. -/
def negateValue (right : JSValue) : Except Fault JSValue :=
  if right.isOpaque then .ok .nan
  else
    match retag right with
    | .integer i => return .integer (← signed (-i.toInt))
    | .double d => .ok (.double d.neg)
    | _ => .error (.panic "Unknown operand type")

/-- `inst_typeof`.  The case of a symbol has no `return` and runs into the
panic. -/
def typeofValue : JSValue → Except Fault JSValue
  | .integer _ | .double _ => .ok (.string (cString "number"))
  | .string _ => .ok (.string (cString "string"))
  | .object _ | .null => .ok (.string (cString "object"))
  | .func _ => .ok (.string (cString "function"))
  | .undefined => .ok (.string (cString "undefined"))
  | .boolean _ => .ok (.string (cString "boolean"))
  | .symbol _ | .gsBox _ _ => .error (.panic "Unknown operand type")

/-! ## The operators by opcode -/

/-- The pairs a handler answers before it takes an operand off. -/
def binaryShortcut : BinaryOpcode → JSValue → JSValue → Option JSValue
  | .add => addShortcut
  | .minus | .mul => opaqueShortcut
  | .div | .mod => quotientShortcut
  | _ => fun _ _ => none

/-- The result of a handler for all other pairs. -/
def binaryValue : BinaryOpcode → JSValue → JSValue → Except Fault JSValue
  | .add => addValue address
  | .minus => minusValue address
  | .mul => mulValue address
  | .div => divValue address
  | .mod => modValue address
  | .binaryAnd => binaryAndValue address
  | .binaryOr => binaryOrValue address
  | .binaryXor => binaryXorValue address
  | .binaryLshft => binaryLshftValue address
  | .binaryRshft => binaryRshftValue address
  | .binaryZrshft => binaryZrshftValue address
  | .teq => teqValue
  | .nteq => nteqValue
  | .gt => gtValue
  | .geq => geqValue
  | .lt => ltValue
  | .leq => leqValue

/-- The handler of a binary operator. -/
def instBinary (op : BinaryOpcode) : VM → Except Fault VM :=
  binaryHandler (binaryShortcut op) (binaryValue address op)

def unaryValue : UnaryOpcode → JSValue → Except Fault JSValue
  | .binaryNot => binaryNotValue address
  | .not => notValue
  | .negate => negateValue
  | .typeof => typeofValue

/-- The handler of an operator with one operand. -/
def instUnary (op : UnaryOpcode) : VM → Except Fault VM := unaryHandler (unaryValue address op)

/-! ## Effect on the operand stack -/

variable {address} {vm vm' : VM} {ops : List JSValue} {l r v : JSValue}
  {shortcut : JSValue → JSValue → Option JSValue}
  {value : JSValue → JSValue → Except Fault JSValue}

/-- With two operands, a handler of binary shape computes from them. -/
theorem binaryHandler_eq (hops : vm.operands = r :: l :: ops)
    (hsize : vm.stats.stackCounter ≤ stackSize) :
    binaryHandler shortcut value vm =
      match shortcut l r with
      | some v => vm.setTop v
      | none => (value l r).bind fun v => (vm.drop 1).setTop v := by
  have hcounter : vm.stats.stackCounter = ops.length + 2 := VM.counter_of_operands hops
  have hleft : vm.slot (vm.stats.stackCounter - 2) = .ok l :=
    VM.slot_of_operands (i := 1) (by rw [hops]; rfl) hsize
  have hright : vm.slot (vm.stats.stackCounter - 1) = .ok r :=
    VM.slot_of_operands (i := 0) (by rw [hops]; rfl) hsize
  have hneed : vm.need 2 = .ok () := if_neg (by omega)
  simp only [binaryHandler, bind, Except.bind, hneed, hleft, hright]

/-- Without a shortcut, two operands are replaced by the result. -/
theorem binaryHandler_restacked (hops : vm.operands = r :: l :: ops)
    (hsize : vm.stats.stackCounter ≤ stackSize) (hshort : shortcut l r = none)
    (hvalue : value l r = .ok v) :
    ∃ vm', binaryHandler shortcut value vm = .ok vm' ∧ VM.Restacked vm vm' (v :: ops) := by
  have hdrop : VM.Restacked vm (vm.drop 1) (l :: ops) := VM.drop_restacked [r] hops
  have hcounter : vm.stats.stackCounter = ops.length + 2 := VM.counter_of_operands hops
  have hcounter' : (vm.drop 1).stats.stackCounter = ops.length + 1 :=
    VM.counter_of_operands hdrop.operands
  obtain ⟨vm', hset, hrestacked⟩ := VM.setTop_restacked hdrop.operands (by omega) v
  refine ⟨vm', ?_, hdrop.trans hrestacked⟩
  rw [binaryHandler_eq hops hsize, hshort, hvalue]
  exact hset

/-- With a shortcut, the answer overwrites the right operand and the left one
stays. -/
theorem binaryHandler_shortcut (value : JSValue → JSValue → Except Fault JSValue)
    (hops : vm.operands = r :: l :: ops)
    (hsize : vm.stats.stackCounter ≤ stackSize) (hshort : shortcut l r = some v) :
    ∃ vm', binaryHandler shortcut value vm = .ok vm' ∧ VM.Restacked vm vm' (v :: l :: ops) := by
  obtain ⟨vm', hset, hrestacked⟩ := VM.setTop_restacked hops hsize v
  refine ⟨vm', ?_, hrestacked⟩
  rw [binaryHandler_eq hops hsize, hshort]
  exact hset

/-- The top operand is replaced by the result. -/
theorem unaryHandler_restacked {value : JSValue → Except Fault JSValue}
    (hops : vm.operands = r :: ops) (hsize : vm.stats.stackCounter ≤ stackSize)
    (hvalue : value r = .ok v) :
    ∃ vm', unaryHandler value vm = .ok vm' ∧ VM.Restacked vm vm' (v :: ops) := by
  have hcounter : vm.stats.stackCounter = ops.length + 1 := VM.counter_of_operands hops
  have hright : vm.slot (vm.stats.stackCounter - 1) = .ok r :=
    VM.slot_of_operands (i := 0) (by rw [hops]; rfl) hsize
  have hneed : vm.need 1 = .ok () := if_neg (by omega)
  obtain ⟨vm', hset, hrestacked⟩ := VM.setTop_restacked hops hsize v
  refine ⟨vm', ?_, hrestacked⟩
  simp only [unaryHandler, bind, Except.bind, hneed, hright, hvalue]
  exact hset

end AtomixJS
