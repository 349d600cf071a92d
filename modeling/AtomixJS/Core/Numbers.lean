import AtomixJS.Core.Effects

/-!
# What the operators leave

`Leaves` says that a handler takes its operands off and leaves one value instead.  For the
operators this comes down to their functions on values: a binary operator leaves a value
when it does not answer its operands at once and its function returns (`leaves_binary`), an
operator with one operand when its function returns (`leaves_unary`).

Values are compared as numbers: `JSValue.number?` is where a number lies on the number
line, `JSValue.integral?` the integer that an operand without a fraction converts to.
-/

namespace AtomixJS

open Binary64 (Extended)

variable {address : JSValue → CInt} {op : BinaryOpcode} {l r v : JSValue} {P : JSValue → Prop}

/-! ## Numbers -/

/-- The position of a number on the number line.  NaN has none. -/
def JSValue.number? : JSValue → Option Extended
  | .integer i => some (Extended.ofInt i.toInt)
  | .double d => if d.isNaN then none else some d.value
  | _ => none

/-- The integer that an integer, a boolean or null converts to. -/
def JSValue.integral? : JSValue → Option ℤ
  | .integer i => some i.toInt
  | .boolean b => some (if b then 1 else 0)
  | .null => some 0
  | _ => none

/-- The integers that an `int` can hold. -/
def FitsInt (i : ℤ) : Prop := -2 ^ 31 ≤ i ∧ i < 2 ^ 31

instance (i : ℤ) : Decidable (FitsInt i) := inferInstanceAs (Decidable (_ ∧ _))

theorem fitsInt_toInt (i : CInt) : FitsInt i.toInt := by
  have hlow := BitVec.le_toInt i
  have hhigh := BitVec.toInt_lt (x := i)
  exact ⟨hlow, hhigh⟩

theorem toInt_ofInt_of_fits {i : ℤ} (h : FitsInt i) : (BitVec.ofInt 32 i).toInt = i := by
  obtain ⟨hlow, hhigh⟩ := h
  rw [BitVec.toInt_ofInt]
  exact Int.bmod_eq_of_le (by simpa using hlow) (by simpa using hhigh)

/-- A boolean or null takes part in arithmetic as an integer. -/
theorem retag_of_integral {a : ℤ} (h : v.integral? = some a) :
    retag v = .integer (BitVec.ofInt 32 a) ∧ FitsInt a := by
  cases v with
  | integer i =>
    obtain rfl := Option.some.inj h
    exact ⟨by rw [BitVec.ofInt_toInt]; rfl, fitsInt_toInt i⟩
  | boolean b =>
    obtain rfl := Option.some.inj h
    cases b <;> exact ⟨rfl, by decide⟩
  | null =>
    obtain rfl := Option.some.inj h
    exact ⟨rfl, by decide⟩
  | _ => cases h

theorem number?_integer {i : ℤ} (h : FitsInt i) :
    (JSValue.integer (BitVec.ofInt 32 i)).number? = some (Extended.ofInt i) := by
  rw [JSValue.number?, toInt_ofInt_of_fits h]

theorem number?_eq_ofInt {i : CInt} {j : ℤ} :
    (JSValue.integer i).number? = some (Extended.ofInt j) ↔ i.toInt = j := by
  rw [JSValue.number?, Option.some.injEq, Binary64.Extended.ofInt_inj]

theorem natAbs_toInt_lt (i : CInt) : i.toInt.natAbs < 2 ^ 53 := by
  obtain ⟨hlow, hhigh⟩ := fitsInt_toInt i
  omega

/-- An integer lies where the double does that it is converted to. -/
theorem number?_integer_eq (i : CInt) :
    (JSValue.integer i).number? = (JSValue.double (Binary64.ofInt i.toInt)).number? := by
  have hnan := Binary64.isNaN_ofInt (natAbs_toInt_lt i)
  have hvalue := Binary64.value_ofInt (natAbs_toInt_lt i)
  rw [JSValue.number?, JSValue.number?, hnan, if_neg Bool.false_ne_true, hvalue]

theorem not_opaque_of_integral {i : ℤ} (h : v.integral? = some i) :
    v.isOpaque = false ∧ v.isUndefined = false := by
  cases v with
  | integer | boolean | null => exact ⟨rfl, rfl⟩
  | _ => cases h

/-! ## Handlers -/

/-- The handler takes the operands off and leaves a value with a property. -/
def Leaves (handler : VM → Except Fault VM) (operands : List JSValue) (P : JSValue → Prop) : Prop :=
  ∀ (vm : VM) (ops : List JSValue), vm.operands = operands ++ ops →
    vm.stats.stackCounter ≤ stackSize →
      ∃ vm' v, handler vm = .ok vm' ∧ VM.Restacked vm vm' (v :: ops) ∧ P v

variable {vm : VM} {ops : List JSValue} {fault : Fault}
  {shortcut : JSValue → JSValue → Option JSValue}
  {value : JSValue → JSValue → Except Fault JSValue}

theorem binaryHandler_error (hops : vm.operands = r :: l :: ops)
    (hsize : vm.stats.stackCounter ≤ stackSize) (hshort : shortcut l r = none)
    (hvalue : value l r = .error fault) : binaryHandler shortcut value vm = .error fault := by
  rw [binaryHandler_eq hops hsize, hshort, hvalue]
  rfl

theorem unaryHandler_error {value : JSValue → Except Fault JSValue}
    (hops : vm.operands = r :: ops) (hsize : vm.stats.stackCounter ≤ stackSize)
    (hvalue : value r = .error fault) : unaryHandler value vm = .error fault := by
  have hcounter : vm.stats.stackCounter = ops.length + 1 := VM.counter_of_operands hops
  have hneed : vm.need 1 = .ok () := if_neg (by omega)
  simp only [unaryHandler, hneed, slot_top hops hsize, hvalue, bind, Except.bind]

/-- A machine with the given operands. -/
def machineWith (operands : List JSValue) : VM where
  module := 0
  globalScope := 0
  scope := 0
  stats :=
    { instructionCounter := 0
      stackCounter := operands.length
      stackStart := 0
      stack := fun i => operands.reverse.getD i .undefined }
  heap :=
    { scopes := [], objects := [], functions := [], modules := []
      objectPrototype := none, arrayPrototype := none
      functionPrototype := none, symbolPrototype := none }

theorem machineWith_operands (operands : List JSValue) :
    (machineWith operands).operands = operands := by
  show slotsBelow (fun i => operands.reverse.getD i .undefined) operands.length = operands
  induction operands with
  | nil => rfl
  | cons v operands ih =>
    rw [List.length_cons, slotsBelow, List.reverse_cons]
    congr 1
    · simp
    · refine Eq.trans (slotsBelow_congr fun i hi => ?_) ih
      simp only [List.getD_eq_getElem?_getD]
      rw [List.getElem?_append_left (by simpa using hi)]

theorem leaves_binary : Leaves (instBinary address op) [r, l] P ↔
    binaryShortcut op l r = none ∧ ∃ v, binaryValue address op l r = .ok v ∧ P v := by
  constructor
  · intro hleaves
    have hops := machineWith_operands [r, l]
    have hsize : (machineWith [r, l]).stats.stackCounter ≤ stackSize := show 2 ≤ 254 by decide
    obtain ⟨vm', v, hrun, hrestacked, hP⟩ := hleaves _ [] hops hsize
    cases hshort : binaryShortcut op l r with
    | some w =>
      -- the left operand is still there
      obtain ⟨vm'', hrun', hrestacked'⟩ :=
        binaryHandler_shortcut (binaryValue address op) hops hsize hshort
      obtain rfl : vm'' = vm' := Except.ok.inj (hrun'.symm.trans hrun)
      have hlength := congrArg List.length (hrestacked.operands.symm.trans hrestacked'.operands)
      cases hlength
    | none =>
      refine ⟨rfl, v, ?_, hP⟩
      cases hvalue : binaryValue address op l r with
      | error fault => cases (binaryHandler_error hops hsize hshort hvalue).symm.trans hrun
      | ok w =>
        obtain ⟨vm'', hrun', hrestacked'⟩ := binaryHandler_restacked hops hsize hshort hvalue
        obtain rfl : vm'' = vm' := Except.ok.inj (hrun'.symm.trans hrun)
        have hhead := hrestacked.operands.symm.trans hrestacked'.operands
        rw [(List.cons.inj hhead).1]
  · rintro ⟨hshort, v, hvalue, hP⟩ vm ops hops hsize
    obtain ⟨vm', hrun, hrestacked⟩ := binaryHandler_restacked hops hsize hshort hvalue
    exact ⟨vm', v, hrun, hrestacked, hP⟩

theorem leaves_unary {op : UnaryOpcode} : Leaves (instUnary address op) [r] P ↔
    ∃ v, unaryValue address op r = .ok v ∧ P v := by
  constructor
  · intro hleaves
    have hops := machineWith_operands [r]
    have hsize : (machineWith [r]).stats.stackCounter ≤ stackSize := show 1 ≤ 254 by decide
    obtain ⟨vm', v, hrun, hrestacked, hP⟩ := hleaves _ [] hops hsize
    refine ⟨v, ?_, hP⟩
    cases hvalue : unaryValue address op r with
    | error fault => cases (unaryHandler_error hops hsize hvalue).symm.trans hrun
    | ok w =>
      obtain ⟨vm'', hrun', hrestacked'⟩ := unaryHandler_restacked hops hsize hvalue
      obtain rfl : vm'' = vm' := Except.ok.inj (hrun'.symm.trans hrun)
      have hhead := hrestacked.operands.symm.trans hrestacked'.operands
      rw [(List.cons.inj hhead).1]
  · rintro ⟨v, hvalue, hP⟩ vm ops hops hsize
    obtain ⟨vm', hrun, hrestacked⟩ := unaryHandler_restacked hops hsize hvalue
    exact ⟨vm', v, hrun, hrestacked, hP⟩

end AtomixJS
