import AtomixJS.Core.Numbers

/-!
# Integer arithmetic

Numbers are documented to be those of JavaScript.  For operands without a fraction the
handlers compute in C `int`s, so a result that an `int` cannot hold is not a larger number
but a step that C leaves undefined, and so is the remainder of the smallest `int` by -1.
For all other operands the results are exact.
-/

namespace AtomixJS

open Binary64 (Extended)

/-- The operators that the handlers compute in `int`s. -/
inductive Arithmetic
  | add | minus | mul | mod | negate
  deriving DecidableEq

namespace Arithmetic

variable (address : JSValue → CInt) (operator : Arithmetic) (l r : JSValue) (a b : ℤ)

/-- `NEGATE` takes the right operand only. -/
def operands : List JSValue :=
  match operator with
  | negate => [r]
  | _ => [r, l]

def handler : VM → Except Fault VM :=
  match operator with
  | add => instBinary address .add
  | minus => instBinary address .minus
  | mul => instBinary address .mul
  | mod => instBinary address .mod
  | negate => instUnary address .negate

/-- The result in the integers. -/
def exact : ℤ :=
  match operator with
  | add => a + b
  | minus => a - b
  | mul => a * b
  | mod => a.tmod b
  | negate => -b

/-- The operands for which the exact result is promised. -/
def Promised : Prop :=
  match operator with
  | mod => r ≠ .null ∧ b ≠ 0
  | _ => (operator.exact a b).natAbs ≤ 2 ^ 53

/-- The handler does nothing that C leaves undefined, and leaves the exact result where it
is promised. -/
structure Exact : Prop where
  defined : ∀ (vm : VM) (ops : List JSValue), vm.operands = operator.operands l r ++ ops →
    vm.stats.stackCounter ≤ stackSize →
      ∀ what, operator.handler address vm ≠ .error (.undefinedBehaviour what)
  result : operator.Promised r a b → Leaves (operator.handler address) (operator.operands l r)
    fun v => v.number? = some (Extended.ofInt (operator.exact a b))

/-- The exact result is an `int`; for a remainder, so is the quotient. -/
def Representable : Prop :=
  match operator with
  | mod => ¬ (a = -2 ^ 31 ∧ b = -1)
  | _ => FitsInt (operator.exact a b)

variable {address operator l r a b}

/-! ## The handlers on two operands -/

/-- What is answered before an operand is taken off. -/
def shortcut (operator : Arithmetic) (l r : JSValue) : Option JSValue :=
  match operator with
  | add => binaryShortcut .add l r
  | minus => binaryShortcut .minus l r
  | mul => binaryShortcut .mul l r
  | mod => binaryShortcut .mod l r
  | negate => none

def value (address : JSValue → CInt) (operator : Arithmetic) (l r : JSValue) :
    Except Fault JSValue :=
  match operator with
  | add => addValue address l r
  | minus => minusValue address l r
  | mul => mulValue address l r
  | mod => modValue address l r
  | negate => negateValue r

variable {vm : VM} {ops : List JSValue} {v : JSValue} {P : JSValue → Prop} {fault : Fault}

theorem leaves_of_value (hshort : operator.shortcut l r = none)
    (hvalue : operator.value address l r = .ok v) (hP : P v) :
    Leaves (operator.handler address) (operator.operands l r) P := by
  cases operator with
  | negate => exact leaves_unary.mpr ⟨v, hvalue, hP⟩
  | _ => exact leaves_binary.mpr ⟨hshort, v, hvalue, hP⟩

theorem handler_error (hshort : operator.shortcut l r = none)
    (hvalue : operator.value address l r = .error fault)
    (hops : vm.operands = operator.operands l r ++ ops)
    (hsize : vm.stats.stackCounter ≤ stackSize) : operator.handler address vm = .error fault := by
  cases operator with
  | negate => exact unaryHandler_error hops hsize hvalue
  | _ => exact binaryHandler_error hops hsize hshort hvalue

/-! ## The results -/

theorem signed_of_fits {i : ℤ} (h : FitsInt i) : signed i = .ok (BitVec.ofInt 32 i) := if_pos h

theorem signed_of_not_fits {i : ℤ} (h : ¬ FitsInt i) :
    signed i = .error (.undefinedBehaviour "signed integer overflow") := if_neg h

/-- Sums, differences, products and negations are computed as signed `int`s. -/
theorem value_eq_signed (hl : l.integral? = some a) (hr : r.integral? = some b)
    (hmod : operator ≠ mod) :
    operator.value address l r = (do return .integer (← signed (operator.exact a b))) := by
  obtain ⟨hleft, hfitsLeft⟩ := retag_of_integral hl
  obtain ⟨hright, hfitsRight⟩ := retag_of_integral hr
  have ha := toInt_ofInt_of_fits hfitsLeft
  have hb := toInt_ofInt_of_fits hfitsRight
  cases operator with
  | mod => exact absurd rfl hmod
  | add =>
    rw [value, addValue, hleft, hright, arithmetic, ha, hb]
    rfl
  | minus =>
    rw [value, minusValue, hleft, hright, arithmetic, ha, hb]
    rfl
  | mul =>
    rw [value, mulValue, hleft, hright, arithmetic, ha, hb]
    rfl
  | negate =>
    rw [value, negateValue, (not_opaque_of_integral hr).1, hright]
    show (do return JSValue.integer (← signed (-(BitVec.ofInt 32 b).toInt))) = _
    rw [hb]
    rfl

/-- Remainders are computed as those of `int`s. -/
theorem value_mod (hl : l.integral? = some a) (hr : r.integral? = some b) (hnull : r ≠ .null) :
    mod.value address l r = modInts (BitVec.ofInt 32 a) (BitVec.ofInt 32 b) := by
  have hright : retagBoolean r = .integer (BitVec.ofInt 32 b) := by
    rw [← (retag_of_integral hr).1]
    cases r with
    | null => exact absurd rfl hnull
    | _ => rfl
  rw [value, modValue, (retag_of_integral hl).1, hright]
  rfl

theorem shortcut_eq_none (hl : l.integral? = some a) (hr : r.integral? = some b)
    (hmod : operator = mod → r ≠ .null) : operator.shortcut l r = none := by
  obtain ⟨hleft, hleft'⟩ := not_opaque_of_integral hl
  obtain ⟨hright, hright'⟩ := not_opaque_of_integral hr
  cases operator with
  | negate => rfl
  | add => simp [shortcut, binaryShortcut, addShortcut, hleft', hright']
  | minus | mul => simp [shortcut, binaryShortcut, opaqueShortcut, hleft, hright]
  | mod =>
    have hnull : r.isNull = false := by
      cases r with
      | null => exact absurd rfl (hmod rfl)
      | _ => rfl
    simp [shortcut, binaryShortcut, quotientShortcut, hleft, hright, hnull]

theorem tmod_fits (hb : FitsInt b) (hzero : b ≠ 0) : FitsInt (a.tmod b) := by
  have habs := Int.natAbs_tmod a b
  have hlt : a.natAbs % b.natAbs < b.natAbs := Nat.mod_lt _ (Int.natAbs_pos.mpr hzero)
  unfold FitsInt at *
  omega

/-- What the handler computes where the result is representable. -/
theorem leaves_exact (address : JSValue → CInt) (hl : l.integral? = some a) (hr : r.integral? = some b)
    (hmod : operator = mod → r ≠ .null ∧ b ≠ 0) (h : operator.Representable a b) :
    Leaves (operator.handler address) (operator.operands l r)
      fun v => v.number? = some (Extended.ofInt (operator.exact a b)) := by
  have hshort := shortcut_eq_none hl hr fun h => (hmod h).1
  by_cases hop : operator = mod
  · subst hop
    obtain ⟨hnull, hzero⟩ := hmod rfl
    have hfitsLeft := (retag_of_integral hl).2
    have hfitsRight := (retag_of_integral hr).2
    have ha := toInt_ofInt_of_fits hfitsLeft
    have hb := toInt_ofInt_of_fits hfitsRight
    have hne : BitVec.ofInt 32 b ≠ 0 := by
      intro heq
      rw [heq] at hb
      exact hzero hb.symm
    apply leaves_of_value hshort _ (number?_integer (tmod_fits hfitsRight hzero))
    rw [value_mod hl hr hnull, modInts, if_neg hne, ha, hb, if_neg h]
  · have hfits : FitsInt (operator.exact a b) := by
      cases operator with
      | mod => exact absurd rfl hop
      | _ => exact h
    apply leaves_of_value hshort _ (number?_integer hfits)
    rw [value_eq_signed hl hr hop, signed_of_fits hfits]
    rfl

/-- A result that is not representable is a step that C leaves undefined. -/
theorem value_of_not_representable (address : JSValue → CInt) (hl : l.integral? = some a) (hr : r.integral? = some b)
    (h : ¬ operator.Representable a b) : operator.shortcut l r = none ∧
      operator.value address l r = .error (.undefinedBehaviour "signed integer overflow") := by
  by_cases hop : operator = mod
  · subst hop
    obtain ⟨rfl, rfl⟩ := not_not.mp h
    have hnull : r ≠ .null := by
      rintro rfl
      cases hr
    refine ⟨shortcut_eq_none hl hr fun _ => hnull, ?_⟩
    rw [value_mod hl hr hnull]
    rfl
  · have hfits : ¬ FitsInt (operator.exact a b) := by
      cases operator with
      | mod => exact absurd rfl hop
      | _ => exact h
    refine ⟨shortcut_eq_none hl hr fun h => absurd h hop, ?_⟩
    rw [value_eq_signed hl hr hop, signed_of_not_fits hfits]
    rfl

/-- A remainder by zero or by null is NaN. -/
theorem mod_ok (address : JSValue → CInt) (hl : l.integral? = some a) (hr : r.integral? = some b)
    (h : ¬ (r ≠ .null ∧ b ≠ 0)) (hops : vm.operands = r :: l :: ops)
    (hsize : vm.stats.stackCounter ≤ stackSize) :
    ∃ vm', mod.handler address vm = .ok vm' := by
  by_cases hnull : r = .null
  · subst hnull
    have hshort : binaryShortcut .mod l .null = some .nan := by
      simp [binaryShortcut, quotientShortcut, JSValue.isNull]
    obtain ⟨vm', hrun, _⟩ := binaryHandler_shortcut (binaryValue address .mod) hops hsize hshort
    exact ⟨vm', hrun⟩
  · obtain rfl : b = 0 := by
      by_contra hzero
      exact h ⟨hnull, hzero⟩
    have hshort : mod.shortcut l r = none := shortcut_eq_none hl hr fun _ => hnull
    have hvalue : binaryValue address .mod l r = .ok .nan := value_mod hl hr hnull
    obtain ⟨vm', hrun, _⟩ := binaryHandler_restacked hops hsize hshort hvalue
    exact ⟨vm', hrun⟩

end Arithmetic

open Arithmetic in
/-- **Integer arithmetic.**  On operands without a fraction, an operator is exact and defined
if and only if its result can be held by an `int`; the remainder of the smallest `int` by -1
is the one remainder that is not. -/
theorem arithmetic_exact_iff (address : JSValue → CInt) (operator : Arithmetic) (l r : JSValue)
    (a b : ℤ) (hl : l.integral? = some a) (hr : r.integral? = some b) :
    operator.Exact address l r a b ↔ operator.Representable a b := by
  constructor
  · intro hexact
    by_contra hnot
    obtain ⟨hshort, hvalue⟩ := value_of_not_representable address hl hr hnot
    have hops : (machineWith (operator.operands l r)).operands = operator.operands l r ++ [] :=
      (machineWith_operands _).trans (List.append_nil _).symm
    have hsize : (machineWith (operator.operands l r)).stats.stackCounter ≤ stackSize := by
      cases operator with
      | negate => exact show 1 ≤ 254 by decide
      | _ => exact show 2 ≤ 254 by decide
    exact hexact.defined _ [] hops hsize _ (handler_error hshort hvalue hops hsize)
  · intro hrepresentable
    by_cases hmod : operator = mod → r ≠ .null ∧ b ≠ 0
    · have hleaves := leaves_exact address hl hr hmod hrepresentable
      refine ⟨fun vm ops hops hsize what hfault => ?_, fun _ => hleaves⟩
      obtain ⟨vm', _, hrun, _⟩ := hleaves vm ops hops hsize
      cases hfault.symm.trans hrun
    · obtain ⟨rfl, hpromised⟩ := Classical.not_imp.mp hmod
      refine ⟨fun vm ops hops hsize what hfault => ?_, fun h => absurd h hpromised⟩
      obtain ⟨vm', hrun⟩ := mod_ok address hl hr hpromised hops hsize
      cases hfault.symm.trans hrun

theorem arithmetic_exact_iff_true_minus_null :
    (JSValue.boolean true).integral? = some 1 ∧ JSValue.null.integral? = some 0 ∧
      (Arithmetic.minus.Exact (fun _ => 0) (.boolean true) .null 1 0 ↔
        Arithmetic.minus.Representable 1 0) :=
  ⟨rfl, rfl, arithmetic_exact_iff (fun _ => 0) .minus (.boolean true) .null 1 0 rfl rfl⟩

/-- `2147483647 + 1` is a signed overflow. -/
theorem arithmetic_overflows : ¬ ∀ (address : JSValue → CInt) (operator : Arithmetic)
    (l r : JSValue) (a b : ℤ), l.integral? = some a → r.integral? = some b →
      operator.Exact address l r a b := by
  intro hclaim
  have hexact := hclaim (fun _ => 0) .add (.integer 2147483647) (.integer 1) 2147483647 1 rfl rfl
  have hops := machineWith_operands [.integer 1, .integer 2147483647]
  exact hexact.defined _ [] hops (show 2 ≤ 254 by decide) "signed integer overflow" rfl

end AtomixJS
