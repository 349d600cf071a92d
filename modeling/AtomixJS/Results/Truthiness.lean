import AtomixJS.Core.Numbers

/-!
# Truthiness

`value_is_falsy` decides the jumps and `NOT`.  It compares a double with the two zeros, and so
takes NaN for true, and it does not look into a string, and so takes the empty one for true.
-/

namespace AtomixJS

/-- The values that JavaScript takes for false. -/
inductive Falsy : JSValue → Prop
  | false : Falsy (.boolean false)
  | null : Falsy .null
  | undefined : Falsy .undefined
  | integer : Falsy (.integer 0)
  | zero (neg : Bool) : Falsy (.double (Binary64.zero neg))
  | nan {d : Binary64} : d.isNaN = true → Falsy (.double d)
  | string : Falsy (.string [])

/-- The handler takes its operand off and jumps or goes on. -/
def Jumps (handler : UInt16 → VM → Except Fault VM) (v : JSValue) (jumps : Bool) : Prop :=
  ∀ (operand : UInt16) (vm : VM) (ops : List JSValue), vm.operands = v :: ops →
    vm.stats.stackCounter ≤ stackSize → ∃ vm', handler operand vm = .ok vm' ∧
      vm'.operands = ops ∧ vm'.stats.instructionCounter =
        if jumps then operand.toNat else vm.stats.instructionCounter

/-- `JMP_F`, `JMP_T` and `NOT` judge a value as JavaScript does. -/
def JudgedRight (address : JSValue → CInt) (v : JSValue) : Prop :=
  ∃ falsy : Bool, (falsy = true ↔ Falsy v) ∧
    Jumps (instJmpIf valueIsFalsy) v falsy ∧
    Jumps (instJmpIf valueIsTruthy) v (!falsy) ∧
    Leaves (instUnary address .not) [v] (· = .boolean falsy)

/-- NaN and the empty string.  An accessor box is no value of JavaScript. -/
def Misjudged : JSValue → Prop
  | .double d => d.isNaN = true
  | .string chars => chars = []
  | .gsBox _ _ => True
  | _ => False

variable {address : JSValue → CInt} {v : JSValue} {test : JSValue → Except Fault Bool} {b : Bool}

theorem jumps_of_test (htest : test v = .ok b) : Jumps (instJmpIf test) v b := by
  intro operand vm ops hops hsize
  have hdrop := VM.drop_restacked [v] hops
  refine ⟨_, by rw [instJmpIf_eq hops hsize, htest]; rfl, ?_, ?_⟩
  · cases b <;> exact hdrop.operands
  · cases b <;> rfl

/-- Only the zeros compare equal to zero. -/
theorem valueIsFalsy_double (d : Binary64) : ∃ b, valueIsFalsy (.double d) = .ok b ∧
    (b = true ↔ ∃ neg, d = Binary64.zero neg) := by
  refine ⟨_, rfl, ?_⟩
  rw [Bool.or_eq_true, Binary64.eq_zero_iff, Binary64.eq_zero_iff, or_self]
  constructor
  · rintro (rfl | rfl)
    · exact ⟨_, rfl⟩
    · exact ⟨_, rfl⟩
  · rintro ⟨neg, rfl⟩
    cases neg with
    | false => exact .inl rfl
    | true => exact .inr rfl

theorem valueIsFalsy_eq (h : ¬ Misjudged v) : ∃ b, valueIsFalsy v = .ok b ∧ (b = true ↔ Falsy v) := by
  cases v with
  | integer i =>
    refine ⟨_, rfl, decide_eq_true_iff.trans ⟨?_, ?_⟩⟩
    · rintro rfl
      exact .integer
    · rintro ⟨⟩
      rfl
  | double d =>
    obtain ⟨b, hb, hzero⟩ := valueIsFalsy_double d
    refine ⟨b, hb, hzero.trans ⟨?_, ?_⟩⟩
    · rintro ⟨neg, rfl⟩
      exact .zero neg
    · intro hfalsy
      cases hfalsy with
      | zero neg => exact ⟨neg, rfl⟩
      | nan hnan => exact absurd hnan h
  | string chars =>
    refine ⟨false, rfl, iff_of_false Bool.false_ne_true ?_⟩
    rintro ⟨⟩
    exact h rfl
  | undefined => exact ⟨true, rfl, iff_of_true rfl .undefined⟩
  | null => exact ⟨true, rfl, iff_of_true rfl .null⟩
  | boolean b =>
    cases b with
    | false => exact ⟨true, rfl, iff_of_true rfl .false⟩
    | true => exact ⟨false, rfl, iff_of_false Bool.false_ne_true nofun⟩
  | gsBox getter setter => exact absurd trivial h
  | _ => exact ⟨false, rfl, iff_of_false Bool.false_ne_true nofun⟩

/-- What the handlers make of a value that they misjudge. -/
theorem valueIsFalsy_misjudged (h : Misjudged v) :
    (valueIsFalsy v = .ok false ∧ Falsy v) ∨ ∃ fault, valueIsFalsy v = .error fault := by
  cases v with
  | double d =>
    have hnan : d.isNaN = true := h
    obtain ⟨b, hb, hzero⟩ := valueIsFalsy_double d
    cases b with
    | false => exact .inl ⟨hb, .nan hnan⟩
    | true =>
      obtain ⟨neg, rfl⟩ := hzero.mp rfl
      cases neg <;> exact absurd hnan (by decide)
  | string chars =>
    obtain rfl : chars = [] := h
    exact .inl ⟨rfl, .string⟩
  | gsBox getter setter => exact .inr ⟨_, rfl⟩
  | _ => exact absurd h id

/-- **Truthiness.**  The conditional jumps and `NOT` judge a value as JavaScript does if and only
if it is neither NaN nor the empty string nor an accessor box. -/
theorem judgedRight_iff (address : JSValue → CInt) (v : JSValue) :
    JudgedRight address v ↔ ¬ Misjudged v := by
  have hnot : ∀ {b : Bool}, Leaves (instUnary address .not) [v] (· = .boolean b) ↔
      ∃ w, notValue v = .ok w ∧ w = .boolean b := leaves_unary
  constructor
  · rintro ⟨b, hfalsy, -, -, hleaves⟩ hmisjudged
    obtain ⟨w, hw, rfl⟩ := hnot.mp hleaves
    rcases valueIsFalsy_misjudged hmisjudged with ⟨hvalue, hv⟩ | ⟨fault, hvalue⟩
    · rw [notValue, hvalue] at hw
      obtain rfl : b = true := hfalsy.mpr hv
      cases hw
    · rw [notValue, hvalue] at hw
      cases hw
  · intro h
    obtain ⟨b, hb, hfalsy⟩ := valueIsFalsy_eq h
    refine ⟨b, hfalsy, jumps_of_test hb, jumps_of_test ?_, hnot.mpr ⟨_, ?_, rfl⟩⟩
    · rw [valueIsTruthy, hb]
      rfl
    · rw [notValue, hb]
      rfl

/-- `!""` is false. -/
theorem judgedRight_empty_string :
    ¬ ∀ (address : JSValue → CInt) (v : JSValue), JudgedRight address v := by
  intro hclaim
  obtain ⟨b, hfalsy, -, -, hleaves⟩ := hclaim (fun _ => 0) (.string [])
  obtain rfl : b = true := hfalsy.mpr .string
  obtain ⟨w, hw, rfl⟩ := leaves_unary.mp hleaves
  cases hw

end AtomixJS
