import AtomixJS.Results.Shifts

/-!
# Bitwise operators on operands that are not numbers

Every operand is documented to be converted to a 32-bit integer first.  Only `BINARY_NOT`
does so.  The others have answers of their own for a pair with an operand that is not a
number: `BINARY_AND` answers 0, `BINARY_OR` and `BINARY_XOR` the operand that is a number, or
0, and the shifts the left operand, or 0.  As `false`, `null` and `undefined` convert to 0,
these answers are wrong mostly for `true`.
-/

namespace AtomixJS

open Binary64 (Extended)

/-- The conversion to a 32-bit integer. -/
def JSValue.toInt32? : JSValue → Option CInt
  | .integer i => some i
  | .boolean b => some (if b then 1 else 0)
  | .null | .undefined => some 0
  | _ => none

inductive Bitwise
  | and | or | xor | not
  | shift (s : Shift)
  deriving DecidableEq

namespace Bitwise

def handler (address : JSValue → CInt) : Bitwise → VM → Except Fault VM
  | and => instBinary address .binaryAnd
  | or => instBinary address .binaryOr
  | xor => instBinary address .binaryXor
  | not => instUnary address .binaryNot
  | shift s => instBinary address s.opcode

/-- `BINARY_NOT` takes the right operand only. -/
def operands (op : Bitwise) (l r : JSValue) : List JSValue :=
  match op with
  | not => [r]
  | _ => [r, l]

/-- The operator on 32-bit integers. -/
def result : Bitwise → CInt → CInt → ℤ
  | and, a, b => (a &&& b).toInt
  | or, a, b => (a ||| b).toInt
  | xor, a, b => (a ^^^ b).toInt
  | not, _, b => (~~~b).toInt
  | shift s, a, b => s.result a.toInt b.toInt

/-- A shift count in 0..31. -/
def InRange (op : Bitwise) (b : CInt) : Prop :=
  match op with
  | shift _ => 0 ≤ b.toInt ∧ b.toInt < 32
  | _ => True

/-- The handler leaves the result on the converted operands. -/
def Coerces (address : JSValue → CInt) (op : Bitwise) (l r : JSValue) (a b : CInt) : Prop :=
  Leaves (op.handler address) (op.operands l r)
    fun v => v.number? = some (Extended.ofInt (op.result a b))

def IsOdd (i : CInt) : Prop := i.getLsbD 0 = true

/-- Where the answers to operands that are not numbers, and the shifts of C, agree with the
conversion. -/
def Agrees (op : Bitwise) (l r : JSValue) (a b : CInt) : Prop :=
  match op with
  | and => (l = .boolean true → ¬ IsOdd b) ∧ (r = .boolean true → ¬ IsOdd a)
  | or =>
    (l = .boolean true → r = .integer b ∧ IsOdd b) ∧ (r = .boolean true → l = .integer a ∧ IsOdd a)
  | xor => l = .boolean true ↔ r = .boolean true
  | not => True
  | shift .lshft =>
    l ≠ .boolean true ∧ (r = .boolean true → a = 0) ∧
      (l = .integer a → r = .integer b → Shift.lshft.InC a.toInt b.toInt)
  | shift .rshft =>
    (l = .boolean true → b ≠ 0) ∧ (r = .boolean true → l = .integer a → a = 0 ∨ a = -1)
  | shift .zrshft =>
    (l = .boolean true → b ≠ 0) ∧ (r = .boolean true → l = .integer a → a = 0) ∧
      (0 ≤ a.toInt ∨ b ≠ 0)

/-! ## Operands -/

/-- The operands other than an integer that convert to 0. -/
def Blank (v : JSValue) : Prop := v = .boolean false ∨ v = .null ∨ v = .undefined

/-- An operand is an integer, it is `true`, or it is blank. -/
inductive Operand : JSValue → CInt → Prop
  | integer (i : CInt) : Operand (.integer i) i
  | one : Operand (.boolean true) 1
  | zero {v : JSValue} : Blank v → Operand v 0

theorem Blank.isNumber {v : JSValue} (h : Blank v) : v.isNumber = false := by
  rcases h with rfl | rfl | rfl <;> rfl

theorem Blank.ne_true {v : JSValue} (h : Blank v) : v ≠ .boolean true := by
  rcases h with rfl | rfl | rfl <;> simp

theorem operand_of_toInt32? {v : JSValue} {a : CInt} (h : v.toInt32? = some a) : Operand v a := by
  cases v with
  | integer i =>
    obtain rfl := Option.some.inj h
    exact .integer i
  | boolean b =>
    obtain rfl := Option.some.inj h
    cases b with
    | true => exact .one
    | false => exact .zero (.inl rfl)
  | null =>
    obtain rfl := Option.some.inj h
    exact .zero (.inr (.inl rfl))
  | undefined =>
    obtain rfl := Option.some.inj h
    exact .zero (.inr (.inr rfl))
  | _ => cases h

variable {address : JSValue → CInt} {op : Bitwise} {l r v : JSValue} {a b i : CInt}

/-- The value that a handler computes from its operands. -/
def value (address : JSValue → CInt) (op : Bitwise) (l r : JSValue) : Except Fault JSValue :=
  match op with
  | and => binaryAndValue address l r
  | or => binaryOrValue address l r
  | xor => binaryXorValue address l r
  | not => binaryNotValue address r
  | shift s => binaryValue address s.opcode l r

theorem coerces_iff : op.Coerces address l r a b ↔
    ∃ v, op.value address l r = .ok v ∧ v.number? = some (Extended.ofInt (op.result a b)) := by
  have hbinary : ∀ {opcode : BinaryOpcode} {P : JSValue → Prop},
      (∀ l r, binaryShortcut opcode l r = none) →
      (Leaves (instBinary address opcode) [r, l] P ↔
        ∃ v, binaryValue address opcode l r = .ok v ∧ P v) :=
    fun hshort => leaves_binary.trans (and_iff_right (hshort l r))
  cases op with
  | not => exact leaves_unary
  | shift s => exact hbinary fun _ _ => by cases s <;> rfl
  | _ => exact hbinary fun _ _ => rfl

/-- The handler leaves an integer. -/
theorem coerces_of_value (h : op.value address l r = .ok (.integer i)) :
    op.Coerces address l r a b ↔ i.toInt = op.result a b := by
  rw [coerces_iff, h, ← number?_eq_ofInt]
  constructor
  · rintro ⟨v, hv, hnumber⟩
    obtain rfl := Except.ok.inj hv
    exact hnumber
  · exact fun hnumber => ⟨_, rfl, hnumber⟩

/-! ## Bits -/

theorem isOdd_one : IsOdd 1 := rfl

theorem not_isOdd_zero : ¬ IsOdd 0 := Bool.false_ne_true

theorem and_one : b &&& 1 = 0 ↔ ¬ IsOdd b := by
  show b &&& 1#32 = 0#32 ↔ ¬ b.getLsbD 0 = true
  rw [BitVec.and_one_eq_setWidth_ofBool_getLsbD]
  cases b.getLsbD 0 <;> decide

theorem or_one : b ||| 1 = b ↔ IsOdd b := by
  show b ||| 1#32 = b ↔ b.getLsbD 0 = true
  rw [BitVec.eq_of_getLsbD_eq_iff]
  simp only [BitVec.getLsbD_or, BitVec.getLsbD_one, Bool.or_eq_left_iff_imp]
  constructor
  · exact fun h => h 0 (by decide) (by decide)
  · intro h i _ hi
    obtain rfl : i = 0 := by simpa using hi
    exact h

theorem toInt_eq_zero : a.toInt = 0 ↔ a = 0 := by
  rw [← BitVec.toInt_inj]
  rfl

/-! ## The operators -/

theorem and_agrees (hl : Operand l a) (hr : Operand r b) :
    and.Coerces address l r a b ↔ and.Agrees l r a b := by
  have hanswer : l.isNumber = false ∨ r.isNumber = false →
      (and.Coerces address l r a b ↔ a &&& b = 0) := by
    intro hnumber
    have hvalue : and.value address l r = .ok (.integer 0) := by
      show (if !l.isNumber || !r.isNumber then _ else _) = _
      rw [if_pos]
      rcases hnumber with h | h <;> simp [h]
    rw [coerces_of_value hvalue, result, eq_comm, ← toInt_eq_zero]
    rfl
  cases hl with
  | integer =>
    cases hr with
    | integer =>
      rw [coerces_of_value (i := a &&& b) rfl]
      exact iff_of_true rfl ⟨nofun, nofun⟩
    | one =>
      rw [hanswer (.inr rfl), and_one]
      exact ⟨fun h => ⟨nofun, fun _ => h⟩, fun h => h.2 rfl⟩
    | zero hblank =>
      rw [hanswer (.inr hblank.isNumber)]
      exact iff_of_true BitVec.and_zero ⟨nofun, fun h => absurd h hblank.ne_true⟩
  | one =>
    rw [hanswer (.inl rfl), BitVec.and_comm, and_one]
    refine ⟨fun h => ⟨fun _ => h, fun hright => ?_⟩, fun h => h.1 rfl⟩
    cases hr with
    | integer => cases hright
    | one => exact h
    | zero hblank => exact absurd hright hblank.ne_true
  | zero hblank =>
    rw [hanswer (.inl hblank.isNumber)]
    exact iff_of_true BitVec.zero_and ⟨fun h => absurd h hblank.ne_true, fun _ => not_isOdd_zero⟩

/-- `BINARY_OR` and `BINARY_XOR` answer with an operand that is a number, or with 0. -/
def fallback (l r : JSValue) (a b : CInt) : CInt :=
  if l.isNumber then a else if r.isNumber then b else 0

theorem orFallback_eq (hl : Operand l a) (hr : Operand r b)
    (h : l.isNumber = false ∨ r.isNumber = false) :
    orFallback l r = .ok (.integer (fallback l r a b)) := by
  cases hl with
  | integer => rfl
  | one =>
    cases hr with
    | integer | one => rfl
    | zero hblank => rcases hblank with rfl | rfl | rfl <;> rfl
  | zero hblank =>
    cases hr with
    | integer | one => rcases hblank with rfl | rfl | rfl <;> rfl
    | zero hblank' =>
      rcases hblank with rfl | rfl | rfl <;> rcases hblank' with rfl | rfl | rfl <;> rfl

theorem or_answer (hl : Operand l a) (hr : Operand r b)
    (h : l.isNumber = false ∨ r.isNumber = false) :
    or.Coerces address l r a b ↔ fallback l r a b = a ||| b := by
  have hvalue : or.value address l r = orFallback l r := by
    show (if !l.isNumber || !r.isNumber then _ else _) = _
    rw [if_pos]
    rcases h with h | h <;> simp [h]
  rw [coerces_of_value (hvalue.trans (orFallback_eq hl hr h)), result, BitVec.toInt_inj]

theorem xor_answer (hl : Operand l a) (hr : Operand r b)
    (h : l.isNumber = false ∨ r.isNumber = false) :
    xor.Coerces address l r a b ↔ fallback l r a b = a ^^^ b := by
  have hvalue : xor.value address l r = orFallback l r := by
    show (if !l.isNumber || !r.isNumber then _ else _) = _
    rw [if_pos]
    rcases h with h | h <;> simp [h]
  rw [coerces_of_value (hvalue.trans (orFallback_eq hl hr h)), result, BitVec.toInt_inj]

theorem or_agrees (hl : Operand l a) (hr : Operand r b) :
    or.Coerces address l r a b ↔ or.Agrees l r a b := by
  cases hl with
  | integer =>
    cases hr with
    | integer =>
      rw [coerces_of_value (i := a ||| b) rfl]
      exact iff_of_true rfl ⟨nofun, nofun⟩
    | one =>
      rw [or_answer (.integer a) .one (.inr rfl)]
      show a = a ||| 1 ↔ _
      rw [eq_comm, or_one]
      exact ⟨fun h => ⟨nofun, fun _ => ⟨rfl, h⟩⟩, fun h => (h.2 rfl).2⟩
    | zero hblank =>
      rw [or_answer (.integer a) (.zero hblank) (.inr hblank.isNumber)]
      exact iff_of_true BitVec.or_zero.symm ⟨nofun, fun h => absurd h hblank.ne_true⟩
  | one =>
    rw [or_answer .one hr (.inl rfl)]
    show (if r.isNumber then b else 0) = 1 ||| b ↔ _
    rw [BitVec.or_comm]
    cases hr with
    | integer =>
      show b = b ||| 1 ↔ _
      rw [eq_comm, or_one]
      exact ⟨fun h => ⟨fun _ => ⟨rfl, h⟩, nofun⟩, fun h => (h.1 rfl).2⟩
    | one => exact iff_of_false (by decide) fun h => nomatch (h.1 rfl).1
    | zero hblank =>
      rw [hblank.isNumber]
      exact iff_of_false (by decide) fun h => not_isOdd_zero (h.1 rfl).2
  | zero hblank =>
    have hzero : (0 : CInt) ||| b = b := BitVec.zero_or
    rw [or_answer (.zero hblank) hr (.inl hblank.isNumber), hzero, fallback, hblank.isNumber,
      if_neg Bool.false_ne_true]
    cases hr with
    | integer => exact iff_of_true rfl ⟨fun h => absurd h hblank.ne_true, nofun⟩
    | one => exact iff_of_false (by decide) fun h => not_isOdd_zero (h.2 rfl).2
    | zero hblank' =>
      rw [hblank'.isNumber]
      exact iff_of_true rfl
        ⟨fun h => absurd h hblank.ne_true, fun h => absurd h hblank'.ne_true⟩

/-- `true` is the one operand that changes the other. -/
theorem xor_agrees (hl : Operand l a) (hr : Operand r b) :
    xor.Coerces address l r a b ↔ xor.Agrees l r a b := by
  have hchanges : ∀ c : CInt, c ≠ c ^^^ 1 := by
    intro c hc
    have hbit := congrArg (BitVec.getLsbD · 0) hc
    simp at hbit
  cases hl with
  | integer =>
    cases hr with
    | integer =>
      rw [coerces_of_value (i := a ^^^ b) rfl]
      exact iff_of_true rfl (iff_of_false nofun nofun)
    | one =>
      rw [xor_answer (.integer a) .one (.inr rfl)]
      exact iff_of_false (hchanges a) fun h => nomatch h.mpr rfl
    | zero hblank =>
      rw [xor_answer (.integer a) (.zero hblank) (.inr hblank.isNumber)]
      exact iff_of_true BitVec.xor_zero.symm (iff_of_false nofun hblank.ne_true)
  | one =>
    rw [xor_answer .one hr (.inl rfl)]
    show (if r.isNumber then b else 0) = 1 ^^^ b ↔ _
    rw [BitVec.xor_comm]
    cases hr with
    | integer => exact iff_of_false (hchanges b) fun h => nomatch h.mp rfl
    | one => exact iff_of_true rfl Iff.rfl
    | zero hblank =>
      rw [hblank.isNumber]
      exact iff_of_false (by decide) fun h => hblank.ne_true (h.mp rfl)
  | zero hblank =>
    have hzero : (0 : CInt) ^^^ b = b := BitVec.zero_xor
    rw [xor_answer (.zero hblank) hr (.inl hblank.isNumber), hzero, fallback, hblank.isNumber,
      if_neg Bool.false_ne_true]
    cases hr with
    | integer => exact iff_of_true rfl (iff_of_false hblank.ne_true nofun)
    | one => exact iff_of_false (by decide) fun h => hblank.ne_true (h.mpr rfl)
    | zero hblank' =>
      rw [hblank'.isNumber]
      exact iff_of_true rfl (iff_of_false hblank.ne_true hblank'.ne_true)

theorem not_coerces (hr : Operand r b) : not.Coerces address l r a b := by
  have hvalue : not.value address l r = .ok (.integer (~~~b)) := by
    cases hr with
    | integer | one => rfl
    | zero hblank => rcases hblank with rfl | rfl | rfl <;> rfl
  exact (coerces_of_value hvalue).mpr rfl

/-! ## The shifts -/

variable {s : Shift} {m : ℕ}

theorem shift_left_answer (h : l.isNumber = false) :
    (shift s).Coerces address l r a b ↔ s.result a.toInt b.toInt = 0 := by
  have hvalue : (shift s).value address l r = .ok (.integer 0) := by
    cases s <;> exact if_pos (by rw [h]; rfl)
  rw [coerces_of_value hvalue, eq_comm]
  rfl

theorem shift_right_answer (h : r.isNumber = false) :
    (shift s).Coerces address (.integer a) r a b ↔ s.result a.toInt b.toInt = a.toInt := by
  have hvalue : (shift s).value address (.integer a) r = .ok (.integer a) := by
    cases s <;> exact if_pos (by rw [h]; rfl)
  rw [coerces_of_value hvalue, eq_comm]
  rfl

theorem result_zero {n : ℤ} : s.result 0 n = 0 := by
  cases s <;> simp [Shift.result]

/-- A number is shifted by 0. -/
theorem result_count_zero : s.result a.toInt 0 = a.toInt ↔ (s = .zrshft → 0 ≤ a.toInt) := by
  obtain ⟨hlow, hhigh⟩ := fitsInt_toInt a
  cases s with
  | lshft =>
    refine iff_of_true ?_ (by rintro ⟨⟩)
    simp only [Shift.result, Int.zero_emod, Int.toNat_zero, Int.pow_zero, Int.mul_one]
    exact Int.bmod_eq_of_le (by omega) (by omega)
  | rshft => exact iff_of_true (Int.ediv_one _) (by rintro ⟨⟩)
  | zrshft =>
    simp only [Shift.result, Int.zero_emod, Int.toNat_zero, Int.pow_zero, Int.ediv_one,
      forall_const]
    omega

/-- `true` on the right shifts by 1. -/
theorem result_count_one : s.result a.toInt 1 = a.toInt ↔
    a = 0 ∨ (s = .rshft ∧ a = -1) := by
  obtain ⟨hlow, hhigh⟩ := fitsInt_toInt a
  have hzero : a = 0 ↔ a.toInt = 0 := toInt_eq_zero.symm
  have hminus : a = -1 ↔ a.toInt = -1 := BitVec.toInt_inj.symm
  have hcount : ((1 : ℤ) % 32).toNat = 1 := rfl
  rw [hzero, hminus]
  cases s with
  | lshft =>
    simp only [Shift.result, hcount, pow_one, reduceCtorEq, false_and, or_false]
    rw [Int.bmod_def]
    split <;> omega
  | rshft =>
    simp only [Shift.result, hcount, pow_one, true_and]
    omega
  | zrshft =>
    simp only [Shift.result, hcount, pow_one, reduceCtorEq, false_and, or_false]
    omega

/-- `true` on the left is 1. -/
theorem result_one (hb : 0 ≤ b.toInt ∧ b.toInt < 32) :
    s.result 1 b.toInt = 0 ↔ s ≠ .lshft ∧ b ≠ 0 := by
  have hzero : b = 0 ↔ b.toInt = 0 := toInt_eq_zero.symm
  have hmod : b.toInt % 32 = b.toInt := Int.emod_eq_of_lt hb.1 hb.2
  obtain ⟨m, hm⟩ := Int.eq_ofNat_of_zero_le hb.1
  rw [ne_eq, ne_eq, hzero]
  simp only [Shift.result, hmod]
  rw [hm, Int.toNat_natCast]
  have hlt : m < 32 := by omega
  have hdiv : (1 : ℤ) / 2 ^ m = 0 ↔ ¬ (m : ℤ) = 0 := by
    rcases Nat.eq_zero_or_pos m with rfl | hpos
    · simp
    · have hpow : (2 : ℤ) ^ 1 ≤ 2 ^ m := pow_le_pow_right₀ (by decide) hpos
      exact iff_of_true (Int.ediv_eq_zero_of_lt (by decide) (by omega)) (by omega)
  cases s with
  | lshft =>
    have hpos : (0 : ℤ) < 2 ^ m := Int.pow_pos (by decide)
    have hpow : (2 : ℤ) ^ m ≤ 2 ^ 31 := pow_le_pow_right₀ (by decide) (by omega)
    refine iff_of_false ?_ fun h => h.1 rfl
    show ¬ (1 * 2 ^ m : ℤ).bmod (2 ^ 32) = 0
    rw [Int.one_mul, Int.bmod_def]
    split <;> omega
  | rshft =>
    rw [hdiv]
    simp
  | zrshft =>
    rw [show (1 : ℤ) % 2 ^ 32 = 1 from rfl, hdiv]
    simp

theorem shift_agrees (hl : Operand l a) (hr : Operand r b) (hb : 0 ≤ b.toInt ∧ b.toInt < 32) :
    (shift s).Coerces address l r a b ↔ (shift s).Agrees l r a b := by
  have hzero : b ≠ 0 ↔ 0 < b.toInt := by
    rw [ne_eq, ← toInt_eq_zero]
    omega
  cases hl with
  | integer =>
    cases hr with
    | integer =>
      refine (Shift.follows_iff.trans Shift.compute_iff).trans ?_
      cases s with
      | lshft => exact ⟨fun h => ⟨nofun, nofun, fun _ _ => h⟩, fun h => h.2.2 rfl rfl⟩
      | rshft => exact iff_of_true ⟨hb, trivial⟩ ⟨nofun, nofun⟩
      | zrshft =>
        rw [Agrees, hzero]
        exact ⟨fun h => ⟨nofun, nofun, h.2⟩, fun h => ⟨hb, h.2.2⟩⟩
    | one =>
      rw [shift_right_answer rfl]
      refine result_count_one.trans ?_
      cases s with
      | lshft =>
        simp only [reduceCtorEq, false_and, or_false]
        exact ⟨fun h => ⟨nofun, fun _ => h, nofun⟩, fun h => h.2.1 rfl⟩
      | rshft =>
        simp only [true_and]
        exact ⟨fun h => ⟨nofun, fun _ _ => h⟩, fun h => h.2 rfl rfl⟩
      | zrshft =>
        simp only [reduceCtorEq, false_and, or_false]
        exact ⟨fun h => ⟨nofun, fun _ _ => h, .inr (by decide)⟩, fun h => h.2.1 rfl rfl⟩
    | zero hblank =>
      rw [shift_right_answer hblank.isNumber]
      refine result_count_zero.trans ?_
      have hne := hblank.ne_true
      cases s with
      | lshft =>
        refine iff_of_true nofun ⟨nofun, fun h => absurd h hne, fun _ h => ?_⟩
        rw [h] at hblank
        cases hblank.isNumber
      | rshft => exact iff_of_true nofun ⟨nofun, fun h => absurd h hne⟩
      | zrshft =>
        exact ⟨fun h => ⟨nofun, fun h => absurd h hne, .inl (h rfl)⟩,
          fun h _ => h.2.2.resolve_right fun h => h rfl⟩
  | one =>
    rw [shift_left_answer rfl]
    refine (result_one hb).trans ?_
    cases s with
    | lshft => exact iff_of_false (fun h => h.1 rfl) fun h => h.1 rfl
    | rshft => exact ⟨fun h => ⟨fun _ => h.2, nofun⟩, fun h => ⟨nofun, h.1 rfl⟩⟩
    | zrshft =>
      exact ⟨fun h => ⟨fun _ => h.2, nofun, .inl (by decide)⟩, fun h => ⟨nofun, h.1 rfl⟩⟩
  | zero hblank =>
    have hne := hblank.ne_true
    have hinteger : l ≠ .integer 0 := by
      rintro rfl
      cases hblank.isNumber
    rw [shift_left_answer hblank.isNumber]
    refine iff_of_true result_zero ?_
    cases s with
    | lshft => exact ⟨hne, fun _ => rfl, fun h => absurd h hinteger⟩
    | rshft => exact ⟨fun h => absurd h hne, fun _ h => absurd h hinteger⟩
    | zrshft => exact ⟨fun h => absurd h hne, fun _ h => absurd h hinteger, .inl (by decide)⟩

end Bitwise

open Bitwise in
/-- **Coercion of bitwise operands.**  On integers, booleans, null and undefined, with a shift
count in 0..31, an operator leaves its result on the converted operands if and only if the
operands are such that the answers of its handler agree with the conversion. -/
theorem bitwise_coerces_iff (address : JSValue → CInt) (op : Bitwise) (l r : JSValue)
    (a b : CInt) (hl : l.toInt32? = some a) (hr : r.toInt32? = some b) (hb : op.InRange b) :
    op.Coerces address l r a b ↔ op.Agrees l r a b := by
  have hleft := operand_of_toInt32? hl
  have hright := operand_of_toInt32? hr
  cases op with
  | and => exact and_agrees hleft hright
  | or => exact or_agrees hleft hright
  | xor => exact xor_agrees hleft hright
  | not => exact iff_of_true (not_coerces hright) trivial
  | shift s => exact shift_agrees hleft hright hb

theorem bitwise_coerces_iff_null_or_five :
    JSValue.null.toInt32? = some 0 ∧ (JSValue.integer 5).toInt32? = some 5 ∧
      Bitwise.or.InRange 5 ∧ (Bitwise.or.Coerces (fun _ => 0) .null (.integer 5) 0 5 ↔
        Bitwise.or.Agrees .null (.integer 5) 0 5) :=
  ⟨rfl, rfl, trivial,
    bitwise_coerces_iff (fun _ => 0) .or .null (.integer 5) 0 5 rfl rfl trivial⟩

/-- `true & 3` is 1, and the handler answers 0. -/
theorem bitwise_true_and_three : ¬ ∀ (address : JSValue → CInt) (op : Bitwise) (l r : JSValue)
    (a b : CInt), l.toInt32? = some a → r.toInt32? = some b → op.InRange b →
      op.Coerces address l r a b := by
  intro hclaim
  have hcoerces := hclaim (fun _ => 0) .and (.boolean true) (.integer 3) 1 3 rfl rfl trivial
  have hvalue : Bitwise.and.value (fun _ => 0) (.boolean true) (.integer 3) =
      .ok (.integer 0) := rfl
  exact absurd ((Bitwise.coerces_of_value hvalue).mp hcoerces) (by decide)

end AtomixJS
