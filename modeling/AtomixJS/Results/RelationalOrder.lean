import AtomixJS.Core.Numbers

/-!
# The relational operators

The four handlers have one shape: a boolean and null become integers, undefined answers
false, and two numbers are compared as integers if both are, else as doubles.  As an `int`
becomes a double without rounding, every answer is that of one order, the one of the number
line (`relational_eq`), and the laws between the handlers are the laws of that order.
-/

namespace AtomixJS

open Binary64 (Extended)

/-- The operands that the relational handlers compare. -/
def JSValue.isComparable : JSValue → Bool
  | .integer _ | .double _ | .boolean _ | .null | .undefined => true
  | _ => false

/-- The number that an operand converts to.  `undefined` and NaN have none. -/
def JSValue.toNumber : JSValue → Option Extended
  | .boolean b => some (Extended.ofInt (if b then 1 else 0))
  | .null => some (Extended.ofInt 0)
  | v => v.number?

inductive Relational
  | gt | geq | lt | leq
  deriving DecidableEq

namespace Relational

def opcode : Relational → BinaryOpcode
  | gt => .gt
  | geq => .geq
  | lt => .lt
  | leq => .leq

/-- The relation on the number line. -/
def rel : Relational → Extended → Extended → Prop
  | gt, p, q => q < p
  | geq, p, q => q ≤ p
  | lt, p, q => p < q
  | leq, p, q => p ≤ q

instance (op : Relational) (p q : Extended) : Decidable (op.rel p q) :=
  match op with
  | gt => inferInstanceAs (Decidable (q < p))
  | geq => inferInstanceAs (Decidable (q ≤ p))
  | lt => inferInstanceAs (Decidable (p < q))
  | leq => inferInstanceAs (Decidable (p ≤ q))

/-- Whether two operands are numbers in the relation. -/
def answer (op : Relational) (l r : JSValue) : Bool :=
  match l.toNumber, r.toNumber with
  | some p, some q => op.rel p q
  | _, _ => false

/-- The laws of order between the answers of the operators. -/
structure Laws (answer : Relational → JSValue → JSValue → Bool) : Prop where
  gt_eq_lt : ∀ l r : JSValue, l.isComparable → r.isComparable → answer gt l r = answer lt r l
  geq_eq_leq : ∀ l r : JSValue, l.isComparable → r.isComparable → answer geq l r = answer leq r l
  /-- Two numbers are less, greater or equal, and only one of it. -/
  trichotomy : ∀ (l r : JSValue) (p q : Extended), l.isComparable → r.isComparable →
    l.toNumber = some p → r.toNumber = some q →
      (answer lt l r = true ∧ answer gt l r = false ∧ p ≠ q) ∨
      (answer lt l r = false ∧ answer gt l r = true ∧ p ≠ q) ∨
      (answer lt l r = false ∧ answer gt l r = false ∧ p = q)
  geq_not_lt : ∀ l r : JSValue, l.isComparable → r.isComparable → l.toNumber.isSome →
    r.toNumber.isSome → answer geq l r = !answer lt l r
  leq_not_gt : ∀ l r : JSValue, l.isComparable → r.isComparable → l.toNumber.isSome →
    r.toNumber.isSome → answer leq l r = !answer gt l r
  nan : ∀ (op : Relational) (l r : JSValue), l.isComparable → r.isComparable →
    l.toNumber = none ∨ r.toNumber = none → answer op l r = false
  trans : ∀ (op : Relational) (l m r : JSValue), l.isComparable → m.isComparable →
    r.isComparable → answer op l m = true → answer op m r = true → answer op l r = true

variable {op : Relational} {l r m v : JSValue} {address : JSValue → CInt}

/-! ## The handlers -/

/-- The comparison of two `int`s. -/
def ints : Relational → ℤ → ℤ → Bool
  | gt, l, r => r < l
  | geq, l, r => r ≤ l
  | lt, l, r => l < r
  | leq, l, r => l ≤ r

/-- The comparison of two doubles. -/
def doubles : Relational → Binary64 → Binary64 → Bool
  | gt, l, r => r.lt l
  | geq, l, r => r.le l
  | lt, l, r => l.lt r
  | leq, l, r => l.le r

theorem ints_eq (op : Relational) (i j : ℤ) :
    op.ints i j = decide (op.rel (Extended.ofInt i) (Extended.ofInt j)) := by
  have hle : ∀ i j, Extended.ofInt i ≤ Extended.ofInt j ↔ i ≤ j := by
    intro i j
    rw [← not_lt, ← not_lt, Binary64.Extended.ofInt_lt]
  cases op <;> simp only [ints, rel, hle, Binary64.Extended.ofInt_lt]

theorem doubles_iff (op : Relational) (x y : Binary64) :
    op.doubles x y = true ↔ x.isNaN = false ∧ y.isNaN = false ∧ op.rel x.value y.value := by
  cases op with
  | gt => exact Binary64.lt_iff.trans and_left_comm
  | geq => exact Binary64.le_iff.trans and_left_comm
  | lt => exact Binary64.lt_iff
  | leq => exact Binary64.le_iff

/-- The comparison of two numbers. -/
theorem doubles_eq (op : Relational) (x y : Binary64) :
    op.doubles x y = op.answer (.double x) (.double y) := by
  rw [Bool.eq_iff_iff, doubles_iff]
  simp only [answer, JSValue.toNumber, JSValue.number?]
  cases hx : x.isNaN <;> cases hy : y.isNaN <;> simp

theorem answer_congr {l' r' : JSValue} (hl : l.toNumber = l'.toNumber)
    (hr : r.toNumber = r'.toNumber) : op.answer l r = op.answer l' r' := by
  unfold answer
  rw [hl, hr]

/-- What the handlers compare: a number that converts to the same. -/
theorem compared (hv : v.isComparable = true) (hundefined : v ≠ .undefined) :
    (∃ i, nullToInt (retagBoolean v) = .integer i ∧ v.toNumber = (JSValue.integer i).toNumber) ∨
      ∃ d, nullToInt (retagBoolean v) = .double d ∧ v = .double d := by
  cases v with
  | integer i => exact .inl ⟨i, rfl, rfl⟩
  | double d => exact .inr ⟨d, rfl, rfl⟩
  | boolean b =>
    refine .inl ⟨if b then 1 else 0, rfl, ?_⟩
    cases b <;> rfl
  | null => exact .inl ⟨0, rfl, rfl⟩
  | undefined => exact absurd rfl hundefined
  | _ => cases hv

theorem relational_eq (hl : l.isComparable = true) (hr : r.isComparable = true) :
    relational op.ints op.doubles l r = .ok (.boolean (op.answer l r)) := by
  have hundefined : ∀ v : JSValue, (retagBoolean v).isUndefined = true ↔ v = .undefined := by
    intro v
    cases v <;> simp [retagBoolean, JSValue.isUndefined]
  -- an integer is the double that it is converted to
  have hinteger : ∀ i : CInt,
      (JSValue.integer i).toNumber = (JSValue.double (Binary64.ofInt i.toInt)).toNumber :=
    number?_integer_eq
  have hboolean : ∀ {b b' : Bool}, b = b' →
      (.ok (.boolean b) : Except Fault JSValue) = .ok (.boolean b') := fun h => h ▸ rfl
  unfold relational
  by_cases hnone : l = .undefined ∨ r = .undefined
  · have hanswer : op.answer l r = false := by
      rcases hnone with rfl | rfl
      · rfl
      · unfold answer
        cases l.toNumber <;> rfl
    rw [if_pos, hanswer]
    rw [Bool.or_eq_true, hundefined, hundefined]
    exact hnone
  · rw [if_neg]
    · rw [not_or] at hnone
      rcases compared hl hnone.1 with ⟨i, hleft, hi⟩ | ⟨x, hleft, rfl⟩ <;>
        rcases compared hr hnone.2 with ⟨j, hright, hj⟩ | ⟨y, hright, rfl⟩ <;>
        rw [hleft, hright]
      · exact hboolean ((ints_eq op _ _).trans (answer_congr hi hj).symm)
      · exact hboolean ((doubles_eq op _ y).trans (answer_congr (hi.trans (hinteger i)) rfl).symm)
      · exact hboolean ((doubles_eq op x _).trans (answer_congr rfl (hj.trans (hinteger j))).symm)
      · exact hboolean (doubles_eq op x y)
    · rw [Bool.or_eq_true, hundefined, hundefined]
      exact hnone

theorem leaves_answer (op : Relational) (hl : l.isComparable = true)
    (hr : r.isComparable = true) :
    Leaves (instBinary address op.opcode) [r, l] (· = .boolean (op.answer l r)) := by
  refine leaves_binary.mpr ⟨?_, _, ?_, rfl⟩
  · cases op <;> rfl
  · rw [← relational_eq hl hr]
    cases op <;> rfl

/-! ## The laws -/

theorem answer_of_numbers {p q : Extended} (hl : l.toNumber = some p) (hr : r.toNumber = some q) :
    op.answer l r = decide (op.rel p q) := by
  unfold answer
  rw [hl, hr]

theorem answer_of_rel (op : Relational) {p q : Extended} (hl : l.toNumber = some p) (hr : r.toNumber = some q)
    (h : op.rel p q) : op.answer l r = true :=
  (answer_of_numbers hl hr).trans (decide_eq_true h)

theorem answer_of_not_rel (op : Relational) {p q : Extended} (hl : l.toNumber = some p)
    (hr : r.toNumber = some q) (h : ¬ op.rel p q) : op.answer l r = false :=
  (answer_of_numbers hl hr).trans (decide_eq_false h)

theorem answer_eq_true : op.answer l r = true ↔
    ∃ p q, l.toNumber = some p ∧ r.toNumber = some q ∧ op.rel p q := by
  unfold answer
  cases l.toNumber <;> cases r.toNumber <;> simp

theorem rel_trans {p q s : Extended} (h : op.rel p q) (h' : op.rel q s) : op.rel p s := by
  cases op with
  | gt => exact lt_trans h' h
  | geq => exact le_trans h' h
  | lt => exact lt_trans h h'
  | leq => exact le_trans h h'

theorem laws : Laws answer where
  gt_eq_lt l r _ _ := by
    unfold answer
    cases l.toNumber <;> cases r.toNumber <;> rfl
  geq_eq_leq l r _ _ := by
    unfold answer
    cases l.toNumber <;> cases r.toNumber <;> rfl
  trichotomy l r p q _ _ hp hq := by
    have htrue : ∀ {op : Relational}, op.rel p q → op.answer l r = true :=
      answer_of_rel _ hp hq
    have hfalse : ∀ {op : Relational}, ¬ op.rel p q → op.answer l r = false :=
      answer_of_not_rel _ hp hq
    rcases lt_trichotomy p q with h | rfl | h
    · exact .inl ⟨htrue h, hfalse (not_lt_of_gt h), ne_of_lt h⟩
    · exact .inr (.inr ⟨hfalse (lt_irrefl p), hfalse (lt_irrefl p), rfl⟩)
    · exact .inr (.inl ⟨hfalse (not_lt_of_gt h), htrue h, ne_of_gt h⟩)
  geq_not_lt l r _ _ hl hr := by
    obtain ⟨p, hp⟩ := Option.isSome_iff_exists.mp hl
    obtain ⟨q, hq⟩ := Option.isSome_iff_exists.mp hr
    rcases lt_or_ge p q with h | h
    · rw [answer_of_rel lt hp hq h, answer_of_not_rel geq hp hq (not_le_of_gt h)]
      rfl
    · rw [answer_of_rel geq hp hq h, answer_of_not_rel lt hp hq (not_lt_of_ge h)]
      rfl
  leq_not_gt l r _ _ hl hr := by
    obtain ⟨p, hp⟩ := Option.isSome_iff_exists.mp hl
    obtain ⟨q, hq⟩ := Option.isSome_iff_exists.mp hr
    rcases lt_or_ge q p with h | h
    · rw [answer_of_rel gt hp hq h, answer_of_not_rel leq hp hq (not_le_of_gt h)]
      rfl
    · rw [answer_of_rel leq hp hq h, answer_of_not_rel gt hp hq (not_lt_of_ge h)]
      rfl
  nan op l r _ _ hnone := by
    unfold answer
    rcases hnone with h | h
    · rw [h]
    · rw [h]
      cases l.toNumber <;> rfl
  trans op l m r _ _ _ hlm hmr := by
    obtain ⟨p, q, hp, hq, hpq⟩ := answer_eq_true.mp hlm
    obtain ⟨q', s, hq', hs, hqs⟩ := answer_eq_true.mp hmr
    obtain rfl := Option.some.inj (hq.symm.trans hq')
    exact answer_eq_true.mpr ⟨p, s, hp, hs, rel_trans hpq hqs⟩

end Relational

/-- **Relational operators.**  On integers, booleans, null, undefined and doubles every
relational opcode leaves a boolean, and the answers obey the laws of order. -/
theorem relational_order (address : JSValue → CInt) :
    ∃ answer : Relational → JSValue → JSValue → Bool,
      (∀ (op : Relational) (l r : JSValue), l.isComparable → r.isComparable →
        Leaves (instBinary address op.opcode) [r, l] (· = .boolean (answer op l r))) ∧
      Relational.Laws answer :=
  ⟨Relational.answer, fun op _ _ hl hr => Relational.leaves_answer op hl hr, Relational.laws⟩

end AtomixJS
