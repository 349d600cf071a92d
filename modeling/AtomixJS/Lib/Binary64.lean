import Mathlib

/-!
# Binary64 floating point on bit patterns

A double is its 64-bit pattern, so that NaN payloads and the two zeros stay
apart.  Every finite double is an integer multiple of `2 ^ (-1074)`; that
integer is `scaled`, and all arithmetic is exact integer arithmetic on it
followed by one rounding to nearest, ties to even.

The rounding is `roundMagnitude`.  It reads a nonnegative rational `n / d` in
units of `2 ^ (-1074)` and returns the pattern without its sign bit.  With
`s` the number of bits by which the integer part of `n / d` exceeds 53 bits and
`m` the rounded quotient of `n` by `d * 2 ^ s`, the pattern is
`s * 2 ^ 52 + m`: this one formula covers subnormal numbers (`s = 0`,
`m < 2 ^ 52`), normal numbers, where the leading bit of `m` adds the one that
the biased exponent lacks, and the carry of `m` into the next binade.
-/

/-- A double, given by its bit pattern. -/
structure Binary64 where
  bits : BitVec 64
  deriving DecidableEq, Repr

namespace Binary64

/-- One double unit in the last place of the smallest binade: `2 ^ 1074` of
them make one. -/
def one : ℕ := 2 ^ 1074

/-! ## Fields and classes -/

def negative (x : Binary64) : Bool := x.bits.msb

def exponentField (x : Binary64) : ℕ := x.bits.toNat / 2 ^ 52 % 2 ^ 11

def mantissaField (x : Binary64) : ℕ := x.bits.toNat % 2 ^ 52

def isNaN (x : Binary64) : Bool := x.exponentField = 2047 ∧ x.mantissaField ≠ 0

def isInfinite (x : Binary64) : Bool := x.exponentField = 2047 ∧ x.mantissaField = 0

def isFinite (x : Binary64) : Bool := x.exponentField ≠ 2047

/-- The absolute value of a finite double, in units of `2 ^ (-1074)`. -/
def scaledAbs (x : Binary64) : ℕ :=
  if x.exponentField = 0 then x.mantissaField
  else (2 ^ 52 + x.mantissaField) * 2 ^ (x.exponentField - 1)

/-- The value of a finite double, in units of `2 ^ (-1074)`. -/
def scaled (x : Binary64) : ℤ := if x.negative then -x.scaledAbs else x.scaledAbs

/-- Position of a double that is not NaN on the extended number line: the
infinities lie beyond every finite value. -/
def position (x : Binary64) : ℤ :=
  if x.isInfinite then (if x.negative then -2 ^ 2098 else 2 ^ 2098) else x.scaled

/-! ## Building doubles -/

/-- The double with the given sign and the given pattern below the sign bit. -/
def ofMagnitude (neg : Bool) (magnitude : ℕ) : Binary64 :=
  ⟨BitVec.ofNat 64 (magnitude + if neg then 2 ^ 63 else 0)⟩

def nan : Binary64 := ofMagnitude false (2047 * 2 ^ 52 + 2 ^ 51)

def infinity (neg : Bool) : Binary64 := ofMagnitude neg (2047 * 2 ^ 52)

def zero (neg : Bool) : Binary64 := ofMagnitude neg 0

/-- `n / d` rounded to an integer, ties to even. -/
def halfEven (n d : ℕ) : ℕ :=
  if 2 * (n % d) < d then n / d
  else if d < 2 * (n % d) then n / d + 1
  else n / d + n / d % 2

/-- The pattern below the sign bit of `n / d` units, rounded to nearest. -/
def roundMagnitude (n d : ℕ) : ℕ :=
  let shift := Nat.log2 (n / d) - 52
  min (shift * 2 ^ 52 + halfEven n (d * 2 ^ shift)) (2047 * 2 ^ 52)

/-- The double nearest to `± n / d` units. -/
def round (neg : Bool) (n d : ℕ) : Binary64 := ofMagnitude neg (roundMagnitude n d)

/-- The double nearest to an integer. -/
def ofInt (i : ℤ) : Binary64 := round (i < 0) (i.natAbs * one) 1

/-! ## Arithmetic -/

def neg (x : Binary64) : Binary64 := ⟨x.bits ^^^ BitVec.twoPow 64 63⟩

def add (x y : Binary64) : Binary64 :=
  if x.isNaN || y.isNaN then nan
  else if x.isInfinite then (if y.isInfinite && x.negative != y.negative then nan else x)
  else if y.isInfinite then y
  else
    let sum := x.scaled + y.scaled
    if sum = 0 then zero (x.negative && y.negative) else round (sum < 0) sum.natAbs 1

def sub (x y : Binary64) : Binary64 := if y.isNaN then nan else x.add y.neg

def mul (x y : Binary64) : Binary64 :=
  let sign := x.negative != y.negative
  if x.isNaN || y.isNaN then nan
  else if x.isInfinite || y.isInfinite then
    if (x.isFinite && x.scaled = 0) || (y.isFinite && y.scaled = 0) then nan else infinity sign
  else round sign (x.scaledAbs * y.scaledAbs) one

def div (x y : Binary64) : Binary64 :=
  let sign := x.negative != y.negative
  if x.isNaN || y.isNaN then nan
  else if x.isInfinite then (if y.isInfinite then nan else infinity sign)
  else if y.isInfinite then zero sign
  else if y.scaled = 0 then (if x.scaled = 0 then nan else infinity sign)
  else round sign (x.scaledAbs * one) y.scaledAbs

/-- The remainder of `fmod`: exact, with the sign of `x`. -/
def fmod (x y : Binary64) : Binary64 :=
  if x.isNaN || y.isNaN || x.isInfinite || (y.isFinite && y.scaled = 0) then nan
  else if y.isInfinite then x
  else round x.negative (x.scaledAbs % y.scaledAbs) 1

/-! ## Comparison and conversion -/

def eq (x y : Binary64) : Bool := !x.isNaN && !y.isNaN && x.position = y.position

def lt (x y : Binary64) : Bool := !x.isNaN && !y.isNaN && x.position < y.position

def le (x y : Binary64) : Bool := !x.isNaN && !y.isNaN && x.position ≤ y.position

/-- The integer part, towards zero, of a finite double. -/
def trunc? (x : Binary64) : Option ℤ :=
  if x.isFinite then some (x.scaled.tdiv one) else none

/-- The value of a double that is a whole number. -/
def whole? (x : Binary64) : Option ℤ :=
  if x.isFinite && x.scaled % one = 0 then some (x.scaled / one) else none

/-- The conversion to a 32-bit integer, where C defines it: the integer part
has to fit. -/
def toInt32? (x : Binary64) : Option (BitVec 32) :=
  match x.trunc? with
  | none => none
  | some i => if -2 ^ 31 ≤ i ∧ i < 2 ^ 31 then some (BitVec.ofInt 32 i) else none

example : (add (ofInt 1) (ofInt 2)).eq (ofInt 3) := by decide +kernel

example : (div (ofInt 1) (ofInt 10)).bits = 0x3FB999999999999A#64 := by decide +kernel

/-! ## Integers -/

theorem halfEven_mul (a d : ℕ) (hd : 0 < d) : halfEven (a * d) d = a := by
  unfold halfEven
  rw [Nat.mul_mod_left, if_pos (by omega), Nat.mul_div_cancel a hd]

theorem one_eq {k : ℕ} (hk : k ≤ 52) : one = 2 ^ (52 - k) * 2 ^ (k + 1022) := by
  rw [← Nat.pow_add, one, show 52 - k + (k + 1022) = 1074 by omega]

/-- The significand of an integer below `2 ^ 53` whose leading bit has number
`k`. -/
theorem significand {n k : ℕ} (hlow : 2 ^ k ≤ n) (hhigh : n < 2 ^ (k + 1)) (hk : k ≤ 52) :
    2 ^ 52 ≤ n * 2 ^ (52 - k) ∧ n * 2 ^ (52 - k) < 2 ^ 53 := by
  have hfirst : 2 ^ k * 2 ^ (52 - k) = 2 ^ 52 := by
    rw [← Nat.pow_add, Nat.add_sub_cancel' hk]
  have hlast : 2 ^ (k + 1) * 2 ^ (52 - k) = 2 ^ 53 := by
    rw [← Nat.pow_add]
    congr 1
    omega
  have hpos : 0 < 2 ^ (52 - k) := Nat.two_pow_pos _
  exact ⟨hfirst ▸ Nat.mul_le_mul_right _ hlow, hlast ▸ Nat.mul_lt_mul_of_pos_right hhigh hpos⟩

/-- Nothing is rounded. -/
theorem roundMagnitude_of_le {n k : ℕ} (hlow : 2 ^ k ≤ n) (hhigh : n < 2 ^ (k + 1))
    (hk : k ≤ 52) :
    roundMagnitude (n * one) 1 = (k + 1022) * 2 ^ 52 + n * 2 ^ (52 - k) := by
  obtain ⟨hsmall, hlarge⟩ := significand hlow hhigh hk
  have hscaled : n * one = n * 2 ^ (52 - k) * 2 ^ (k + 1022) := by
    rw [one_eq hk, Nat.mul_assoc]
  have hlog : (n * one).log2 = k + 1074 := by
    have hpos : 0 < 2 ^ (k + 1022) := Nat.two_pow_pos _
    have hsplit : ∀ j, 2 ^ (j + (k + 1022)) = 2 ^ j * 2 ^ (k + 1022) := fun j => Nat.pow_add 2 j _
    have hne : n * 2 ^ (52 - k) * 2 ^ (k + 1022) ≠ 0 :=
      Nat.ne_of_gt (Nat.mul_pos (Nat.lt_of_lt_of_le (by decide) hsmall) hpos)
    rw [hscaled, Nat.log2_eq_iff hne, show k + 1074 = 52 + (k + 1022) by omega,
      show 52 + (k + 1022) + 1 = 53 + (k + 1022) by omega, hsplit, hsplit]
    exact ⟨Nat.mul_le_mul_right _ hsmall, Nat.mul_lt_mul_of_pos_right hlarge hpos⟩
  simp only [roundMagnitude, Nat.div_one, hlog, show k + 1074 - 52 = k + 1022 by omega,
    Nat.one_mul]
  rw [hscaled, halfEven_mul _ _ (Nat.two_pow_pos _)]
  exact Nat.min_eq_left (by omega)

variable {x y : Binary64} {neg : Bool} {m : ℕ} {i : ℤ}

theorem toNat_ofMagnitude (h : m < 2 ^ 63) :
    (ofMagnitude neg m).bits.toNat = m + if neg then 2 ^ 63 else 0 := by
  simp only [ofMagnitude, BitVec.toNat_ofNat]
  apply Nat.mod_eq_of_lt
  split <;> omega

theorem negative_ofMagnitude (h : m < 2 ^ 63) : (ofMagnitude neg m).negative = neg := by
  rw [negative, BitVec.msb_eq_decide, toNat_ofMagnitude h]
  cases neg with
  | false => simpa using h
  | true => simp

theorem exponentField_ofMagnitude (neg : Bool) (h : m < 2 ^ 63) :
    (ofMagnitude neg m).exponentField = m / 2 ^ 52 := by
  rw [exponentField, toNat_ofMagnitude h]
  split <;> omega

theorem mantissaField_ofMagnitude (neg : Bool) (h : m < 2 ^ 63) :
    (ofMagnitude neg m).mantissaField = m % 2 ^ 52 := by
  rw [mantissaField, toNat_ofMagnitude h]
  split <;> omega

theorem one_pos : 0 < one := by
  rw [one]
  generalize 1074 = k
  exact Nat.two_pow_pos k

/-- Up to `2 ^ 53`, an integer becomes a double without rounding. -/
theorem ofInt_exact (hi : i.natAbs < 2 ^ 53) :
    (ofInt i).isFinite = true ∧ (ofInt i).scaled = i * one := by
  have hround : ofInt i = ofMagnitude (i < 0) (roundMagnitude (i.natAbs * one) 1) := rfl
  -- the fields of the pattern, and the absolute value in units
  have hvalue : (ofInt i).isFinite = true ∧ (ofInt i).negative = decide (i < 0) ∧
      (ofInt i).scaledAbs = i.natAbs * one := by
    rcases Nat.eq_zero_or_pos i.natAbs with hzero | hpos
    · obtain rfl := Int.natAbs_eq_zero.mp hzero
      have hmagnitude : roundMagnitude ((0 : ℤ).natAbs * one) 1 = 0 := by
        rw [Int.natAbs_zero, Nat.zero_mul]
        rfl
      rw [hround, hmagnitude, Int.natAbs_zero, Nat.zero_mul]
      decide
    · obtain ⟨hlow, hhigh⟩ := (Nat.log2_eq_iff (k := i.natAbs.log2) (by omega)).mp rfl
      have hk : i.natAbs.log2 ≤ 52 := Nat.le_of_lt_succ ((Nat.log2_lt (by omega)).mpr hi)
      obtain ⟨hsmall, hlarge⟩ := significand hlow hhigh hk
      rw [hround, roundMagnitude_of_le hlow hhigh hk]
      generalize hs : i.natAbs * 2 ^ (52 - i.natAbs.log2) = s at hsmall hlarge
      have hmagnitude : (i.natAbs.log2 + 1022) * 2 ^ 52 + s < 2 ^ 63 := by omega
      have hexponent := exponentField_ofMagnitude (decide (i < 0)) hmagnitude
      have hmantissa := mantissaField_ofMagnitude (decide (i < 0)) hmagnitude
      rw [show ((i.natAbs.log2 + 1022) * 2 ^ 52 + s) / 2 ^ 52 = i.natAbs.log2 + 1023 by omega]
        at hexponent
      rw [show ((i.natAbs.log2 + 1022) * 2 ^ 52 + s) % 2 ^ 52 = s - 2 ^ 52 by omega] at hmantissa
      refine ⟨?_, negative_ofMagnitude hmagnitude, ?_⟩
      · rw [isFinite, hexponent]
        exact decide_eq_true (by omega)
      · rw [scaledAbs, hexponent, hmantissa, if_neg (by omega), Nat.add_sub_cancel' hsmall,
          show i.natAbs.log2 + 1023 - 1 = i.natAbs.log2 + 1022 from rfl, ← hs, Nat.mul_assoc,
          ← one_eq hk]
  obtain ⟨hfinite, hnegative, habs⟩ := hvalue
  refine ⟨hfinite, ?_⟩
  rw [scaled, hnegative, habs]
  by_cases hneg : i < 0
  · rw [if_pos (decide_eq_true hneg), Nat.cast_mul, Int.ofNat_natAbs_of_nonpos (le_of_lt hneg)]
    ring
  · rw [if_neg (by simpa using hneg), Nat.cast_mul, Int.natAbs_of_nonneg (Int.not_lt.mp hneg)]

/-- An integer that a double holds is the integer it was made from. -/
theorem whole?_ofInt {n : ℕ} (hn : n < 2 ^ 53) : (ofInt n).whole? = some (n : ℤ) := by
  obtain ⟨hfinite, hscaled⟩ := ofInt_exact (i := (n : ℤ)) (by simpa using hn)
  have hone : (one : ℤ) ≠ 0 := by exact_mod_cast Nat.ne_of_gt one_pos
  rw [whole?, hfinite, hscaled, Int.mul_emod_left, Int.mul_ediv_cancel _ hone]
  rfl

/-! ## The number line -/

/-- The rational numbers and two infinities. -/
abbrev Extended := WithBot (WithTop ℚ)

/-- An integer on the number line. -/
def Extended.ofInt (i : ℤ) : Extended := ((i : ℚ) : WithTop ℚ)

/-- The number that a double stands for, unless it is NaN. -/
def value (x : Binary64) : Extended :=
  if x.isInfinite then (if x.negative then ⊥ else ((⊤ : WithTop ℚ) : Extended))
  else (((x.scaled : ℚ) / (one : ℚ) : ℚ) : WithTop ℚ)

theorem Extended.ofInt_lt {j : ℤ} : Extended.ofInt i < Extended.ofInt j ↔ i < j := by
  rw [Extended.ofInt, Extended.ofInt, WithBot.coe_lt_coe, WithTop.coe_lt_coe, Int.cast_lt]

theorem Extended.ofInt_inj {j : ℤ} : Extended.ofInt i = Extended.ofInt j ↔ i = j := by
  rw [Extended.ofInt, Extended.ofInt, WithBot.coe_inj, WithTop.coe_inj, Int.cast_inj]

theorem isInfinite_of_isFinite (h : x.isFinite = true) : x.isInfinite = false :=
  decide_eq_false fun hinfinite => of_decide_eq_true h hinfinite.1

theorem isNaN_of_isFinite (h : x.isFinite = true) : x.isNaN = false :=
  decide_eq_false fun hnan => of_decide_eq_true h hnan.1

theorem isFinite_of_not (hnan : x.isNaN = false) (hinfinite : x.isInfinite = false) :
    x.isFinite = true := by
  apply decide_eq_true
  intro hexponent
  by_cases hzero : x.mantissaField = 0
  · exact of_decide_eq_false hinfinite ⟨hexponent, hzero⟩
  · exact of_decide_eq_false hnan ⟨hexponent, hzero⟩

theorem value_of_scaled (h : x.isFinite = true) (hscaled : x.scaled = i * one) :
    x.value = Extended.ofInt i := by
  have hone : (one : ℚ) ≠ 0 := by exact_mod_cast Nat.ne_of_gt one_pos
  rw [value, isInfinite_of_isFinite h, if_neg Bool.false_ne_true, hscaled, Extended.ofInt]
  push_cast
  rw [mul_div_cancel_right₀ _ hone]

theorem value_ofInt (hi : i.natAbs < 2 ^ 53) : (ofInt i).value = Extended.ofInt i :=
  value_of_scaled (ofInt_exact hi).1 (ofInt_exact hi).2

theorem isNaN_ofInt (hi : i.natAbs < 2 ^ 53) : (ofInt i).isNaN = false :=
  isNaN_of_isFinite (ofInt_exact hi).1

/-- A whole number lies where its integer does. -/
theorem value_of_whole? (h : x.whole? = some i) : x.value = Extended.ofInt i := by
  unfold whole? at h
  split at h
  · next hwhole =>
    obtain ⟨hfinite, hmod⟩ := (Bool.and_eq_true _ _).mp hwhole
    obtain rfl := Option.some.inj h
    have hdvd := Int.dvd_of_emod_eq_zero (of_decide_eq_true hmod)
    exact value_of_scaled hfinite (Int.ediv_mul_cancel hdvd).symm
  · cases h

/-- The infinities lie beyond every finite double. -/
theorem scaledAbs_lt (h : x.isFinite = true) : x.scaledAbs < 2 ^ 2098 := by
  have hexponent : x.exponentField < 2047 := by
    have hne := of_decide_eq_true h
    have hlt : x.exponentField < 2 ^ 11 := Nat.mod_lt _ (by decide)
    omega
  have hmantissa : x.mantissaField < 2 ^ 52 := Nat.mod_lt _ (by decide)
  have hexponent' : x.exponentField - 1 ≤ 2045 := by omega
  rw [show 2098 = 53 + 2045 from rfl, Nat.pow_add, scaledAbs]
  generalize 2045 = k at *
  split
  · calc x.mantissaField < 2 ^ 53 := by omega
      _ ≤ 2 ^ 53 * 2 ^ k := Nat.le_mul_of_pos_right _ (Nat.two_pow_pos k)
  · calc (2 ^ 52 + x.mantissaField) * 2 ^ (x.exponentField - 1)
        < 2 ^ 53 * 2 ^ (x.exponentField - 1) :=
          Nat.mul_lt_mul_of_pos_right (by omega) (Nat.two_pow_pos _)
      _ ≤ 2 ^ 53 * 2 ^ k :=
          Nat.mul_le_mul_left _ (Nat.pow_le_pow_right Nat.two_pos hexponent')

theorem scaled_lt (h : x.isFinite = true) : x.scaled < 2 ^ 2098 ∧ -2 ^ 2098 < x.scaled := by
  have habs : (x.scaledAbs : ℤ) < 2 ^ 2098 := by exact_mod_cast scaledAbs_lt h
  have hnonneg : (0 : ℤ) ≤ x.scaledAbs := Int.natCast_nonneg _
  rw [scaled]
  generalize (2 : ℤ) ^ 2098 = bound at *
  split <;> omega

/-- Positions are ordered as the numbers are. -/
theorem value_lt_iff (hx : x.isNaN = false) (hy : y.isNaN = false) :
    x.value < y.value ↔ x.position < y.position := by
  have hone : (0 : ℚ) < one := by exact_mod_cast one_pos
  have hbound : (0 : ℤ) < 2 ^ 2098 := Int.pow_pos (by decide)
  have htop : ∀ q : ℚ, ((q : WithTop ℚ) : Extended) < ((⊤ : WithTop ℚ) : Extended) :=
    fun q => WithBot.coe_lt_coe.mpr (WithTop.coe_lt_top q)
  have hbot : ∀ q : WithTop ℚ, (⊥ : Extended) < (q : Extended) := WithBot.bot_lt_coe
  have hxs := fun h => scaled_lt (isFinite_of_not hx h)
  have hys := fun h => scaled_lt (isFinite_of_not hy h)
  unfold value position
  generalize (one : ℚ) = unit at *
  generalize (2 : ℤ) ^ 2098 = bound at *
  cases hxi : x.isInfinite <;> cases hyi : y.isInfinite <;>
    simp only [Bool.false_eq_true, if_false, if_true]
  case false.false =>
    rw [WithBot.coe_lt_coe, WithTop.coe_lt_coe, div_lt_div_iff_of_pos_right hone, Int.cast_lt]
  case false.true =>
    obtain ⟨hlt, hgt⟩ := hxs hxi
    cases y.negative with
    | false => exact iff_of_true (htop _) hlt
    | true => exact iff_of_false (not_lt_of_gt (hbot _)) (not_lt_of_gt hgt)
  case true.false =>
    obtain ⟨hlt, hgt⟩ := hys hyi
    cases x.negative with
    | false => exact iff_of_false (not_lt_of_gt (htop _)) (not_lt_of_gt hlt)
    | true => exact iff_of_true (hbot _) hgt
  case true.true =>
    cases x.negative <;> cases y.negative
    case true.false => exact iff_of_true (hbot _) (show -bound < bound by omega)
    case false.true => exact iff_of_false (not_lt_of_gt (hbot _)) (show ¬ bound < -bound by omega)
    all_goals exact iff_of_false (lt_irrefl _) (lt_irrefl _)

theorem value_eq_iff (hx : x.isNaN = false) (hy : y.isNaN = false) :
    x.value = y.value ↔ x.position = y.position := by
  have hle := not_congr (value_lt_iff hx hy)
  have hge := not_congr (value_lt_iff hy hx)
  rw [not_lt, not_lt] at hle hge
  rw [le_antisymm_iff, le_antisymm_iff, hle, hge]

theorem lt_iff : x.lt y = true ↔ x.isNaN = false ∧ y.isNaN = false ∧ x.value < y.value := by
  rw [lt, Bool.and_eq_true, Bool.and_eq_true, Bool.not_eq_true', Bool.not_eq_true', and_assoc,
    decide_eq_true_iff]
  exact and_congr_right fun hx => and_congr_right fun hy => (value_lt_iff hx hy).symm

theorem eq_iff : x.eq y = true ↔ x.isNaN = false ∧ y.isNaN = false ∧ x.value = y.value := by
  rw [eq, Bool.and_eq_true, Bool.and_eq_true, Bool.not_eq_true', Bool.not_eq_true', and_assoc,
    decide_eq_true_iff]
  exact and_congr_right fun hx => and_congr_right fun hy => (value_eq_iff hx hy).symm

theorem le_iff : x.le y = true ↔ x.isNaN = false ∧ y.isNaN = false ∧ x.value ≤ y.value := by
  rw [le, Bool.and_eq_true, Bool.and_eq_true, Bool.not_eq_true', Bool.not_eq_true', and_assoc,
    decide_eq_true_iff]
  refine and_congr_right fun hx => and_congr_right fun hy => ?_
  rw [← not_lt, ← not_lt, value_lt_iff hy hx]

/-- Only the two zeros are at the origin. -/
theorem position_eq_zero (hx : x.isNaN = false) :
    x.position = 0 ↔ x = zero false ∨ x = zero true := by
  constructor
  · intro hposition
    have hbound : (0 : ℤ) < 2 ^ 2098 := Int.pow_pos (by decide)
    rw [position] at hposition
    generalize (2 : ℤ) ^ 2098 = bound at *
    cases hinfinite : x.isInfinite with
    | true =>
      rw [hinfinite, if_pos rfl] at hposition
      split at hposition <;> omega
    | false =>
      have habs : x.scaledAbs = 0 := by
        rw [hinfinite, if_neg Bool.false_ne_true, scaled] at hposition
        split at hposition <;> omega
      have hfields : x.exponentField = 0 ∧ x.mantissaField = 0 := by
        rw [scaledAbs] at habs
        split at habs
        · exact ⟨‹_›, habs⟩
        · have hpos : 0 < 2 ^ (x.exponentField - 1) := Nat.two_pow_pos _
          have hsum : 0 < 2 ^ 52 + x.mantissaField := by omega
          exact absurd habs (Nat.ne_of_gt (Nat.mul_pos hsum hpos))
      obtain ⟨hexponent, hmantissa⟩ := hfields
      have hlt := x.bits.isLt
      have hbits : x.bits.toNat = 0 ∨ x.bits.toNat = 2 ^ 63 := by
        unfold exponentField at hexponent
        unfold mantissaField at hmantissa
        omega
      refine hbits.imp (fun h => ?_) fun h => ?_
      · exact congrArg Binary64.mk (BitVec.eq_of_toNat_eq h)
      · exact congrArg Binary64.mk (BitVec.eq_of_toNat_eq h)
  · rintro (rfl | rfl) <;> decide

theorem eq_zero_iff (neg : Bool) :
    x.eq (zero neg) = true ↔ x = zero false ∨ x = zero true := by
  have hzero : (zero neg).position = 0 ∧ (zero neg).isNaN = false := by
    cases neg <;> decide
  rw [eq, hzero.1, hzero.2]
  cases hx : x.isNaN with
  | false =>
    rw [← position_eq_zero hx]
    simp
  | true =>
    refine iff_of_false (by simp) ?_
    rintro (rfl | rfl) <;> exact absurd hx (by decide)

end Binary64
