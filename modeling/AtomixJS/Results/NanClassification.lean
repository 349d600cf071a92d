import AtomixJS.Core.Value

/-!
# NaN

`value_is_NaN` and `double_to_string` look for NaN with the same masks.  Both masks cover the
exponent field, and none the mantissa, so the infinities are taken for NaN as well.  What
`double_to_string` writes for any other double begins with a sign or a digit.
-/

namespace AtomixJS

/-- NaN is told from the other doubles by its exponent and its mantissa. -/
structure ClassifiedByBits (d : Binary64) : Prop where
  isNaN : valueIsNaN (.double d) = true ↔ d.exponentField = 2047 ∧ d.mantissaField ≠ 0
  toString : doubleToString d = cString "NaN" ↔ d.exponentField = 2047 ∧ d.mantissaField ≠ 0

/-! ## The masks -/

/-- The mask keeps the exponent field in its place. -/
theorem exponent_mask (bits : BitVec 64) :
    (bits &&& 0x7FF0000000000000#64).toNat = bits.toNat / 2 ^ 52 % 2 ^ 11 * 2 ^ 52 := by
  have hmask : (0x7FF0000000000000#64).toNat = (2 ^ 11 - 1) <<< 52 := by decide
  have hsplit : bits.toNat &&& (2 ^ 11 - 1) <<< 52 =
      ((bits.toNat >>> 52) &&& (2 ^ 11 - 1)) <<< 52 := by
    refine Nat.eq_of_testBit_eq fun i => ?_
    simp only [Nat.testBit_and, Nat.testBit_shiftLeft, Nat.testBit_shiftRight]
    by_cases hi : 52 ≤ i
    · simp [hi, Nat.add_sub_cancel' hi]
    · simp [hi]
  rw [BitVec.toNat_and, hmask, hsplit, Nat.and_two_pow_sub_one_eq_mod, Nat.shiftLeft_eq,
    Nat.shiftRight_eq_div_pow]

/-- The second mask adds nothing to the first. -/
theorem exponentAllOnes_iff (d : Binary64) : exponentAllOnes d = true ↔ d.exponentField = 2047 := by
  have hmask := exponent_mask d.bits
  have hones : (0x7FF0000000000000#64).toNat = 2047 * 2 ^ 52 := by decide
  have hzero : (0x7FF0000000000000#64) ≠ 0 := by decide
  simp only [exponentAllOnes, Bool.and_eq_true, decide_eq_true_eq, Binary64.exponentField]
  constructor
  · rintro ⟨hall, -⟩
    rw [hall, hones] at hmask
    omega
  · intro hfield
    have hall : d.bits &&& 0x7FF0000000000000#64 = 0x7FF0000000000000#64 := by
      rw [← BitVec.toNat_inj, hmask, hones, hfield]
    exact ⟨hall, fun heq => hzero (hall.symm.trans heq)⟩

/-! ## The text of a double -/

/-- The digits before the point, or before the exponent. -/
theorem head_isDigit (n : ℕ) {k : ℕ} (hk : 0 < k) (rest : List Char) :
    ∃ c tail, (Nat.toDigits 10 n).take k ++ rest = c :: tail ∧ c.isDigit = true := by
  obtain ⟨k, rfl⟩ := Nat.exists_eq_add_of_lt hk
  cases hdigits : Nat.toDigits 10 n with
  | nil => exact absurd hdigits Nat.toDigits_ne_nil
  | cons c digits =>
    have hmem : c ∈ Nat.toDigits 10 n := hdigits ▸ List.mem_cons_self
    refine ⟨c, digits.take k ++ rest, ?_, Nat.isDigit_of_mem_toDigits (by decide) (by decide) hmem⟩
    rw [Nat.zero_add, List.take_succ_cons, List.cons_append]

/-- A double is written with a sign or a digit in front. -/
theorem formatG7_ne_nan (d : Binary64) : formatG7 d ≠ cString "NaN" := by
  have hhead : ∀ {text : List Char}, (∃ c tail, text = c :: tail ∧ (c = '-' ∨ c.isDigit = true)) →
      text.map (fun c => c.toNat.toUInt8) ≠ cString "NaN" := by
    rintro text ⟨c, tail, rfl, hc⟩ heq
    have hfirst : c.toNat.toUInt8 = 78 := (List.cons.inj heq).1
    rcases hc with rfl | hc
    · exact absurd hfirst (by decide)
    · simp only [Char.isDigit, Bool.and_eq_true, decide_eq_true_eq] at hc
      have hlow : 48 ≤ c.toNat := hc.1
      have hhigh : c.toNat ≤ 57 := hc.2
      have hvalue : c.toNat % 256 = 78 := congrArg UInt8.toNat hfirst
      omega
  unfold formatG7
  apply hhead
  cases hneg : d.negative with
  | true => exact ⟨_, _, rfl, .inl rfl⟩
  | false =>
    rw [if_neg Bool.false_ne_true, List.nil_append]
    split
    · exact ⟨_, _, rfl, .inr (by decide)⟩
    · -- the text of the magnitude, in one of its three forms
      generalize sevenDigits d.scaledAbs = parts
      obtain ⟨number, e⟩ := parts
      dsimp only
      split
      · simp only [List.append_assoc]
        obtain ⟨c, tail, htext, hc⟩ := head_isDigit number Nat.one_pos _
        exact ⟨c, tail, htext, .inr hc⟩
      · next hexp =>
        split
        · exact ⟨_, _, rfl, .inr (by decide)⟩
        · have hpoint : 0 < (e + 1).toNat := by omega
          obtain ⟨c, tail, htext, hc⟩ := head_isDigit number hpoint _
          exact ⟨c, tail, htext, .inr hc⟩

theorem doubleToString_eq_nan_iff (d : Binary64) :
    doubleToString d = cString "NaN" ↔ exponentAllOnes d = true := by
  unfold doubleToString
  split
  · next hones => exact iff_of_true rfl hones
  · next hones => exact iff_of_false (formatG7_ne_nan d) hones

/-! ## Classification -/

/-- **NaN.**  A pattern is classified by its bits, in both places, exactly when it is not the
one of an infinity. -/
theorem classifiedByBits_iff (bits : BitVec 64) :
    ClassifiedByBits ⟨bits⟩ ↔
      ¬ (Binary64.exponentField ⟨bits⟩ = 2047 ∧ Binary64.mantissaField ⟨bits⟩ = 0) := by
  have hones := exponentAllOnes_iff ⟨bits⟩
  constructor
  · rintro h ⟨hexponent, hmantissa⟩
    exact (h.isNaN.mp (hones.mpr hexponent)).2 hmantissa
  · intro hfinite
    have hboth : exponentAllOnes ⟨bits⟩ = true ↔
        Binary64.exponentField ⟨bits⟩ = 2047 ∧ Binary64.mantissaField ⟨bits⟩ ≠ 0 := by
      rw [hones, iff_self_and]
      exact fun hexponent hmantissa => hfinite ⟨hexponent, hmantissa⟩
    exact ⟨hboth, (doubleToString_eq_nan_iff ⟨bits⟩).trans hboth⟩

/-- Infinity is no NaN, but both functions take it for one. -/
theorem infinity_not_classified :
    valueIsNaN (.double (Binary64.infinity false)) = true ∧
      doubleToString (Binary64.infinity false) = cString "NaN" ∧
      ¬ ClassifiedByBits (Binary64.infinity false) := by
  refine ⟨by decide, by decide, fun h => ?_⟩
  exact absurd (h.isNaN.mp (by decide)).2 (by decide)

end AtomixJS
