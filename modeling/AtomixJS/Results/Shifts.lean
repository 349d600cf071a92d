import AtomixJS.Core.Numbers

/-!
# Shifts

In JavaScript a count is taken modulo 32, the left operand of `<<` may be negative and its
result wraps, and `>>>` works on unsigned words.  The handlers hand their operands to the
shifts of C, which are undefined for all other counts, for a negative left operand of `<<`
and for a result that does not fit; the result of `>>>` is put back into an `int`.
-/

namespace AtomixJS

open Binary64 (Extended)

inductive Shift
  | lshft | rshft | zrshft
  deriving DecidableEq

namespace Shift

def opcode : Shift → BinaryOpcode
  | lshft => .binaryLshft
  | rshft => .binaryRshft
  | zrshft => .binaryZrshft

/-- The shift of JavaScript. -/
def result (s : Shift) (a n : ℤ) : ℤ :=
  let m := (n % 32).toNat
  match s with
  | lshft => (a * 2 ^ m).bmod (2 ^ 32)
  | rshft => a / 2 ^ m
  | zrshft => a % 2 ^ 32 / 2 ^ m

/-- The handler leaves the result of JavaScript. -/
def Follows (address : JSValue → CInt) (s : Shift) (a n : CInt) : Prop :=
  Leaves (instBinary address s.opcode) [.integer n, .integer a]
    fun v => v.number? = some (Extended.ofInt (s.result a.toInt n.toInt))

/-- The shift is one of C, and its result an `int`. -/
def InC (s : Shift) (a n : ℤ) : Prop :=
  (0 ≤ n ∧ n < 32) ∧
    match s with
    | lshft => 0 ≤ a ∧ a * 2 ^ n.toNat < 2 ^ 31
    | rshft => True
    | zrshft => 0 ≤ a ∨ 0 < n

variable {address : JSValue → CInt} {s : Shift} {a n : CInt}

/-- The shift of C. -/
def compute (s : Shift) (l r : CInt) : Except Fault CInt :=
  match s with
  | lshft => do
    let count ← shiftCount r
    if l.toInt < 0 then .error (.undefinedBehaviour "left shift of a negative number")
    else signed (l.toInt * 2 ^ count)
  | rshft => return l.sshiftRight (← shiftCount r)
  | zrshft => return l >>> (← shiftCount r)

theorem follows_iff : s.Follows address a n ↔
    ∃ i, s.compute a n = .ok i ∧ i.toInt = s.result a.toInt n.toInt := by
  have hvalue : binaryValue address s.opcode (.integer a) (.integer n) =
      (do return JSValue.integer (← s.compute a n)) := by
    cases s <;> rfl
  have hshort : binaryShortcut s.opcode (.integer a) (.integer n) = none := by
    cases s <;> rfl
  rw [Follows, leaves_binary, hvalue]
  constructor
  · rintro ⟨-, v, hrun, hnumber⟩
    rw [Fallible.bind_eq_ok] at hrun
    obtain ⟨i, hi, hv⟩ := hrun
    obtain rfl := Except.ok.inj hv
    exact ⟨i, hi, number?_eq_ofInt.mp hnumber⟩
  · rintro ⟨i, hi, hresult⟩
    exact ⟨hshort, .integer i, by rw [hi]; rfl, number?_eq_ofInt.mpr hresult⟩

theorem shiftCount_of_lt (h : 0 ≤ n.toInt ∧ n.toInt < 32) :
    shiftCount n = .ok n.toNat ∧ n.toInt = n.toNat := by
  refine ⟨if_pos h, ?_⟩
  rw [BitVec.toInt_eq_toNat_cond] at h ⊢
  split at h
  · rw [if_pos ‹_›]
  · have hlt := n.isLt
    omega

/-- A count that C does not allow. -/
theorem compute_of_count (h : ¬ (0 ≤ n.toInt ∧ n.toInt < 32)) :
    s.compute a n = .error (.undefinedBehaviour "shift count") := by
  have hcount : shiftCount n = .error (.undefinedBehaviour "shift count") := if_neg h
  cases s <;> simp only [compute, hcount] <;> rfl

theorem lshft_iff {k : ℕ} (hcount : shiftCount n = .ok k) :
    (∃ i, lshft.compute a n = .ok i ∧ i.toInt = (a.toInt * 2 ^ k).bmod (2 ^ 32)) ↔
      0 ≤ a.toInt ∧ a.toInt * 2 ^ k < 2 ^ 31 := by
  simp only [compute, hcount, Fallible.ok_bind]
  by_cases hneg : a.toInt < 0
  · rw [if_pos hneg]
    refine iff_of_false ?_ fun h => absurd hneg (Int.not_lt.mpr h.1)
    rintro ⟨i, hi, _⟩
    cases hi
  · rw [if_neg hneg]
    have hnonneg : 0 ≤ a.toInt * 2 ^ k :=
      Int.mul_nonneg (Int.not_lt.mp hneg) (Int.pow_nonneg (by decide))
    constructor
    · rintro ⟨i, hi, _⟩
      refine ⟨Int.not_lt.mp hneg, ?_⟩
      by_contra hlarge
      rw [signed, if_neg fun h => hlarge h.2] at hi
      cases hi
    · rintro ⟨_, hsmall⟩
      have hfits : FitsInt (a.toInt * 2 ^ k) := ⟨by omega, hsmall⟩
      refine ⟨_, if_pos hfits, ?_⟩
      rw [BitVec.toInt_ofInt]

theorem rshft_result {k : ℕ} : (a.sshiftRight k).toInt = a.toInt / 2 ^ k := by
  rw [BitVec.toInt_sshiftRight, Int.shiftRight_eq_div_pow]
  norm_cast

theorem zrshft_iff {k : ℕ} : (a >>> k).toInt = a.toInt % 2 ^ 32 / 2 ^ k ↔
    0 ≤ a.toInt ∨ 0 < k := by
  have hword : a.toInt % 2 ^ 32 = a.toNat := by
    have hlt := a.isLt
    rw [BitVec.toInt_eq_toNat_cond]
    split <;> omega
  rw [hword]
  rcases Nat.eq_zero_or_pos k with rfl | hpos
  · rw [BitVec.ushiftRight_zero, Int.pow_zero, Int.ediv_one]
    have hlt := a.isLt
    rw [BitVec.toInt_eq_toNat_cond]
    split <;> omega
  · refine iff_of_true ?_ (.inr hpos)
    have hsmall : (a >>> k).toNat < 2 ^ 31 := by
      rw [BitVec.toNat_ushiftRight, Nat.shiftRight_eq_div_pow]
      calc a.toNat / 2 ^ k ≤ a.toNat / 2 ^ 1 :=
            Nat.div_le_div_left (Nat.pow_le_pow_right Nat.two_pos hpos) (by decide)
        _ < 2 ^ 31 := by
            have hlt := a.isLt
            omega
    rw [BitVec.toInt_eq_toNat_of_lt (by omega), BitVec.toNat_ushiftRight,
      Nat.shiftRight_eq_div_pow]
    norm_cast

theorem compute_iff : (∃ i, s.compute a n = .ok i ∧ i.toInt = s.result a.toInt n.toInt) ↔
    s.InC a.toInt n.toInt := by
  by_cases hn : 0 ≤ n.toInt ∧ n.toInt < 32
  · obtain ⟨hcount, htoNat⟩ := shiftCount_of_lt hn
    have hmod : n.toInt % 32 = n.toInt := Int.emod_eq_of_lt hn.1 hn.2
    have hm : n.toInt.toNat = n.toNat := by omega
    unfold InC
    rw [and_iff_right hn]
    cases s with
    | lshft =>
      simp only [result, hmod, hm]
      exact lshft_iff hcount
    | rshft =>
      simp only [result, hmod, hm, compute, hcount, iff_true]
      exact ⟨_, rfl, rshft_result⟩
    | zrshft =>
      simp only [result, hmod, hm, compute, hcount]
      have hpos : 0 < n.toInt ↔ 0 < n.toNat := by omega
      rw [hpos, ← zrshft_iff]
      constructor
      · rintro ⟨i, hi, hresult⟩
        obtain rfl := Except.ok.inj hi
        exact hresult
      · exact fun h => ⟨_, rfl, h⟩
  · refine iff_of_false ?_ fun h => hn h.1
    rintro ⟨i, hi, _⟩
    cases (compute_of_count hn).symm.trans hi

end Shift

/-- **Shifts.**  A shift opcode leaves the result of JavaScript if and only if the count lies in
0..31 and the shift is one that C defines with a result in an `int`. -/
theorem shift_follows_iff (address : JSValue → CInt) (s : Shift) (a n : CInt) :
    s.Follows address a n ↔ s.InC a.toInt n.toInt :=
  Shift.follows_iff.trans Shift.compute_iff

/-- `1 << 32` is 1, and the handler shifts by 32. -/
theorem shift_count_not_reduced :
    ¬ ∀ (address : JSValue → CInt) (s : Shift) (a n : CInt), s.Follows address a n := by
  intro hclaim
  obtain ⟨i, hi, _⟩ := Shift.follows_iff.mp (hclaim (fun _ => 0) .lshft 1 32)
  cases hi

end AtomixJS
