import Mathlib

/-!
# Hashes that take one byte after the other

A hash is a fold of a step over the bytes.  Where the step of every byte is injective, the hash
forgets nothing: texts with different hashes keep different hashes when the same bytes follow
(`foldl_injective`).  The steps of FNV-1a are, since its prime is odd.

Multiplying a word by an odd number is injective; multiplying it by an even number loses the
top bit.  `SameBelowTop` relates words that differ there at most.
-/

namespace ByteHash

variable {σ β : Type*}

/-- A fold of injective steps is injective. -/
theorem foldl_injective {step : σ → β → σ} {bytes : List β}
    (h : ∀ b ∈ bytes, Function.Injective (step · b)) :
    Function.Injective fun state => bytes.foldl step state := by
  induction bytes with
  | nil => exact Function.injective_id
  | cons b bytes ih =>
    have hrest := ih fun c hc => h c (List.mem_cons_of_mem b hc)
    exact hrest.comp (h b List.mem_cons_self)

/-! ## Words -/

theorem mul_injective_of_odd {b : UInt64} (hb : b.toNat % 2 = 1) :
    Function.Injective (· * b) := by
  intro x y hxy
  have hmod : x.toNat * b.toNat ≡ y.toNat * b.toNat [MOD 2 ^ 64] := by
    have htoNat := congrArg UInt64.toNat hxy
    rwa [UInt64.toNat_mul, UInt64.toNat_mul] at htoNat
  have hcoprime : Nat.gcd (2 ^ 64) b.toNat = 1 :=
    Nat.Coprime.pow_left 64 (Nat.coprime_two_left.mpr (Nat.odd_iff.mpr hb))
  rw [← UInt64.toNat_inj]
  exact (Nat.ModEq.cancel_right_of_coprime hcoprime hmod).eq_of_lt_of_lt x.toNat_lt y.toNat_lt

theorem xor_injective (p : UInt64) : Function.Injective (· ^^^ p) := by
  intro x y hxy
  have hboth := congrArg (· ^^^ p) hxy
  simpa only [UInt64.xor_assoc, UInt64.xor_self, UInt64.xor_zero] using hboth

/-- The words differ in their top bit at most. -/
def SameBelowTop (x y : UInt64) : Prop := x.toNat % 2 ^ 63 = y.toNat % 2 ^ 63

namespace SameBelowTop

variable {x y : UInt64}

theorem xor (h : SameBelowTop x y) (p : UInt64) : SameBelowTop (x ^^^ p) (y ^^^ p) := by
  unfold SameBelowTop at *
  rw [UInt64.toNat_xor, UInt64.toNat_xor, Nat.xor_mod_two_pow, Nat.xor_mod_two_pow, h]

theorem mul (h : SameBelowTop x y) (b : UInt64) : SameBelowTop (x * b) (y * b) := by
  unfold SameBelowTop at *
  rw [UInt64.toNat_mul, UInt64.toNat_mul, Nat.mod_mod_of_dvd _ (by decide),
    Nat.mod_mod_of_dvd _ (by decide), Nat.mul_mod, h, ← Nat.mul_mod]

/-- An even factor shifts the top bit out. -/
theorem mul_even (h : SameBelowTop x y) {b : UInt64} (hb : b.toNat % 2 = 0) : x * b = y * b := by
  obtain ⟨c, hc⟩ := Nat.dvd_of_mod_eq_zero hb
  have hshift : ∀ z : UInt64, (z * b).toNat = 2 * (z.toNat % 2 ^ 63 * c % 2 ^ 63) := by
    intro z
    calc (z * b).toNat = z.toNat * b.toNat % 2 ^ 64 := UInt64.toNat_mul z b
      _ = 2 * (z.toNat * c) % (2 * 2 ^ 63) := by rw [hc, Nat.mul_left_comm]; rfl
      _ = 2 * (z.toNat * c % 2 ^ 63) := Nat.mul_mod_mul_left ..
      _ = 2 * (z.toNat % 2 ^ 63 * c % 2 ^ 63) := by rw [Nat.mod_mul_mod]
  rw [← UInt64.toNat_inj, hshift, hshift, h]

end SameBelowTop

/-- The low and the high word of a hash. -/
def words (hash : UInt64) : UInt32 × UInt32 := (hash.toUInt32, (hash >>> 32).toUInt32)

theorem words_injective : Function.Injective words := by
  intro x y hxy
  obtain ⟨hlow, hhigh⟩ := Prod.mk.inj hxy
  have hlow' : x.toNat % 2 ^ 32 = y.toNat % 2 ^ 32 := congrArg UInt32.toNat hlow
  have hhigh' : x.toNat >>> 32 % 2 ^ 32 = y.toNat >>> 32 % 2 ^ 32 := congrArg UInt32.toNat hhigh
  have hx := x.toNat_lt
  have hy := y.toNat_lt
  rw [Nat.shiftRight_eq_div_pow, Nat.shiftRight_eq_div_pow] at hhigh'
  rw [← UInt64.toNat_inj]
  omega

/-! ## FNV-1a -/

def fnvOffsetBasis : UInt64 := 0xCBF29CE484222325

def fnvPrime : UInt64 := 0x100000001B3

/-- A byte is combined with the hash, which is then multiplied by the prime. -/
def fnv1aStep (hash : UInt64) (b : UInt8) : UInt64 := (hash ^^^ b.toUInt64) * fnvPrime

def fnv1a (bytes : List UInt8) : UInt64 := bytes.foldl fnv1aStep fnvOffsetBasis

theorem fnv1aStep_injective (b : UInt8) : Function.Injective (fnv1aStep · b) :=
  (mul_injective_of_odd (by decide)).comp (xor_injective b.toUInt64)

/-- What follows never makes different hashes the same. -/
theorem fnv1a_append_inj (xs ys zs : List UInt8) :
    fnv1a (xs ++ zs) = fnv1a (ys ++ zs) ↔ fnv1a xs = fnv1a ys := by
  unfold fnv1a
  rw [List.foldl_append, List.foldl_append]
  exact (foldl_injective fun b _ => fnv1aStep_injective b).eq_iff

end ByteHash
