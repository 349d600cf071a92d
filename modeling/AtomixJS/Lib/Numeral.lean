import Mathlib

/-!
# Numerals

A number is written with `Nat.toDigits`, in a base up to sixteen, and read with `value`, which
takes leading zeros as well.  A numeral behind another one that is not `0` is again a numeral
(`toDigits_append`), and no other number but zero begins with a zero.
-/

namespace Numeral

def digit (c : Char) : ℕ := if c.toNat ≤ 57 then c.toNat - 48 else c.toNat - 87

def value (b : ℕ) (text : List Char) : ℕ := text.foldl (fun n c => n * b + digit c) 0

variable {b m n : ℕ}

theorem digit_digitChar (h : n < 16) : digit n.digitChar = n := by
  have hall : ∀ n < 16, digit n.digitChar = n := by decide
  exact hall n h

theorem value_append (b : ℕ) (xs ys : List Char) :
    value b (xs ++ ys) = value b xs * b ^ ys.length + value b ys := by
  induction ys using List.reverseRecOn with
  | nil => simp [value]
  | append_singleton ys c ih =>
    have hsnoc : ∀ text : List Char, value b (text ++ [c]) = value b text * b + digit c :=
      fun text => List.foldl_append
    rw [← List.append_assoc, hsnoc, hsnoc, ih, List.length_append, List.length_singleton, pow_succ]
    ring

/-- What is written can be read. -/
theorem value_toDigits (hb : 1 < b) (hle : b ≤ 16) (n : ℕ) : value b (Nat.toDigits b n) = n := by
  induction n using Nat.strongRecOn with
  | _ n ih =>
    rw [Nat.toDigits_eq_if hb]
    split
    · next hlt =>
      have hdigit := digit_digitChar (Nat.lt_of_lt_of_le hlt hle)
      simpa [value] using hdigit
    · next hge =>
      have hmod : n % b < b := Nat.mod_lt n (by omega)
      have hdigit := digit_digitChar (Nat.lt_of_lt_of_le hmod hle)
      have hdiv : n / b < n := Nat.div_lt_self (by omega) hb
      rw [value_append, ih _ hdiv]
      simp only [value, List.foldl_cons, List.foldl_nil, List.length_singleton, pow_one, hdigit]
      rw [Nat.zero_mul, Nat.zero_add, Nat.mul_comm]
      exact Nat.div_add_mod n b

theorem toDigits_injective (hb : 1 < b) (hle : b ≤ 16) : Function.Injective (Nat.toDigits b) := by
  intro m n h
  rw [← value_toDigits hb hle m, h, value_toDigits hb hle]

/-- Two numerals one behind the other. -/
theorem toDigits_append (hb : 1 < b) (hm : 0 < m) (n : ℕ) :
    Nat.toDigits b m ++ Nat.toDigits b n =
      Nat.toDigits b (m * b ^ (Nat.toDigits b n).length + n) := by
  induction n using Nat.strongRecOn with
  | _ n ih =>
    by_cases hlt : n < b
    · rw [Nat.toDigits_append_toDigits hb hm hlt, Nat.toDigits_of_lt_base hlt,
        List.length_singleton, pow_one, Nat.mul_comm]
    · have hmod : n % b < b := Nat.mod_lt n (by omega)
      have hdiv : n / b < n := Nat.div_lt_self (by omega) hb
      have hfront : 0 < m * b ^ (Nat.toDigits b (n / b)).length + n / b :=
        Nat.add_pos_left (Nat.mul_pos hm (Nat.pow_pos (by omega))) _
      have hsum : b * (m * b ^ (Nat.toDigits b (n / b)).length + n / b) + n % b =
          m * b ^ ((Nat.toDigits b (n / b)).length + 1) + n := by
        calc b * (m * b ^ (Nat.toDigits b (n / b)).length + n / b) + n % b
            = m * b ^ ((Nat.toDigits b (n / b)).length + 1) + (b * (n / b) + n % b) := by ring
          _ = m * b ^ ((Nat.toDigits b (n / b)).length + 1) + n := by rw [Nat.div_add_mod]
      have hlast : Nat.toDigits b n = Nat.toDigits b (n / b) ++ Nat.toDigits b (n % b) := by
        rw [Nat.toDigits_of_lt_base hmod]
        exact Nat.toDigits_of_base_le hb (Nat.le_of_not_lt hlt)
      have hlength : (Nat.toDigits b n).length = (Nat.toDigits b (n / b)).length + 1 := by
        rw [hlast, List.length_append, Nat.toDigits_of_lt_base hmod, List.length_singleton]
      rw [hlength, ← hsum, hlast, ← List.append_assoc, ih _ hdiv,
        Nat.toDigits_append_toDigits hb hfront hmod]

/-- Only the numeral of zero begins with a zero. -/
theorem head?_toDigits (hb : 1 < b) (hle : b ≤ 16) (n : ℕ) :
    (Nat.toDigits b n).head? = some '0' ↔ n = 0 := by
  induction n using Nat.strongRecOn with
  | _ n ih =>
    rw [Nat.toDigits_eq_if hb]
    split
    · next hlt =>
      have hdigit := digit_digitChar (Nat.lt_of_lt_of_le hlt hle)
      rw [List.head?_cons, Option.some.injEq]
      constructor
      · intro hzero
        rw [← hdigit, hzero]
        rfl
      · rintro rfl
        rfl
    · next hge =>
      have hdiv : n / b < n := Nat.div_lt_self (by omega) hb
      have hpos : 0 < n / b := Nat.div_pos (by omega) (by omega)
      rw [List.head?_append_of_ne_nil _ Nat.toDigits_ne_nil, ih _ hdiv]
      omega

end Numeral
