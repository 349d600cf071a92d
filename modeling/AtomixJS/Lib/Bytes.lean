import AtomixJS.Lib.Segment

/-!
# Words as little-endian bytes

`encode w n` is the number `n` in `w` bytes, lowest byte first, and `decode`
reads it back.  `read` decodes a field at a position of a buffer, when all its
bytes are inside.
-/

namespace Bytes

open Segment

variable {bytes : List UInt8} {pos w n : ℕ}

def encode : ℕ → ℕ → List UInt8
  | 0, _ => []
  | w + 1, n => UInt8.ofNat n :: encode w (n / 256)

def decode : List UInt8 → ℕ
  | [] => 0
  | b :: bs => b.toNat + 256 * decode bs

@[simp] theorem encode_length (w n : ℕ) : (encode w n).length = w := by
  induction w generalizing n with
  | zero => rfl
  | succ w ih => rw [encode, List.length_cons, ih]

theorem decode_encode (h : n < 256 ^ w) : decode (encode w n) = n := by
  induction w generalizing n with
  | zero =>
    rw [pow_zero, Nat.lt_one_iff] at h
    exact h.symm
  | succ w ih =>
    rw [pow_succ'] at h
    rw [encode, decode, ih (Nat.div_lt_of_lt_mul h), UInt8.toNat_ofNat']
    exact Nat.mod_add_div n 256

theorem decode_append (xs ys : List UInt8) :
    decode (xs ++ ys) = decode xs + 256 ^ xs.length * decode ys := by
  induction xs with
  | nil => simp [decode]
  | cons x xs ih =>
    rw [List.cons_append, decode, decode, ih, List.length_cons]
    ring

/-- The number in the `w` bytes from `pos` on. -/
def read (bytes : List UInt8) (pos w : ℕ) : Option ℕ :=
  if pos + w ≤ bytes.length then some (decode ((bytes.drop pos).take w)) else none

theorem read_of_at {field : List UInt8} (h : At bytes pos field)
    (hend : pos + field.length ≤ bytes.length) :
    read bytes pos field.length = some (decode field) := by
  obtain ⟨rest, h⟩ := h
  rw [read, if_pos hend, h, List.take_left]

theorem read_encode (h : At bytes pos (encode w n)) (hw : 0 < w) (hn : n < 256 ^ w) :
    read bytes pos w = some n := by
  have hne : encode w n ≠ [] := by
    rw [← List.length_pos_iff, encode_length]
    exact hw
  have hread := read_of_at h (h.length_le hne)
  rwa [encode_length, decode_encode hn] at hread

/-- The words of 64 bits in their unsigned order. -/
instance linearOrderUInt64 : LinearOrder UInt64 where
  le_refl _ := UInt64.le_rfl
  le_trans _ _ _ := UInt64.le_trans
  le_antisymm _ _ := UInt64.le_antisymm
  le_total := UInt64.le_total
  lt_iff_le_not_ge a b := by
    rw [UInt64.lt_iff_toNat_lt, UInt64.le_iff_toNat_le, UInt64.le_iff_toNat_le]
    omega
  toDecidableLE := inferInstance
  toDecidableEq := inferInstance
  toDecidableLT := inferInstance

end Bytes
