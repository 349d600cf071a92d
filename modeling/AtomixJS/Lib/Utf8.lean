import Mathlib

/-!
# UTF-8 and UTF-16

`encode` writes units of UTF-16 as UTF-8, a surrogate without its partner as U+FFFD.

`decode` is a decoder that replaces what is not valid UTF-8 by U+FFFD.  It keeps
the sequence it is in as a state: how many bytes the sequence needs behind its
first one, how many of them it has seen, and in which range the next one has to
be.  A byte outside that range ends the sequence and is looked at again as the
first byte of another.

On bytes below 128 decoding changes nothing.  On other bytes the text that comes
out holds a replacement character or is shorter than the bytes
(`decode_shorter`), so it cannot be the bytes again.
-/

namespace Utf8

/-- U+FFFD. -/
def replacement : UInt16 := 0xFFFD

/-- A sequence of bytes that has begun. -/
structure State where
  codePoint : ℕ
  bytesSeen : ℕ
  bytesNeeded : ℕ
  lower : UInt8
  upper : UInt8

/-- A code point in UTF-16. -/
def utf16 (codePoint : ℕ) : List UInt16 :=
  if codePoint < 0x10000 then [UInt16.ofNat codePoint]
  else
    [UInt16.ofNat (0xD800 + (codePoint - 0x10000) / 0x400),
      UInt16.ofNat (0xDC00 + (codePoint - 0x10000) % 0x400)]

/-! ## Encoding -/

def encodeCodePoint (c : ℕ) : List UInt8 :=
  if c < 0x80 then [UInt8.ofNat c]
  else if c < 0x800 then [UInt8.ofNat (0xC0 + c / 64), UInt8.ofNat (0x80 + c % 64)]
  else if c < 0x10000 then
    [UInt8.ofNat (0xE0 + c / 4096), UInt8.ofNat (0x80 + c / 64 % 64), UInt8.ofNat (0x80 + c % 64)]
  else
    [UInt8.ofNat (0xF0 + c / 262144), UInt8.ofNat (0x80 + c / 4096 % 64),
      UInt8.ofNat (0x80 + c / 64 % 64), UInt8.ofNat (0x80 + c % 64)]

/-- A unit that stands alone. -/
def encodeUnit (u : UInt16) : List UInt8 :=
  encodeCodePoint (if 0xD800 ≤ u ∧ u ≤ 0xDFFF then replacement else u).toNat

def encode : List UInt16 → List UInt8
  | [] => []
  | [u] => encodeUnit u
  | u :: v :: rest =>
    if (0xD800 ≤ u ∧ u ≤ 0xDBFF) ∧ 0xDC00 ≤ v ∧ v ≤ 0xDFFF then
      encodeCodePoint (0x10000 + (u.toNat - 0xD800) * 0x400 + (v.toNat - 0xDC00)) ++ encode rest
    else encodeUnit u ++ encode (v :: rest)

theorem encode_ne_nil {s : List UInt16} (h : s ≠ []) : encode s ≠ [] := by
  have hpoint : ∀ c, encodeCodePoint c ≠ [] := by
    intro c
    unfold encodeCodePoint
    split
    · exact List.cons_ne_nil _ _
    split
    · exact List.cons_ne_nil _ _
    split <;> exact List.cons_ne_nil _ _
  cases s with
  | nil => exact absurd rfl h
  | cons c rest =>
    cases rest with
    | nil => exact hpoint _
    | cons d rest =>
      rw [encode]
      split
      · exact fun hnil => hpoint _ (List.append_eq_nil_iff.mp hnil).1
      · exact fun hnil => hpoint _ (List.append_eq_nil_iff.mp hnil).1

/-- An ASCII unit is never the first half of a pair. -/
theorem encode_cons_of_ascii {c : UInt16} (hc : c < 0x80) (rest : List UInt16) :
    encode (c :: rest) = UInt8.ofNat c.toNat :: encode rest := by
  have hlow : ¬ 0xD800 ≤ c := fun hle => absurd (UInt16.lt_of_le_of_lt hle hc) (by decide)
  have hunit : encodeUnit c = [UInt8.ofNat c.toNat] := by
    have hsurrogate : ¬ (0xD800 ≤ c ∧ c ≤ 0xDFFF) := fun h => hlow h.1
    unfold encodeUnit encodeCodePoint
    rw [if_neg hsurrogate]
    exact if_pos (UInt16.lt_iff_toNat_lt.mp hc)
  cases rest with
  | nil => exact hunit
  | cons d rest =>
    rw [encode, if_neg fun h => hlow h.1.1, hunit]
    rfl

theorem encode_of_ascii {u : List UInt16} (h : ∀ c ∈ u, c < 0x80) (s : List UInt16) :
    encode (u ++ s) = u.map (fun c => UInt8.ofNat c.toNat) ++ encode s := by
  induction u with
  | nil => rfl
  | cons c u ih =>
    rw [List.cons_append, encode_cons_of_ascii (h c List.mem_cons_self),
      ih fun d hd => h d (List.mem_cons_of_mem c hd)]
    rfl

/-! ## Decoding -/

/-- The first byte of a sequence: the units it yields, and the sequence it begins. -/
def lead (b : UInt8) : List UInt16 × Option State :=
  if b ≤ 0x7F then ([b.toUInt16], none)
  else if 0xC2 ≤ b ∧ b ≤ 0xDF then ([], some ⟨(b &&& 0x1F).toNat, 0, 1, 0x80, 0xBF⟩)
  else if 0xE0 ≤ b ∧ b ≤ 0xEF then
    ([], some ⟨(b &&& 0xF).toNat, 0, 2, if b = 0xE0 then 0xA0 else 0x80,
      if b = 0xED then 0x9F else 0xBF⟩)
  else if 0xF0 ≤ b ∧ b ≤ 0xF4 then
    ([], some ⟨(b &&& 0x7).toNat, 0, 3, if b = 0xF0 then 0x90 else 0x80,
      if b = 0xF4 then 0x8F else 0xBF⟩)
  else ([replacement], none)

def decodeFrom : Option State → List UInt8 → List UInt16
  | none, [] => []
  | some _, [] => [replacement]
  | none, b :: bytes => (lead b).1 ++ decodeFrom (lead b).2 bytes
  | some s, b :: bytes =>
    if b < s.lower ∨ s.upper < b then
      replacement :: ((lead b).1 ++ decodeFrom (lead b).2 bytes)
    else
      let codePoint := s.codePoint * 64 + (b &&& 0x3F).toNat
      if s.bytesSeen + 1 = s.bytesNeeded then utf16 codePoint ++ decodeFrom none bytes
      else decodeFrom (some ⟨codePoint, s.bytesSeen + 1, s.bytesNeeded, 0x80, 0xBF⟩) bytes

def decode (bytes : List UInt8) : List UInt16 := decodeFrom none bytes

/-! ## ASCII -/

theorem decode_ascii {bytes : List UInt8} (h : ∀ b ∈ bytes, b ≤ 0x7F) :
    decode bytes = bytes.map (·.toUInt16) := by
  induction bytes with
  | nil => rfl
  | cons b bytes ih =>
      have hb : lead b = ([b.toUInt16], none) := if_pos (h b List.mem_cons_self)
      have hrest := ih fun c hc => h c (List.mem_cons_of_mem b hc)
      unfold decode at hrest ⊢
      rw [decodeFrom, hb, hrest]
      rfl

/-! ## Lengths -/

/-- The states that a sequence goes through.  A sequence of two bytes yields a
code point of eleven bits. -/
structure State.Valid (s : State) : Prop where
  seen_lt : s.bytesSeen < s.bytesNeeded
  short : s.bytesNeeded = 1 → s.codePoint < 32

theorem lead_cases (b : UInt8) :
    (b ≤ 0x7F ∧ lead b = ([b.toUInt16], none)) ∨ lead b = ([replacement], none) ∨
      ∃ s : State, s.Valid ∧ s.bytesSeen = 0 ∧ lead b = ([], some s) := by
  unfold lead
  split
  · next hb => exact .inl ⟨hb, rfl⟩
  split
  · refine .inr (.inr ⟨_, ⟨Nat.zero_lt_one, fun _ => ?_⟩, rfl, rfl⟩)
    rw [UInt8.toNat_and]
    exact Nat.lt_of_le_of_lt Nat.and_le_right (by decide)
  split
  · exact .inr (.inr ⟨_, ⟨Nat.zero_lt_two, fun h => by simp at h⟩, rfl, rfl⟩)
  split
  · exact .inr (.inr ⟨_, ⟨Nat.zero_lt_succ 2, fun h => by simp at h⟩, rfl, rfl⟩)
  · exact .inr (.inl rfl)

theorem utf16_length_le (codePoint : ℕ) : (utf16 codePoint).length ≤ 2 := by
  unfold utf16
  split <;> simp

/-- Either something was replaced, or there are fewer units than bytes as soon as a
sequence has begun or a byte is beyond ASCII. -/
theorem decodeFrom_shorter (bytes : List UInt8) :
    (replacement ∈ decodeFrom none bytes ∨ (decodeFrom none bytes).length ≤ bytes.length ∧
      ((∃ b ∈ bytes, 0x7F < b) → (decodeFrom none bytes).length < bytes.length)) ∧
    ∀ s : State, s.Valid → replacement ∈ decodeFrom (some s) bytes ∨
      (decodeFrom (some s) bytes).length < bytes.length + s.bytesSeen + 1 := by
  induction bytes with
  | nil =>
      refine ⟨.inr ⟨Nat.le_refl _, fun ⟨b, hb, _⟩ => absurd hb List.not_mem_nil⟩, fun s _ => .inl ?_⟩
      exact List.mem_singleton_self _
  | cons b bytes ih =>
      obtain ⟨ihNone, ihSome⟩ := ih
      -- a byte at the beginning of a sequence
      have hlead : replacement ∈ (lead b).1 ++ decodeFrom (lead b).2 bytes ∨
          ((lead b).1 ++ decodeFrom (lead b).2 bytes).length ≤ bytes.length + 1 ∧
          ((∃ c ∈ b :: bytes, 0x7F < c) →
            ((lead b).1 ++ decodeFrom (lead b).2 bytes).length < bytes.length + 1) := by
        rcases lead_cases b with ⟨hb, heq⟩ | heq | ⟨s, hs, hseen, heq⟩
        · rw [heq, List.singleton_append, List.length_cons, List.mem_cons]
          rcases ihNone with hmem | ⟨hle, hlt⟩
          · exact .inl (.inr hmem)
          · refine .inr ⟨Nat.succ_le_succ hle, fun ⟨c, hc, hlarge⟩ => Nat.succ_lt_succ (hlt ?_)⟩
            rcases List.mem_cons.mp hc with rfl | hc
            · exact absurd hb (UInt8.not_le.mpr hlarge)
            · exact ⟨c, hc, hlarge⟩
        · rw [heq]
          exact .inl List.mem_cons_self
        · rw [heq, List.nil_append]
          rcases ihSome s hs with hmem | hlt
          · exact .inl hmem
          · rw [hseen] at hlt
            exact .inr ⟨Nat.le_of_lt hlt, fun _ => hlt⟩
      refine ⟨hlead, fun s hs => ?_⟩
      rw [decodeFrom]
      split
      · exact .inl List.mem_cons_self
      · dsimp only
        split
        · next hdone =>
            rcases ihNone with hmem | ⟨hle, _⟩
            · exact .inl (List.mem_append_right _ hmem)
            · refine .inr ?_
              rw [List.length_append, List.length_cons]
              by_cases hone : s.bytesNeeded = 1
              · -- a sequence of two bytes yields one unit
                have hsmall : s.codePoint * 64 + (b &&& 0x3F).toNat < 0x10000 := by
                  have hcode := hs.short hone
                  have hb := b.toNat_lt
                  have hand : (b &&& 0x3F).toNat ≤ b.toNat := by
                    rw [UInt8.toNat_and]
                    exact Nat.and_le_left
                  omega
                rw [utf16, if_pos hsmall, List.length_singleton]
                omega
              · have htwo := utf16_length_le (s.codePoint * 64 + (b &&& 0x3F).toNat)
                omega
        · next hmore =>
            have hseen := hs.seen_lt
            have hvalid : State.Valid ⟨s.codePoint * 64 + (b &&& 0x3F).toNat, s.bytesSeen + 1,
                s.bytesNeeded, 0x80, 0xBF⟩ := by
              refine ⟨?_, fun hone => ?_⟩
              · show s.bytesSeen + 1 < s.bytesNeeded
                omega
              · have hone' : s.bytesNeeded = 1 := hone
                omega
            rcases ihSome _ hvalid with hmem | hlt
            · exact .inl hmem
            · refine .inr ?_
              rw [List.length_cons]
              calc _ < bytes.length + (s.bytesSeen + 1) + 1 := hlt
                _ = bytes.length + 1 + s.bytesSeen + 1 := by omega

/-- Text beyond ASCII does not survive with its length. -/
theorem decode_shorter {bytes : List UInt8} (h : ∃ b ∈ bytes, 0x7F < b) :
    replacement ∈ decode bytes ∨ (decode bytes).length < bytes.length := by
  rcases (decodeFrom_shorter bytes).1 with hmem | ⟨_, hlt⟩
  · exact .inl hmem
  · exact .inr (hlt h)

/-- `é` in UTF-8, and the byte of `é` in Latin-1 before an `a`. -/
example : decode [0xC3, 0xA9] = [0xE9] ∧ decode [0xE9, 0x61] = [0xFFFD, 0x61] := by decide

end Utf8
