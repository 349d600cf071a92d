import AtomixJS.Compiler.Transform
import AtomixJS.Lib.ByteHash

/-!
# `hashString` and FNV-1a

FNV-1a combines the hash with a byte and multiplies the result by the prime.  `hashString` has
the two the other way around: it multiplies by the byte and combines the result with the prime.
So its hash is another one from the first byte on.  A byte that is even moreover makes it forget:
the top bit of the hash before does not matter any more (`keepsApart_iff`).
-/

namespace AtomixJS.Compiler

open ByteHash (SameBelowTop fnv1a words)

/-- One round of the loop of `hashString`. -/
def hashRound (hash : UInt64) (b : UInt8) : UInt64 := (hash * b.toUInt64) ^^^ fnvPrime

/-- The hash in the loop of `hashString`, behind some bytes. -/
def hashLoop (bytes : List UInt8) : UInt64 := bytes.foldl hashRound fnvOffsetBasis

/-- The loop is at the hash of FNV-1a wherever it is, and what is returned are its words. -/
structure IsFnv1a (s : JSString) : Prop where
  loop_eq : ∀ bytes, bytes <+: Utf8.encode s → hashLoop bytes = fnv1a bytes
  result_eq : hashString s = words (fnv1a (Utf8.encode s))

/-- The bytes of a string with a suffix are its own ones and those of the suffix, which is so
unless a pair of surrogates is torn. -/
def Splits (u s : JSString) : Prop := Utf8.encode (u ++ s) = Utf8.encode u ++ Utf8.encode s

/-- Strings with different hashes have different hashes with this suffix. -/
def KeepsApart (s : JSString) : Prop :=
  ∀ u v, Splits u s → Splits v s → hashString u ≠ hashString v →
    hashString (u ++ s) ≠ hashString (v ++ s)

variable {s u : JSString}

theorem hashString_eq (s : JSString) : hashString s = words (hashLoop (Utf8.encode s)) := rfl

/-! ## The first byte -/

/-- No byte is treated alike at the beginning. -/
theorem first_byte_ne (b : UInt8) : hashLoop [b] ≠ fnv1a [b] := by
  have hall : ∀ n : Fin 256, hashLoop [UInt8.ofNat n] ≠ fnv1a [UInt8.ofNat n] := by decide +kernel
  simpa using hall ⟨b.toNat, b.toNat_lt⟩

theorem isFnv1a_iff (s : JSString) : IsFnv1a s ↔ s = [] := by
  constructor
  · intro h
    by_contra hne
    obtain ⟨b, bytes, hbytes⟩ := List.exists_cons_of_ne_nil (Utf8.encode_ne_nil hne)
    have hfirst : [b] <+: Utf8.encode s := by
      rw [hbytes]
      exact List.prefix_append [b] bytes
    exact first_byte_ne b (h.loop_eq [b] hfirst)
  · rintro rfl
    have hnil : hashLoop [] = fnv1a [] := by
      unfold hashLoop fnv1a
      rw [List.foldl_nil, List.foldl_nil]
      rfl
    refine ⟨fun bytes h => ?_, congrArg words hnil⟩
    obtain rfl := List.prefix_nil.mp h
    exact hnil

/-! ## Suffixes -/

theorem hashString_append (h : Splits u s) :
    hashString (u ++ s) = words ((Utf8.encode s).foldl hashRound (hashLoop (Utf8.encode u))) := by
  rw [hashString_eq, hashLoop, h, List.foldl_append]
  rfl

/-- The round of an odd byte forgets nothing. -/
theorem hashRound_injective {b : UInt8} (hb : b.toNat % 2 = 1) :
    Function.Injective (hashRound · b) :=
  (ByteHash.xor_injective fnvPrime).comp (ByteHash.mul_injective_of_odd hb)

/-- Behind an even byte the top bit is forgotten. -/
theorem foldl_eq_of_sameBelowTop {x y : UInt64} {bytes : List UInt8} (h : SameBelowTop x y)
    (heven : ∃ b ∈ bytes, b.toNat % 2 = 0) : bytes.foldl hashRound x = bytes.foldl hashRound y := by
  induction bytes generalizing x y with
  | nil =>
    obtain ⟨b, hb, -⟩ := heven
    exact absurd hb List.not_mem_nil
  | cons b bytes ih =>
    rw [List.foldl_cons, List.foldl_cons]
    by_cases hb : b.toNat % 2 = 0
    · have hround : hashRound x b = hashRound y b := by
        unfold hashRound
        rw [h.mul_even (by rwa [UInt8.toNat_toUInt64])]
      rw [hround]
    · refine ih ((h.mul _).xor _) ?_
      obtain ⟨c, hc, hceven⟩ := heven
      rcases List.mem_cons.mp hc with rfl | hc
      · exact absurd hceven hb
      · exact ⟨c, hc, hceven⟩

/-- Two texts of ASCII.  In every `@` six bits are lost, and in the `h` three more, so of the
hash of the first unit a single bit is left, which has become the top one. -/
def nearlyForgotten (c : UInt16) : JSString := c :: (List.replicate 10 64 ++ [104])

theorem nearlyForgotten_ascii {c : UInt16} (hc : c < 0x80) : ∀ d ∈ nearlyForgotten c, d < 0x80 := by
  intro d hd
  rcases List.mem_cons.mp hd with rfl | hd
  · exact hc
  · rcases List.mem_append.mp hd with hd | hd
    · rw [List.eq_of_mem_replicate hd]
      decide
    · rw [List.mem_singleton.mp hd]
      decide

theorem encode_nearlyForgotten {c : UInt16} (hc : c < 0x80) :
    Utf8.encode (nearlyForgotten c) =
      (nearlyForgotten c).map fun c => UInt8.ofNat c.toNat := by
  have hencode := Utf8.encode_of_ascii (nearlyForgotten_ascii hc) []
  rwa [List.append_nil, show Utf8.encode [] = [] from rfl, List.append_nil] at hencode

theorem splits_nearlyForgotten {c : UInt16} (hc : c < 0x80) (s : JSString) :
    Splits (nearlyForgotten c) s := by
  unfold Splits
  rw [encode_nearlyForgotten hc, Utf8.encode_of_ascii (nearlyForgotten_ascii hc)]

/-- Behind them the hashes of `a` and `b` differ in the top bit alone. -/
theorem nearlyForgotten_apart :
    SameBelowTop (hashLoop ((nearlyForgotten 97).map fun c => UInt8.ofNat c.toNat))
        (hashLoop ((nearlyForgotten 98).map fun c => UInt8.ofNat c.toNat)) ∧
      hashLoop ((nearlyForgotten 97).map fun c => UInt8.ofNat c.toNat) ≠
        hashLoop ((nearlyForgotten 98).map fun c => UInt8.ofNat c.toNat) := by
  unfold SameBelowTop
  decide +kernel

/-- A suffix keeps hashes apart if and only if all of its bytes are odd. -/
theorem keepsApart_iff (s : JSString) :
    KeepsApart s ↔ ∀ b ∈ Utf8.encode s, b.toNat % 2 = 1 := by
  constructor
  · intro h
    by_contra hodd
    push Not at hodd
    obtain ⟨b, hb, hb'⟩ := hodd
    have hfirst : (97 : UInt16) < 0x80 := by decide
    have hsecond : (98 : UInt16) < 0x80 := by decide
    obtain ⟨hsame, hne⟩ := nearlyForgotten_apart
    rw [← encode_nearlyForgotten hfirst, ← encode_nearlyForgotten hsecond] at hsame hne
    have hu := splits_nearlyForgotten hfirst s
    have hv := splits_nearlyForgotten hsecond s
    refine h _ _ hu hv (ByteHash.words_injective.ne hne) ?_
    rw [hashString_append hu, hashString_append hv,
      foldl_eq_of_sameBelowTop hsame ⟨b, hb, by omega⟩]
  · intro hodd u v hu hv hne heq
    rw [hashString_append hu, hashString_append hv, ByteHash.words_injective.eq_iff] at heq
    have hinj := ByteHash.foldl_injective fun b hb => hashRound_injective (hodd b hb)
    exact hne (congrArg words (hinj heq))

/-! ## The hash of a string -/

/-- **FNV-1a.**  The loop computes FNV-1a for the empty string only.  Suffixes keep hashes apart
if and only if all of their bytes are odd, where with FNV-1a every suffix does. -/
theorem hashString_iff (s : JSString) :
    (IsFnv1a s ↔ s = []) ∧
      (KeepsApart s ↔ ∀ b ∈ Utf8.encode s, b.toNat % 2 = 1) ∧
      ∀ u v : List UInt8, fnv1a u ≠ fnv1a v →
        fnv1a (u ++ Utf8.encode s) ≠ fnv1a (v ++ Utf8.encode s) :=
  ⟨isFnv1a_iff s, keepsApart_iff s, fun u v => mt (ByteHash.fnv1a_append_inj u v _).mp⟩

/-- The hash of `a` is not the one of FNV-1a, and a zero byte makes it forget everything. -/
theorem hashString_not_fnv1a :
    hashString (jsString "a") ≠ words (fnv1a (Utf8.encode (jsString "a"))) ∧
      hashString (jsString "a") ≠ hashString (jsString "b") ∧
      hashString (jsString "a" ++ [0]) = hashString (jsString "b" ++ [0]) := by
  decide +kernel

end AtomixJS.Compiler
