import Mathlib

/-!
# Segments of a list

`At xs pos ys` says that the list `ys` stands in `xs` from position `pos` on.
The same notion serves for instructions in a code array and for bytes in a
file.  The rules are the ones a compositional argument needs: a segment splits
at an append, its head can be read, and it survives a suffix added to `xs`.
-/

namespace Segment

variable {α β : Type*} {xs ys zs : List α} {pos : ℕ}

/-- `ys` stands in `xs` from position `pos` on. -/
def At (xs : List α) (pos : ℕ) (ys : List α) : Prop :=
  ∃ rest, xs.drop pos = ys ++ rest

theorem at_nil : At xs pos [] := ⟨xs.drop pos, rfl⟩

theorem at_self (xs : List α) : At xs 0 xs := ⟨[], (List.append_nil xs).symm⟩

/-- A segment that was appended stands right after what was there before. -/
theorem at_of_append (pre ys post : List α) : At (pre ++ ys ++ post) pre.length ys :=
  ⟨post, by rw [List.append_assoc, List.drop_left]⟩

theorem at_append : At xs pos (ys ++ zs) ↔ At xs pos ys ∧ At xs (pos + ys.length) zs := by
  constructor
  · rintro ⟨rest, h⟩
    refine ⟨⟨zs ++ rest, by rw [h, List.append_assoc]⟩, rest, ?_⟩
    rw [← List.drop_drop, h, List.append_assoc, List.drop_left]
  · rintro ⟨⟨rest, h⟩, rest', h'⟩
    refine ⟨rest', ?_⟩
    rw [← List.drop_drop, h, List.drop_left] at h'
    rw [h, h', List.append_assoc]

theorem at_singleton {y : α} : At xs pos [y] ↔ xs[pos]? = some y := by
  constructor
  · rintro ⟨rest, h⟩
    have hzero : (xs.drop pos)[0]? = some y := by rw [h]; rfl
    simpa using hzero
  · intro h
    obtain ⟨hlt, rfl⟩ := List.getElem?_eq_some_iff.mp h
    exact ⟨xs.drop (pos + 1), by rw [List.drop_eq_getElem_cons hlt]; rfl⟩

theorem at_cons {y : α} :
    At xs pos (y :: ys) ↔ xs[pos]? = some y ∧ At xs (pos + 1) ys := by
  rw [← at_singleton]
  exact @at_append α xs [y] ys pos

theorem At.length_le (h : At xs pos ys) (hne : ys ≠ []) : pos + ys.length ≤ xs.length := by
  obtain ⟨rest, h⟩ := h
  have hlength : xs.length - pos = ys.length + rest.length := by
    rw [← List.length_drop, h, List.length_append]
  have hpos : 0 < ys.length := List.length_pos_iff.mpr hne
  omega

theorem At.getElem? (h : At xs pos ys) {i : ℕ} (hi : i < ys.length) :
    xs[pos + i]? = ys[i]? := by
  obtain ⟨rest, h⟩ := h
  rw [← List.getElem?_drop, h, List.getElem?_append_left hi]

/-- A segment stays in place when something is added behind. -/
theorem At.append_right (h : At xs pos ys) (hle : pos ≤ xs.length) : At (xs ++ zs) pos ys := by
  obtain ⟨rest, h⟩ := h
  exact ⟨rest ++ zs, by rw [List.drop_append_of_le_length hle, h, List.append_assoc]⟩

theorem At.map (f : α → β) (h : At xs pos ys) : At (xs.map f) pos (ys.map f) := by
  obtain ⟨rest, h⟩ := h
  exact ⟨rest.map f, by rw [← List.map_drop, h, List.map_append]⟩

/-- A segment of a segment. -/
theorem At.trans {pos' : ℕ} (h : At xs pos ys) (h' : At ys pos' zs) (hle : pos' ≤ ys.length) :
    At xs (pos + pos') zs := by
  obtain ⟨rest, h⟩ := h
  obtain ⟨rest', h'⟩ := h'
  refine ⟨rest' ++ rest, ?_⟩
  rw [← List.drop_drop, h, List.drop_append_of_le_length hle, h', List.append_assoc]

end Segment
