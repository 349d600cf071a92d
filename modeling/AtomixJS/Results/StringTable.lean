import AtomixJS.Compiler.Format

/-!
# The string table

`STableSection` of the model carries how its length, its count and its offsets follow from the
strings.  The class of the source keeps them as it goes: the offset of a string is a copy of the
last `Size` to which the length of the last string is added, and the length of the section is a
`Size` that grows with every string.  Here the `Size` objects are cells that are changed in
place, and an offset is a reference to one.

`Represents` says which cells there are; `registerString_represents` is the step, and what holds
of a table after any calls is read off the fields of `STableSection`.
-/

namespace AtomixJS.Compiler

/-! ## `Size` -/

/-- `Unit`. -/
inductive SizeUnit
  | byte | bytes | short | shorts | int | ints | long | longs

/-- The bytes in one of a unit. -/
def SizeUnit.width : SizeUnit → ℤ
  | .byte | .bytes => 1
  | .short | .shorts => 2
  | .int | .ints => 4
  | .long | .longs => 8

abbrev SizeRef := ℕ

/-- The `Size` objects that were made so far, by their `bytes`. -/
abbrev Sizes := List ℤ

namespace Sizes

variable (sizes : Sizes) (ref : SizeRef)

def inBytes : ℤ := sizes.getD ref 0

/-- `add`, which changes the object. -/
def add (x : ℤ) (unit : SizeUnit) : Sizes := sizes.modify ref (· + x * unit.width)

/-- The constructor.  An `x` of zero counts as missing. -/
def construct (argument : Option (ℤ × SizeUnit)) : Sizes × SizeRef :=
  match argument with
  | some (x, unit) =>
    if x ≠ 0 then (add (sizes ++ [0]) sizes.length x unit, sizes.length)
    else (sizes ++ [0], sizes.length)
  | none => (sizes ++ [0], sizes.length)

/-- The static `new`, which looks at its arguments as the constructor does. -/
def new (argument : Option (ℤ × SizeUnit)) : Sizes × SizeRef :=
  match argument with
  | some (x, unit) => if x ≠ 0 then sizes.construct (some (x, unit)) else sizes.construct none
  | none => sizes.construct none

def copy : Sizes × SizeRef := sizes.construct (some (sizes.inBytes ref, .bytes))

theorem add_last (bytes x : ℤ) (unit : SizeUnit) :
    add (sizes ++ [bytes]) sizes.length x unit = sizes ++ [bytes + x * unit.width] := by
  unfold add
  induction sizes with
  | nil => rfl
  | cons size sizes ih => rw [List.cons_append, List.length_cons, List.modify_succ_cons, ih]; rfl

/-- A copy has the size that was copied, zero or not. -/
theorem copy_eq : sizes.copy ref = (sizes ++ [sizes.inBytes ref], sizes.length) := by
  unfold copy construct
  dsimp only
  split
  · rw [add_last, SizeUnit.width, Int.mul_one, Int.zero_add]
  · next hzero => rw [not_not.mp hzero]

end Sizes

/-! ## `STableSection` -/

/-- The fields of the class. -/
structure STableObject where
  sizes : Sizes
  length : SizeRef
  count : ℕ
  offsets : List SizeRef
  strings : List JSString

namespace STableObject

/-- The constructor. -/
def new : STableObject where
  sizes := Sizes.add (Sizes.new [] none).1 (Sizes.new [] none).2 2 .ints
  length := (Sizes.new [] none).2
  count := 0
  offsets := []
  strings := []

variable (table : STableObject)

/-- The offset of a new string. -/
def newOffset : Except String (Sizes × SizeRef) :=
  if table.count = 0 then .ok (table.sizes.new none)
  else
    match table.offsets[table.count - 1]?, table.strings[table.count - 1]? with
    | some offset, some string =>
      let (sizes, offset) := table.sizes.copy offset
      .ok (sizes.add offset string.length .bytes, offset)
    | _, _ => .error "TypeError"

def registerString (x : JSString) : Except String (ℕ × STableObject) :=
  if table.strings.contains x then .ok (table.strings.idxOf x, table)
  else do
    let (sizes, offset) ← table.newOffset
    let sizes := (sizes.add table.length 1 .int).add table.length x.length .bytes
    pure (table.count,
      { sizes, length := table.length, count := table.count + 1
        offsets := table.offsets ++ [offset], strings := table.strings ++ [x] })

def getLength : ℤ := table.sizes.inBytes table.length

/-- Calls of `registerString` one after the other, and the indices that they return. -/
def registerAll : List JSString → STableObject → Except String (List ℕ × STableObject)
  | [], table => .ok ([], table)
  | x :: xs, table => do
    let (index, table) ← table.registerString x
    let (indices, table) ← registerAll xs table
    pure (index :: indices, table)

/-! ## The cells -/

/-- The first cell is the length of the section, the others are the offsets in their order. -/
structure Represents (stable : STableSection) : Prop where
  sizes_eq : table.sizes = (stable.length : ℤ) :: stable.offsets.map Int.ofNat
  length_eq : table.length = 0
  count_eq : table.count = stable.count
  offsets_eq : table.offsets = List.range' 1 stable.count
  strings_eq : table.strings = stable.strings

variable {table} {stable : STableSection}

theorem new_represents : new.Represents STableSection.empty := ⟨rfl, rfl, rfl, rfl, rfl⟩

theorem Represents.sizes_length (h : table.Represents stable) :
    table.sizes.length = stable.count + 1 := by
  rw [h.sizes_eq, List.length_cons, List.length_map, stable.offsets_eq, List.length_map,
    List.length_range, stable.count_eq]

/-- The offset of a string is in its cell. -/
theorem Represents.inBytes_offset (h : table.Represents stable) (i : ℕ) :
    table.sizes.inBytes (i + 1) = (stable.offsets.getD i 0 : ℕ) := by
  rw [h.sizes_eq, Sizes.inBytes, List.getD_cons_succ]
  exact List.getD_map ..

/-- A new string gets a cell of its own, which holds its offset. -/
theorem Represents.newOffset_eq (h : table.Represents stable) :
    table.newOffset = .ok (table.sizes ++ [(stable.nextOffset : ℤ)], stable.count + 1) := by
  unfold newOffset STableSection.nextOffset
  rw [h.count_eq]
  split
  · rw [← h.sizes_length]
    rfl
  · next hcount =>
    obtain ⟨n, hn⟩ := Nat.exists_eq_succ_of_ne_zero hcount
    have hoffset : table.offsets[stable.count - 1]? = some (n + 1) := by
      rw [h.offsets_eq, hn]
      simp [Nat.add_comm]
    have hlt : n < stable.strings.length := by
      have hstrings := stable.count_eq
      omega
    have hstring : table.strings[stable.count - 1]? = some stable.strings[n] := by
      rw [h.strings_eq, hn]
      exact List.getElem?_eq_getElem hlt
    rw [hoffset, hstring]
    dsimp only
    rw [Sizes.copy_eq, Sizes.add_last, h.inBytes_offset, h.sizes_length, hn]
    simp [List.getD, hlt, SizeUnit.width]

/-- The step: a call returns the index of the model and does what it does. -/
theorem registerString_represents (h : table.Represents stable) (x : JSString) :
    ∃ table', table.registerString x = .ok ((stable.registerString x).1, table') ∧
      table'.Represents (stable.registerString x).2 := by
  unfold registerString STableSection.registerString
  rw [h.strings_eq]
  by_cases hmem : x ∈ stable.strings
  · rw [if_pos (List.contains_iff_mem.mpr hmem), dif_pos hmem]
    exact ⟨table, rfl, h⟩
  · rw [if_neg (mt List.contains_iff_mem.mp hmem), dif_neg hmem, h.newOffset_eq, h.count_eq, h.length_eq, h.sizes_eq]
    refine ⟨_, rfl, ?_, rfl, rfl, ?_, rfl⟩
    · simp only [Sizes.add, SizeUnit.width, List.cons_append, List.modify_zero_cons, List.map_append,
        List.map_cons, List.map_nil, Int.ofNat_eq_natCast]
      congr 1
      push_cast
      ring
    · show table.offsets ++ [stable.count + 1] = _
      rw [h.offsets_eq, List.range'_1_concat, Nat.add_comm]

/-- A run: the calls succeed, their indices are those of the strings in the table that they
leave, and no index has moved. -/
theorem registerAll_represents (xs : List JSString) (h : table.Represents stable) :
    ∃ indices table', registerAll xs table = .ok (indices, table') ∧
      table'.Represents (xs.foldl (fun stable x => (stable.registerString x).2) stable) ∧
      stable.strings <+: table'.strings ∧
      indices.map (table'.strings[·]?) = xs.map some := by
  induction xs generalizing table stable with
  | nil => exact ⟨[], table, rfl, h, h.strings_eq ▸ List.prefix_rfl, rfl⟩
  | cons x xs ih =>
    obtain ⟨table₁, hfirst, h₁⟩ := registerString_represents h x
    obtain ⟨indices, table', hrest, h', hextends, hindices⟩ := ih h₁
    refine ⟨(stable.registerString x).1 :: indices, table', ?_, h', ?_, ?_⟩
    · rw [registerAll, hfirst, Fallible.ok_bind]
      dsimp only
      rw [hrest]
      rfl
    · exact (stable.registerString_prefix x).trans hextends
    · have hget := stable.registerString_getElem? x
      obtain ⟨hlt, -⟩ := List.getElem?_eq_some_iff.mp hget
      obtain ⟨rest, hstrings⟩ := hextends
      rw [List.map_cons, List.map_cons, hindices, ← hstrings, List.getElem?_append_left hlt, hget]

/-! ## Tables -/

variable (table) in
/-- What the offsets and the length have to be. -/
structure Consistent : Prop where
  nodup : table.strings.Nodup
  count_eq : table.count = table.strings.length
  offsets_length : table.offsets.length = table.strings.length
  offset_eq : ∀ i ref, table.offsets[i]? = some ref →
    table.sizes.inBytes ref = (((table.strings.take i).map List.length).sum : ℕ)
  length_eq : table.getLength =
    ((8 + (table.strings.map fun string => 4 + string.length).sum : ℕ) : ℤ)

theorem Represents.consistent (h : table.Represents stable) : table.Consistent where
  nodup := h.strings_eq ▸ stable.nodup
  count_eq := by rw [h.count_eq, h.strings_eq, stable.count_eq]
  offsets_length := by rw [h.offsets_eq, List.length_range', h.strings_eq, stable.count_eq]
  offset_eq := by
    intro i ref href
    rw [h.offsets_eq, stable.count_eq] at href
    obtain ⟨hlt, rfl⟩ := List.getElem?_eq_some_iff.mp href
    rw [List.length_range'] at hlt
    rw [List.getElem_range', Nat.one_mul, Nat.add_comm 1, h.inBytes_offset, h.strings_eq,
      stable.offsets_eq, List.getD_eq_getElem?_getD, List.getElem?_map, List.getElem?_range hlt,
      ← List.length_flatten]
    rfl
  length_eq := by
    rw [getLength, h.length_eq, h.sizes_eq, h.strings_eq]
    show (stable.length : ℤ) = _
    rw [stable.length_eq, List.length_flatten]
    have hsum : ∀ strings : List JSString, (strings.map fun string => 4 + string.length).sum =
        4 * strings.length + (strings.map List.length).sum := by
      intro strings
      rw [List.sum_map_add, List.map_const', List.sum_replicate, smul_eq_mul, Nat.mul_comm]
    rw [hsum, Nat.add_assoc]

/-- **String tables.**  After any calls of `registerString` the table is consistent.  In it,
every index that was returned is still the one of its string, and so the calls for one string
have all returned the same index. -/
theorem registerAll_consistent (xs : List JSString) :
    ∃ indices table, registerAll xs new = .ok (indices, table) ∧ table.Consistent ∧
      indices.map (table.strings[·]?) = xs.map some ∧
      ∀ j k : ℕ, j < xs.length → k < xs.length → (indices[j]? = indices[k]? ↔ xs[j]? = xs[k]?) := by
  obtain ⟨indices, table, hrun, h, -, hindices⟩ := registerAll_represents xs new_represents
  refine ⟨indices, table, hrun, h.consistent, hindices, fun j k hj hk => ?_⟩
  have hlength : indices.length = xs.length := by simpa using congrArg List.length hindices
  have hstring : ∀ {k : ℕ} (hk : k < xs.length), ∃ i, indices[k]? = some i ∧
      table.strings[i]? = xs[k]? := by
    intro k hk
    have hkth := congrArg (·[k]?) hindices
    have hindex : indices[k]? = some indices[k] := List.getElem?_eq_getElem (hlength ▸ hk)
    simp only [List.getElem?_map, hindex, List.getElem?_eq_getElem hk, Option.map_some,
      Option.some.injEq] at hkth
    exact ⟨indices[k], hindex, hkth.trans (List.getElem?_eq_getElem hk).symm⟩
  obtain ⟨i, hi, hx⟩ := hstring hj
  obtain ⟨i', hi', hx'⟩ := hstring hk
  rw [hi, hi', ← hx, ← hx', Option.some.injEq]
  constructor
  · rintro rfl
    rfl
  · intro hsame
    have hlt : i < table.strings.length := by
      rw [List.getElem?_eq_getElem hj] at hx
      exact (List.getElem?_eq_some_iff.mp hx).1
    exact (List.getElem?_inj hlt h.consistent.nodup).mp hsame

end STableObject

end AtomixJS.Compiler
