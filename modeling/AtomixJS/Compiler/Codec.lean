import AtomixJS.Compiler.Format
import AtomixJS.Core.Loader

/-!
# What the loader reads from what the compiler writes

For each part of a module there is a pair of lemmas: under which conditions the
compiler writes it and which bytes these are, and what the loader makes of the
bytes wherever they stand in a buffer.
-/

namespace AtomixJS

open Segment Compiler

/-! ## Strings of a table -/

theorem toNat_ofNat_of_lt {n : ℕ} (h : n < 2 ^ 32) : (UInt32.ofNat n).toNat = n := by
  rw [UInt32.toNat_ofNat', Nat.mod_eq_of_lt h]

/-- An element of a list of lists stands behind the elements before it. -/
theorem flatten_split {α : Type} {lists : List (List α)} {i : ℕ} {s : List α}
    (hi : lists[i]? = some s) :
    ∃ rest, lists.flatten = (lists.take i).flatten ++ s ++ rest ∧
      (lists.take (i + 1)).flatten = (lists.take i).flatten ++ s ∧
      (i + 1 = lists.length → rest = []) := by
  obtain ⟨hlt, rfl⟩ := List.getElem?_eq_some_iff.mp hi
  refine ⟨(lists.drop (i + 1)).flatten, ?_, ?_, ?_⟩
  · calc lists.flatten = (lists.take i ++ lists.drop i).flatten := by rw [List.take_append_drop]
      _ = (lists.take i).flatten ++ lists[i] ++ (lists.drop (i + 1)).flatten := by
        rw [List.drop_eq_getElem_cons hlt, List.flatten_append, List.flatten_cons,
          List.append_assoc]
  · rw [List.take_succ_eq_append_getElem hlt, List.flatten_append, List.flatten_singleton]
  · intro hlast
    rw [hlast, List.drop_length]
    rfl

section

variable {strings : List CString} {i : ℕ} {s : CString}

/-- Both branches of the source compute the length of the string. -/
theorem stringLength_ofStrings (h : strings.length < 2 ^ 32)
    (hsize : 8 + 4 * strings.length + strings.flatten.length < 2 ^ 32)
    (hi : strings[i]? = some s) :
    (StringTable.ofStrings strings h).stringLength (UInt32.ofNat i)
      (UInt32.ofNat (strings.take i).flatten.length) = some (UInt32.ofNat s.length) := by
  have hlt : i < strings.length := (List.getElem?_eq_some_iff.mp hi).1
  obtain ⟨rest, htext, hnext, hlast⟩ := flatten_split hi
  have htotal := congrArg List.length htext
  simp only [List.length_append] at htotal
  have hidx : (UInt32.ofNat i).toNat = i := toNat_ofNat_of_lt (by omega)
  have hcount : (UInt32.ofNat strings.length).toNat = strings.length := toNat_ofNat_of_lt h
  have hiff : UInt32.ofNat i = (StringTable.ofStrings strings h).count - 1 ↔
      i + 1 = strings.length := by
    show UInt32.ofNat i = UInt32.ofNat strings.length - 1 ↔ i + 1 = strings.length
    rw [← UInt32.toNat_inj, UInt32.toNat_sub, hidx, hcount, UInt32.toNat_one]
    omega
  unfold StringTable.stringLength
  by_cases heq : i + 1 = strings.length
  · rw [if_pos (hiff.mpr heq), Option.some.injEq, ← UInt32.toNat_inj]
    rw [hlast heq, List.length_nil] at htotal
    simp only [StringTable.ofStrings, UInt32.toNat_sub, UInt32.toNat_add, UInt32.toNat_mul,
      UInt32.toNat_ofNat', UInt32.reduceToNat]
    omega
  · have hlt' : i + 1 < strings.length := by omega
    rw [if_neg (mt hiff.mp heq), hidx]
    simp only [StringTable.ofStrings, List.getElem?_map, List.getElem?_range hlt', hnext,
      Option.map_some, Option.some.injEq, ← UInt32.toNat_inj, UInt32.toNat_sub,
      UInt32.toNat_ofNat', List.length_append]
    omega

/-- Every string of a table whose length fits is read back, provided it holds no
zero byte. -/
theorem stringTableLoadStr_ofStrings (h : strings.length < 2 ^ 32)
    (hsize : 8 + 4 * strings.length + strings.flatten.length < 2 ^ 32)
    (hi : strings[i]? = some s) (hzero : 0 ∉ s) :
    stringTableLoadStr (StringTable.ofStrings strings h) (UInt32.ofNat i) = .ok s := by
  have hlt : i < strings.length := (List.getElem?_eq_some_iff.mp hi).1
  obtain ⟨rest, htext, _⟩ := flatten_split hi
  have htotal := congrArg List.length htext
  simp only [List.length_append] at htotal
  have hidx : (UInt32.ofNat i).toNat = i := toNat_ofNat_of_lt (by omega)
  have hoffset : (UInt32.ofNat (strings.take i).flatten.length).toNat =
      (strings.take i).flatten.length := toNat_ofNat_of_lt (by omega)
  have hlen : (UInt32.ofNat s.length).toNat = s.length := toNat_ofNat_of_lt (by omega)
  have hbound : ¬ (StringTable.ofStrings strings h).count ≤ UInt32.ofNat i := by
    rw [UInt32.le_iff_toNat_le, hidx]
    exact Nat.not_le.mpr ((toNat_ofNat_of_lt h).symm ▸ hlt)
  have hget : (StringTable.ofStrings strings h).offsets[(UInt32.ofNat i).toNat]? =
      some (UInt32.ofNat (strings.take i).flatten.length) := by
    simp [StringTable.ofStrings, hidx, hlt]
  have htaken : ((StringTable.ofStrings strings h).strings.drop
      (strings.take i).flatten.length).take s.length = s := by
    show (strings.flatten.drop _).take _ = s
    rw [htext, List.append_assoc, List.drop_left, List.take_left]
  have hinside : ¬ (StringTable.ofStrings strings h).strings.length <
      (strings.take i).flatten.length + s.length := by
    show ¬ strings.flatten.length < _
    omega
  unfold stringTableLoadStr
  simp only [if_neg hbound, hget, stringLength_ofStrings h hsize hi, hoffset, hlen, if_neg hinside,
    htaken]
  congr 1
  rw [List.takeWhile_eq_self_iff]
  intro c hc
  rw [decide_eq_true_iff]
  rintro rfl
  exact hzero hc

end

/-! ## Words -/

section

variable {buff field : List UInt8} {pos w n : ℕ} {α : Type} (cast : ℕ → α)

theorem writeUnsigned_of_lt (h : n < 256 ^ w) : writeUnsigned w n = .ok (Bytes.encode w n) :=
  if_pos h

theorem lt_of_writeUnsigned {w x : ℕ} {bytes : List UInt8} (h : writeUnsigned w x = .ok bytes) :
    x < 256 ^ w := by
  unfold writeUnsigned at h
  exact (Fallible.require_eq_ok.mp h).1

theorem readWord_of_field (h : At buff pos field) (hne : field ≠ []) :
    readWord field.length cast buff pos = .ok (cast (Bytes.decode field), pos + field.length) := by
  unfold readWord
  rw [Bytes.read_of_at h (h.length_le hne)]

theorem readWord_of_at (h : At buff pos (Bytes.encode w n)) (hw : 0 < w) (hn : n < 256 ^ w) :
    readWord w cast buff pos = .ok (cast n, pos + w) := by
  unfold readWord
  rw [Bytes.read_encode h hw hn]

theorem copyBytes_of_at (h : At buff pos field) (hend : pos + field.length ≤ buff.length) :
    copyBytes buff pos field.length = .ok field := by
  obtain ⟨rest, h⟩ := h
  rw [copyBytes, if_pos hend, h, List.take_left]

/-- A sequence of items that are written one behind the other is read back item
by item, whatever the reader's positions are. -/
theorem steps_of_at {β γ ε σ : Type} {buff : List UInt8} (place : ℕ → σ)
    (read : σ → Except ε (γ × σ)) (bytes : β → List UInt8) (f : β → γ) {items : List β}
    (hone : ∀ x ∈ items, ∀ pos, At buff pos (bytes x) →
      read (place pos) = .ok (f x, place (pos + (bytes x).length)))
    {pos : ℕ} (hat : At buff pos (items.map bytes).flatten) :
    Fallible.Steps read (place pos) (items.map f)
      (place (pos + (items.map bytes).flatten.length)) := by
  induction items generalizing pos with
  | nil => exact .nil
  | cons x items ih =>
    rw [List.map_cons, List.flatten_cons, at_append] at hat
    simp only [List.map_cons, List.flatten_cons, List.length_append, ← Nat.add_assoc]
    apply Fallible.Steps.cons (hone x List.mem_cons_self pos hat.1)
    exact ih (fun y hy => hone y (List.mem_cons_of_mem x hy)) hat.2

end

/-! ## The string table -/

/-- The bytes of a string whose units fit a byte. -/
def bytesOf (s : JSString) : CString := s.map (·.toUInt8)

theorem writeString_eq {s : JSString} (h : ∀ c ∈ s, c.toNat ≤ 255) :
    writeString s = .ok (bytesOf s) := by
  induction s with
  | nil => rfl
  | cons c s ih =>
    have hc : c.toNat < 256 ^ 1 := Nat.lt_succ_of_le (h c List.mem_cons_self)
    rw [writeString, writeU8, writeUnsigned_of_lt hc, ih fun d hd => h d (List.mem_cons_of_mem c hd)]
    rfl

theorem flatten_bytesOf_length (strings : List JSString) :
    (strings.map bytesOf).flatten.length = strings.flatten.length := by
  induction strings with
  | nil => rfl
  | cons s strings ih => simp [bytesOf] at ih ⊢; omega

theorem flatten_encode_length (numbers : List ℕ) :
    (numbers.map (Bytes.encode 4)).flatten.length = 4 * numbers.length := by
  rw [List.length_flatten, List.map_map]
  simp [Function.comp_def, Nat.mul_comm]

/-- A table that can be written: it is shorter than 4 GiB, and its strings have
units that fit a byte. -/
structure Compiler.STableSection.Writable (stable : STableSection) : Prop where
  units : ∀ s ∈ stable.strings, ∀ c ∈ s, c.toNat ≤ 255
  length_lt : stable.length < 2 ^ 32

/-- A table that can also be loaded: no unit is zero. -/
structure Compiler.STableSection.WellFormed (stable : STableSection) : Prop where
  units : ∀ s ∈ stable.strings, ∀ c ∈ s, 1 ≤ c.toNat ∧ c.toNat ≤ 255
  length_lt : stable.length < 2 ^ 32

namespace Compiler.STableSection

variable {stable : STableSection}

def bytes (stable : STableSection) : List UInt8 :=
  Bytes.encode 4 stable.length ++ Bytes.encode 4 stable.count ++
    (stable.offsets.map (Bytes.encode 4)).flatten ++ (stable.strings.map bytesOf).flatten

theorem offset_le {offset : ℕ} (h : offset ∈ stable.offsets) :
    offset ≤ stable.strings.flatten.length := by
  rw [stable.offsets_eq, List.mem_map] at h
  obtain ⟨i, _, rfl⟩ := h
  calc (stable.strings.take i).flatten.length
      ≤ (stable.strings.take i ++ stable.strings.drop i).flatten.length := by
        rw [List.flatten_append, List.length_append]
        exact Nat.le_add_right _ _
    _ = stable.strings.flatten.length := by rw [List.take_append_drop]

theorem WellFormed.writable (h : stable.WellFormed) : stable.Writable :=
  ⟨fun s hs c hc => (h.units s hs c hc).2, h.length_lt⟩

theorem Writable.count_lt (h : stable.Writable) : 4 * stable.strings.length + 8 < 2 ^ 32 := by
  have hlt := h.length_lt
  rw [stable.length_eq] at hlt
  omega

theorem Writable.offset_lt (h : stable.Writable) {offset : ℕ} (hmem : offset ∈ stable.offsets) :
    offset < 256 ^ 4 := by
  have hlt := h.length_lt
  have hle := offset_le hmem
  rw [stable.length_eq] at hlt
  show offset < 2 ^ 32
  omega

theorem writeTo_eq (h : stable.Writable) : stable.writeTo = .ok stable.bytes := by
  have hcount := h.count_lt
  have hstrings : stable.strings.mapM writeString = .ok (stable.strings.map bytesOf) :=
    Fallible.mapM_of_forall fun s hs => writeString_eq (h.units s hs)
  have hoffsets : stable.offsets.mapM writeU32 = .ok (stable.offsets.map (Bytes.encode 4)) :=
    Fallible.mapM_of_forall fun x hx => writeUnsigned_of_lt (h.offset_lt hx)
  unfold STableSection.writeTo writeU32
  rw [writeUnsigned_of_lt (show stable.length < 256 ^ 4 from h.length_lt),
    writeUnsigned_of_lt (show stable.count < 256 ^ 4 by
      rw [stable.count_eq]
      show stable.strings.length < 2 ^ 32
      omega)]
  show (do
    let offsets ← stable.offsets.mapM writeU32
    let strings ← stable.strings.mapM writeString
    pure (Bytes.encode 4 stable.length ++ Bytes.encode 4 stable.count ++ offsets.flatten ++
      strings.flatten)) = _
  rw [hoffsets, hstrings]
  rfl

theorem offsets_length (stable : STableSection) :
    stable.offsets.length = stable.strings.length := by
  rw [stable.offsets_eq, List.length_map, List.length_range]

theorem bytes_length (stable : STableSection) : stable.bytes.length = stable.length := by
  unfold bytes
  rw [List.length_append, List.length_append, List.length_append, flatten_encode_length,
    flatten_bytesOf_length, Bytes.encode_length, Bytes.encode_length, stable.offsets_length,
    stable.length_eq]

theorem loaded_lt (h : stable.WellFormed) : (stable.strings.map bytesOf).length < 2 ^ 32 := by
  have hcount := h.writable.count_lt
  rw [List.length_map]
  omega

/-- The loader reads the table of the strings' bytes. -/
theorem loadStringTable_of_at (h : stable.WellFormed) {buff : List UInt8} {pos : ℕ}
    (hat : At buff pos stable.bytes) :
    loadStringTable buff pos =
      .ok (StringTable.ofStrings (stable.strings.map bytesOf) (loaded_lt h)) := by
  have hcount := h.writable.count_lt
  have hlength := stable.length_eq
  have hlt := h.length_lt
  have hend : pos + stable.length ≤ buff.length := by
    rw [← stable.bytes_length]
    apply hat.length_le
    rw [← List.length_pos_iff, bytes_length, stable.length_eq]
    omega
  unfold bytes at hat
  rw [at_append, at_append, at_append] at hat
  obtain ⟨⟨⟨hatLength, hatCount⟩, hatOffsets⟩, hatStrings⟩ := hat
  simp only [Bytes.encode_length, List.length_append, ← Nat.add_assoc]
    at hatCount hatOffsets hatStrings
  have hcountLt : stable.count < 256 ^ 4 := by
    rw [stable.count_eq]
    show stable.strings.length < 2 ^ 32
    omega
  have hreadLength : readU32 buff pos = .ok (UInt32.ofNat stable.length, pos + 4) :=
    readWord_of_at UInt32.ofNat hatLength (by decide) h.length_lt
  have hreadCount : readU32 buff (pos + 4) = .ok (UInt32.ofNat stable.count, pos + 4 + 4) :=
    readWord_of_at UInt32.ofNat hatCount (by decide) hcountLt
  have hsteps := steps_of_at id (readU32 buff) (Bytes.encode 4) UInt32.ofNat
    (fun x hx pos hx' => by
      rw [Bytes.encode_length]
      exact readWord_of_at UInt32.ofNat hx' (by decide) (h.writable.offset_lt hx)) hatOffsets
  simp only [id_eq] at hsteps
  have hcountNat : (stable.offsets.map UInt32.ofNat).length =
      (UInt32.ofNat stable.count).toNat := by
    rw [toNat_ofNat_of_lt hcountLt, List.length_map, stable.offsets_length, stable.count_eq]
  have hstringsLength : ((UInt32.ofNat stable.length).toNat +
      (2 ^ 64 - ((UInt32.ofNat stable.count).toNat * 4 + 8))) % 2 ^ 64 =
      (stable.strings.map bytesOf).flatten.length := by
    rw [toNat_ofNat_of_lt h.length_lt, toNat_ofNat_of_lt hcountLt, flatten_bytesOf_length,
      stable.count_eq]
    omega
  have hcopy := copyBytes_of_at hatStrings (by
    rw [flatten_bytesOf_length, flatten_encode_length, stable.offsets_length]
    omega)
  unfold loadStringTable
  simp only [hreadLength, hreadCount, Fallible.ok_bind, Fallible.times_of_steps hsteps hcountNat,
    hstringsLength, hcopy]
  simp only [Fallible.pure_eq_ok, StringTable.ofStrings, StringTable.mk.injEq, List.length_map,
    flatten_bytesOf_length, stable.length_eq, stable.count_eq, stable.offsets_eq, true_and,
    and_true, List.map_map]
  refine List.map_congr_left fun i _ => ?_
  rw [Function.comp_apply, ← List.map_take, flatten_bytesOf_length]

end Compiler.STableSection

/-! ## The instructions -/

/-- An instruction whose operands fit the fields they are written to. -/
def Compiler.InRange (instruction : Instruction) : Prop :=
  ∀ operand ∈ operands instruction,
    match operand with
    | .integer value => -2 ^ 31 ≤ value ∧ value < 2 ^ 31
    | .unumber value => value < 2 ^ 16
    | .double _ => True

/-- The bytes of an operand. -/
def Compiler.Operand.bytes : Operand → List UInt8
  | integer value => writeI32 value
  | unumber value => Bytes.encode 2 value
  | double value => writeDouble value

def instructionBytes (instruction : Instruction) : List UInt8 :=
  instruction.opcode.byte :: ((operands instruction).map Operand.bytes).flatten

/-- An instruction that can be written: its unsigned operands fit 16 bits. -/
def Compiler.Fits (instruction : Instruction) : Prop :=
  ∀ x, .unumber x ∈ operands instruction → x < 2 ^ 16

theorem Compiler.InRange.fits {instruction : Instruction} (h : InRange instruction) :
    Fits instruction := fun x hx => h (.unumber x) hx

theorem writeInstruction_eq {instruction : Instruction} (h : Fits instruction) :
    DataSection.writeInstruction instruction = .ok (instructionBytes instruction) := by
  have hoperands : (operands instruction).mapM Operand.writeTo =
      .ok ((operands instruction).map Operand.bytes) := by
    apply Fallible.mapM_of_forall
    intro operand hmem
    cases operand with
    | integer value => rfl
    | unumber value => exact writeUnsigned_of_lt (h value hmem)
    | double value => rfl
  unfold DataSection.writeInstruction
  rw [hoperands]
  rfl

section

variable {buff : List UInt8} {pos : ℕ}

theorem readU8_of_at {b : UInt8} (h : At buff pos [b]) : readU8 buff pos = .ok (b, pos + 1) := by
  have hread := readWord_of_field UInt8.ofNat h (List.cons_ne_nil b [])
  rwa [Bytes.decode, Bytes.decode, Nat.mul_zero, Nat.add_zero, UInt8.ofNat_toNat] at hread

theorem readU16_of_at {x : ℕ} (h : At buff pos (Bytes.encode 2 x)) (hx : x < 2 ^ 16) :
    readU16 buff pos = .ok (UInt16.ofNat x, pos + 2) :=
  readWord_of_at UInt16.ofNat h (by decide) hx

theorem readI32_of_at {x : ℤ} (h : At buff pos (writeI32 x)) :
    readI32 buff pos = .ok (BitVec.ofInt 32 x, pos + 4) := by
  have hread := readWord_of_at (BitVec.ofNat 32) h (by decide) (BitVec.isLt _)
  rwa [BitVec.ofNat_toNat, BitVec.setWidth_eq] at hread

theorem readDouble_of_at {x : Binary64} (h : At buff pos (writeDouble x)) :
    readDouble buff pos = .ok (x, pos + 8) := by
  have hread := readWord_of_at (fun n => (⟨BitVec.ofNat 64 n⟩ : Binary64)) h (by decide)
    (BitVec.isLt _)
  rwa [BitVec.ofNat_toNat, BitVec.setWidth_eq] at hread

/-- The loader reads every instruction back, wherever it stands. -/
theorem loadInstruction_of_at {instruction : Instruction} (h : Fits instruction)
    (hat : At buff pos (instructionBytes instruction)) :
    loadInstruction buff pos =
      .ok (instruction.loaded, pos + (instructionBytes instruction).length) := by
  unfold instructionBytes at hat
  rw [← List.singleton_append, at_append] at hat
  obtain ⟨hatByte, hatOperands⟩ := hat
  have hbyte := readU8_of_at hatByte
  have hu16 : ∀ x, operands instruction = [.unumber x] →
      readU16 buff (pos + 1) = .ok (UInt16.ofNat x, pos + 1 + 2) := by
    intro x hx
    rw [hx] at hatOperands
    refine readU16_of_at (by simpa [Operand.bytes] using hatOperands) ?_
    exact h x (by rw [hx]; exact List.mem_singleton_self _)
  unfold loadInstruction
  rw [hbyte]
  simp only [Fallible.ok_bind, Opcode.ofByte_byte]
  cases instruction with
  | ldInt x =>
    have hread : readI32 buff (pos + 1) = .ok (BitVec.ofInt 32 x, pos + 1 + 4) :=
      readI32_of_at (by simpa [operands, Operand.bytes] using hatOperands)
    simp [InstOf.opcode, hread, Instruction.loaded, InstOf.map, instructionBytes, operands,
      Operand.bytes, writeI32, pure, Except.pure]
  | ldDouble x =>
    have hread : readDouble buff (pos + 1) = .ok (x, pos + 1 + 8) :=
      readDouble_of_at (by simpa [operands, Operand.bytes] using hatOperands)
    simp [InstOf.opcode, hread, Instruction.loaded, InstOf.map, instructionBytes, operands,
      Operand.bytes, writeDouble, pure, Except.pure]
  | funcDecl x y =>
    simp only [operands, List.map_cons, List.map_nil, List.flatten_cons, List.flatten_nil,
      List.append_nil, Operand.bytes] at hatOperands
    rw [at_append, Bytes.encode_length] at hatOperands
    have hreadX := readU16_of_at hatOperands.1 (h x (by simp [operands]))
    have hreadY := readU16_of_at hatOperands.2 (h y (by simp [operands]))
    simp only [List.length_singleton] at hreadX hreadY
    simp [InstOf.opcode, hreadX, hreadY, Instruction.loaded, InstOf.map, instructionBytes,
      operands, Operand.bytes, pure, Except.pure]
  | ldString x | allocLocal x | storeLocal x | loadLocal x | loadArg x | funcDeclE x | call x
  | objStore x | objLoad x | jmp x | jmpF x | jmpT x | exportAs x =>
    simp [InstOf.opcode, hu16 x rfl, Instruction.loaded, InstOf.map, instructionBytes, operands,
      Operand.bytes, pure, Except.pure]
  | _ => rfl

end

/-- The number that a loaded operand stands for. -/
def Inst.written : Option Inst → Instruction
  | none => .nop
  | some inst => inst.map UInt16.toNat BitVec.toInt

/-- Loading loses nothing of an instruction whose operands are in range. -/
theorem written_loaded {instruction : Instruction} (h : InRange instruction) :
    Inst.written instruction.loaded = instruction := by
  have hu16 : ∀ x, .unumber x ∈ operands instruction → (UInt16.ofNat x).toNat = x := by
    intro x hx
    rw [UInt16.toNat_ofNat', Nat.mod_eq_of_lt (h (.unumber x) hx)]
  cases instruction with
  | ldInt x =>
    obtain ⟨hlow, hhigh⟩ := h (.integer x) (List.mem_singleton_self _)
    simp only [Instruction.loaded, InstOf.map, Inst.written, BitVec.toInt_ofInt, reduceCtorEq,
      if_false, InstOf.ldInt.injEq]
    rw [Int.bmod_eq_of_le (by simpa using hlow) (by simpa using hhigh)]
  | funcDecl x y =>
    simp [Instruction.loaded, InstOf.map, Inst.written, hu16 x (by simp [operands]),
      hu16 y (by simp [operands])]
  | ldString x | allocLocal x | storeLocal x | loadLocal x | loadArg x | funcDeclE x | call x
  | objStore x | objLoad x | jmp x | jmpF x | jmpT x | exportAs x =>
    simp [Instruction.loaded, InstOf.map, Inst.written, hu16 x (List.mem_singleton_self _)]
  | _ => rfl

namespace Compiler.DataSection

variable {data : Compiler.DataSection}

/-- A section that can be written: it declares less than 4 GiB and its unsigned
operands fit 16 bits. -/
structure Writable (data : Compiler.DataSection) : Prop where
  fits : ∀ i ∈ data.instructions, Fits i
  length_lt : data.length < 2 ^ 32

/-- A section all of whose operands fit their fields. -/
structure WellFormed (data : Compiler.DataSection) : Prop where
  inRange : ∀ i ∈ data.instructions, InRange i
  length_lt : data.length < 2 ^ 32

theorem WellFormed.writable (h : data.WellFormed) : data.Writable :=
  ⟨fun i hi => (h.inRange i hi).fits, h.length_lt⟩

def bytes (data : Compiler.DataSection) : List UInt8 :=
  Bytes.encode 4 data.length ++ Bytes.encode 4 data.count ++
    (data.instructions.map instructionBytes).flatten

theorem count_le_length (data : Compiler.DataSection) : data.count + 8 ≤ data.length := by
  have hsum : ∀ l : List Instruction, l.length ≤ (l.map fun i => 1 + operandsLength i).sum := by
    intro l
    induction l with
    | nil => exact Nat.zero_le _
    | cons i l ih =>
      rw [List.length_cons, List.map_cons, List.sum_cons]
      omega
  have := hsum data.instructions
  rw [data.length_eq, data.count_eq]
  omega

theorem Writable.count_lt (h : data.Writable) : data.count < 256 ^ 4 := by
  have hle := data.count_le_length
  have hlt := h.length_lt
  show data.count < 2 ^ 32
  omega

theorem writeTo_eq (h : data.Writable) : data.writeTo = .ok data.bytes := by
  have hinstructions : data.instructions.mapM writeInstruction =
      .ok (data.instructions.map instructionBytes) :=
    Fallible.mapM_of_forall fun i hi => writeInstruction_eq (h.fits i hi)
  unfold DataSection.writeTo writeU32
  rw [writeUnsigned_of_lt (show data.length < 256 ^ 4 from h.length_lt),
    writeUnsigned_of_lt h.count_lt, hinstructions]
  rfl

/-- The section as it is loaded. -/
def loaded (data : Compiler.DataSection) (h : data.WellFormed) : AtomixJS.DataSection where
  length := UInt32.ofNat data.length
  count := UInt32.ofNat data.count
  instructions := data.instructions.map Instruction.loaded
  count_eq := by rw [List.length_map, toNat_ofNat_of_lt h.writable.count_lt, data.count_eq]

theorem loadDataSection_of_at (h : data.WellFormed) {buff : List UInt8} {pos : ℕ}
    (hat : At buff pos data.bytes) : loadDataSection buff pos = .ok (data.loaded h) := by
  unfold bytes at hat
  rw [at_append, at_append] at hat
  obtain ⟨⟨hatLength, hatCount⟩, hatInstructions⟩ := hat
  simp only [Bytes.encode_length, List.length_append, ← Nat.add_assoc] at hatCount hatInstructions
  have hreadLength : readU32 buff pos = .ok (UInt32.ofNat data.length, pos + 4) :=
    readWord_of_at UInt32.ofNat hatLength (by decide) h.length_lt
  have hreadCount : readU32 buff (pos + 4) = .ok (UInt32.ofNat data.count, pos + 4 + 4) :=
    readWord_of_at UInt32.ofNat hatCount (by decide) h.writable.count_lt
  have hsteps := steps_of_at id (loadInstruction buff) instructionBytes Instruction.loaded
    (fun i hi _ hat => loadInstruction_of_at (h.inRange i hi).fits hat) hatInstructions
  simp only [id_eq] at hsteps
  have htimes := Fallible.times_of_steps hsteps
    (show _ = (UInt32.ofNat data.count).toNat from (data.loaded h).count_eq)
  unfold loadDataSection
  simp only [hreadLength, hreadCount, Fallible.ok_bind, htimes]
  rfl

end Compiler.DataSection

/-! ## Modules -/

namespace Compiler.ModuleFormat

/-- A module as `buildModule` makes it, whose sections and offsets fit. -/
structure WellFormed (m : ModuleFormat) : Prop where
  built : m = buildModule m.header.hash m.stableSection m.dataSection
  stable : m.stableSection.WellFormed
  data : m.dataSection.WellFormed
  start_lt : 22 + m.stableSection.length < 2 ^ 32

/-- The module of distinct strings and of instructions whose operands fit. -/
theorem wellFormed_of {hash : UInt32 × UInt32} {strings : List JSString}
    {instructions : List Instruction} (hdistinct : strings.Nodup)
    (hunits : ∀ s ∈ strings, ∀ c ∈ s, 1 ≤ c.toNat ∧ c.toNat ≤ 255)
    (hrange : ∀ i ∈ instructions, InRange i)
    (hstable : 22 + (STableSection.ofStrings strings).length < 2 ^ 32)
    (hdata : (DataSection.ofInstructions instructions).length < 2 ^ 32) :
    (buildModule hash (STableSection.ofStrings strings)
      (DataSection.ofInstructions instructions)).WellFormed := by
  have hstrings := STableSection.ofStrings_strings hdistinct
  have hinstructions := DataSection.ofInstructions_instructions instructions
  refine ⟨rfl, ⟨?_, ?_⟩, ⟨?_, hdata⟩, hstable⟩
  · rwa [← hstrings] at hunits
  · show (STableSection.ofStrings strings).length < 2 ^ 32
    omega
  · rwa [← hinstructions] at hrange

/-- A module without strings and instructions. -/
def empty (hash : UInt32 × UInt32) : ModuleFormat :=
  buildModule hash STableSection.empty DataSection.empty

theorem empty_wellFormed (hash : UInt32 × UInt32) : (empty hash).WellFormed where
  built := rfl
  stable := ⟨fun _ hs => absurd hs List.not_mem_nil, show 8 < 2 ^ 32 by decide⟩
  data := ⟨fun _ hi => absurd hi List.not_mem_nil, show 8 < 2 ^ 32 by decide⟩
  start_lt := show 22 + 8 < 2 ^ 32 by decide

/-- The header that `buildModule` makes, in bytes. -/
def headerBytes (m : ModuleFormat) : List UInt8 :=
  [46, 65, 120, 77] ++ Bytes.encode 2 2 ++
    (Bytes.encode 4 m.header.hash.1.toNat ++ Bytes.encode 4 m.header.hash.2.toNat) ++
    Bytes.encode 4 22 ++ Bytes.encode 4 (22 + m.stableSection.length)

def bytes (m : ModuleFormat) : List UInt8 :=
  m.headerBytes ++ m.stableSection.bytes ++ m.dataSection.bytes

/-- The hash as one number, the second word being the high one. -/
def loadedHash (m : ModuleFormat) : UInt64 :=
  UInt64.ofNat (m.header.hash.2.toNat * 2 ^ 32 + m.header.hash.1.toNat)

/-- The header as it is loaded. -/
def loadedHeader (m : ModuleFormat) : AtomixJS.ModuleHeader where
  magic := [0x2E, 0x41, 0x78, 0x4D]
  version := 2
  hash := m.loadedHash
  stringTable := 22
  dataSection := UInt32.ofNat (22 + m.stableSection.length)

variable {m : ModuleFormat}

theorem headerBytes_length (m : ModuleFormat) : m.headerBytes.length = 22 := by
  simp [headerBytes]

theorem toNat_words (low high : UInt32) :
    (UInt64.ofNat (high.toNat * 2 ^ 32 + low.toNat)).toNat = high.toNat * 2 ^ 32 + low.toNat := by
  have hlow := low.toNat_lt
  have hhigh := high.toNat_lt
  rw [UInt64.toNat_ofNat', Nat.mod_eq_of_lt]
  omega

theorem loadedHash_toNat (m : ModuleFormat) :
    m.loadedHash.toNat = m.header.hash.2.toNat * 2 ^ 32 + m.header.hash.1.toNat :=
  toNat_words m.header.hash.1 m.header.hash.2

theorem decode_hash (low high : UInt32) :
    Bytes.decode (Bytes.encode 4 low.toNat ++ Bytes.encode 4 high.toNat) =
      high.toNat * 2 ^ 32 + low.toNat := by
  rw [Bytes.decode_append, Bytes.decode_encode low.toNat_lt, Bytes.decode_encode high.toNat_lt,
    Bytes.encode_length]
  omega

theorem header_writeTo (h : m.header = (buildModule m.header.hash m.stableSection
    m.dataSection).header) (hstart : 22 + m.stableSection.length < 2 ^ 32) :
    m.header.writeTo = .ok m.headerBytes := by
  have hlow : writeU32 m.header.hash.1.toNat = .ok (Bytes.encode 4 m.header.hash.1.toNat) :=
    writeUnsigned_of_lt m.header.hash.1.toNat_lt
  have hhigh : writeU32 m.header.hash.2.toNat = .ok (Bytes.encode 4 m.header.hash.2.toNat) :=
    writeUnsigned_of_lt m.header.hash.2.toNat_lt
  have hdata : writeU32 (22 + m.stableSection.length) =
      .ok (Bytes.encode 4 (22 + m.stableSection.length)) := writeUnsigned_of_lt hstart
  rw [h]
  unfold ModuleHeader.writeTo
  simp only [buildModule, hlow, hhigh, hdata, Fallible.ok_bind]
  simp [headerBytes, writeU16, writeU32, writeUnsigned, pure, Except.pure]

theorem writeTo_eq (h : m.WellFormed) : m.writeTo = .ok m.bytes := by
  have hheader := header_writeTo (congrArg ModuleFormat.header h.built) h.start_lt
  unfold ModuleFormat.writeTo
  rw [hheader, STableSection.writeTo_eq h.stable.writable, DataSection.writeTo_eq h.data.writable]
  rfl

theorem loadModuleHeader_of_at (hstart : 22 + m.stableSection.length < 2 ^ 32)
    {buff : List UInt8} {pos : ℕ} (hat : At buff pos m.headerBytes) :
    loadModuleHeader buff pos = .ok (m.loadedHeader, pos + 22) := by
  have hend : pos + 22 ≤ buff.length := by
    rw [← headerBytes_length m]
    exact hat.length_le (List.cons_ne_nil _ _)
  unfold headerBytes at hat
  rw [at_append, at_append, at_append, at_append] at hat
  obtain ⟨⟨⟨⟨hatMagic, hatVersion⟩, hatHash⟩, hatStable⟩, hatData⟩ := hat
  simp only [Bytes.encode_length, List.length_append, List.length_cons, List.length_nil]
    at hatVersion hatHash hatStable hatData
  have hmagic := copyBytes_of_at hatMagic (Nat.le_trans (Nat.add_le_add_left (by decide) pos) hend)
  have hversion : readU16 buff (pos + 4) = .ok (2, pos + 6) :=
    readWord_of_at UInt16.ofNat hatVersion (by decide) (by decide)
  have hhash : readU64 buff (pos + 6) = .ok (m.loadedHash, pos + 14) := by
    have hread := readWord_of_field UInt64.ofNat hatHash (List.cons_ne_nil _ _)
    rw [decode_hash, List.length_append, Bytes.encode_length, Bytes.encode_length] at hread
    exact hread
  have hstable : readU32 buff (pos + 14) = .ok (22, pos + 18) :=
    readWord_of_at UInt32.ofNat hatStable (by decide) (by decide)
  have hdata : readU32 buff (pos + 18) =
      .ok (UInt32.ofNat (22 + m.stableSection.length), pos + 22) :=
    readWord_of_at UInt32.ofNat hatData (by decide) hstart
  simp only [List.length_cons, List.length_nil, Nat.zero_add, Nat.reduceAdd] at hmagic
  unfold loadModuleHeader
  simp only [hmagic, hversion, hhash, hstable, hdata, Fallible.ok_bind, ne_eq, not_true_eq_false,
    if_false]
  rfl

/-- The header that the loader reads from a module that was written. -/
theorem loadModuleHeader_of_written {hash : UInt32 × UInt32} {stable : STableSection}
    {data : DataSection} {bytes : List UInt8}
    (hwritten : (buildModule hash stable data).writeTo = .ok bytes) :
    loadModuleHeader bytes 0 = .ok ((buildModule hash stable data).loadedHeader, 22) := by
  obtain ⟨header, hheader, rest⟩ := Fallible.bind_eq_ok.mp hwritten
  simp only [Fallible.bind_eq_ok, Fallible.pure_eq_ok] at rest
  obtain ⟨stableBytes, _, dataBytes, _, hbytes⟩ := rest
  have hstart : 22 + stable.length < 2 ^ 32 := by
    have hfields := hheader
    unfold ModuleHeader.writeTo at hfields
    simp only [Fallible.bind_eq_ok] at hfields
    obtain ⟨_, _, _, _, _, _, _, _, _, hdata, _⟩ := hfields
    exact lt_of_writeUnsigned hdata
  have hwhole := (header_writeTo (m := buildModule hash stable data) rfl hstart).symm.trans hheader
  obtain rfl := Except.ok.inj hwhole
  rw [← hbytes, List.append_assoc]
  have hat := at_of_append [] (buildModule hash stable data).headerBytes (stableBytes ++ dataBytes)
  exact loadModuleHeader_of_at hstart hat

end Compiler.ModuleFormat

/-- The loaded module is the one that was compiled: same hash, same instructions
with the same operands, and the same strings under the same indices. -/
structure JSModule.Carries (module : JSModule) (hash : UInt32 × UInt32) (strings : List JSString)
    (instructions : List Instruction) : Prop where
  hash_eq : module.header.hash.toNat = hash.2.toNat * 2 ^ 32 + hash.1.toNat
  instructions_eq : module.dataSection.instructions = instructions.map Instruction.loaded
  operands_eq : module.dataSection.instructions.map Inst.written = instructions
  count_eq : module.stringTable.count.toNat = strings.length
  strings_eq : ∀ (i : ℕ) (s : JSString), strings[i]? = some s →
    ∃ loaded, stringTableLoadStr module.stringTable (UInt32.ofNat i) = .ok loaded ∧
      loaded.map (·.toUInt16) = s

namespace Compiler.ModuleFormat

variable {m : ModuleFormat}

theorem bytesOf_toUInt16 {s : JSString} (h : ∀ c ∈ s, 1 ≤ c.toNat ∧ c.toNat ≤ 255) :
    (bytesOf s).map (·.toUInt16) = s ∧ 0 ∉ bytesOf s := by
  have hunit : ∀ c ∈ s, c.toUInt8.toNat = c.toNat := fun c hc => by
    rw [UInt16.toNat_toUInt8, Nat.mod_eq_of_lt (Nat.lt_succ_of_le (h c hc).2)]
  constructor
  · unfold bytesOf
    rw [List.map_map]
    refine (List.map_congr_left fun c hc => ?_).trans (List.map_id s)
    rw [Function.comp_apply, id, ← UInt16.toNat_inj, UInt8.toNat_toUInt16, hunit c hc]
  · intro hmem
    obtain ⟨c, hc, hzero⟩ := List.mem_map.mp hmem
    have hnat := congrArg UInt8.toNat hzero
    rw [hunit c hc] at hnat
    have hpos := (h c hc).1
    rw [hnat] at hpos
    exact absurd hpos (by decide)

/-- The module as it is loaded, with its exports and its scope. -/
def loaded (m : ModuleFormat) (h : m.WellFormed) (exports : ObjectRef) (scope : ScopeRef) :
    JSModule where
  bundle := none
  header := m.loadedHeader
  stringTable :=
    StringTable.ofStrings (m.stableSection.strings.map bytesOf) (STableSection.loaded_lt h.stable)
  dataSection := m.dataSection.loaded h.data
  initialized := false
  exports
  scope := some scope

theorem loaded_carries (h : m.WellFormed) (exports : ObjectRef) (scope : ScopeRef) :
    (m.loaded h exports scope).Carries m.header.hash m.stableSection.strings
      m.dataSection.instructions where
  hash_eq := m.loadedHash_toNat
  instructions_eq := rfl
  operands_eq := by
    show (m.dataSection.instructions.map Instruction.loaded).map Inst.written = _
    rw [List.map_map]
    refine (List.map_congr_left fun i hi => ?_).trans (List.map_id _)
    exact written_loaded (h.data.inRange i hi)
  count_eq := by
    show (UInt32.ofNat _).toNat = _
    rw [toNat_ofNat_of_lt (STableSection.loaded_lt h.stable), List.length_map]
  strings_eq i s hs := by
    have hmem := List.mem_of_getElem? hs
    obtain ⟨hback, hzero⟩ := bytesOf_toUInt16 (h.stable.units s hmem)
    refine ⟨bytesOf s,
      stringTableLoadStr_ofStrings (STableSection.loaded_lt h.stable) ?_ ?_ hzero, hback⟩
    · rw [List.length_map, flatten_bytesOf_length, ← STableSection.length_eq]
      exact h.stable.length_lt
    · rw [List.getElem?_map, hs, Option.map_some]

/-- A module is read back wherever it stands, and the loader stops behind its
header. -/
theorem moduleLoadFromBufferOffset_of_at (h : m.WellFormed) {buff : List UInt8} {pos : ℕ}
    (hat : At buff pos m.bytes) (heap : Heap) :
    ∃ exports scope heap', moduleLoadFromBufferOffset buff (heap, pos) =
      .ok (m.loaded h exports scope, heap', pos + 22) := by
  unfold bytes at hat
  rw [at_append, at_append] at hat
  obtain ⟨⟨hatHeader, hatStable⟩, hatData⟩ := hat
  rw [headerBytes_length] at hatStable
  rw [List.length_append, headerBytes_length, STableSection.bytes_length] at hatData
  have hheader := loadModuleHeader_of_at h.start_lt hatHeader
  have hstable : loadStringTable buff (m.loadedHeader.stringTable.toNat + pos) = _ :=
    STableSection.loadStringTable_of_at h.stable (Nat.add_comm 22 pos ▸ hatStable)
  have hdata : loadDataSection buff (m.loadedHeader.dataSection.toNat + pos) =
      .ok (m.dataSection.loaded h.data) := by
    show loadDataSection buff ((UInt32.ofNat (22 + m.stableSection.length)).toNat + pos) = _
    rw [toNat_ofNat_of_lt h.start_lt, Nat.add_comm _ pos]
    exact DataSection.loadDataSection_of_at h.data hatData
  unfold moduleLoadFromBufferOffset
  simp only [hheader, hstable, hdata, Fallible.ok_bind]
  exact ⟨_, _, _, rfl⟩

end Compiler.ModuleFormat

end AtomixJS

namespace AtomixJS.Compiler

/-! ## What was written could be written -/

theorem units_of_writeString {s : JSString} {bytes : List UInt8} (h : writeString s = .ok bytes) :
    ∀ c ∈ s, c.toNat ≤ 255 := by
  induction s generalizing bytes with
  | nil => exact fun c hc => absurd hc List.not_mem_nil
  | cons d s ih =>
      simp only [writeString, Fallible.bind_eq_ok] at h
      obtain ⟨byte, hbyte, rest, hrest, _⟩ := h
      intro c hc
      rcases List.mem_cons.mp hc with rfl | hc
      · exact Nat.le_of_lt_succ (lt_of_writeUnsigned hbyte)
      · exact ih hrest c hc

theorem STableSection.writable_of_writeTo {stable : STableSection} {bytes : List UInt8}
    (h : stable.writeTo = .ok bytes) : stable.Writable := by
  simp only [STableSection.writeTo, Fallible.bind_eq_ok] at h
  obtain ⟨length, hlength, _, _, _, _, strings, hstrings, _⟩ := h
  refine ⟨fun s hs => ?_, lt_of_writeUnsigned hlength⟩
  obtain ⟨_, hwritten⟩ := Fallible.ok_of_mapM_ok hstrings hs
  exact units_of_writeString hwritten

theorem DataSection.writable_of_writeTo {data : DataSection} {bytes : List UInt8}
    (h : data.writeTo = .ok bytes) : data.Writable := by
  simp only [DataSection.writeTo, Fallible.bind_eq_ok] at h
  obtain ⟨length, hlength, _, _, instructions, hinstructions, _⟩ := h
  refine ⟨fun i hi x hx => ?_, lt_of_writeUnsigned hlength⟩
  obtain ⟨_, hwritten⟩ := Fallible.ok_of_mapM_ok hinstructions hi
  simp only [writeInstruction, Fallible.bind_eq_ok] at hwritten
  obtain ⟨_, hoperands, _⟩ := hwritten
  obtain ⟨_, hoperand⟩ := Fallible.ok_of_mapM_ok hoperands hx
  exact lt_of_writeUnsigned hoperand

/-! ## The header -/

namespace ModuleHeader

/-- The numbers of a header fit their fields. -/
structure Writable (header : ModuleHeader) : Prop where
  version : header.version < 256 ^ 2
  stableSectionStart : header.stableSectionStart < 256 ^ 4
  dataSectionStart : header.dataSectionStart < 256 ^ 4

def bytes (header : ModuleHeader) : List UInt8 :=
  header.magic ++ Bytes.encode 2 header.version ++ Bytes.encode 4 header.hash.1.toNat ++
    Bytes.encode 4 header.hash.2.toNat ++ Bytes.encode 4 header.stableSectionStart ++
    Bytes.encode 4 header.dataSectionStart

variable {header : ModuleHeader}

theorem bytes_length (header : ModuleHeader) : header.bytes.length = 22 := by
  simp [bytes, header.magic_length]

theorem writable_of_writeTo {bytes : List UInt8} (h : header.writeTo = .ok bytes) :
    header.Writable := by
  simp only [writeTo, Fallible.bind_eq_ok] at h
  obtain ⟨_, hversion, _, _, _, _, _, hstable, _, hdata, _⟩ := h
  exact ⟨lt_of_writeUnsigned hversion, lt_of_writeUnsigned hstable, lt_of_writeUnsigned hdata⟩

theorem writeTo_eq (h : header.Writable) : header.writeTo = .ok header.bytes := by
  unfold writeTo writeU16 writeU32
  rw [writeUnsigned_of_lt h.version, writeUnsigned_of_lt header.hash.1.toNat_lt,
    writeUnsigned_of_lt header.hash.2.toNat_lt, writeUnsigned_of_lt h.stableSectionStart,
    writeUnsigned_of_lt h.dataSectionStart]
  rfl

end ModuleHeader

/-- What was written is the bytes of the parts. -/
theorem ModuleFormat.writeTo_cases {module : ModuleFormat} {bytes : List UInt8}
    (h : module.writeTo = .ok bytes) :
    module.header.Writable ∧ module.stableSection.Writable ∧ module.dataSection.Writable ∧
      bytes = module.header.bytes ++ module.stableSection.bytes ++ module.dataSection.bytes := by
  simp only [writeTo, Fallible.bind_eq_ok, Fallible.pure_eq_ok] at h
  obtain ⟨header, hheader, stable, hstable, data, hdata, rfl⟩ := h
  have hheaderWritable := ModuleHeader.writable_of_writeTo hheader
  have hstableWritable := STableSection.writable_of_writeTo hstable
  have hdataWritable := DataSection.writable_of_writeTo hdata
  refine ⟨hheaderWritable, hstableWritable, hdataWritable, ?_⟩
  rw [Except.ok.inj ((ModuleHeader.writeTo_eq hheaderWritable).symm.trans hheader),
    Except.ok.inj ((STableSection.writeTo_eq hstableWritable).symm.trans hstable),
    Except.ok.inj ((DataSection.writeTo_eq hdataWritable).symm.trans hdata)]

end AtomixJS.Compiler
