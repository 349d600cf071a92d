import AtomixJS.Compiler.Codec
import AtomixJS.Lib.Utf8

/-!
# The compiler's readers

`BinaryReader` and the `readFrom` methods, with which the compiler reads a module
that it wrote before.  What they read need not satisfy the invariants of the
sections, so `STableFields`, `DataFields` and `ModuleFields` are the sections
without them.

The lemmas say what the readers make of the bytes of a part of a module.  Of the
strings that is the bytes read as UTF-8, of the integer operands their lower 32
bits.
-/

namespace AtomixJS.Compiler

open Segment

/-! ## `BinaryReader` -/

namespace BinaryReader

/-- `Buffer.readUInt8`, `readUInt16LE` and `readUInt32LE`, for a field of `w`
bytes. -/
def readUnsigned (w : ℕ) (buffer : List UInt8) (pos : ℤ) : Except String (ℕ × ℤ) :=
  match if 0 ≤ pos then Bytes.read buffer pos.toNat w else none with
  | some x => .ok (x, pos + w)
  | none => .error "ERR_OUT_OF_RANGE"

def readU8 := readUnsigned 1

def readU16 := readUnsigned 2

def readU32 := readUnsigned 4

def readI32 (buffer : List UInt8) (pos : ℤ) : Except String (ℤ × ℤ) := do
  let (x, pos) ← readUnsigned 4 buffer pos
  return ((BitVec.ofNat 32 x).toInt, pos)

def readDouble (buffer : List UInt8) (pos : ℤ) : Except String (Binary64 × ℤ) := do
  let (x, pos) ← readUnsigned 8 buffer pos
  return (⟨BitVec.ofNat 64 x⟩, pos)

/-- `Buffer.toString('utf8', start, end)`, which moves both ends into the buffer. -/
def toUtf8String (buffer : List UInt8) (start stop : ℤ) : JSString :=
  Utf8.decode ((buffer.drop start.toNat).take (stop - max start 0).toNat)

def readString (length : ℤ) (buffer : List UInt8) (pos : ℤ) : JSString × ℤ :=
  (toUtf8String buffer pos (pos + length), pos + length)

end BinaryReader

/-! ## `STableSection.readFrom` -/

structure STableFields where
  length : ℕ
  count : ℕ
  offsets : List ℕ
  strings : List JSString
  deriving DecidableEq

namespace STableFields

/-- The length of a string, from its offset and that of the next one, or the end of
the section. -/
def stringLength (length count : ℕ) (offsets : List ℕ) (i : ℕ) : ℤ :=
  let start : ℤ := offsets.getD i 0
  let stop : ℤ :=
    if i + 1 < count then (offsets.getD (i + 1) 0 : ℕ)
    else (length : ℤ) - 2 * 4 - offsets.length * 4
  stop - start

def readStrings (buffer : List UInt8) : List ℤ → ℤ → List JSString × ℤ
  | [], pos => ([], pos)
  | length :: lengths, pos =>
    let (s, pos) := BinaryReader.readString length buffer pos
    let (strings, pos) := readStrings buffer lengths pos
    (s :: strings, pos)

def readFrom (buffer : List UInt8) (pos : ℤ) : Except String (STableFields × ℤ) := do
  let (length, pos) ← BinaryReader.readU32 buffer pos
  let (count, pos) ← BinaryReader.readU32 buffer pos
  let (offsets, pos) ← Fallible.times (BinaryReader.readU32 buffer) count pos
  let lengths := (List.range count).map (stringLength length count offsets.1)
  let (strings, pos) := readStrings buffer lengths pos
  return (⟨length, count, offsets.1, strings⟩, pos)

def writeTo (stable : STableFields) : Except String (List UInt8) := do
  let length ← writeU32 stable.length
  let count ← writeU32 stable.count
  let offsets ← stable.offsets.mapM writeU32
  let strings ← stable.strings.mapM writeString
  pure (length ++ count ++ offsets.flatten ++ strings.flatten)

end STableFields

def STableSection.fields (stable : STableSection) : STableFields :=
  ⟨stable.length, stable.count, stable.offsets, stable.strings⟩

/-! ## `DataSection.readFrom` -/

/-- `Instruction`, with whatever opcode byte and operands. -/
structure InstructionFields where
  opcode : UInt8
  operands : List Operand

/-- The readers in the operand dictionary. -/
inductive OperandKind
  | integer
  | double
  | short

/-- `operandDictionary`. -/
def operandDictionary : Opcode → List OperandKind
  | .ldInt => [.integer]
  | .ldDouble => [.double]
  | .ldString | .allocLocal | .storeLocal | .loadLocal | .loadArg => [.short]
  | .funcDecl => [.short, .short]
  | .funcDeclE | .call | .objStore | .objLoad | .jmp | .jmpF | .jmpT | .exportAs => [.short]
  | _ => []

def OperandKind.read (kind : OperandKind) (buffer : List UInt8) (pos : ℤ) :
    Except String (Operand × ℤ) :=
  match kind with
  | integer => do
    let (x, pos) ← BinaryReader.readI32 buffer pos
    return (.integer x, pos)
  | double => do
    let (x, pos) ← BinaryReader.readDouble buffer pos
    return (.double x, pos)
  | short => do
    let (x, pos) ← BinaryReader.readU16 buffer pos
    return (.unumber x, pos)

def readOperands (buffer : List UInt8) : List OperandKind → ℤ → Except String (List Operand × ℤ)
  | [], pos => .ok ([], pos)
  | kind :: kinds, pos => do
    let (operand, pos) ← kind.read buffer pos
    let (operands, pos) ← readOperands buffer kinds pos
    return (operand :: operands, pos)

/-- The instruction at a position.  A byte that is no opcode has no operands in the
dictionary. -/
def readInstruction (buffer : List UInt8) (pos : ℤ) : Except String (InstructionFields × ℤ) := do
  let (byte, pos) ← BinaryReader.readU8 buffer pos
  let kinds := (Opcode.table[byte]?.map operandDictionary).getD []
  let (operands, pos) ← readOperands buffer kinds pos
  return (⟨UInt8.ofNat byte, operands⟩, pos)

structure DataFields where
  length : ℕ
  count : ℕ
  instructions : List InstructionFields

namespace DataFields

def readFrom (buffer : List UInt8) (pos : ℤ) : Except String (DataFields × ℤ) := do
  let (length, pos) ← BinaryReader.readU32 buffer pos
  let (count, pos) ← BinaryReader.readU32 buffer pos
  let (instructions, pos) ← Fallible.times (readInstruction buffer) count pos
  return (⟨length, count, instructions.1⟩, pos)

def writeInstruction (instruction : InstructionFields) : Except String (List UInt8) := do
  let operands ← instruction.operands.mapM Operand.writeTo
  pure (instruction.opcode :: operands.flatten)

def writeTo (data : DataFields) : Except String (List UInt8) := do
  let length ← writeU32 data.length
  let count ← writeU32 data.count
  let instructions ← data.instructions.mapM writeInstruction
  pure (length ++ count ++ instructions.flatten)

end DataFields

def instructionFields (instruction : Instruction) : InstructionFields :=
  ⟨instruction.opcode.byte, operands instruction⟩

def DataSection.fields (data : DataSection) : DataFields :=
  ⟨data.length, data.count, data.instructions.map instructionFields⟩

/-! ## `ModuleFormat.readFrom` -/

structure ModuleFields where
  header : ModuleHeader
  stableSection : STableFields
  dataSection : DataFields

def ModuleHeader.readFrom (buffer : List UInt8) (pos : ℤ) : Except String (ModuleHeader × ℤ) := do
  let (magic0, pos) ← BinaryReader.readU8 buffer pos
  let (magic1, pos) ← BinaryReader.readU8 buffer pos
  let (magic2, pos) ← BinaryReader.readU8 buffer pos
  let (magic3, pos) ← BinaryReader.readU8 buffer pos
  let (version, pos) ← BinaryReader.readU16 buffer pos
  let (hash0, pos) ← BinaryReader.readU32 buffer pos
  let (hash1, pos) ← BinaryReader.readU32 buffer pos
  let (stableSectionStart, pos) ← BinaryReader.readU32 buffer pos
  let (dataSectionStart, pos) ← BinaryReader.readU32 buffer pos
  return ({
    magic := [UInt8.ofNat magic0, UInt8.ofNat magic1, UInt8.ofNat magic2, UInt8.ofNat magic3]
    magic_length := rfl
    version
    hash := (UInt32.ofNat hash0, UInt32.ofNat hash1)
    stableSectionStart
    dataSectionStart }, pos)

namespace ModuleFields

def readFrom (buffer : List UInt8) : Except String ModuleFields := do
  let (header, pos) ← ModuleHeader.readFrom buffer 0
  let (stableSection, pos) ← STableFields.readFrom buffer pos
  let (dataSection, _) ← DataFields.readFrom buffer pos
  return ⟨header, stableSection, dataSection⟩

def writeTo (module : ModuleFields) : Except String (List UInt8) := do
  let header ← module.header.writeTo
  let stable ← module.stableSection.writeTo
  let data ← module.dataSection.writeTo
  pure (header ++ stable ++ data)

end ModuleFields

def ModuleFormat.fields (module : ModuleFormat) : ModuleFields :=
  ⟨module.header, module.stableSection.fields, module.dataSection.fields⟩

/-! ## Reading a field -/

variable {buffer : List UInt8} {pos w n : ℕ}

theorem BinaryReader.readUnsigned_of_at (h : At buffer pos (Bytes.encode w n)) (hw : 0 < w) (hn : n < 256 ^ w) :
    BinaryReader.readUnsigned w buffer pos = .ok (n, ((pos + w : ℕ) : ℤ)) := by
  have hread : Bytes.read buffer (pos : ℤ).toNat w = some n := Bytes.read_encode h hw hn
  unfold BinaryReader.readUnsigned
  rw [if_pos (Int.natCast_nonneg pos), hread]
  simp

theorem BinaryReader.readU8_of_at {b : UInt8} (h : At buffer pos [b]) :
    BinaryReader.readU8 buffer pos = .ok (b.toNat, ((pos + 1 : ℕ) : ℤ)) := by
  have hencode : Bytes.encode 1 b.toNat = [b] := by simp [Bytes.encode]
  exact readUnsigned_of_at (hencode.symm ▸ h) Nat.zero_lt_one b.toNat_lt

/-- An integer operand comes back cut to 32 bits. -/
theorem BinaryReader.readI32_of_at {x : ℤ} (h : At buffer pos (writeI32 x)) :
    BinaryReader.readI32 buffer pos = .ok ((BitVec.ofInt 32 x).toInt, ((pos + 4 : ℕ) : ℤ)) := by
  unfold BinaryReader.readI32
  rw [readUnsigned_of_at h (by decide) (BitVec.isLt _)]
  simp only [Fallible.ok_bind, BitVec.ofNat_toNat, BitVec.setWidth_eq]
  rfl

theorem BinaryReader.readDouble_of_at {x : Binary64} (h : At buffer pos (writeDouble x)) :
    BinaryReader.readDouble buffer pos = .ok (x, ((pos + 8 : ℕ) : ℤ)) := by
  unfold BinaryReader.readDouble
  rw [readUnsigned_of_at h (by decide) (BitVec.isLt _)]
  simp [pure, Except.pure]

/-- The bytes of a string come back as UTF-8. -/
theorem BinaryReader.readString_of_at {bytes : List UInt8} (h : At buffer pos bytes) :
    BinaryReader.readString bytes.length buffer pos = (Utf8.decode bytes, ((pos + bytes.length : ℕ) : ℤ)) := by
  obtain ⟨rest, h⟩ := h
  have hstart : max (pos : ℤ) 0 = pos := max_eq_left (Int.natCast_nonneg pos)
  have hlength : ((pos : ℤ) + bytes.length - pos).toNat = bytes.length := by omega
  unfold BinaryReader.readString BinaryReader.toUtf8String
  rw [hstart, hlength, Int.toNat_natCast, h, List.take_left]
  rfl

/-! ## Reading a string table -/

/-- What becomes of a string that is written and read. -/
def reread (s : JSString) : JSString := Utf8.decode (bytesOf s)

theorem readStrings_of_at {strings : List JSString}
    (h : At buffer pos (strings.map bytesOf).flatten) :
    STableFields.readStrings buffer (strings.map fun s => (s.length : ℤ)) pos =
      (strings.map reread, ((pos + strings.flatten.length : ℕ) : ℤ)) := by
  induction strings generalizing pos with
  | nil => simp [STableFields.readStrings]
  | cons s strings ih =>
      rw [List.map_cons, List.flatten_cons, at_append] at h
      have hlength : (bytesOf s).length = s.length := List.length_map _
      have hread := BinaryReader.readString_of_at h.1
      have hrest := ih h.2
      rw [hlength] at hread hrest
      rw [List.map_cons, STableFields.readStrings, hread]
      simp only [hrest, List.map_cons, List.flatten_cons, List.length_append, ← Nat.add_assoc]
      rfl

namespace STableSection

variable {stable : STableSection}

/-- The lengths that are computed from the offsets are those of the strings. -/
theorem stringLength_eq (stable : STableSection) :
    (List.range stable.count).map
        (STableFields.stringLength stable.length stable.count stable.offsets) =
      stable.strings.map fun s => (s.length : ℤ) := by
  apply List.ext_getElem
  · simp [stable.count_eq]
  intro i hleft hright
  have hi : i < stable.strings.length := by simpa using hright
  have hoffset : ∀ j, j < stable.strings.length →
      stable.offsets.getD j 0 = (stable.strings.take j).flatten.length := by
    intro j hj
    simp [stable.offsets_eq, hj, List.getD]
  obtain ⟨rest, htext, hnext, hlast⟩ := flatten_split (List.getElem?_eq_getElem hi)
  have htotal := congrArg List.length htext
  have hnextLength := congrArg List.length hnext
  simp only [List.length_append] at htotal hnextLength
  rw [List.getElem_map, List.getElem_map, List.getElem_range]
  unfold STableFields.stringLength
  by_cases hmore : i + 1 < stable.strings.length
  · rw [if_pos (stable.count_eq ▸ hmore), hoffset i hi, hoffset (i + 1) hmore]
    dsimp only
    omega
  · have hrest : rest = [] := hlast (by omega)
    rw [if_neg (stable.count_eq ▸ hmore), hoffset i hi, stable.length_eq, stable.offsets_length]
    rw [hrest, List.length_nil] at htotal
    dsimp only
    push_cast
    omega

/-- The table after it was written and read. -/
def reread (stable : STableSection) : STableFields :=
  { stable.fields with strings := stable.strings.map Compiler.reread }

theorem readFrom_of_at (h : stable.Writable) (hat : At buffer pos stable.bytes) :
    STableFields.readFrom buffer pos =
      .ok (stable.reread, ((pos + stable.bytes.length : ℕ) : ℤ)) := by
  have hcount : stable.count < 256 ^ 4 := by
    have hlt := h.count_lt
    rw [stable.count_eq]
    show stable.strings.length < 2 ^ 32
    omega
  rw [bytes_length]
  unfold bytes at hat
  rw [at_append, at_append, at_append] at hat
  obtain ⟨⟨⟨hatLength, hatCount⟩, hatOffsets⟩, hatStrings⟩ := hat
  simp only [Bytes.encode_length, List.length_append, ← Nat.add_assoc]
    at hatCount hatOffsets hatStrings
  have hreadLength : BinaryReader.readU32 buffer pos =
      .ok (stable.length, ((pos + 4 : ℕ) : ℤ)) :=
    BinaryReader.readUnsigned_of_at hatLength (by decide) h.length_lt
  have hreadCount : BinaryReader.readU32 buffer ((pos + 4 : ℕ) : ℤ) =
      .ok (stable.count, ((pos + 4 + 4 : ℕ) : ℤ)) :=
    BinaryReader.readUnsigned_of_at hatCount (by decide) hcount
  have hsteps := steps_of_at (fun n : ℕ => (n : ℤ)) (BinaryReader.readU32 buffer) (Bytes.encode 4)
    id (fun x hx pos hx' => by
      rw [Bytes.encode_length]
      exact BinaryReader.readUnsigned_of_at hx' (by decide) (h.offset_lt hx)) hatOffsets
  rw [List.map_id] at hsteps
  have hoffsets := Fallible.times_of_steps hsteps
    (show stable.offsets.length = stable.count by rw [stable.offsets_length, stable.count_eq])
  have hstrings := readStrings_of_at hatStrings
  have hend : pos + 4 + 4 + (stable.offsets.map (Bytes.encode 4)).flatten.length +
      stable.strings.flatten.length = pos + stable.length := by
    rw [flatten_encode_length, stable.offsets_length, stable.length_eq]
    omega
  unfold STableFields.readFrom
  simp only [hreadLength, hreadCount, hoffsets, Fallible.ok_bind, stringLength_eq, hstrings, hend]
  rfl

end STableSection

/-! ## Reading instructions -/

def Operand.kind : Operand → OperandKind
  | integer _ => .integer
  | unumber _ => .short
  | double _ => .double

/-- What becomes of an operand that is written and read. -/
def Operand.reread : Operand → Operand
  | integer x => .integer (BitVec.ofInt 32 x).toInt
  | unumber x => .unumber x
  | double x => .double x

/-- The dictionary has the readers that the operands of each instruction need. -/
theorem operandDictionary_opcode (instruction : Instruction) :
    operandDictionary instruction.opcode = (operands instruction).map Operand.kind := by
  cases instruction <;> rfl

theorem readOperands_of_at {items : List Operand} (hfits : ∀ x, .unumber x ∈ items → x < 2 ^ 16)
    (h : At buffer pos (items.map Operand.bytes).flatten) :
    readOperands buffer (items.map Operand.kind) pos =
      .ok (items.map Operand.reread,
        ((pos + (items.map Operand.bytes).flatten.length : ℕ) : ℤ)) := by
  induction items generalizing pos with
  | nil => simp [readOperands]
  | cons operand items ih =>
      rw [List.map_cons, List.flatten_cons, at_append] at h
      have hread : operand.kind.read buffer pos =
          .ok (operand.reread, ((pos + operand.bytes.length : ℕ) : ℤ)) := by
        cases operand with
        | integer x => simp [Operand.kind, OperandKind.read, BinaryReader.readI32_of_at h.1,
            Operand.reread, Operand.bytes, writeI32, pure, Except.pure]
        | double x => simp [Operand.kind, OperandKind.read, BinaryReader.readDouble_of_at h.1,
            Operand.reread, Operand.bytes, writeDouble, pure, Except.pure]
        | unumber x =>
            have hx : x < 256 ^ 2 := hfits x List.mem_cons_self
            have hread : BinaryReader.readU16 buffer pos = .ok (x, ((pos + 2 : ℕ) : ℤ)) :=
              BinaryReader.readUnsigned_of_at h.1 (by decide) hx
            simp [Operand.kind, OperandKind.read, hread, Operand.reread, Operand.bytes, pure,
              Except.pure]
      have hrest := ih (fun x hx => hfits x (List.mem_cons_of_mem _ hx)) h.2
      rw [List.map_cons, readOperands, hread]
      simp only [Fallible.ok_bind, hrest, List.map_cons, List.flatten_cons, List.length_append,
        ← Nat.add_assoc]
      rfl

/-- The instruction after it was written and read. -/
def instructionReread (instruction : Instruction) : InstructionFields :=
  ⟨instruction.opcode.byte, (operands instruction).map Operand.reread⟩

theorem readInstruction_of_at {instruction : Instruction} (hfits : Fits instruction)
    (h : At buffer pos (instructionBytes instruction)) :
    readInstruction buffer pos = .ok (instructionReread instruction,
      ((pos + (instructionBytes instruction).length : ℕ) : ℤ)) := by
  unfold instructionBytes at h
  rw [← List.singleton_append, at_append, List.length_singleton] at h
  have hoperands := readOperands_of_at hfits h.2
  have hkinds : (Opcode.table[instruction.opcode.byte.toNat]?.map operandDictionary).getD [] =
      (operands instruction).map Operand.kind := by
    rw [Opcode.table_byte, Option.map_some, Option.getD_some, operandDictionary_opcode]
  unfold readInstruction
  rw [BinaryReader.readU8_of_at h.1]
  simp only [Fallible.ok_bind, hkinds, hoperands]
  simp only [instructionReread, instructionBytes, List.length_cons, UInt8.ofNat_toNat]
  rw [Nat.add_assoc, Nat.add_comm 1]
  rfl

namespace DataSection

variable {data : DataSection}

/-- The section after it was written and read. -/
def reread (data : DataSection) : DataFields :=
  { data.fields with instructions := data.instructions.map instructionReread }

theorem readFrom_of_at (h : data.Writable) (hat : At buffer pos data.bytes) :
    ∃ stop, DataFields.readFrom buffer pos = .ok (data.reread, stop) := by
  unfold bytes at hat
  rw [at_append, at_append] at hat
  obtain ⟨⟨hatLength, hatCount⟩, hatInstructions⟩ := hat
  simp only [Bytes.encode_length, List.length_append, ← Nat.add_assoc] at hatCount hatInstructions
  have hreadLength : BinaryReader.readU32 buffer pos = .ok (data.length, ((pos + 4 : ℕ) : ℤ)) :=
    BinaryReader.readUnsigned_of_at hatLength (by decide) h.length_lt
  have hreadCount : BinaryReader.readU32 buffer ((pos + 4 : ℕ) : ℤ) =
      .ok (data.count, ((pos + 4 + 4 : ℕ) : ℤ)) :=
    BinaryReader.readUnsigned_of_at hatCount (by decide) h.count_lt
  have hsteps := steps_of_at (fun n : ℕ => (n : ℤ)) (readInstruction buffer) instructionBytes
    instructionReread (fun i hi _ hat => readInstruction_of_at (h.fits i hi) hat) hatInstructions
  have htimes := Fallible.times_of_steps hsteps
    (show (data.instructions.map instructionReread).length = data.count by
      rw [List.length_map, data.count_eq])
  unfold DataFields.readFrom
  simp only [hreadLength, hreadCount, htimes, Fallible.ok_bind]
  exact ⟨_, rfl⟩

end DataSection

end AtomixJS.Compiler
