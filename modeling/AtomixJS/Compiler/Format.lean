import AtomixJS.Core.Instruction
import AtomixJS.Lib.Bytes
import AtomixJS.Lib.Fallible

/-!
# The compiler's file format

The sections of `format/*.ts` and the `BinaryWriter` they are written with.  A
`Size` is its number of bytes.  A writer throws when a number does not fit its
field, so writing yields `Except`.

The two sections are structures that carry how their lengths, counts and
offsets follow from their content, because only `registerString`,
`addInstruction` and `replaceInstruction` change them.
-/

namespace AtomixJS.Compiler

/-- A JavaScript string, by its code units. -/
abbrev JSString := List UInt16

/-! ## `BinaryWriter` -/

/-- `Buffer.writeUint8`, `writeUint16LE` and `writeUint32LE`, for a field of `w`
bytes. -/
def writeUnsigned (w x : ℕ) : Except String (List UInt8) :=
  if x < 256 ^ w then .ok (Bytes.encode w x) else .error "ERR_OUT_OF_RANGE"

def writeU8 (x : ℕ) : Except String (List UInt8) := writeUnsigned 1 x

def writeU16 (x : ℕ) : Except String (List UInt8) := writeUnsigned 2 x

def writeU32 (x : ℕ) : Except String (List UInt8) := writeUnsigned 4 x

/-- `writeI32` of a number that `>> 0` has cut to 32 bits. -/
def writeI32 (x : ℤ) : List UInt8 := Bytes.encode 4 (BitVec.ofInt 32 x).toNat

def writeDouble (x : Binary64) : List UInt8 := Bytes.encode 8 x.bits.toNat

/-- One byte for each code point, its first unit.  A code point of two units
starts with a surrogate, which does not fit a byte, so units can stand for code
points. -/
def writeString : JSString → Except String (List UInt8)
  | [] => .ok []
  | c :: rest => do
    let byte ← writeU8 c.toNat
    let bytes ← writeString rest
    pure (byte ++ bytes)

/-! ## `STableSection` -/

structure STableSection where
  length : ℕ
  count : ℕ
  offsets : List ℕ
  strings : List JSString
  length_eq : length = 8 + 4 * strings.length + strings.flatten.length
  count_eq : count = strings.length
  offsets_eq : offsets = (List.range strings.length).map fun i => (strings.take i).flatten.length
  nodup : strings.Nodup

namespace STableSection

def empty : STableSection := ⟨8, 0, [], [], rfl, rfl, rfl, List.nodup_nil⟩

variable (stable : STableSection)

/-- The offset of a string that is added: where the last one ends. -/
def nextOffset : ℕ :=
  if stable.count = 0 then 0
  else
    stable.offsets.getD (stable.count - 1) 0 + (stable.strings.getD (stable.count - 1) []).length

theorem nextOffset_eq : stable.nextOffset = stable.strings.flatten.length := by
  unfold nextOffset
  rw [stable.count_eq]
  rcases List.eq_nil_or_concat stable.strings with hnil | ⟨init, last, hlast⟩
  · rw [hnil]
    rfl
  · have hlength : stable.strings.length = init.length + 1 := by rw [hlast]; simp
    have hoffset : stable.offsets.getD init.length 0 = init.flatten.length := by
      rw [stable.offsets_eq, hlength]
      simp [hlast, List.getD]
    rw [if_neg (by omega), hlength, Nat.add_sub_cancel, hoffset, hlast]
    simp [List.getD]

/-- `registerString`: the index of the string and the table with it. -/
def registerString (x : JSString) : ℕ × STableSection :=
  if h : x ∈ stable.strings then (stable.strings.idxOf x, stable)
  else
    (stable.count,
      { length := stable.length + 4 + x.length
        count := stable.count + 1
        offsets := stable.offsets ++ [stable.nextOffset]
        strings := stable.strings ++ [x]
        length_eq := by
          rw [stable.length_eq]
          simp
          omega
        count_eq := by rw [stable.count_eq, List.length_append, List.length_singleton]
        offsets_eq := by
          rw [stable.nextOffset_eq, stable.offsets_eq, List.length_append, List.length_singleton,
            List.range_succ, List.map_append]
          congr 1
          · refine List.map_congr_left fun i hi => ?_
            rw [List.take_append_of_le_length (List.mem_range.mp hi).le]
          · simp
        nodup := by
          rw [List.nodup_append]
          refine ⟨stable.nodup, List.nodup_singleton x, fun a ha b hb => ?_⟩
          rintro rfl
          exact h (List.mem_singleton.mp hb ▸ ha) })

/-- The string can be found under its index. -/
theorem registerString_getElem? (x : JSString) :
    (stable.registerString x).2.strings[(stable.registerString x).1]? = some x := by
  unfold registerString
  split
  · next h => exact List.getElem?_idxOf h
  · simp [stable.count_eq]

/-- Indices that were given out stay valid. -/
theorem registerString_prefix (x : JSString) :
    stable.strings <+: (stable.registerString x).2.strings := by
  unfold registerString
  split
  · exact List.prefix_rfl
  · exact List.prefix_append _ _

/-- The table after a list of strings was registered. -/
def ofStrings (strings : List JSString) : STableSection :=
  strings.foldl (fun stable x => (stable.registerString x).2) empty

theorem registerString_new {x : JSString} (h : x ∉ stable.strings) :
    (stable.registerString x).2.strings = stable.strings ++ [x] := by
  unfold registerString
  rw [dif_neg h]

/-- Distinct strings are registered in their order. -/
theorem ofStrings_strings {strings : List JSString} (h : strings.Nodup) :
    (ofStrings strings).strings = strings := by
  suffices hfold : ∀ stable : STableSection, (stable.strings ++ strings).Nodup →
      (strings.foldl (fun stable x => (stable.registerString x).2) stable).strings =
        stable.strings ++ strings from hfold empty h
  clear h
  induction strings with
  | nil => intro stable _; exact (List.append_nil _).symm
  | cons x strings ih =>
    intro stable hnodup
    have hnew : x ∉ stable.strings := fun hmem =>
      (List.nodup_append.mp hnodup).2.2 x hmem x List.mem_cons_self rfl
    have hstrings := stable.registerString_new hnew
    rw [List.append_cons, ← hstrings] at hnodup ⊢
    exact ih _ hnodup

def writeTo : Except String (List UInt8) := do
  let length ← writeU32 stable.length
  let count ← writeU32 stable.count
  let offsets ← stable.offsets.mapM writeU32
  let strings ← stable.strings.mapM writeString
  pure (length ++ count ++ offsets.flatten ++ strings.flatten)

end STableSection

/-! ## `DataSection` -/

/-- `ConstantIntegerOperand`, `ConstantUNumberOperand` of a short, and
`ConstantDoubleOperand`. -/
inductive Operand
  | integer (value : ℤ)
  | unumber (value : ℕ)
  | double (value : Binary64)

/-- The length that an operand declares.  A double declares four bytes and
writes eight. -/
def Operand.length : Operand → ℕ
  | integer _ => 4
  | unumber _ => 2
  | double _ => 4

def Operand.writeTo : Operand → Except String (List UInt8)
  | integer value => .ok (writeI32 value)
  | unumber value => writeU16 value
  | double value => .ok (writeDouble value)

/-- The operands of an instruction, in the order they were added. -/
def operands : Instruction → List Operand
  | .ldInt x => [.integer x]
  | .ldDouble x => [.double x]
  | .ldString x | .allocLocal x | .storeLocal x | .loadLocal x | .loadArg x | .funcDeclE x
  | .call x | .objStore x | .objLoad x | .jmp x | .jmpF x | .jmpT x | .exportAs x => [.unumber x]
  | .funcDecl x y => [.unumber x, .unumber y]
  | .nop | .ldUndf | .ldNull | .ldTrue | .ldFalse | .ldThis | .binary _ | .unary _
  | .pop | .dup | .swap | .arrAlloc | .objAlloc | .objCload | .objCstore
  | .ret | .pushScope | .popScope => []

def operandsLength (instruction : Instruction) : ℕ :=
  ((operands instruction).map Operand.length).sum

structure DataSection where
  length : ℕ
  count : ℕ
  instructions : List Instruction
  length_eq : length = 8 + (instructions.map fun i => 1 + operandsLength i).sum
  count_eq : count = instructions.length

namespace DataSection

def empty : DataSection := ⟨8, 0, [], rfl, rfl⟩

variable (data : DataSection)

/-- `addInstruction`: the index of the instruction and the section with it. -/
def addInstruction (instruction : Instruction) : ℕ × DataSection :=
  (data.count,
    { length := data.length + 1 + operandsLength instruction
      count := data.count + 1
      instructions := data.instructions ++ [instruction]
      length_eq := by
        rw [data.length_eq]
        simp
        omega
      count_eq := by rw [data.count_eq, List.length_append, List.length_singleton] })

/-- The section after a list of instructions was added. -/
def ofInstructions (instructions : List Instruction) : DataSection :=
  instructions.foldl (fun data i => (data.addInstruction i).2) empty

theorem ofInstructions_instructions (instructions : List Instruction) :
    (ofInstructions instructions).instructions = instructions := by
  suffices hfold : ∀ data : DataSection,
      (instructions.foldl (fun data i => (data.addInstruction i).2) data).instructions =
        data.instructions ++ instructions from hfold empty
  induction instructions with
  | nil => intro data; exact (List.append_nil _).symm
  | cons i instructions ih =>
    intro data
    rw [List.foldl_cons, ih, List.append_cons]
    rfl

def replaceInstruction (index : ℕ) (instruction : Instruction) : Except String DataSection :=
  match h : data.instructions[index]? with
  | none => .error "TypeError"
  | some oldInstruction =>
    .ok
      { length := data.length - operandsLength oldInstruction + operandsLength instruction
        count := data.count
        instructions := data.instructions.set index instruction
        length_eq := by
          obtain ⟨hlt, rfl⟩ := List.getElem?_eq_some_iff.mp h
          have hsplit := List.take_append_drop index data.instructions
          rw [List.drop_eq_getElem_cons hlt] at hsplit
          have hold := congrArg (fun l => (l.map fun i => 1 + operandsLength i).sum) hsplit
          rw [data.length_eq, List.set_eq_take_cons_drop _ hlt]
          simp only [List.map_append, List.map_cons, List.sum_append, List.sum_cons] at hold ⊢
          omega
        count_eq := by rw [data.count_eq, List.length_set] }

def writeInstruction (instruction : Instruction) : Except String (List UInt8) := do
  let operands ← (operands instruction).mapM Operand.writeTo
  pure (instruction.opcode.byte :: operands.flatten)

def writeTo : Except String (List UInt8) := do
  let length ← writeU32 data.length
  let count ← writeU32 data.count
  let instructions ← data.instructions.mapM writeInstruction
  pure (length ++ count ++ instructions.flatten)

end DataSection

/-! ## `ModuleFormat` -/

/-- The header of a module.  Both words of a hash are unsigned, whether it comes
from `hashString` or was read from a file. -/
structure ModuleHeader where
  magic : List UInt8
  magic_length : magic.length = 4
  version : ℕ
  hash : UInt32 × UInt32
  stableSectionStart : ℕ
  dataSectionStart : ℕ

structure ModuleFormat where
  header : ModuleHeader
  stableSection : STableSection
  dataSection : DataSection

/-- The part of `ModuleFormat.writeTo` before the sections. -/
def ModuleHeader.writeTo (header : ModuleHeader) : Except String (List UInt8) := do
  let version ← writeU16 header.version
  let hash0 ← writeU32 header.hash.1.toNat
  let hash1 ← writeU32 header.hash.2.toNat
  let stableSectionStart ← writeU32 header.stableSectionStart
  let dataSectionStart ← writeU32 header.dataSectionStart
  pure (header.magic ++ version ++ hash0 ++ hash1 ++ stableSectionStart ++ dataSectionStart)

def ModuleFormat.writeTo (module : ModuleFormat) : Except String (List UInt8) := do
  let header ← module.header.writeTo
  let stable ← module.stableSection.writeTo
  let data ← module.dataSection.writeTo
  pure (header ++ stable ++ data)

def buildModule (hash : UInt32 × UInt32) (stableSection : STableSection)
    (dataSection : DataSection) : ModuleFormat where
  header :=
    { magic := [46, 65, 120, 77]
      magic_length := rfl
      version := 2
      hash
      stableSectionStart := 22
      dataSectionStart := 22 + stableSection.length }
  stableSection
  dataSection

/-! ## `BundleFormat` -/

structure BundleHeader where
  magic : List UInt8
  version : ℕ
  entryHash : UInt32 × UInt32
  count : ℕ

structure BundleFormat where
  header : BundleHeader
  modules : List ModuleFormat

def BundleFormat.writeTo (bundle : BundleFormat) : Except String (List UInt8) := do
  let version ← writeU16 bundle.header.version
  let entryHash0 ← writeU32 bundle.header.entryHash.1.toNat
  let entryHash1 ← writeU32 bundle.header.entryHash.2.toNat
  let count ← writeU16 bundle.header.count
  let modules ← bundle.modules.mapM ModuleFormat.writeTo
  pure (bundle.header.magic ++ version ++ entryHash0 ++ entryHash1 ++ count ++ modules.flatten)

/-- The comparison that `buildBundle` sorts by: the first words, then the second
ones. -/
def compareModules (a b : ModuleFormat) : ℤ :=
  if a.header.hash.1 < b.header.hash.1 then -1
  else if a.header.hash.1 > b.header.hash.1 then 1
  else if a.header.hash.2 < b.header.hash.2 then -1
  else if a.header.hash.2 > b.header.hash.2 then 1
  else 0

/-- The modules in the order of the comparison, equal ones as they were. -/
def sortModules (modules : List ModuleFormat) : List ModuleFormat :=
  modules.insertionSort fun a b => compareModules a b ≤ 0

def buildBundle (entryHash : UInt32 × UInt32) (modules : List ModuleFormat) : BundleFormat where
  header := { magic := [46, 65, 120, 66], version := 1, entryHash, count := modules.length }
  modules := sortModules modules

end AtomixJS.Compiler
