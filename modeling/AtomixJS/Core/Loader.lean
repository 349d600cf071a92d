import AtomixJS.Core.Heap
import AtomixJS.Lib.Bytes
import AtomixJS.Lib.Fallible

/-!
# The loader

`loader.c` on a buffer of known length.  The C code knows no length and reads
on; here a read that leaves the buffer is a fault, so a load that succeeds has
read inside the buffer only.  Allocation succeeds.
-/

namespace AtomixJS

/-! ## Reading -/

/-- The `READ_*` macros: the number in `w` bytes, the first one lowest, and the
position behind them. -/
def readWord {α : Type} (w : ℕ) (cast : ℕ → α) (buff : List UInt8) (position : ℕ) :
    Except Fault (α × ℕ) :=
  match Bytes.read buff position w with
  | some n => .ok (cast n, position + w)
  | none => .error (.undefinedBehaviour "read outside the buffer")

def readU8 : List UInt8 → ℕ → Except Fault (UInt8 × ℕ) := readWord 1 UInt8.ofNat

def readU16 : List UInt8 → ℕ → Except Fault (UInt16 × ℕ) := readWord 2 UInt16.ofNat

def readU32 : List UInt8 → ℕ → Except Fault (UInt32 × ℕ) := readWord 4 UInt32.ofNat

def readI32 : List UInt8 → ℕ → Except Fault (CInt × ℕ) := readWord 4 (BitVec.ofNat 32)

def readU64 : List UInt8 → ℕ → Except Fault (UInt64 × ℕ) := readWord 8 UInt64.ofNat

/-- `READ_DOUBLE` on a little-endian host. -/
def readDouble : List UInt8 → ℕ → Except Fault (Binary64 × ℕ) :=
  readWord 8 fun n => ⟨BitVec.ofNat 64 n⟩

/-- `memcpy` out of the buffer. -/
def copyBytes (buff : List UInt8) (position length : ℕ) : Except Fault (List UInt8) :=
  if position + length ≤ buff.length then .ok ((buff.drop position).take length)
  else .error (.undefinedBehaviour "read outside the buffer")

/-! ## Sections -/

/-- `load_string_table`.  The length of the strings is computed as a `size_t`. -/
def loadStringTable (buff : List UInt8) (position : ℕ) : Except Fault StringTable := do
  let (length, position) ← readU32 buff position
  let (count, position) ← readU32 buff position
  let (offsets, position) ← Fallible.times (readU32 buff) count.toNat position
  let strBuffLength := (length.toNat + (2 ^ 64 - (count.toNat * 4 + 8))) % 2 ^ 64
  let strings ← copyBytes buff position strBuffLength
  pure { length, count, offsets := offsets.1, strings, count_eq := offsets.2 }

/-- `load_instruction`.  Opcodes beyond the table share the case of `OP_NOP`. -/
def loadInstruction (buff : List UInt8) (position : ℕ) : Except Fault (Option Inst × ℕ) := do
  let (byte, position) ← readU8 buff position
  let u16 (inst : UInt16 → Inst) : Except Fault (Option Inst × ℕ) := do
    let (operand, position) ← readU16 buff position
    pure (some (inst operand), position)
  match Opcode.ofByte byte with
  | .nop => pure (none, position)
  | .ldInt =>
    let (operand, position) ← readI32 buff position
    pure (some (.ldInt operand), position)
  | .ldDouble =>
    let (operand, position) ← readDouble buff position
    pure (some (.ldDouble operand), position)
  | .ldUndf => pure (some .ldUndf, position)
  | .ldNull => pure (some .ldNull, position)
  | .ldTrue => pure (some .ldTrue, position)
  | .ldFalse => pure (some .ldFalse, position)
  | .ldThis => pure (some .ldThis, position)
  | .binary op => pure (some (.binary op), position)
  | .unary op => pure (some (.unary op), position)
  | .pop => pure (some .pop, position)
  | .dup => pure (some .dup, position)
  | .swap => pure (some .swap, position)
  | .arrAlloc => pure (some .arrAlloc, position)
  | .objAlloc => pure (some .objAlloc, position)
  | .objCload => pure (some .objCload, position)
  | .objCstore => pure (some .objCstore, position)
  | .ret => pure (some .ret, position)
  | .pushScope => pure (some .pushScope, position)
  | .popScope => pure (some .popScope, position)
  | .ldString => u16 .ldString
  | .allocLocal => u16 .allocLocal
  | .storeLocal => u16 .storeLocal
  | .loadLocal => u16 .loadLocal
  | .loadArg => u16 .loadArg
  | .funcDeclE => u16 .funcDeclE
  | .call => u16 .call
  | .objStore => u16 .objStore
  | .objLoad => u16 .objLoad
  | .jmp => u16 .jmp
  | .jmpF => u16 .jmpF
  | .jmpT => u16 .jmpT
  | .exportAs => u16 .exportAs
  | .funcDecl =>
    let (operand, position) ← readU16 buff position
    let (operand2, position) ← readU16 buff position
    pure (some (.funcDecl operand operand2), position)

/-- `load_data_section`. -/
def loadDataSection (buff : List UInt8) (position : ℕ) : Except Fault DataSection := do
  let (length, position) ← readU32 buff position
  let (count, position) ← readU32 buff position
  let (instructions, _) ← Fallible.times (loadInstruction buff) count.toNat position
  pure { length, count, instructions := instructions.1, count_eq := instructions.2 }

/-! ## Modules and bundles -/

/-- The header of `module_load_from_buffer_offset`. -/
def loadModuleHeader (buff : List UInt8) (position : ℕ) :
    Except Fault (ModuleHeader × ℕ) := do
  let magic ← copyBytes buff position 4
  if magic ≠ [0x2E, 0x41, 0x78, 0x4D] then .error (.panic "Invalid magic number")
  else
    let (version, position) ← readU16 buff (position + 4)
    if version ≠ 2 then .error (.panic "Invalid VM Version")
    else
      let (hash, position) ← readU64 buff position
      let (stringTable, position) ← readU32 buff position
      let (dataSection, position) ← readU32 buff position
      pure ({ magic, version, hash, stringTable, dataSection }, position)

/-- `module_load_from_buffer_offset`.  The position after the module is the end
of its header. -/
def moduleLoadFromBufferOffset (buff : List UInt8) (state : Heap × ℕ) :
    Except Fault (JSModule × Heap × ℕ) := do
  let (h, pos) := state
  let (header, position) ← loadModuleHeader buff pos
  let stringTable ← loadStringTable buff (header.stringTable.toNat + pos)
  let dataSection ← loadDataSection buff (header.dataSection.toNat + pos)
  let (h, prototype) := objectGetObjectPrototype h
  let (h, exports) := objectCreateObject h (some prototype)
  let (h, scope) := scopeCreateScope h none
  pure ({ bundle := none, header, stringTable, dataSection, initialized := false, exports,
          scope := some scope }, h, position)

/-- `module_load_from_buffer`. -/
def moduleLoadFromBuffer (buff : List UInt8) (h : Heap) : Except Fault (JSModule × Heap) := do
  let (module, h, _) ← moduleLoadFromBufferOffset buff (h, 0)
  pure (module, h)

/-- `bundle_load_from_buffer`, for a bundle that the caller knows as `bundle`. -/
def bundleLoadFromBuffer (buff : List UInt8) (bundle : BundleRef) (h : Heap) :
    Except Fault (JSBundle × Heap) := do
  let magic ← copyBytes buff 0 4
  if magic ≠ [0x2E, 0x41, 0x78, 0x42] then .error (.panic "Invalid magic number")
  else
    let (version, position) ← readU16 buff 4
    if version ≠ 1 then .error (.panic "Invalid VM Version")
    else
      let (entryPoint, position) ← readU64 buff position
      let (moduleCount, position) ← readU16 buff position
      let (modules, h, _) ←
        Fallible.times (moduleLoadFromBufferOffset buff) moduleCount.toNat (h, position)
      pure ({ magic, version, entryPoint, moduleCount
              modules := modules.1.map fun m => { m with bundle := some bundle }
              count_eq := by rw [List.length_map, modules.2] }, h)

end AtomixJS
