import AtomixJS.Compiler.Codec

/-!
# Lengths of sections and files

The two sections keep their lengths up to date with every call that changes them;
that they do is a field of the structures, so it holds after any sequence of calls.
The length of an instruction is what its operands declare.  A double declares four
bytes and writes eight, so a length is too small by four for every `LD_DOUBLE`.
-/

namespace AtomixJS.Compiler

open Segment

/-! ## `getLength` -/

def STableSection.getLength (stable : STableSection) : ℕ := stable.length

def DataSection.getLength (data : DataSection) : ℕ := data.length

def ModuleFormat.getLength (module : ModuleFormat) : ℕ :=
  4 + 2 + 8 + 2 * 4 + module.stableSection.getLength + module.dataSection.getLength

def BundleFormat.getLength (bundle : BundleFormat) : ℕ :=
  4 + 2 + 8 + 2 + (bundle.modules.map ModuleFormat.getLength).sum

/-! ## What is written -/

/-- A section has as many bytes as its length says, and its first field is the
length. -/
structure Measured (length : ℕ) (bytes : List UInt8) : Prop where
  total : bytes.length = length
  field : Bytes.read bytes 0 4 = some length

def isDouble : Instruction → Bool
  | .ldDouble _ => true
  | _ => false

/-- The instructions whose operand is a double. -/
def DataSection.doubles (data : DataSection) : ℕ := data.instructions.countP isDouble

theorem instructionBytes_length (instruction : Instruction) :
    (instructionBytes instruction).length =
      1 + operandsLength instruction + 4 * (if isDouble instruction then 1 else 0) := by
  cases instruction <;>
    simp [instructionBytes, operands, operandsLength, isDouble, Operand.bytes, Operand.length,
      writeI32, writeDouble]

theorem DataSection.bytes_length (data : DataSection) :
    data.bytes.length = data.getLength + 4 * data.doubles := by
  have hinstructions : ∀ instructions : List Instruction,
      (instructions.map instructionBytes).flatten.length =
        (instructions.map fun i => 1 + operandsLength i).sum + 4 * instructions.countP isDouble := by
    intro instructions
    induction instructions with
    | nil => rfl
    | cons i instructions ih =>
      rw [List.map_cons, List.flatten_cons, List.length_append, ih, instructionBytes_length,
        List.map_cons, List.sum_cons, List.countP_cons]
      omega
  rw [bytes, List.length_append, List.length_append, Bytes.encode_length, Bytes.encode_length,
    hinstructions, getLength, data.length_eq, doubles]
  omega

theorem doubles_eq_zero_iff {data : DataSection} :
    data.doubles = 0 ↔ ∀ x, .ldDouble x ∉ data.instructions := by
  rw [DataSection.doubles, List.countP_eq_zero]
  constructor
  · intro h x hx
    exact h _ hx rfl
  · intro h i hi hdouble
    cases i with
    | ldDouble x => exact h x hi
    | _ => cases hdouble

/-! ## Sections -/

theorem STableSection.field_at (stable : STableSection) :
    At stable.bytes 0 (Bytes.encode 4 stable.getLength) := by
  have hat := at_self stable.bytes
  conv at hat => arg 3; unfold STableSection.bytes
  simp only [at_append] at hat
  exact hat.1.1.1

theorem DataSection.field_at (data : DataSection) :
    At data.bytes 0 (Bytes.encode 4 data.getLength) := by
  have hat := at_self data.bytes
  conv at hat => arg 3; unfold DataSection.bytes
  simp only [at_append] at hat
  exact hat.1.1

theorem STableSection.measured {stable : STableSection} {bytes : List UInt8}
    (h : stable.writeTo = .ok bytes) : Measured stable.getLength bytes := by
  have hwritable := writable_of_writeTo h
  obtain rfl := Except.ok.inj ((writeTo_eq hwritable).symm.trans h)
  exact ⟨stable.bytes_length, Bytes.read_encode stable.field_at (by decide) hwritable.length_lt⟩

/-- The field holds the length in any case. -/
theorem DataSection.measured_iff {data : DataSection} {bytes : List UInt8}
    (h : data.writeTo = .ok bytes) : Measured data.getLength bytes ↔ data.doubles = 0 := by
  have hwritable := writable_of_writeTo h
  obtain rfl := Except.ok.inj ((writeTo_eq hwritable).symm.trans h)
  have hlength := data.bytes_length
  constructor
  · intro hmeasured
    have htotal := hmeasured.total
    omega
  · intro hnone
    exact ⟨by omega, Bytes.read_encode data.field_at (by decide) hwritable.length_lt⟩

/-! ## Modules and bundles -/

namespace ModuleFormat

variable {module : ModuleFormat} {bytes : List UInt8}

theorem length_of_writeTo (h : module.writeTo = .ok bytes) :
    bytes.length = module.getLength + 4 * module.dataSection.doubles := by
  obtain ⟨_, _, _, rfl⟩ := writeTo_cases h
  rw [List.length_append, List.length_append, ModuleHeader.bytes_length,
    STableSection.bytes_length, DataSection.bytes_length, getLength, STableSection.getLength]
  omega

/-- The fields of both sections, behind the 22 bytes of the header. -/
theorem fields_of_writeTo (h : module.writeTo = .ok bytes) :
    Bytes.read bytes 22 4 = some module.stableSection.getLength ∧
      Bytes.read bytes (22 + module.stableSection.getLength) 4 =
        some module.dataSection.getLength := by
  obtain ⟨_, hstable, hdata, rfl⟩ := writeTo_cases h
  have hat := at_self (module.header.bytes ++ module.stableSection.bytes ++
    module.dataSection.bytes)
  conv at hat => arg 3; rw [List.append_assoc]
  simp only [at_append, ModuleHeader.bytes_length, STableSection.bytes_length, Nat.zero_add] at hat
  obtain ⟨_, hatStable, hatData⟩ := hat
  exact ⟨Bytes.read_encode (hatStable.trans (STableSection.field_at _) (Nat.zero_le _)) (by decide)
      hstable.length_lt,
    Bytes.read_encode (hatData.trans (DataSection.field_at _) (Nat.zero_le _)) (by decide)
      hdata.length_lt⟩

end ModuleFormat

theorem length_of_writeUnsigned {w x : ℕ} {field : List UInt8}
    (h : writeUnsigned w x = .ok field) : field.length = w := by
  rw [writeUnsigned, Fallible.require_eq_ok] at h
  obtain rfl := Except.ok.inj h.2
  exact Bytes.encode_length w x

theorem length_of_writeModules {modules : List ModuleFormat} {results : List (List UInt8)}
    (h : modules.mapM ModuleFormat.writeTo = .ok results) : results.flatten.length =
      (modules.map ModuleFormat.getLength).sum +
        4 * (modules.map (·.dataSection.doubles)).sum := by
  induction modules generalizing results with
  | nil =>
    obtain rfl := Except.ok.inj h
    rfl
  | cons m modules ih =>
    rw [List.mapM_cons] at h
    simp only [Fallible.bind_eq_ok, Fallible.pure_eq_ok] at h
    obtain ⟨first, hfirst, rest, hrest, rfl⟩ := h
    rw [List.flatten_cons, List.length_append, ModuleFormat.length_of_writeTo hfirst, ih hrest,
      List.map_cons, List.sum_cons, List.map_cons, List.sum_cons]
    omega

theorem BundleFormat.length_of_writeTo {bundle : BundleFormat} {bytes : List UInt8}
    (hmagic : bundle.header.magic.length = 4) (h : bundle.writeTo = .ok bytes) :
    bytes.length = bundle.getLength + 4 * (bundle.modules.map (·.dataSection.doubles)).sum := by
  simp only [writeTo, Fallible.bind_eq_ok, Fallible.pure_eq_ok] at h
  obtain ⟨version, hversion, low, hlow, high, hhigh, count, hcount, modules, hmodules, rfl⟩ := h
  simp only [List.length_append, hmagic, length_of_writeUnsigned hversion,
    length_of_writeUnsigned hlow, length_of_writeUnsigned hhigh, length_of_writeUnsigned hcount,
    length_of_writeModules hmodules, getLength]
  omega

/-- **Lengths.**  Whatever is written, the length of a string section is exact; the
lengths of a data section and of a module are exact if and only if there is no
`LD_DOUBLE`, and that of a bundle if and only if there is none in any module. -/
theorem lengths_exact_iff (entryHash : UInt32 × UInt32) (modules : List ModuleFormat) :
    (∀ m ∈ modules, ∀ bytes, m.stableSection.writeTo = .ok bytes →
      Measured m.stableSection.getLength bytes) ∧
    (∀ m ∈ modules, ∀ bytes, m.dataSection.writeTo = .ok bytes →
      (Measured m.dataSection.getLength bytes ↔ ∀ x, .ldDouble x ∉ m.dataSection.instructions)) ∧
    (∀ m ∈ modules, ∀ bytes, m.writeTo = .ok bytes →
      ((bytes.length = m.getLength ∧ Bytes.read bytes 22 4 = some m.stableSection.getLength ∧
          Bytes.read bytes (22 + m.stableSection.getLength) 4 = some m.dataSection.getLength) ↔
        ∀ x, .ldDouble x ∉ m.dataSection.instructions)) ∧
    ∀ bytes, (buildBundle entryHash modules).writeTo = .ok bytes →
      (bytes.length = (buildBundle entryHash modules).getLength ↔
        ∀ m ∈ modules, ∀ x, .ldDouble x ∉ m.dataSection.instructions) := by
  refine ⟨fun m _ bytes h => STableSection.measured h, fun m _ bytes h => ?_, fun m _ bytes h => ?_,
    fun bytes h => ?_⟩
  · rw [DataSection.measured_iff h, doubles_eq_zero_iff]
  · have hlength := ModuleFormat.length_of_writeTo h
    rw [and_iff_left (ModuleFormat.fields_of_writeTo h), ← doubles_eq_zero_iff]
    omega
  · have hlength := BundleFormat.length_of_writeTo rfl h
    have hnone : ((buildBundle entryHash modules).modules.map (·.dataSection.doubles)).sum = 0 ↔
        ∀ m ∈ modules, ∀ x, .ldDouble x ∉ m.dataSection.instructions := by
      rw [List.sum_eq_zero_iff, List.forall_mem_map]
      exact forall_congr' fun m => by
        rw [show m ∈ (buildBundle entryHash modules).modules ↔ m ∈ modules from
          List.mem_insertionSort _, doubles_eq_zero_iff]
    rw [← hnone]
    omega

/-! ## Two sections -/

theorem lengths_exact_iff_empty : Measured 8 STableSection.empty.bytes := by
  have hwritten := STableSection.writeTo_eq (ModuleFormat.empty_wellFormed (1, 0)).stable.writable
  exact (lengths_exact_iff (0, 0) [ModuleFormat.empty (1, 0)]).1 _ (List.mem_singleton_self _) _
    hwritten

/-- A section that pushes the double 0 onto the stack. -/
def zeroSection : DataSection := DataSection.ofInstructions [.ldDouble ⟨0⟩]

/-- It declares 13 bytes and has 17. -/
theorem lengths_differ : ¬ ∀ (data : DataSection) (bytes : List UInt8),
    data.writeTo = .ok bytes → Measured data.getLength bytes := by
  intro hclaim
  have hwritten : zeroSection.writeTo = .ok zeroSection.bytes := rfl
  have hmeasured := hclaim zeroSection _ hwritten
  rw [DataSection.measured_iff hwritten] at hmeasured
  cases hmeasured

end AtomixJS.Compiler
