import AtomixJS.Compiler.Reader

/-!
# Reading back what was compiled

To bundle a module the compiler reads the file that it wrote for it and writes it
again.  Strings are written as one byte for each unit and read as UTF-8, so this
gives back the same module as long as all strings are ASCII.  An integer operand
is written with its lower 32 bits.
-/

namespace AtomixJS.Compiler

open Segment

/-! ## The header -/

namespace ModuleHeader

variable {header : ModuleHeader}

theorem readFrom_of_at (h : header.Writable) {buffer : List UInt8} {pos : ℕ}
    (hat : At buffer pos header.bytes) :
    ModuleHeader.readFrom buffer pos = .ok (header, ((pos + 22 : ℕ) : ℤ)) := by
  obtain ⟨magic, hmagic, version, ⟨hash0, hash1⟩, stableSectionStart, dataSectionStart⟩ := header
  obtain ⟨magic0, magic1, magic2, magic3, rfl⟩ := List.length_eq_four.mp hmagic
  have hsplit : [magic0, magic1, magic2, magic3] = [magic0] ++ [magic1] ++ [magic2] ++ [magic3] :=
    rfl
  unfold bytes at hat
  simp only [hsplit, at_append, List.length_append, List.length_singleton, Bytes.encode_length] at hat
  obtain ⟨⟨⟨⟨⟨⟨⟨⟨h0, h1⟩, h2⟩, h3⟩, hversion⟩, hhash0⟩, hhash1⟩, hstable⟩, hdata⟩ := hat
  have r0 := BinaryReader.readU8_of_at h0
  have r1 := BinaryReader.readU8_of_at h1
  have r2 := BinaryReader.readU8_of_at h2
  have r3 := BinaryReader.readU8_of_at h3
  have rversion := BinaryReader.readUnsigned_of_at hversion (by decide) h.version
  have rhash0 := BinaryReader.readUnsigned_of_at hhash0 (by decide) hash0.toNat_lt
  have rhash1 := BinaryReader.readUnsigned_of_at hhash1 (by decide) hash1.toNat_lt
  have rstable := BinaryReader.readUnsigned_of_at hstable (by decide) h.stableSectionStart
  have rdata := BinaryReader.readUnsigned_of_at hdata (by decide) h.dataSectionStart
  unfold readFrom BinaryReader.readU16 BinaryReader.readU32
  simp only [Nat.add_assoc, Nat.reduceAdd] at r0 r1 r2 r3 rversion rhash0 rhash1 rstable rdata
  simp only [r0, r1, r2, r3, rversion, rhash0, rhash1, rstable, rdata, Fallible.ok_bind,
    UInt8.ofNat_toNat, UInt32.ofNat_toNat]
  rfl

end ModuleHeader

/-! ## Modules -/

namespace ModuleFormat

variable {module : ModuleFormat} {bytes : List UInt8}

/-- The module after it was written and read. -/
def reread (module : ModuleFormat) : ModuleFields :=
  ⟨module.header, module.stableSection.reread, module.dataSection.reread⟩

/-- What was written can be read, and the strings and operands are what they become
on the way. -/
theorem readFrom_writeTo (h : module.writeTo = .ok bytes) :
    ModuleFields.readFrom bytes = .ok module.reread := by
  obtain ⟨hheaderWritable, hstableWritable, hdataWritable, rfl⟩ := writeTo_cases h
  have hat : At (module.header.bytes ++ module.stableSection.bytes ++ module.dataSection.bytes) 0
      (module.header.bytes ++ module.stableSection.bytes ++ module.dataSection.bytes) := by
    simpa using at_of_append [] _ []
  have hparts := hat
  rw [at_append, at_append] at hparts
  obtain ⟨⟨hatHeader, hatStable⟩, hatData⟩ := hparts
  have hreadHeader := ModuleHeader.readFrom_of_at hheaderWritable hatHeader
  rw [ModuleHeader.bytes_length] at hatStable
  have hreadStable := STableSection.readFrom_of_at hstableWritable hatStable
  rw [List.length_append, ModuleHeader.bytes_length, ← Nat.add_assoc] at hatData
  obtain ⟨stop, hreadData⟩ := DataSection.readFrom_of_at hdataWritable hatData
  unfold ModuleFields.readFrom
  rw [Nat.cast_zero] at hreadHeader
  simp only [hreadHeader, hreadStable, hreadData, Fallible.ok_bind]
  rfl

/-- The fields are written as the module is. -/
theorem fields_writeTo (module : ModuleFormat) : module.fields.writeTo = module.writeTo := by
  have hinstruction : DataFields.writeInstruction ∘ instructionFields =
      DataSection.writeInstruction := rfl
  have hdata : module.dataSection.fields.writeTo = module.dataSection.writeTo := by
    unfold DataFields.writeTo DataSection.writeTo DataSection.fields
    rw [List.mapM_map, hinstruction]
  unfold ModuleFields.writeTo writeTo fields
  rw [hdata]
  rfl

/-- Reading gives the same module again, with the same header, strings, offsets and
instructions, and writing that gives the same bytes. -/
def RoundTrips (module : ModuleFormat) (bytes : List UInt8) : Prop :=
  ∃ read, ModuleFields.readFrom bytes = .ok read ∧ read = module.fields ∧ read.writeTo = .ok bytes

end ModuleFormat

/-! ## When nothing changes -/

/-- A string survives exactly if it is ASCII. -/
theorem reread_eq_iff {s : JSString} (hunits : ∀ c ∈ s, c.toNat ≤ 255) :
    reread s = s ↔ ∀ c ∈ s, c.toNat ≤ 127 := by
  have hbyte : ∀ c ∈ s, c.toUInt8.toNat = c.toNat := fun c hc => by
    rw [UInt16.toNat_toUInt8, Nat.mod_eq_of_lt (Nat.lt_succ_of_le (hunits c hc))]
  constructor
  · intro hsame c hc
    by_contra hlarge
    have hbeyond : ∃ b ∈ bytesOf s, 0x7F < b := by
      refine ⟨c.toUInt8, List.mem_map_of_mem hc, ?_⟩
      rw [UInt8.lt_iff_toNat_lt, hbyte c hc]
      exact Nat.lt_of_not_le hlarge
    rcases Utf8.decode_shorter hbeyond with hmem | hlt
    · have hmem' : Utf8.replacement ∈ s := hsame ▸ hmem
      exact absurd (hunits _ hmem') (by decide)
    · rw [show (Utf8.decode (bytesOf s)).length = s.length from congrArg List.length hsame] at hlt
      simp [bytesOf] at hlt
  · intro hascii
    have hlow : ∀ b ∈ bytesOf s, b ≤ 0x7F := by
      intro b hb
      obtain ⟨c, hc, rfl⟩ := List.mem_map.mp hb
      rw [UInt8.le_iff_toNat_le, hbyte c hc]
      exact hascii c hc
    unfold reread
    rw [Utf8.decode_ascii hlow, bytesOf, List.map_map]
    refine (List.map_congr_left fun c hc => ?_).trans (List.map_id s)
    rw [Function.comp_apply, id, ← UInt16.toNat_inj, UInt8.toNat_toUInt16, hbyte c hc]

/-- An operand survives exactly if it fits its field. -/
theorem operand_reread_eq_iff (operand : Operand) :
    operand.reread = operand ↔ ∀ x, operand = .integer x → -2 ^ 31 ≤ x ∧ x < 2 ^ 31 := by
  cases operand with
  | integer x =>
      have hcut : (BitVec.ofInt 32 x).toInt = x ↔ -2 ^ 31 ≤ x ∧ x < 2 ^ 31 := by
        rw [BitVec.toInt_ofInt, Int.bmod_def]
        omega
      simpa [Operand.reread] using hcut
  | _ => simp [Operand.reread]

theorem map_eq_self_iff {α : Type} {f : α → α} {items : List α} :
    items.map f = items ↔ ∀ x ∈ items, f x = x := by
  calc items.map f = items ↔ items.map f = items.map id := by rw [List.map_id]
    _ ↔ ∀ x ∈ items, f x = x := List.map_inj_left

theorem instructionReread_eq_iff (instruction : Instruction) :
    instructionReread instruction = instructionFields instruction ↔
      ∀ x, .integer x ∈ operands instruction → -2 ^ 31 ≤ x ∧ x < 2 ^ 31 := by
  calc instructionReread instruction = instructionFields instruction
      ↔ (operands instruction).map Operand.reread = operands instruction := by
        simp [instructionReread, instructionFields]
    _ ↔ ∀ operand ∈ operands instruction, operand.reread = operand := map_eq_self_iff
    _ ↔ _ := by
        simp only [operand_reread_eq_iff]
        constructor
        · intro h x hx
          exact h _ hx x rfl
        · rintro h _ hx x rfl
          exact h x hx

theorem ModuleFormat.reread_eq_iff {module : ModuleFormat}
    (hunits : ∀ s ∈ module.stableSection.strings, ∀ c ∈ s, c.toNat ≤ 255) :
    module.reread = module.fields ↔
      (∀ s ∈ module.stableSection.strings, ∀ c ∈ s, c.toNat ≤ 127) ∧
      ∀ i ∈ module.dataSection.instructions, ∀ x, .integer x ∈ operands i →
        -2 ^ 31 ≤ x ∧ x < 2 ^ 31 := by
  have hstrings : module.stableSection.strings.map Compiler.reread =
      module.stableSection.strings ↔
        ∀ s ∈ module.stableSection.strings, ∀ c ∈ s, c.toNat ≤ 127 := by
    rw [map_eq_self_iff]
    exact forall₂_congr fun s hs => Compiler.reread_eq_iff (hunits s hs)
  have hinstructions : module.dataSection.instructions.map instructionReread =
      module.dataSection.instructions.map instructionFields ↔
        ∀ i ∈ module.dataSection.instructions, ∀ x, .integer x ∈ operands i →
          -2 ^ 31 ≤ x ∧ x < 2 ^ 31 := by
    rw [List.map_inj_left]
    exact forall₂_congr fun i _ => instructionReread_eq_iff i
  rw [← hstrings, ← hinstructions]
  simp [reread, fields, STableSection.reread, STableSection.fields, DataSection.reread,
    DataSection.fields]

/-- **Compiler round trip.**  A module that was written is read back as it was, and
written again to the same bytes, if and only if its strings are ASCII and its
integer operands fit 32 bits. -/
theorem readFrom_writeTo_iff (module : ModuleFormat) (bytes : List UInt8)
    (hwrite : module.writeTo = .ok bytes) :
    module.RoundTrips bytes ↔
      (∀ s ∈ module.stableSection.strings, ∀ c ∈ s, c.toNat ≤ 127) ∧
      ∀ i ∈ module.dataSection.instructions, ∀ x, .integer x ∈ operands i →
        -2 ^ 31 ≤ x ∧ x < 2 ^ 31 := by
  have hread := ModuleFormat.readFrom_writeTo hwrite
  have hunits : ∀ s ∈ module.stableSection.strings, ∀ c ∈ s, c.toNat ≤ 255 := by
    simp only [ModuleFormat.writeTo, Fallible.bind_eq_ok] at hwrite
    obtain ⟨_, _, _, hstable, _⟩ := hwrite
    exact (STableSection.writable_of_writeTo hstable).units
  rw [← ModuleFormat.reread_eq_iff hunits]
  constructor
  · rintro ⟨read, hread', hsame, _⟩
    rw [← hsame]
    exact Except.ok.inj (hread.symm.trans hread')
  · intro hsame
    refine ⟨module.reread, hread, hsame, ?_⟩
    rw [hsame, module.fields_writeTo, hwrite]

/-- A module with an ASCII string. -/
def ascii : ModuleFormat :=
  buildModule (7, 9) (STableSection.ofStrings [[97, 98]])
    (DataSection.ofInstructions [.ldString 0, .ldInt (-1)])

theorem readFrom_writeTo_iff_ascii :
    ascii.writeTo = .ok ascii.bytes ∧ ascii.RoundTrips ascii.bytes := by
  have hwrite : ascii.writeTo = .ok ascii.bytes :=
    ModuleFormat.writeTo_eq (ModuleFormat.wellFormed_of (by decide) (by simp)
      (by simp [InRange, operands]) (by decide) (by decide))
  have hstrings : ascii.stableSection.strings = [[97, 98]] :=
    STableSection.ofStrings_strings (by decide)
  have hinstructions : ascii.dataSection.instructions = [.ldString 0, .ldInt (-1)] :=
    DataSection.ofInstructions_instructions _
  refine ⟨hwrite, (readFrom_writeTo_iff _ _ hwrite).mpr ⟨?_, ?_⟩⟩
  · simp [hstrings]
  · simp [hinstructions, operands]

/-- The module with the string `é` only. -/
def latin1 : ModuleFormat :=
  buildModule (7, 9) (STableSection.ofStrings [[0xE9]]) (DataSection.ofInstructions [])

/-- It is written with one byte for `é`, comes back with U+FFFD, and cannot be
written again. -/
theorem readFrom_writeTo_latin1 :
    ∃ bytes read, latin1.writeTo = .ok bytes ∧ ModuleFields.readFrom bytes = .ok read ∧
      read.stableSection.strings = [[0xFFFD]] ∧ read.writeTo = .error "ERR_OUT_OF_RANGE" ∧
      ¬ latin1.RoundTrips bytes := by
  have hwrite : latin1.writeTo = .ok latin1.bytes :=
    ModuleFormat.writeTo_eq (ModuleFormat.wellFormed_of (by decide) (by simp) (by simp) (by decide)
      (by decide))
  have hread := ModuleFormat.readFrom_writeTo hwrite
  have hagain : latin1.reread.writeTo = .error "ERR_OUT_OF_RANGE" := rfl
  refine ⟨latin1.bytes, latin1.reread, hwrite, hread, by decide, hagain, ?_⟩
  rintro ⟨read, hread', _, hwritten⟩
  obtain rfl : latin1.reread = read := Except.ok.inj (hread.symm.trans hread')
  rw [hagain] at hwritten
  cases hwritten

end AtomixJS.Compiler
