import AtomixJS.Compiler.Codec

/-!
# The module codec

What the compiler writes for a module, the loader reads back.  The compiler
computes the start of a section from running lengths and the end of a string
from the next offset; the loader follows both.
-/

namespace AtomixJS

open Segment Compiler

/-- **Module codec.**  The module of distinct strings with nonzero byte units and
of instructions whose operands fit is written, and the loader reads the same
module from these bytes, inside the buffer. -/
theorem module_codec (hash : UInt32 × UInt32) (strings : List JSString)
    (instructions : List Instruction) (hdistinct : strings.Nodup)
    (hunits : ∀ s ∈ strings, ∀ c ∈ s, 1 ≤ c.toNat ∧ c.toNat ≤ 255)
    (hrange : ∀ i ∈ instructions, InRange i)
    (hstable : 22 + (STableSection.ofStrings strings).length < 2 ^ 32)
    (hdata : (DataSection.ofInstructions instructions).length < 2 ^ 32) :
    ∃ bytes, (buildModule hash (STableSection.ofStrings strings)
        (DataSection.ofInstructions instructions)).writeTo = .ok bytes ∧
      ∀ heap, ∃ module heap', moduleLoadFromBuffer bytes heap = .ok (module, heap') ∧
        module.Carries hash strings instructions := by
  have hstrings := STableSection.ofStrings_strings hdistinct
  have hinstructions := DataSection.ofInstructions_instructions instructions
  have hwell : (buildModule hash (STableSection.ofStrings strings)
      (DataSection.ofInstructions instructions)).WellFormed :=
    ModuleFormat.wellFormed_of hdistinct hunits hrange hstable hdata
  refine ⟨_, ModuleFormat.writeTo_eq hwell, fun heap => ?_⟩
  obtain ⟨exports, scope, heap', hload⟩ :=
    ModuleFormat.moduleLoadFromBufferOffset_of_at hwell
      (by simpa using at_of_append [] _ []) heap
  have hcarries := ModuleFormat.loaded_carries hwell exports scope
  simp only [buildModule, hstrings, hinstructions] at hcarries
  unfold moduleLoadFromBuffer
  rw [hload]
  exact ⟨_, _, rfl, hcarries⟩

/-- A module with one string, which it loads. -/
theorem module_codec_one_string :
    ∃ bytes, (buildModule (7, 9) (STableSection.ofStrings [[97, 98]])
        (DataSection.ofInstructions [.ldString 0, .ldInt (-1), .nop])).writeTo = .ok bytes ∧
      ∀ heap, ∃ module heap', moduleLoadFromBuffer bytes heap = .ok (module, heap') ∧
        module.Carries (7, 9) [[97, 98]] [.ldString 0, .ldInt (-1), .nop] :=
  module_codec (7, 9) [[97, 98]] [.ldString 0, .ldInt (-1), .nop] (by decide) (by simp)
    (by simp [InRange, operands]) (by decide) (by decide)

end AtomixJS
