import AtomixJS.Compiler.Codec

/-!
# The bundle codec

A bundle is its header and its modules one behind the other.  The loader goes on
to the next module at the end of a module's header instead of the end of its
sections, so it takes the first module's string section for the header of the
second module.  A bundle of at most one module is read back.
-/

namespace AtomixJS

open Segment Compiler

/-- The loaded bundle is the one that was built. -/
structure JSBundle.Carries (bundle : JSBundle) (format : BundleFormat) : Prop where
  count_eq : bundle.moduleCount.toNat = format.modules.length
  entryPoint_eq : bundle.entryPoint.toNat =
    format.header.entryHash.2.toNat * 2 ^ 32 + format.header.entryHash.1.toNat
  modules_eq : List.Forall₂ (fun (module : JSModule) m => module.Carries m.header.hash
    m.stableSection.strings m.dataSection.instructions) bundle.modules format.modules

/-- The bundle is written and the loader reads the same bundle back. -/
def RoundTrips (format : BundleFormat) : Prop :=
  ∃ bytes, format.writeTo = .ok bytes ∧
    ∀ ref heap, ∃ bundle heap', bundleLoadFromBuffer bytes ref heap = .ok (bundle, heap') ∧
      bundle.Carries format

/-- The first word of a module file, as a number. -/
def magicNumber : ℕ := 0x4D78412E

variable {modules : List ModuleFormat} {entryHash : UInt32 × UInt32} {bytes : List UInt8}

/-- The bytes of a bundle, its modules in the given order. -/
def bundleBytes (entryHash : UInt32 × UInt32) (modules : List ModuleFormat) : List UInt8 :=
  [46, 65, 120, 66] ++ Bytes.encode 2 1 ++
    (Bytes.encode 4 entryHash.1.toNat ++ Bytes.encode 4 entryHash.2.toNat) ++
    Bytes.encode 2 modules.length ++ (modules.map ModuleFormat.bytes).flatten

theorem buildBundle_writeTo (hwell : ∀ m ∈ modules, m.WellFormed) :
    (buildBundle entryHash modules).writeTo =
      if modules.length < 2 ^ 16 then .ok (bundleBytes entryHash (sortModules modules))
      else .error "ERR_OUT_OF_RANGE" := by
  have hlength : (sortModules modules).length = modules.length := List.length_insertionSort _ _
  have hlow : writeU32 entryHash.1.toNat = .ok (Bytes.encode 4 entryHash.1.toNat) :=
    writeUnsigned_of_lt entryHash.1.toNat_lt
  have hhigh : writeU32 entryHash.2.toNat = .ok (Bytes.encode 4 entryHash.2.toNat) :=
    writeUnsigned_of_lt entryHash.2.toNat_lt
  have hmodules : (sortModules modules).mapM ModuleFormat.writeTo =
      .ok ((sortModules modules).map ModuleFormat.bytes) :=
    Fallible.mapM_of_forall fun m hm =>
      ModuleFormat.writeTo_eq (hwell m ((List.mem_insertionSort _).mp hm))
  unfold BundleFormat.writeTo
  simp only [buildBundle, hlow, hhigh, hmodules, Fallible.ok_bind]
  split
  · next hlt =>
    have hcount : writeU16 modules.length = .ok (Bytes.encode 2 modules.length) :=
      writeUnsigned_of_lt hlt
    rw [hcount]
    simp [bundleBytes, hlength, writeU16, writeUnsigned, pure, Except.pure]
  · next hge =>
    have hcount : writeU16 modules.length = .error "ERR_OUT_OF_RANGE" := if_neg hge
    rw [hcount]
    simp [writeU16, writeUnsigned]

/-- The loader reads the header of a bundle and then its modules from byte 16 on. -/
theorem bundleLoadFromBuffer_bundleBytes (hlt : modules.length < 2 ^ 16) (ref : BundleRef)
    (heap : Heap) :
    bundleLoadFromBuffer (bundleBytes entryHash modules) ref heap = (do
      let (loaded, heap, _) ←
        Fallible.times (moduleLoadFromBufferOffset (bundleBytes entryHash modules))
          (UInt16.ofNat modules.length).toNat (heap, 16)
      pure ({ magic := [46, 65, 120, 66], version := 1
              entryPoint := UInt64.ofNat (entryHash.2.toNat * 2 ^ 32 + entryHash.1.toNat)
              moduleCount := UInt16.ofNat modules.length
              modules := loaded.1.map fun m => { m with bundle := some ref }
              count_eq := by rw [List.length_map, loaded.2] }, heap)) := by
  obtain ⟨buff, hbuff⟩ : ∃ buff, buff = bundleBytes entryHash modules := ⟨_, rfl⟩
  have hat : At buff 0 (bundleBytes entryHash modules) :=
    ⟨[], by rw [hbuff, List.drop_zero, List.append_nil]⟩
  have hend : 16 ≤ buff.length := by
    simp only [hbuff, bundleBytes, List.length_append, Bytes.encode_length, List.length_cons,
      List.length_nil]
    omega
  rw [← hbuff]
  unfold bundleBytes at hat
  rw [at_append, at_append, at_append, at_append] at hat
  obtain ⟨⟨⟨⟨hatMagic, hatVersion⟩, hatEntry⟩, hatCount⟩, _⟩ := hat
  simp only [Bytes.encode_length, List.length_append, List.length_cons, List.length_nil]
    at hatVersion hatEntry hatCount
  have hmagic : copyBytes buff 0 4 = .ok [46, 65, 120, 66] :=
    copyBytes_of_at hatMagic (Nat.le_trans (by decide) hend)
  have hversion : readU16 buff 4 = .ok (1, 6) :=
    readWord_of_at UInt16.ofNat hatVersion (by decide) (by decide)
  have hentry : readU64 buff 6 =
      .ok (UInt64.ofNat (entryHash.2.toNat * 2 ^ 32 + entryHash.1.toNat), 14) := by
    have hread := readWord_of_field UInt64.ofNat hatEntry (List.cons_ne_nil _ _)
    rw [ModuleFormat.decode_hash, List.length_append, Bytes.encode_length, Bytes.encode_length]
      at hread
    exact hread
  have hcount : readU16 buff 14 = .ok (UInt16.ofNat modules.length, 16) :=
    readWord_of_at UInt16.ofNat hatCount (by decide) hlt
  unfold bundleLoadFromBuffer
  simp only [hmagic, hversion, hentry, hcount, Fallible.ok_bind, ne_eq, not_true_eq_false,
    if_false]

/-- The modules of a bundle stand from byte 16 on. -/
theorem at_bundleBytes (entryHash : UInt32 × UInt32) (modules : List ModuleFormat) :
    At (bundleBytes entryHash modules) 16 (modules.map ModuleFormat.bytes).flatten :=
  ⟨[], by simp [bundleBytes, Bytes.encode]⟩

/-- The loader goes through at most one module without fault. -/
theorem steps_of_le_one (hwell : ∀ m ∈ modules, m.WellFormed) (hone : modules.length ≤ 1)
    {buff : List UInt8} {pos : ℕ} (hat : At buff pos (modules.map ModuleFormat.bytes).flatten)
    (heap : Heap) :
    ∃ loaded state,
      Fallible.Steps (moduleLoadFromBufferOffset buff) (heap, pos) loaded state ∧
      List.Forall₂ (fun (module : JSModule) m => module.Carries m.header.hash
        m.stableSection.strings m.dataSection.instructions) loaded modules := by
  rcases Nat.le_one_iff_eq_zero_or_eq_one.mp hone with hzero | hone
  · obtain rfl := List.length_eq_zero_iff.mp hzero
    exact ⟨[], _, .nil, .nil⟩
  · obtain ⟨m, rfl⟩ := List.length_eq_one_iff.mp hone
    have hm : m.WellFormed := hwell m List.mem_cons_self
    rw [List.map_singleton, List.flatten_singleton] at hat
    obtain ⟨exports, scope, heap', hload⟩ :=
      ModuleFormat.moduleLoadFromBufferOffset_of_at hm hat heap
    exact ⟨[_], _, .cons hload .nil, .cons (ModuleFormat.loaded_carries hm exports scope) .nil⟩

theorem sortModules_of_le_one (hone : modules.length ≤ 1) : sortModules modules = modules := by
  apply List.Pairwise.insertionSort_eq
  rcases Nat.le_one_iff_eq_zero_or_eq_one.mp hone with hzero | hone
  · rw [List.length_eq_zero_iff.mp hzero]
    exact List.Pairwise.nil
  · obtain ⟨m, rfl⟩ := List.length_eq_one_iff.mp hone
    exact List.pairwise_singleton _ m

/-- At most one module: the bundle is read back. -/
theorem roundTrips_of_le_one (hwell : ∀ m ∈ modules, m.WellFormed) (hone : modules.length ≤ 1) :
    RoundTrips (buildBundle entryHash modules) := by
  have hlt : modules.length < 2 ^ 16 := by omega
  have hsorted := sortModules_of_le_one hone
  have hformat : (buildBundle entryHash modules).modules = modules := hsorted
  have hwritten := @buildBundle_writeTo modules entryHash hwell
  rw [if_pos hlt, hsorted] at hwritten
  refine ⟨_, hwritten, fun ref heap => ?_⟩
  obtain ⟨loaded, state, hsteps, hcarries⟩ :=
    steps_of_le_one hwell hone (at_bundleBytes entryHash modules) heap
  have hcount : (UInt16.ofNat modules.length).toNat = modules.length := by
    rw [UInt16.toNat_ofNat', Nat.mod_eq_of_lt hlt]
  rw [bundleLoadFromBuffer_bundleBytes hlt,
    Fallible.times_of_steps hsteps (hcarries.length_eq.trans hcount.symm), Fallible.ok_bind]
  refine ⟨_, _, rfl, ?_, ?_, ?_⟩
  · rw [hformat]
    exact hcount
  · exact ModuleFormat.toNat_words entryHash.1 entryHash.2
  · rw [hformat]
    refine List.forall₂_map_left_iff.mpr (hcarries.imp fun module m h => ?_)
    exact ⟨h.hash_eq, h.instructions_eq, h.operands_eq, h.count_eq, h.strings_eq⟩

/-- Behind the header of the first module stands the length of its string
section, which the loader takes for a magic number. -/
theorem loadModule_behind_header {first : ModuleFormat} {buff : List UInt8} {pos : ℕ}
    (hat : At buff pos first.bytes) (hlt : first.stableSection.length < 2 ^ 32)
    (hne : first.stableSection.length ≠ magicNumber) (heap : Heap) :
    moduleLoadFromBufferOffset buff (heap, pos + 22) = .error (.panic "Invalid magic number") := by
  unfold ModuleFormat.bytes STableSection.bytes at hat
  simp only [at_append, ModuleFormat.headerBytes_length] at hat
  have hatLength := hat.1.2.1.1.1
  have hcopy := copyBytes_of_at hatLength (hatLength.length_le (List.cons_ne_nil _ _))
  rw [Bytes.encode_length] at hcopy
  have hmagic : Bytes.encode 4 first.stableSection.length ≠ [0x2E, 0x41, 0x78, 0x4D] := by
    intro heq
    apply hne
    rw [← Bytes.decode_encode (show first.stableSection.length < 256 ^ 4 from hlt), heq]
    rfl
  unfold moduleLoadFromBufferOffset loadModuleHeader
  simp only [hcopy, Fallible.ok_bind, if_pos hmagic, Fallible.error_bind]

/-- Two modules or more: the loader panics, unless the string section of the
first module is as long as the magic number says. -/
theorem bundleLoadFromBuffer_panics (hwell : ∀ m ∈ modules, m.WellFormed) {first : ModuleFormat}
    (htwo : 2 ≤ modules.length) (hfirst : modules.head? = some first)
    (hne : first.stableSection.length ≠ magicNumber) (hlt : modules.length < 2 ^ 16)
    (entryHash : UInt32 × UInt32) (ref : BundleRef) (heap : Heap) :
    bundleLoadFromBuffer (bundleBytes entryHash modules) ref heap =
      .error (.panic "Invalid magic number") := by
  obtain ⟨rest, hrest⟩ := List.head?_eq_some_iff.mp hfirst
  have hfirstWell : first.WellFormed := hwell first (List.mem_of_mem_head? hfirst)
  have hat : At (bundleBytes entryHash modules) 16 first.bytes := by
    have hat := at_bundleBytes entryHash modules
    rw [hrest, List.map_cons, List.flatten_cons, at_append] at hat
    rw [hrest]
    exact hat.1
  obtain ⟨exports, scope, heap', hone⟩ :=
    ModuleFormat.moduleLoadFromBufferOffset_of_at hfirstWell hat heap
  have hsecond := loadModule_behind_header hat hfirstWell.stable.length_lt hne heap'
  have hcount : 2 ≤ (UInt16.ofNat modules.length).toNat := by
    rwa [UInt16.toNat_ofNat', Nat.mod_eq_of_lt hlt]
  rw [bundleLoadFromBuffer_bundleBytes hlt, Fallible.times_of_second_error hone hsecond hcount]
  rfl

/-- **Bundle codec.**  A bundle of at most one module is read back.  A bundle of
two modules or more is not, if the string section of the module that is written
first is not 1,299,726,638 bytes long, the number that the magic bytes spell. -/
theorem bundle_codec (entryHash : UInt32 × UInt32) (modules : List ModuleFormat)
    (hwell : ∀ m ∈ modules, m.WellFormed) :
    (modules.length ≤ 1 → RoundTrips (buildBundle entryHash modules)) ∧
      (2 ≤ modules.length →
        (∀ first, (sortModules modules).head? = some first →
          first.stableSection.length ≠ magicNumber) →
        ¬ RoundTrips (buildBundle entryHash modules)) := by
  refine ⟨roundTrips_of_le_one hwell, fun htwo hne => ?_⟩
  rintro ⟨bytes, hwritten, hload⟩
  have hlength : (sortModules modules).length = modules.length := List.length_insertionSort _ _
  rw [buildBundle_writeTo hwell] at hwritten
  split at hwritten
  · next hlt =>
    obtain rfl := Except.ok.inj hwritten
    rw [← hlength] at htwo hlt
    obtain ⟨first, hfirst⟩ : ∃ first, (sortModules modules).head? = some first :=
      ⟨_, List.head?_eq_some_head (List.ne_nil_of_length_pos (by omega))⟩
    have hpanic := bundleLoadFromBuffer_panics
      (fun m hm => hwell m ((List.mem_insertionSort _).mp hm)) htwo hfirst (hne first hfirst)
      hlt entryHash 0 Heap.empty
    obtain ⟨bundle, heap, hbundle, _⟩ := hload 0 Heap.empty
    exact nomatch hpanic.symm.trans hbundle
  · exact nomatch hwritten

theorem bundle_codec_one_module : RoundTrips (buildBundle (3, 4) [ModuleFormat.empty (3, 4)]) :=
  (bundle_codec (3, 4) [ModuleFormat.empty (3, 4)] fun m hm =>
    List.mem_singleton.mp hm ▸ ModuleFormat.empty_wellFormed (3, 4)).1 (by decide)

/-- Two modules without strings and instructions are written, and the loader
panics on what was written. -/
theorem bundle_codec_two_modules :
    (∀ m ∈ [ModuleFormat.empty (1, 0), ModuleFormat.empty (2, 0)], m.WellFormed) ∧
      ¬ RoundTrips (buildBundle (1, 0) [ModuleFormat.empty (1, 0), ModuleFormat.empty (2, 0)]) ∧
      ∃ bytes, (buildBundle (1, 0) [ModuleFormat.empty (1, 0), ModuleFormat.empty (2, 0)]).writeTo =
          .ok bytes ∧
        bundleLoadFromBuffer bytes 0 Heap.empty = .error (.panic "Invalid magic number") := by
  obtain ⟨bytes, hwritten, hpanic⟩ : ∃ bytes,
      (buildBundle (1, 0) [ModuleFormat.empty (1, 0), ModuleFormat.empty (2, 0)]).writeTo =
        .ok bytes ∧
      bundleLoadFromBuffer bytes 0 Heap.empty = .error (.panic "Invalid magic number") :=
    ⟨_, rfl, rfl⟩
  refine ⟨?_, ?_, bytes, hwritten, hpanic⟩
  · intro m hm
    rcases List.mem_pair.mp hm with rfl | rfl <;> exact ModuleFormat.empty_wellFormed _
  · rintro ⟨bytes', hwritten', hload⟩
    obtain rfl := Except.ok.inj (hwritten.symm.trans hwritten')
    obtain ⟨bundle, heap, hbundle, _⟩ := hload 0 Heap.empty
    exact nomatch hpanic.symm.trans hbundle

end AtomixJS
