import AtomixJS.Compiler.Codec

/-!
# The order of the modules of a bundle

`buildBundle` compares the first words of two hashes before the second ones.
The loader takes the second word as the high one, and the module lookup searches
in the order of the numbers it read.  The two orders agree exactly on lists in
which a smaller first word never comes with a larger second word.
-/

namespace AtomixJS

open Segment Compiler

/-- The hash that the loader reads in the header that is written for a module. -/
def Compiler.ModuleFormat.writtenHash (m : ModuleFormat) : Option UInt64 :=
  match m.header.writeTo with
  | .error _ => none
  | .ok bytes => (readU64 bytes 6).toOption.map Prod.fst

/-- The modules ascend in the hash that the loader reads. -/
def Ascending (modules : List ModuleFormat) : Prop :=
  ∃ hashes : List UInt64, modules.map (·.writtenHash) = hashes.map some ∧
    hashes.Pairwise (· < ·)

/-- No module has a smaller first word and a larger second word than another. -/
def WordsAgree (modules : List ModuleFormat) : Prop :=
  ∀ a ∈ modules, ∀ b ∈ modules,
    a.header.hash.1 < b.header.hash.1 → a.header.hash.2 ≤ b.header.hash.2

/-- A header that loads has its hash six bytes in. -/
theorem readU64_of_loadModuleHeader {buff : List UInt8} {pos pos' : ℕ}
    {header : AtomixJS.ModuleHeader} (h : loadModuleHeader buff pos = .ok (header, pos')) :
    ∃ pos'', readU64 buff (pos + 6) = .ok (header.hash, pos'') := by
  unfold loadModuleHeader readU16 readWord at h
  simp only [Fallible.bind_eq_ok, Fallible.guard_eq_ok, Fallible.pure_eq_ok, Prod.exists,
    Prod.mk.injEq] at h
  obtain ⟨_, _, _, _, _, hversion, _, hash, pos'', hhash, _, _, _, _, _, _, rfl, _⟩ := h
  split at hversion
  · obtain ⟨rfl, rfl⟩ := Prod.mk.inj (Except.ok.inj hversion)
    exact ⟨pos'', hhash⟩
  · exact absurd hversion (by simp)

namespace Compiler.ModuleFormat

variable {m : ModuleFormat}

theorem writtenHash_eq {bytes : List UInt8} (h : m.header.writeTo = .ok bytes) :
    m.writtenHash = some m.loadedHash := by
  unfold writtenHash
  rw [h]
  unfold ModuleHeader.writeTo writeU16 writeU32 writeUnsigned at h
  simp only [Fallible.bind_eq_ok, Fallible.require_eq_ok, Fallible.pure_eq_ok,
    Except.ok.injEq] at h
  obtain ⟨_, ⟨_, rfl⟩, _, ⟨_, rfl⟩, _, ⟨_, rfl⟩, _, ⟨_, rfl⟩, _, ⟨_, rfl⟩, rfl⟩ := h
  have hat := at_of_append (m.header.magic ++ Bytes.encode 2 m.header.version)
    (Bytes.encode 4 m.header.hash.1.toNat ++ Bytes.encode 4 m.header.hash.2.toNat)
    (Bytes.encode 4 m.header.stableSectionStart ++ Bytes.encode 4 m.header.dataSectionStart)
  have hread := readWord_of_field UInt64.ofNat hat (List.cons_ne_nil _ _)
  rw [decode_hash] at hread
  simp only [List.length_append, Bytes.encode_length, m.header.magic_length] at hread
  simp only [← List.append_assoc] at hread ⊢
  unfold readU64
  rw [hread]
  rfl

/-- What `buildBundle` sorts by: the hash with the first word as the high one. -/
def sortKey (m : ModuleFormat) : ℕ := m.header.hash.1.toNat * 2 ^ 32 + m.header.hash.2.toNat

theorem compareModules_nonpos_iff (a b : ModuleFormat) :
    compareModules a b ≤ 0 ↔ a.sortKey ≤ b.sortKey := by
  have ha := a.header.hash.2.toNat_lt
  have hb := b.header.hash.2.toNat_lt
  unfold compareModules sortKey
  simp only [gt_iff_lt, UInt32.lt_iff_toNat_lt]
  split
  · simp; omega
  · split
    · simp; omega
    · split
      · simp; omega
      · split <;> simp <;> omega

end Compiler.ModuleFormat

open Compiler.ModuleFormat

variable {modules : List ModuleFormat}

/-- The sorted modules ascend strictly in the key of the comparison. -/
theorem sortModules_sorted (hdistinct : (modules.map (·.header.hash)).Nodup) :
    (sortModules modules).Pairwise fun a b => a.sortKey < b.sortKey := by
  let r (a b : ModuleFormat) : Prop := compareModules a b ≤ 0
  have : Std.Total r := ⟨fun a b => by
    show compareModules a b ≤ 0 ∨ compareModules b a ≤ 0
    rw [compareModules_nonpos_iff, compareModules_nonpos_iff]
    exact Nat.le_total _ _⟩
  have : IsTrans ModuleFormat r := ⟨fun a b c hab hbc => by
    show compareModules a c ≤ 0
    rw [compareModules_nonpos_iff]
    exact Nat.le_trans ((compareModules_nonpos_iff a b).mp hab)
      ((compareModules_nonpos_iff b c).mp hbc)⟩
  have hsorted : (sortModules modules).Pairwise r := List.pairwise_insertionSort r modules
  have hperm : (sortModules modules).Perm modules := List.perm_insertionSort r modules
  have hnodup : (sortModules modules).Pairwise fun a b => a.header.hash ≠ b.header.hash :=
    List.pairwise_map.mp ((hperm.map _).nodup_iff.mpr hdistinct)
  refine (hsorted.and hnodup).imp fun {a b} hab => ?_
  apply lt_of_le_of_ne ((compareModules_nonpos_iff a b).mp hab.1)
  intro heq
  have ha := a.header.hash.2.toNat_lt
  have hb := b.header.hash.2.toNat_lt
  unfold sortKey at heq
  refine hab.2 (Prod.ext (UInt32.toNat_inj.mp ?_) (UInt32.toNat_inj.mp ?_)) <;> omega

theorem mem_sortModules {m : ModuleFormat} : m ∈ sortModules modules ↔ m ∈ modules :=
  List.mem_insertionSort _

/-- The order of pairs of words carries over to the swapped pairs. -/
theorem swap_words {a₁ a₂ b₁ b₂ : ℕ} (hb₂ : b₂ < 2 ^ 32)
    (h : a₁ * 2 ^ 32 + a₂ < b₁ * 2 ^ 32 + b₂) (hagree : a₁ < b₁ → a₂ ≤ b₂) :
    a₂ * 2 ^ 32 + a₁ < b₂ * 2 ^ 32 + b₁ := by
  by_cases hlt : a₁ < b₁
  · exact Nat.add_lt_add_of_le_of_lt (Nat.mul_le_mul_right _ (hagree hlt)) hlt
  · -- equal first words: the second ones decide both orders
    have heq : a₁ = b₁ := by
      apply Nat.le_antisymm _ (Nat.not_lt.mp hlt)
      rw [← Nat.lt_succ_iff, ← Nat.mul_lt_mul_right (Nat.two_pow_pos 32)]
      calc a₁ * 2 ^ 32 ≤ a₁ * 2 ^ 32 + a₂ := Nat.le_add_right _ _
        _ < b₁ * 2 ^ 32 + b₂ := h
        _ < b₁ * 2 ^ 32 + 2 ^ 32 := Nat.add_lt_add_left hb₂ _
        _ = (b₁ + 1) * 2 ^ 32 := (Nat.succ_mul b₁ (2 ^ 32)).symm
    rw [heq] at h ⊢
    have hlt₂ : a₂ < b₂ := Nat.lt_of_add_lt_add_left h
    exact Nat.add_lt_add_right (Nat.mul_lt_mul_of_pos_right hlt₂ (Nat.two_pow_pos 32)) _

/-- In a sequence that ascends in the sort key, the loaded hashes ascend exactly
when the words agree. -/
theorem pairwise_loadedHash_iff (hsorted : modules.Pairwise fun a b => a.sortKey < b.sortKey) :
    (modules.Pairwise fun a b => a.loadedHash < b.loadedHash) ↔ WordsAgree modules := by
  constructor
  · intro h a ha b hb hlt
    obtain ⟨i, hi, rfl⟩ := List.getElem_of_mem ha
    obtain ⟨j, hj, rfl⟩ := List.getElem_of_mem hb
    rw [List.pairwise_iff_getElem] at h hsorted
    rw [UInt32.lt_iff_toNat_lt] at hlt
    rw [UInt32.le_iff_toNat_le]
    have hai := (modules[i]).header.hash.2.toNat_lt
    have hj1 := (modules[j]).header.hash.1.toNat_lt
    have hbj := (modules[j]).header.hash.2.toNat_lt
    rcases Nat.lt_trichotomy i j with hij | rfl | hji
    · have hhash := h i j hi hj hij
      rw [UInt64.lt_iff_toNat_lt, loadedHash_toNat, loadedHash_toNat] at hhash
      omega
    · exact absurd hlt (Nat.lt_irrefl _)
    · have hkey := hsorted j i hj hi hji
      unfold sortKey at hkey
      omega
  · intro h
    refine hsorted.imp_of_mem fun {a b} ha hb hkey => ?_
    have hagree := h a ha b hb
    rw [UInt32.lt_iff_toNat_lt, UInt32.le_iff_toNat_le] at hagree
    rw [UInt64.lt_iff_toNat_lt, loadedHash_toNat, loadedHash_toNat]
    exact swap_words b.header.hash.2.toNat_lt hkey hagree

/-- **Order of a bundle.**  For modules with distinct hashes, the sequence that
is written ascends in the hash that the loader reads if and only if no module
has a smaller first word and a larger second word than another. -/
theorem buildBundle_ascending_iff (entryHash : UInt32 × UInt32) (modules : List ModuleFormat)
    (hdistinct : (modules.map (·.header.hash)).Nodup) {bytes : List UInt8}
    (hwritten : (buildBundle entryHash modules).writeTo = .ok bytes) :
    Ascending (buildBundle entryHash modules).modules ↔ WordsAgree modules := by
  have hhash : ∀ m ∈ sortModules modules, m.writtenHash = some m.loadedHash := by
    intro m hm
    unfold BundleFormat.writeTo at hwritten
    simp only [Fallible.bind_eq_ok] at hwritten
    obtain ⟨_, _, _, _, _, _, _, _, _, hmodules, _⟩ := hwritten
    obtain ⟨moduleBytes, hmodule⟩ := Fallible.ok_of_mapM_ok hmodules hm
    unfold ModuleFormat.writeTo at hmodule
    simp only [Fallible.bind_eq_ok] at hmodule
    obtain ⟨_, hheader, _⟩ := hmodule
    exact writtenHash_eq hheader
  have hmap : (sortModules modules).map (·.writtenHash) =
      ((sortModules modules).map (·.loadedHash)).map some := by
    rw [List.map_map]
    exact List.map_congr_left hhash
  have hagree : WordsAgree (sortModules modules) ↔ WordsAgree modules := by
    unfold WordsAgree
    simp only [mem_sortModules]
  rw [← hagree, ← pairwise_loadedHash_iff (sortModules_sorted hdistinct), ← List.pairwise_map]
  constructor
  · rintro ⟨hashes, heq, hpairwise⟩
    have heq' := hmap.symm.trans heq
    rwa [List.map_injective_iff.mpr (Option.some_injective _) heq']
  · intro hpairwise
    exact ⟨_, hmap, hpairwise⟩

theorem buildBundle_ascending_iff_two :
    Ascending (buildBundle (2, 3) [ModuleFormat.empty (2, 3), ModuleFormat.empty (1, 1)]).modules :=
  (buildBundle_ascending_iff (2, 3) [ModuleFormat.empty (2, 3), ModuleFormat.empty (1, 1)] (by decide) rfl).mpr
    (by unfold WordsAgree; decide)

/-- The module with the larger number as the loader reads it is written first. -/
theorem buildBundle_descending :
    ([ModuleFormat.empty (1, 0), ModuleFormat.empty (0, 1)].map (·.header.hash)).Nodup ∧
      (∃ bytes, (buildBundle (1, 0) [ModuleFormat.empty (1, 0), ModuleFormat.empty (0, 1)]).writeTo =
        .ok bytes) ∧
      ¬ Ascending (buildBundle (1, 0) [ModuleFormat.empty (1, 0), ModuleFormat.empty (0, 1)]).modules := by
  refine ⟨by decide, ⟨_, rfl⟩, ?_⟩
  rintro ⟨hashes, heq, hpairwise⟩
  have hwritten : (buildBundle (1, 0) [ModuleFormat.empty (1, 0), ModuleFormat.empty (0, 1)]).modules.map
      (·.writtenHash) = [2 ^ 32, 1].map some := rfl
  rw [← List.map_injective_iff.mpr (Option.some_injective _) (hwritten.symm.trans heq)] at hpairwise
  exact absurd hpairwise (by decide)

end AtomixJS
