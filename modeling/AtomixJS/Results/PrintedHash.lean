import AtomixJS.Lib.Numeral
import AtomixJS.Results.ImportKey
import AtomixJS.Results.ModuleLookup

/-!
# Printed hashes

The `hash` command prints the two words of a hash one behind the other, in the order in which
the key of an import has them.  But it does not pad the second word, so a number with a short
second word has the first one in the wrong place, and two hashes can have one text.
-/

namespace AtomixJS.Compiler

open PosixPath

/-- The number that C reads where the text is a literal. -/
def readLiteral (text : List Char) : UInt64 := UInt64.ofNat (Numeral.value 16 (text.drop 2))

/-- A module that is registered under one key is what is found under another.  The key is not
that of a module in the bundle, and it is one that the search in the bundle comes to an end with. -/
def Finds (registered key : UInt64) : Prop :=
  ∀ (bundle : Option JSBundle) (nativeModules : List JSModule) (exports : ObjectRef),
    (∀ b ∈ bundle, b.hashes.Pairwise (· < ·) ∧ b.Spans key ∧ key ∉ b.hashes) →
    bundleGetModule bundle (registerNativeModule registered exports nativeModules) key =
      .ok (.native 0)

/-- The first word, moved up by the digits of the second one. -/
def shifted (hash : UInt32 × UInt32) : ℕ :=
  hash.1.toNat * 16 ^ (hexText hash.2).length + hash.2.toNat

variable {hash hash' : UInt32 × UInt32} {registered key : UInt64}

/-! ## The lookup -/

theorem finds_iff : Finds registered key ↔ registered = key := by
  constructor
  · intro h
    have hnone := h none [] 0 (fun b hb => nomatch hb)
    by_contra hne
    have hpanic : bundleGetModule none (registerNativeModule registered 0 []) key =
        .error (.panic "Could not find module in bundle") := by
      have hsearch : (registerNativeModule registered 0 []).findIdx?
          (·.header.hash = key) = none := by
        simp [registerNativeModule, JSModule.native, hne]
      simp only [bundleGetModule, pure_bind, hsearch]
    rw [hpanic] at hnone
    cases hnone
  · rintro rfl bundle nativeModules exports hbundle
    have hsearch : (registerNativeModule registered exports nativeModules).findIdx?
        (·.header.hash = registered) = some 0 := by
      simp [registerNativeModule, JSModule.native, List.findIdx?_cons]
    cases bundle with
    | none =>
      simp only [bundleGetModule, pure_bind, hsearch]
      rfl
    | some b =>
      obtain ⟨hsorted, hspans, habsent⟩ := hbundle b rfl
      have hmissing : b.modules.findIdx? (·.header.hash = registered) = none := by
        rw [List.findIdx?_eq_none_iff]
        intro m hm
        have hne : m.header.hash ≠ registered := fun h => habsent (h ▸ List.mem_map_of_mem hm)
        simpa using hne
      rw [bundleGetModule_of_spans _ hsorted hspans, lookupModule, hmissing, hsearch]

/-! ## The text of a hash -/

theorem hexText_length_le (word : UInt32) : (hexText word).length ≤ 8 :=
  (Nat.length_toDigits_le_iff (by decide) (by decide)).mpr word.toNat_lt

/-- A word with all its digits. -/
theorem hexText_length_eq_iff (word : UInt32) :
    (hexText word).length = 8 ↔ 2 ^ 28 ≤ word.toNat := by
  have hle := hexText_length_le word
  have hseven : (hexText word).length ≤ 7 ↔ word.toNat < 16 ^ 7 :=
    Nat.length_toDigits_le_iff (by decide) (by decide)
  omega

theorem value_hexText (word : UInt32) : Numeral.value 16 (hexText word) = word.toNat :=
  Numeral.value_toDigits (by decide) (by decide) _

theorem value_hashLine (hash : UInt32 × UInt32) :
    Numeral.value 16 ((hashLine hash).drop 2) = shifted hash := by
  show Numeral.value 16 (hexText hash.1 ++ hexText hash.2) = _
  rw [Numeral.value_append, value_hexText, value_hexText, shifted]

/-- The number is the key of an import if and only if no digit is missing, or there is nothing
to be moved up. -/
theorem readLiteral_eq_iff (hkey : key.toNat = hash.1.toNat * 2 ^ 32 + hash.2.toNat) :
    readLiteral (hashLine hash) = key ↔ hash.1 = 0 ∨ 2 ^ 28 ≤ hash.2.toNat := by
  have hfirst := hash.1.toNat_lt
  have hsecond := hash.2.toNat_lt
  have hle := hexText_length_le hash.2
  have hpow : 16 ^ (hexText hash.2).length ≤ 16 ^ 8 := Nat.pow_le_pow_right (by decide) hle
  have hmul : hash.1.toNat * 16 ^ (hexText hash.2).length ≤ hash.1.toNat * 16 ^ 8 :=
    Nat.mul_le_mul_left _ hpow
  have hlt : shifted hash < 2 ^ 64 := by
    unfold shifted
    omega
  have hvalue : (readLiteral (hashLine hash)).toNat = shifted hash := by
    rw [readLiteral, value_hashLine, UInt64.toNat_ofNat', Nat.mod_eq_of_lt hlt]
  rw [← UInt64.toNat_inj, hvalue, hkey, shifted, ← hexText_length_eq_iff, ← UInt32.toNat_inj,
    Nat.add_right_cancel_iff]
  constructor
  · intro heq
    rcases Nat.eq_zero_or_pos hash.1.toNat with hzero | hpos
    · exact .inl hzero
    · have hsame : 16 ^ (hexText hash.2).length = 16 ^ 8 := Nat.eq_of_mul_eq_mul_left hpos heq
      exact .inr (Nat.pow_right_injective (by decide) hsame)
  · rintro (hzero | hlength)
    · rw [hzero]
      simp
    · rw [hlength]
      rfl

/-- Behind a first word of zero the text says which hash it is, and otherwise it is the
numeral of `shifted`. -/
theorem hashLine_eq_iff :
    hashLine hash = hashLine hash' ↔
      hash = hash' ∨ (hash.1 ≠ 0 ∧ hash'.1 ≠ 0 ∧ shifted hash = shifted hash') := by
  have hzero : ∀ hash : UInt32 × UInt32,
      ((hashLine hash).drop 2).head? = some '0' ↔ hash.1 = 0 := by
    intro hash
    show (hexText hash.1 ++ hexText hash.2).head? = some '0' ↔ _
    rw [hexText, List.head?_append_of_ne_nil _ Nat.toDigits_ne_nil,
      Numeral.head?_toDigits (by decide) (by decide), ← UInt32.toNat_inj]
    rfl
  have hnumeral : ∀ hash : UInt32 × UInt32, hash.1 ≠ 0 →
      hashLine hash = '0' :: 'x' :: Nat.toDigits 16 (shifted hash) := by
    intro hash hne
    have hpos : 0 < hash.1.toNat := Nat.pos_of_ne_zero fun h => hne (UInt32.toNat_inj.mp h)
    rw [hashLine, hexText, hexText, Numeral.toDigits_append (by decide) hpos]
    rfl
  constructor
  · intro heq
    have hsame : hash.1 = 0 ↔ hash'.1 = 0 := by rw [← hzero, ← hzero, heq]
    have hvalue : shifted hash = shifted hash' := by
      rw [← value_hashLine, ← value_hashLine, heq]
    by_cases hnil : hash.1 = 0
    · have hnil' := hsame.mp hnil
      refine .inl (Prod.ext (hnil.trans hnil'.symm) ?_)
      rw [shifted, shifted, hnil, hnil'] at hvalue
      simpa [UInt32.toNat_inj] using hvalue
    · exact .inr ⟨hnil, mt hsame.mpr hnil, hvalue⟩
  · rintro (rfl | ⟨hne, hne', hvalue⟩)
    · rfl
    · rw [hnumeral hash hne, hnumeral hash' hne', hvalue]

/-! ## Native modules -/

variable {act : Activation} {ctx ctx' ctxEnd : PipeContext} {config config' : Config}
  {ops : List JSValue} {receiver : JSValue} {function : FunctionRef} {id : ℕ}
  {cwd s input root pre : JSString}

/-- **Printed hashes.**  Let the compiled import of a module name without a dot in front run,
with a callee that is `module_import_module`.  The module that is registered under the printed
number is the one that the import finds if and only if the first word is zero or the second one
has all its digits.  Two hashes have different texts unless neither first word is zero and the
words, the first one moved up by the digits of the second, are the same number. -/
theorem printedHash_iff (hs : s.head? ≠ some dot) (hid : id ∉ ctx.reversed)
    (hemit : pipeExpression (importCall id (sourceHash cwd s input root pre)) ctx = .ok ctxEnd)
    (hplaced : act.Placed ctx ctxEnd) (hon : act.On ctx.code.length ops config)
    (hroom : ops.length + 2 ≤ stackSize)
    (hcallee : ∀ config₁, Run.iterate (step act.host) 2 config = some config₁ →
      act.CalleeRuns importCallee receiver function
        (importLiterals (hashString s) (ctx.reverseArguments id).2) ctx' config₁ config')
    (hfunction : ∀ vm, config'.vm? = some vm →
      ∃ objectBase, vm.heap.functions[function]? = some ⟨objectBase, .native (some 2)⟩) :
    ((∃ key, ImportsKey config' receiver key ∧ readLiteral (hashCommand s) = key ∧
        Finds (readLiteral (hashCommand s)) key) ↔
      (hashString s).1 = 0 ∨ 2 ^ 28 ≤ (hashString s).2.toNat) ∧
    ∀ hash hash' : UInt32 × UInt32, hash ≠ hash' → (hashLine hash ≠ hashLine hash' ↔
      hash.1 = 0 ∨ hash'.1 = 0 ∨ shifted hash ≠ shifted hash') := by
  have hsource : sourceHash cwd s input root pre = hashString s := if_neg hs
  rw [hsource] at hemit
  have hreceives := importCall_receives hid hemit hplaced hon hroom hcallee hfunction
  constructor
  · constructor
    · rintro ⟨key, hkey, hread, -⟩
      exact (readLiteral_eq_iff ((importsKey_iff key hreceives).mp hkey)).mp hread
    · intro hwords
      have hlt : (hashString s).1.toNat * 2 ^ 32 + (hashString s).2.toNat < 2 ^ 64 := by
        have hfirst := (hashString s).1.toNat_lt
        have hsecond := (hashString s).2.toNat_lt
        omega
      have hkey : (UInt64.ofNat ((hashString s).1.toNat * 2 ^ 32 + (hashString s).2.toNat)).toNat =
          (hashString s).1.toNat * 2 ^ 32 + (hashString s).2.toNat := by
        rw [UInt64.toNat_ofNat', Nat.mod_eq_of_lt hlt]
      have hread := (readLiteral_eq_iff hkey).mpr hwords
      exact ⟨_, (importsKey_iff _ hreceives).mpr hkey, hread, finds_iff.mpr hread⟩
  · intro hash hash' hne
    rw [ne_eq, hashLine_eq_iff]
    simp only [hne, false_or]
    tauto

/-- The hash of `a`. -/
theorem hashString_a : hashString (jsString "a") = (284119222, 1189966742) := by decide +kernel

/-- A native module `a` is found. -/
theorem printedHash_iff_a :
    ∃ key, ImportsKey (importConfig (hashString (jsString "a")) 5) (.object 0) key ∧
      readLiteral (hashCommand (jsString "a")) = key ∧
      Finds (readLiteral (hashCommand (jsString "a"))) key := by
  have hexample : IsExample (hashString (jsString "a")) := hashString_a ▸ .inr (.inr rfl)
  have hsource : sourceHash [] (jsString "a") [] [] [] = hashString (jsString "a") :=
    if_neg (by decide)
  have hemit := importCall_emits (hashString (jsString "a"))
  rw [← hsource] at hemit
  refine (printedHash_iff (by decide) List.not_mem_nil hemit (importCall_placed _)
    (importConfig_on _) (show 0 + 2 ≤ stackSize by decide)
    (fun config₁ hrun => Option.some.inj ((importConfig_run hexample).symm.trans hrun) ▸
      importConfig_calleeRuns hexample) (importConfig_function hexample)).1.mpr ?_
  rw [hashString_a]
  exact .inr (by decide)

/-- The printed number for `math` has seven digits behind the first word, and is not the key of
its import.  Two hashes are printed as `0x111`. -/
theorem printedHash_math :
    (jsString "math").head? ≠ some dot ∧
      hashString (jsString "math") = (3952978283, 228452491) ∧
      readLiteral (hashCommand (jsString "math")) ≠
        importKey (BitVec.ofInt 32 3952978283) (BitVec.ofInt 32 228452491) ∧
      hashLine (1, 17) = hashLine (17, 1) := by
  decide +kernel

end AtomixJS.Compiler
