import AtomixJS.Compiler.Transform
import AtomixJS.Core.CoreModule
import AtomixJS.Results.CallConvention

/-!
# Import keys

The two words of a module's hash reach `bundle_get_module` on two ways.  The
header of the module holds them one after the other, and the loader reads both
as one number, the second word being the high one.  An import hands them to
`module_import_module` as two numbers, which shifts the first one up.  So the key
of an import has the words the other way around.
-/

namespace AtomixJS.Compiler

variable {act : Activation} {ctx ctx' ctxEnd : PipeContext} {config config' : Config}
  {ops : List JSValue} {receiver : JSValue} {function : FunctionRef} {hash : UInt32 × UInt32}
  {id : ℕ}

/-- `Module.importModule` -/
def importCallee : Expression :=
  .memberExpression (.identifier (jsString "Module")) (.identifier (jsString "importModule")) false

/-- The two literals of an import, in the order in which they are emitted. -/
def importLiterals (hash : UInt32 × UInt32) (ctx : PipeContext) : PipeContext :=
  (ctx.addInstruction (.ldInt hash.2.toNat)).addInstruction (.ldInt hash.1.toNat)

/-- The next step calls `module_import_module`, which is native function 2, and it
makes this key of its two arguments. -/
def ImportsKey (config : Config) (receiver : JSValue) (key : UInt64) : Prop :=
  ∃ first second, Receives config 2 receiver [.integer first, .integer second] ∧
    importKey first second = key

theorem pipeNumericLiteral_word (word : UInt32) (ctx : PipeContext) :
    pipeNumericLiteral (Binary64.ofInt word.toNat) ctx = ctx.addInstruction (.ldInt word.toNat) :=
  pipeNumericLiteral_of_whole
    (Binary64.whole?_ofInt (Nat.lt_trans word.toNat_lt (by decide))) ctx

/-- The emission of an import. -/
theorem pipeExpression_importCall (hash : UInt32 × UInt32) (hid : id ∉ ctx.reversed) :
    pipeExpression (importCall id hash) ctx = (do
      let ctx' ← pipeCallee importCallee (importLiterals hash (ctx.reverseArguments id).2)
      pure (ctx'.addInstruction (.call 2))) := by
  have harguments : pipeArguments (argumentOrder ctx id
      [.numericLiteral (Binary64.ofInt hash.1.toNat), .numericLiteral (Binary64.ofInt hash.2.toNat)])
      (ctx.reverseArguments id).2 = .ok (importLiterals hash (ctx.reverseArguments id).2) := by
    rw [argumentOrder, if_neg hid]
    simp only [List.reverse_cons, List.reverse_nil, List.nil_append, List.singleton_append,
      pipeArguments, pipeExpression, Fallible.ok_bind, pipeNumericLiteral_word]
    rfl
  rw [importCall, pipeExpression_call, harguments]
  rfl

/-- The literals of an import, as the machine pushes them. -/
theorem on_importLiterals (hon : act.On ctx.code.length ops config)
    (hroom : ops.length + 2 ≤ stackSize) (hplaced : act.Placed ctx ctxEnd)
    (hextends : Extends (importLiterals hash ctx) ctxEnd) :
    ∃ config₁, Run.iterate (step act.host) 2 config = some config₁ ∧
      act.On (importLiterals hash ctx).code.length
        (.integer (BitVec.ofInt 32 hash.1.toNat) :: .integer (BitVec.ofInt 32 hash.2.toNat) :: ops)
        config₁ := by
  have hlast := Extends.add (ctx.addInstruction (.ldInt hash.2.toNat)) (.ldInt hash.1.toNat)
  have hsecond := (hplaced.first (hlast.trans hextends)).added
  have hfirst := ((hplaced.second (Extends.add ctx (.ldInt hash.2.toNat))).first hextends).added
  obtain ⟨config₁, hstep, hon₁⟩ := hon.push hsecond (fun h => nomatch h) rfl (fun _ => rfl)
    (show ops.length < stackSize by omega)
  rw [← addInstruction_length ctx (.ldInt hash.2.toNat)] at hon₁
  obtain ⟨config₂, hstep', hon₂⟩ := hon₁.push hfirst (fun h => nomatch h) rfl (fun _ => rfl)
    (by rw [List.length_cons]; omega)
  refine ⟨config₂, ?_, ?_⟩
  · rw [Run.iterate_succ_of_step hstep, Run.iterate_succ_of_step hstep', Run.iterate_zero]
  · rw [importLiterals, addInstruction_length]
    exact hon₂

theorem ofInt_word (word : UInt32) : (BitVec.ofInt 32 word.toNat).toNat = word.toNat := by
  rw [BitVec.ofInt_natCast, BitVec.toNat_ofNat, Nat.mod_eq_of_lt word.toNat_lt]

/-- An import hands the two words to `module_import_module`. -/
theorem importCall_receives (hid : id ∉ ctx.reversed)
    (hemit : pipeExpression (importCall id hash) ctx = .ok ctxEnd) (hplaced : act.Placed ctx ctxEnd)
    (hon : act.On ctx.code.length ops config) (hroom : ops.length + 2 ≤ stackSize)
    (hcallee : ∀ config₁, Run.iterate (step act.host) 2 config = some config₁ →
      act.CalleeRuns importCallee receiver function
        (importLiterals hash (ctx.reverseArguments id).2) ctx' config₁ config')
    (hfunction : ∀ vm, config'.vm? = some vm →
      ∃ objectBase, vm.heap.functions[function]? = some ⟨objectBase, .native (some 2)⟩) :
    Receives config' 2 receiver
      [.integer (BitVec.ofInt 32 hash.1.toNat), .integer (BitVec.ofInt 32 hash.2.toNat)] := by
  rw [pipeExpression_importCall hash hid, Fallible.bind_eq_ok] at hemit
  obtain ⟨ctx₁, hcalled, hend⟩ := hemit
  obtain rfl := Fallible.pure_eq_ok.mp hend
  obtain ⟨visits, hemission, _⟩ := visits_callee hcalled
  have hextends := hemission.extends
  have hcall := Extends.add ctx₁ (.call 2)
  have hreverse := Extends.reverse ctx id
  -- the two literals are pushed, then the callee runs
  have hstart : act.On (ctx.reverseArguments id).2.code.length ops config := by
    rw [PipeContext.reverseArguments_code]
    exact hon
  obtain ⟨config₁, hrun, hon₁⟩ :=
    on_importLiterals hstart hroom (hplaced.second hreverse) (hextends.trans hcall)
  have hruns := hcallee config₁ hrun
  obtain rfl := Except.ok.inj (hruns.emits.symm.trans hcalled)
  have hliterals : Extends (ctx.reverseArguments id).2
      (importLiterals hash (ctx.reverseArguments id).2) := (Extends.add _ _).trans (Extends.add _ _)
  have hhas := (hplaced.second ((hreverse.trans hliterals).trans hextends)).added
  have hfront := hruns.on hon₁
  have harguments : act.On ctx'.code.length (.func function :: receiver ::
      ([.integer (BitVec.ofInt 32 hash.1.toNat), .integer (BitVec.ofInt 32 hash.2.toNat)] ++ ops))
      config' := hfront
  have hdelivers := delivers_of_on hhas harguments
  obtain ⟨vm, rfl, _⟩ := hfront
  obtain ⟨objectBase, hnative⟩ := hfunction vm rfl
  exact hdelivers.native vm rfl objectBase 2 hnative

/-- The key that is made of the two words. -/
theorem importsKey_iff (key : UInt64) (hreceives : Receives config' 2 receiver
    [.integer (BitVec.ofInt 32 hash.1.toNat), .integer (BitVec.ofInt 32 hash.2.toNat)]) :
    ImportsKey config' receiver key ↔ key.toNat = hash.1.toNat * 2 ^ 32 + hash.2.toNat := by
  have hkey : (importKey (BitVec.ofInt 32 hash.1.toNat) (BitVec.ofInt 32 hash.2.toNat)).toNat =
      hash.1.toNat * 2 ^ 32 + hash.2.toNat := by
    rw [importKey_toNat, ofInt_word, ofInt_word]
  constructor
  · rintro ⟨first, second, hreceives', hsame⟩
    have harguments := hreceives'.unique hreceives
    simp only [List.cons.injEq, JSValue.integer.injEq, and_true] at harguments
    rw [← hsame, harguments.1, harguments.2]
    exact hkey
  · intro hsame
    exact ⟨_, _, hreceives, UInt64.toNat_inj.mp (hkey.trans hsame.symm)⟩

/-- **Import keys.**  Let the compiled import of a hash run, with a callee that is
`module_import_module`.  The key it asks for is the hash that the loader reads
from a module written with the same hash if and only if both words are equal. -/
theorem importCall_key_iff {stable : STableSection} {data : DataSection} {bytes : List UInt8}
    {header : AtomixJS.ModuleHeader} {position : ℕ} (hid : id ∉ ctx.reversed)
    (hemit : pipeExpression (importCall id hash) ctx = .ok ctxEnd) (hplaced : act.Placed ctx ctxEnd)
    (hon : act.On ctx.code.length ops config) (hroom : ops.length + 2 ≤ stackSize)
    (hcallee : ∀ config₁, Run.iterate (step act.host) 2 config = some config₁ →
      act.CalleeRuns importCallee receiver function
        (importLiterals hash (ctx.reverseArguments id).2) ctx' config₁ config')
    (hfunction : ∀ vm, config'.vm? = some vm →
      ∃ objectBase, vm.heap.functions[function]? = some ⟨objectBase, .native (some 2)⟩)
    (hwritten : (buildModule hash stable data).writeTo = .ok bytes)
    (hread : loadModuleHeader bytes 0 = .ok (header, position)) :
    ImportsKey config' receiver header.hash ↔ hash.1 = hash.2 := by
  have hhash : header.hash.toNat = hash.2.toNat * 2 ^ 32 + hash.1.toNat := by
    have hloaded := (ModuleFormat.loadModuleHeader_of_written hwritten).symm.trans hread
    rw [← (Prod.mk.inj (Except.ok.inj hloaded)).1]
    exact ModuleFormat.loadedHash_toNat _
  have hreceives := importCall_receives hid hemit hplaced hon hroom hcallee hfunction
  rw [importsKey_iff header.hash hreceives, hhash, ← UInt32.toNat_inj]
  have hfirst := hash.1.toNat_lt
  have hsecond := hash.2.toNat_lt
  constructor
  · intro hsame
    omega
  · intro hsame
    rw [hsame]

/-! ## A machine with the core module -/

/-- The code of an import, for a module with the given hash. -/
def importTarget (hash : UInt32 × UInt32) : Target where
  module := JSModule.ofCode [cString "Module", cString "importModule"]
    [some (.ldInt (BitVec.ofInt 32 hash.2.toNat)), some (.ldInt (BitVec.ofInt 32 hash.1.toNat)),
      some (.loadLocal 0), some .dup, some (.objLoad 1), some (.call 2)] (by decide) (by simp)
  strings := [jsString "Module", jsString "importModule"]
  code := [.ldInt hash.2.toNat, .ldInt hash.1.toNat, .loadLocal 0, .dup, .objLoad 1, .call 2]
  instructions_eq := rfl

def importActivation (hash : UInt32 × UInt32) : Activation := activationOf (importTarget hash)

/-- The machine `n` steps behind the start of the import.  `Module` is an object
whose property `importModule` is native function 2. -/
def importConfig (hash : UInt32 × UInt32) : ℕ → Config :=
  configOf (importTarget hash)
    { (objectCreateObject Heap.empty none).1.putProperty 0 (.string (cString "importModule"))
        (.func 0) with
      scopes := [rootScope [(cString "Module", .object 0)]]
      functions := [⟨0, .native (some 2)⟩] } 0

/-- The literals of the import, as they lie on the stack. -/
def importOperands (hash : UInt32 × UInt32) : List JSValue :=
  [.integer (BitVec.ofInt 32 hash.1.toNat), .integer (BitVec.ofInt 32 hash.2.toNat)]

theorem importConfig_on (hash : UInt32 × UInt32) :
    (importActivation hash).On 0 [] (importConfig hash 0) :=
  ⟨_, rfl, ⟨_, rfl, rfl⟩, rfl, rfl, Nat.zero_le _⟩

/-- The contexts behind the literals, behind the receiver and behind the callee. -/
def importContexts (hash : UInt32 × UInt32) : PipeContext × PipeContext × PipeContext :=
  let ctx₁ := importLiterals hash (PipeContext.empty.reverseArguments 0).2
  let ctx₂ := ctx₁.addNamed .loadLocal (jsString "Module")
  (ctx₁, ctx₂, (ctx₂.addInstruction .dup).addNamed .objLoad (jsString "importModule"))

/-- The hashes of the examples.  The last one is that of the module name `a`. -/
def IsExample (hash : UInt32 × UInt32) : Prop :=
  hash = (7, 7) ∨ hash = (1, 0) ∨ hash = (284119222, 1189966742)

/-- `Module` and `importModule` are found. -/
theorem importConfig_calleeRuns {hash : UInt32 × UInt32} (h : IsExample hash) :
    (importActivation hash).CalleeRuns importCallee (.object 0) 0 (importContexts hash).1
      (importContexts hash).2.2 (importConfig hash 2) (importConfig hash 5) := by
  have hliterals : (importActivation hash).On 2 (importOperands hash) (importConfig hash 2) := by
    rcases h with rfl | rfl | rfl <;> exact ⟨_, rfl, ⟨_, rfl, rfl⟩, rfl, rfl, by decide⟩
  have hreceiver : (importActivation hash).On 3 (.object 0 :: importOperands hash)
      (importConfig hash 3) := by
    rcases h with rfl | rfl | rfl <;> exact ⟨_, rfl, ⟨_, rfl, rfl⟩, rfl, rfl, by decide⟩
  have hcallee : (importActivation hash).On 5 (.func 0 :: .object 0 :: importOperands hash)
      (importConfig hash 5) := by
    rcases h with rfl | rfl | rfl <;> exact ⟨_, rfl, ⟨_, rfl, rfl⟩, rfl, rfl, by decide⟩
  have hreaches : Run.Reaches (step (importActivation hash).host) (importConfig hash 2)
      (importConfig hash 3) := by
    rcases h with rfl | rfl | rfl <;> exact ⟨1, rfl⟩
  have hreaches' : Run.Reaches (step (importActivation hash).host) (importConfig hash 3)
      (importConfig hash 5) := by
    rcases h with rfl | rfl | rfl <;> exact ⟨2, rfl⟩
  have hcalled : pipeReceiver importCallee (importContexts hash).1 = .ok (importContexts hash).2.1 :=
    rfl
  exact .mk hcalled (.of_on hreaches hliterals hreceiver) rfl (.of_on hreaches' hreceiver hcallee)

theorem importCall_emits (hash : UInt32 × UInt32) :
    pipeExpression (importCall 0 hash) PipeContext.empty =
      .ok ((importContexts hash).2.2.addInstruction (.call 2)) := by
  rw [pipeExpression_importCall hash List.not_mem_nil]
  rfl

theorem importCall_placed (hash : UInt32 × UInt32) : (importActivation hash).Placed
    PipeContext.empty ((importContexts hash).2.2.addInstruction (.call 2)) :=
  ⟨agree_extended ⟨[], rfl⟩ (Nat.le_refl _), List.prefix_rfl, Nat.le_refl _, Nat.le_refl _⟩

theorem importConfig_run {hash : UInt32 × UInt32} (h : IsExample hash) :
    Run.iterate (step (importActivation hash).host) 2 (importConfig hash 0) =
      some (importConfig hash 2) := by
  rcases h with rfl | rfl | rfl <;> rfl

theorem importConfig_function {hash : UInt32 × UInt32} (h : IsExample hash)
    (vm : VM) (hvm : (importConfig hash 5).vm? = some vm) :
    ∃ objectBase, vm.heap.functions[0]? = some ⟨objectBase, .native (some 2)⟩ := by
  rcases h with rfl | rfl | rfl <;>
    · obtain rfl := Option.some.inj hvm
      exact ⟨0, rfl⟩

/-- The header of the module with this hash, as the loader reads it. -/
theorem importedHeader (hash : UInt32 × UInt32) : ∃ bytes header position,
    (ModuleFormat.empty hash).writeTo = .ok bytes ∧
      loadModuleHeader bytes 0 = .ok (header, position) :=
  have hwritten := ModuleFormat.writeTo_eq (ModuleFormat.empty_wellFormed hash)
  ⟨_, _, _, hwritten, ModuleFormat.loadModuleHeader_of_written hwritten⟩

theorem importCall_key_iff_sevens : ∃ bytes header position,
    (ModuleFormat.empty (7, 7)).writeTo = .ok bytes ∧
      loadModuleHeader bytes 0 = .ok (header, position) ∧
      (ImportsKey (importConfig (7, 7) 5) (.object 0) header.hash ↔ (7 : UInt32) = 7) := by
  obtain ⟨bytes, header, position, hwritten, hread⟩ := importedHeader (7, 7)
  refine ⟨bytes, header, position, hwritten, hread, ?_⟩
  exact importCall_key_iff List.not_mem_nil (importCall_emits (7, 7)) (importCall_placed (7, 7))
    (importConfig_on (7, 7)) (show 0 + 2 ≤ stackSize by decide)
    (fun config₁ hrun => Option.some.inj ((importConfig_run (.inl rfl)).symm.trans hrun) ▸
      importConfig_calleeRuns (.inl rfl))
    (importConfig_function (.inl rfl)) hwritten hread

/-- A module with the hash `[1, 0]` is loaded under the key 1, and imported under the
key 2^32. -/
theorem importCall_key_low : ¬ ∀ (hash : UInt32 × UInt32) (act : Activation) (id function : ℕ)
    (ctx ctx' ctxEnd : PipeContext) (ops : List JSValue) (receiver : JSValue)
    (config config' : Config) (stable : STableSection) (data : DataSection) (bytes : List UInt8)
    (header : AtomixJS.ModuleHeader) (position : ℕ), id ∉ ctx.reversed →
      pipeExpression (importCall id hash) ctx = .ok ctxEnd → act.Placed ctx ctxEnd →
      act.On ctx.code.length ops config → ops.length + 2 ≤ stackSize →
      (∀ config₁, Run.iterate (step act.host) 2 config = some config₁ →
        act.CalleeRuns importCallee receiver function
          (importLiterals hash (ctx.reverseArguments id).2) ctx' config₁ config') →
      (∀ vm, config'.vm? = some vm →
        ∃ objectBase, vm.heap.functions[function]? = some ⟨objectBase, .native (some 2)⟩) →
      (buildModule hash stable data).writeTo = .ok bytes →
      loadModuleHeader bytes 0 = .ok (header, position) →
      ImportsKey config' receiver header.hash := by
  intro hclaim
  obtain ⟨bytes, header, position, hwritten, hread⟩ := importedHeader (1, 0)
  have hcallee : ∀ config₁, Run.iterate (step (importActivation (1, 0)).host) 2
      (importConfig (1, 0) 0) = some config₁ →
      (importActivation (1, 0)).CalleeRuns importCallee (.object 0) 0 (importContexts (1, 0)).1
        (importContexts (1, 0)).2.2 config₁ (importConfig (1, 0) 5) :=
    fun config₁ hrun => Option.some.inj ((importConfig_run (.inr (.inl rfl))).symm.trans hrun) ▸
      importConfig_calleeRuns (.inr (.inl rfl))
  obtain ⟨first, second, hreceives, hkey⟩ := hclaim (1, 0) (importActivation (1, 0)) 0 0
    PipeContext.empty _ _ [] (.object 0) _ _ _ _ bytes header position List.not_mem_nil
    (importCall_emits (1, 0)) (importCall_placed (1, 0)) (importConfig_on (1, 0))
    (show 0 + 2 ≤ stackSize by decide) hcallee (importConfig_function (.inr (.inl rfl))) hwritten hread
  have hactual : Receives (importConfig (1, 0) 5) 2 (.object 0) (importOperands (1, 0)) :=
    fun host => ⟨_, _, _, rfl⟩
  have harguments := hreceives.unique hactual
  have hloaded := (ModuleFormat.loadModuleHeader_of_written hwritten).symm.trans hread
  rw [← (Prod.mk.inj (Except.ok.inj hloaded)).1] at hkey
  simp only [importOperands, List.cons.injEq, JSValue.integer.injEq, and_true] at harguments
  rw [harguments.1, harguments.2] at hkey
  exact absurd hkey (by decide)

end AtomixJS.Compiler
