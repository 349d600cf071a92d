import AtomixJS.Core.Bounds
import AtomixJS.Core.CoreModule

/-!
# Runs within the operand stack and the code

Whatever the instructions are, a run stays in the operand stack and in the instruction array as
long as every step finds what its handler does not check.
-/

namespace AtomixJS

/-! ## Native functions -/

section Natives

variable {heap : Heap} {module : ModuleRef} {this : JSValue} {args : List JSValue} {link : Linkage}

theorem search_apart {hashes : List UInt64} {hash : UInt64} {rounds : ℕ} {low high : UInt16}
    {result : Except Fault (Option ℕ)} (h : search hashes hash rounds low high = some result) :
    Apart result := by
  induction rounds generalizing low high with
  | zero => cases h
  | succ rounds ih =>
    rw [search] at h
    split at h
    · obtain rfl := Option.some.inj h
      trivial
    · obtain rfl := Option.some.inj h
      rfl
    · obtain rfl := Option.some.inj h
      trivial
    · exact ih h

theorem bundleGetModule_apart {bundle : Option JSBundle} {nativeModules : List JSModule}
    {hash : UInt64} : Apart (bundleGetModule bundle nativeModules hash) := by
  unfold bundleGetModule
  cases bundle with
  | none =>
    have hin : Apart (pure none : Except Fault (Option ℕ)) := trivial
    refine hin.bind fun inBundle _ => ?_
    cases inBundle with
    | none =>
      dsimp only
      split
      · trivial
      · exact rfl
    | some index => trivial
  | some bundle =>
    have hsearch : Apart ((search (bundle.modules.map (·.header.hash)) hash (2 ^ 32 + 1) 0
        bundle.moduleCount).getD (.error .divergence)) := by
      cases hfound : search (bundle.modules.map (·.header.hash)) hash (2 ^ 32 + 1) 0
          bundle.moduleCount with
      | none => exact rfl
      | some result => exact search_apart hfound
    refine hsearch.bind fun inBundle _ => ?_
    cases inBundle with
    | none =>
      dsimp only
      split
      · trivial
      · exact rfl
    | some index => trivial

theorem getModule_apart {bundle : Option BundleRef} {hash : UInt64} :
    Apart (link.getModule heap bundle hash) := by
  unfold Linkage.getModule
  refine bundleGetModule_apart.bind fun location _ => ?_
  have hfound : ∀ found : Option ModuleRef, Apart (pure found : Except Fault (Option ModuleRef)) := by
    intro found
    trivial
  cases location with
  | bundle index =>
    refine (hfound _).bind fun found _ => ?_
    cases found with
    | none => exact rfl
    | some module => trivial
  | native index =>
    refine (hfound _).bind fun found _ => ?_
    cases found with
    | none => exact rfl
    | some module => trivial

theorem staysInBounds_import {hash : UInt64} : (importByKey link heap module hash).StaysInBounds := by
  unfold importByKey
  split
  · exact rfl
  · next current _ =>
    have hmodule : Apart (link.getModule heap current.bundle hash) := getModule_apart
    split
    · next fault hfault =>
      rw [hfault] at hmodule
      exact hmodule
    · split
      · exact rfl
      · split
        · trivial
        · intro heap
          dsimp only
          split
          · trivial
          · exact rfl

theorem staysInBounds_getProperty {obj : ObjectRef} {key : PropertyKey}
    {next : Heap → JSValue → NativeProgram} (hnext : ∀ heap value, (next heap value).StaysInBounds) :
    (NativeProgram.getProperty heap obj key next).StaysInBounds := by
  have hread : Apart (objectReadProperty heap obj key) := objectReadProperty_apart
  unfold NativeProgram.getProperty
  split
  · next fault hfault =>
    rw [hfault] at hread
    exact hread
  · exact hnext _ _
  · exact hnext

theorem staysInBounds_instantiate : (instantiate heap module this args).StaysInBounds := by
  unfold instantiate
  split
  · split
    · exact rfl
    · refine staysInBounds_getProperty fun heap prototype => ?_
      split
      · intro heap value
        dsimp only
        split <;> trivial
      · trivial
  · trivial

theorem staysInBounds_setPrototypeOf : (setPrototypeOf heap module this args).StaysInBounds := by
  unfold setPrototypeOf
  split
  · next first second _ =>
    have hfirst : Apart (objectOf heap first) := objectOf_apart
    have hsecond : Apart (objectOf heap second) := objectOf_apart
    split
    · split
      · split
        · trivial
        · exact rfl
      · next hfault =>
        rw [hfault] at hfirst
        exact hfirst
      · next hfault =>
        rw [hfault] at hsecond
        exact hsecond
    · trivial
  · trivial

theorem prototypeWalk_apart {objects : List JSObject} {root array : ObjectRef} {bound : ℕ}
    {prototype : Option ObjectRef} : Apart (prototypeWalk objects root array bound prototype) := by
  induction bound generalizing prototype with
  | zero => exact rfl
  | succ bound ih =>
    cases prototype with
    | none => exact rfl
    | some prototype =>
      rw [prototypeWalk]
      refine .ite (fun _ => trivial) fun _ => .ite (fun _ => trivial) fun _ => ?_
      split
      · exact ih
      · exact rfl

theorem valueIsArray_apart {value : JSValue} : Apart (valueIsArray heap value) := by
  unfold valueIsArray
  split
  · dsimp only
    split
    · exact prototypeWalk_apart.bind fun _ _ => trivial
    · exact rfl
  · trivial

theorem staysInBounds_isArray : (isArray heap module this args).StaysInBounds := by
  unfold isArray
  split
  · trivial
  · next value _ =>
    have harray : Apart (valueIsArray heap value) := valueIsArray_apart
    split
    · trivial
    · next hfault =>
      rw [hfault] at harray
      exact harray

theorem staysInBounds_symbol : (symbol heap module this args).StaysInBounds := by
  unfold symbol
  dsimp only
  split
  · trivial
  · next value _ =>
    have htext : Apart (valueToString value) := valueToString_apart
    split
    · trivial
    · next hfault =>
      rw [hfault] at htext
      exact htext

theorem staysInBounds_call : (call heap module this args).StaysInBounds := by
  unfold call
  split
  · split
    · exact fun _ _ => trivial
    · exact fun _ _ => trivial
  · trivial

theorem staysInBounds_create : (create heap module this args).StaysInBounds := by
  unfold create
  split <;> trivial

theorem staysInBounds_array : (array heap module this args).StaysInBounds := by
  unfold AtomixJS.array
  dsimp only
  split <;> trivial

theorem staysInBounds_moduleGetExportObj :
    (moduleGetExportObj heap module this args).StaysInBounds := by
  unfold moduleGetExportObj
  split
  · trivial
  · exact rfl

theorem staysInBounds_moduleImportModule :
    (moduleImportModule link heap module this args).StaysInBounds := by
  unfold moduleImportModule
  split
  · exact staysInBounds_import
  · trivial

end Natives

theorem staysInBounds_sourceHost (link : Linkage) (address : JSValue → CInt) (indexFirst : Bool) :
    (sourceHost link address indexFirst).StaysInBounds := by
  intro pointer heap module this args
  show (coreFunction link pointer heap module this args).StaysInBounds
  unfold coreFunction
  split
  · trivial
  · trivial
  · trivial
  · exact staysInBounds_moduleGetExportObj
  · exact staysInBounds_moduleImportModule
  · exact staysInBounds_instantiate
  · exact staysInBounds_create
  · exact staysInBounds_setPrototypeOf
  · exact staysInBounds_array
  · exact staysInBounds_isArray
  · exact staysInBounds_call
  · exact staysInBounds_symbol
  · exact rfl

/-! ## Runs -/

/-- The machine, whatever runs on it. -/
def Prog.vm? : Prog → Option VM
  | .done vm | .native vm _ _ | .call vm _ _ _ | .execModule vm _ _ => some vm
  | .fault _ => none

/-- The stack counter is in the stack, and nothing outside of it or of the code was touched. -/
structure Config.InBounds (config : Config) : Prop where
  stackCounter : ∀ vm, config.prog.vm? = some vm → vm.stats.stackCounter ≤ stackSize
  access : ∀ f, config.prog = .fault f → f.isOutOfBounds = false

theorem Config.StaysInBounds.inBounds {config : Config} (h : config.StaysInBounds) :
    config.InBounds := by
  obtain ⟨prog, frames⟩ := config
  have hprog := h.prog
  refine ⟨fun vm hvm => ?_, fun f hfault => ?_⟩
  · cases prog with
    | fault f => cases hvm
    | done vm' =>
      obtain rfl := Option.some.inj hvm
      exact hprog.stackCounter
    | native vm' program next =>
      obtain rfl := Option.some.inj hvm
      exact hprog.1.stackCounter
    | call vm' function this next =>
      obtain rfl := Option.some.inj hvm
      exact hprog.1.stackCounter
    | execModule vm' module next =>
      obtain rfl := Option.some.inj hvm
      exact hprog.1.stackCounter
  · obtain rfl : prog = .fault f := hfault
    exact hprog

/-- `vm_exec_module`, as `main` calls it. -/
def mainConfig (vm : VM) (module : ModuleRef) : Config := ⟨.execModule vm module .done, []⟩

/-- **Bounds.**  A run that `main` starts on any module stays in the operand stack and in the
instruction array as long as its steps are guarded. -/
theorem exec_inBounds (link : Linkage) (address : JSValue → CInt) (indexFirst : Bool) {vm : VM}
    {module : ModuleRef} {n : ℕ} {config : Config} (hcounter : vm.stats.stackCounter = 0)
    (hstart : vm.stats.stackStart = 0)
    (hrun : Run.Through (step (sourceHost link address indexFirst)) Config.Guarded n
      (mainConfig vm module) config) : config.InBounds := by
  have hvm : vm.Bounded := ⟨hcounter ▸ Nat.zero_le _, hstart ▸ Nat.zero_le _⟩
  have hmain : (mainConfig vm module).StaysInBounds :=
    ⟨⟨hvm, fun vm' hvm' _ => hvm'⟩, fun frame hframe => absurd hframe List.not_mem_nil⟩
  have hend : config.StaysInBounds := hrun.invariant
    (fun s t hguard hs hstep => hs.step (staysInBounds_sourceHost link address indexFirst) hguard hstep)
    hmain
  exact hend.inBounds

/-! ### A jump that finds no operand -/

private theorem one_inst_lt (inst : Inst) : [some inst].length < 2 ^ 32 := by
  rw [List.length_singleton]
  decide

/-- A machine before a module of one instruction. -/
private def machineBefore (inst : Inst) : VM where
  module := 0
  globalScope := 0
  scope := 0
  stats := { instructionCounter := 0, stackCounter := 0, stackStart := 0, stack := fun _ => .undefined }
  heap :=
    { Heap.empty with
      scopes := [⟨none, dictCreateDict scopeBucketSize scopeBucketSize_pos⟩]
      modules := [JSModule.ofCode [] [some inst] no_strings_lt (one_inst_lt inst)] }

/-- `LD_NULL` leaves one operand. -/
theorem exec_inBounds_ldNull : ∃ config,
    Run.iterate (step (sourceHost ⟨[], []⟩ (fun _ => 0) true)) 2
      (mainConfig (machineBefore .ldNull) 0) = some config ∧ config.InBounds := by
  have hentered : (mainConfig (machineBefore .ldNull) 0).Guarded := trivial
  refine ⟨_, rfl, exec_inBounds ⟨[], []⟩ (fun _ => 0) true rfl rfl
    (.head hentered rfl (.single ⟨fun stop module hkind => ?_, fun inst _ hinst => ?_⟩ rfl))⟩
  · cases hkind
  · obtain rfl := Option.some.inj (Except.ok.inj hinst)
    trivial

/-- `JMP_F` reads below the operand stack when it is empty. -/
theorem jmpF_not_inBounds : ∃ config,
    Run.iterate (step (sourceHost ⟨[], []⟩ (fun _ => 0) true)) 2
      (mainConfig (machineBefore (.jmpF 0)) 0) = some config ∧ ¬ config.InBounds := by
  refine ⟨_, rfl, fun h => ?_⟩
  have haccess := h.access _ rfl
  cases haccess

end AtomixJS
