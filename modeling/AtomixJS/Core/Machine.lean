import AtomixJS.Core.Execution
import AtomixJS.Lib.Run

/-!
# The machine

A `Config` is the machine between two steps: the C code at the top of the C
stack, and for each `vm_exec_function` or `vm_exec_module` below it a frame that
holds what it saved, when its loop ends, and what its caller does with the
result.  `step` executes one instruction, enters or leaves one of the two loops,
or advances a native function; it is a partial function, so runs are
deterministic.

A step looks at the innermost frame only.  Hence a run with some frames is a run
with more frames below (`step_below`), and what a call does can be
studied in isolation.
-/

namespace AtomixJS

/-- Which of the two loops a frame stands for. -/
inductive FrameKind
  | function (instructionEnd : ℕ)
  | module
  deriving DecidableEq, Repr

/-- An activation of `vm_exec_function` or `vm_exec_module`: what it saved, and
what its caller does with the state and the result it leaves. -/
structure Frame where
  module : ModuleRef
  stats : VMStats
  scope : ScopeRef
  kind : FrameKind
  next : VM → JSValue → Prog

structure Config where
  prog : Prog
  frames : List Frame

/-- The machine state between two instructions. -/
def Config.vm? (config : Config) : Option VM :=
  match config.prog with
  | .done vm => some vm
  | _ => none

theorem Config.vm?_eq_some {config : Config} {vm : VM} :
    config.vm? = some vm ↔ config.prog = .done vm := by
  rw [Config.vm?]
  cases config.prog <;> simp

/-! ## The two loops -/

/-- The test of the loop, with the test for `OP_RETURN` in `vm_exec_function`. -/
def FrameKind.continues (kind : FrameKind) (vm : VM) : Except Fault Bool :=
  match kind with
  | .function instructionEnd =>
    if vm.stats.instructionCounter < instructionEnd then do
      let inst ← vm.instructionAt vm.stats.instructionCounter
      return (inst.map InstOf.opcode).getD .nop ≠ .ret
    else .ok false
  | .module => return vm.stats.instructionCounter < (← vm.currentModule).dataSection.count.toNat

/-- The result of the loop. -/
def FrameKind.result (kind : FrameKind) (vm : VM) : Except Fault JSValue :=
  match kind with
  | .function _ =>
    if vm.stats.stackStart < vm.stats.stackCounter then vm.slot (vm.stats.stackCounter - 1)
    else .ok .undefined
  | .module => .ok .undefined

/-- The end of `vm_exec_function` and `vm_exec_module`. -/
def Frame.restore (frame : Frame) (vm : VM) : VM :=
  { vm with module := frame.module, stats := frame.stats, scope := frame.scope }

/-- The beginning of `vm_exec_function`. -/
def enterFunction (vm : VM) (module : ModuleRef) (scope : ScopeRef) (start : ℕ) : VM :=
  { vm with
    module
    scope
    stats := { vm.stats with
      instructionCounter := start
      stackStart := vm.stats.stackCounter } }

/-- The beginning of `vm_exec_module`. -/
def enterModule (vm : VM) (module : ModuleRef) (scope : ScopeRef) : VM :=
  { vm with
    module
    scope
    stats := { vm.stats with instructionCounter := 0, stackCounter := 0, stackStart := 0 }
    heap := { vm.heap with
      scopes := vm.heap.scopes.modify scope fun s => { s with parent := some vm.globalScope } } }

/-! ## Steps -/

/-- One round of the innermost loop. -/
def stepLoop (host : Host) (vm : VM) (frame : Frame) (frames : List Frame) : Config :=
  match frame.kind.continues vm with
  | .error fault => ⟨.fault fault, frame :: frames⟩
  | .ok true => ⟨vmExec host vm, frame :: frames⟩
  | .ok false =>
    match frame.kind.result vm with
    | .error fault => ⟨.fault fault, frame :: frames⟩
    | .ok value => ⟨frame.next (frame.restore vm) value, frames⟩

/-- One step of a native function. -/
def stepNative (host : Host) (vm : VM) (next : VM → JSValue → Prog) : NativeProgram → Prog
  | .ret heap value => next { vm with heap } value
  | .fault fault => .fault fault
  | .apiCallFunction heap function this args rest =>
    apiCallFunction host { vm with heap } function this args fun vm value =>
      .native vm (rest vm.heap value) next
  | .execModule heap module rest =>
    .execModule { vm with heap } module fun vm => .native vm (rest vm.heap) next

/-- Declare `this` and enter `vm_exec_function`. -/
def stepCall (vm : VM) (function : FunctionRef) (this : JSValue) (next : VM → JSValue → Prog)
    (frames : List Frame) : Config :=
  match vm.heap.functions[function]? with
  | some ⟨_, .bytecode scope module start stop⟩ =>
    match scopeDeclare vm.heap scope (cString "this") this with
    | .error fault => ⟨.fault fault, frames⟩
    | .ok heap =>
      ⟨.done (enterFunction { vm with heap } module scope start),
        ⟨vm.module, vm.stats, vm.scope, .function stop, next⟩ :: frames⟩
  | _ => ⟨.fault (.undefinedBehaviour "function pointer"), frames⟩

/-- Enter `vm_exec_module`. -/
def stepExecModule (vm : VM) (module : ModuleRef) (next : VM → Prog) (frames : List Frame) :
    Config :=
  match vm.heap.modules[module]? with
  | some ⟨_, _, _, _, _, _, some scope⟩ =>
    if scope < vm.heap.scopes.length then
      ⟨.done (enterModule vm module scope),
        ⟨vm.module, vm.stats, vm.scope, .module, fun vm _ => next vm⟩ :: frames⟩
    else ⟨.fault (.undefinedBehaviour "scope pointer"), frames⟩
  | _ => ⟨.fault (.undefinedBehaviour "module pointer"), frames⟩

/-- One step.  The machine stops at a fault and when the outermost C code has
finished. -/
def step (host : Host) (config : Config) : Option Config :=
  match config.prog, config.frames with
  | .fault _, _ => none
  | .done _, [] => none
  | .done vm, frame :: frames => some (stepLoop host vm frame frames)
  | .native vm program next, frames => some ⟨stepNative host vm next program, frames⟩
  | .call vm function this next, frames => some (stepCall vm function this next frames)
  | .execModule vm module next, frames => some (stepExecModule vm module next frames)

/-! ## What a step can do -/

/-- A round of a loop either executes an instruction (or fails) in its frame, or
leaves the frame. -/
theorem stepLoop_cases (host : Host) (vm : VM) (frame : Frame) (frames : List Frame) :
    (∃ prog, stepLoop host vm frame frames = ⟨prog, frame :: frames⟩) ∨
      ∃ value, stepLoop host vm frame frames = ⟨frame.next (frame.restore vm) value, frames⟩ := by
  rw [stepLoop.eq_def]
  cases frame.kind.continues vm with
  | error fault => exact .inl ⟨_, rfl⟩
  | ok more =>
      cases more with
      | true => exact .inl ⟨_, rfl⟩
      | false =>
          cases frame.kind.result vm with
          | error fault => exact .inl ⟨_, rfl⟩
          | ok value => exact .inr ⟨value, rfl⟩

/-- A call fails or opens a frame that saves the state of the caller. -/
theorem stepCall_cases (vm : VM) (function : FunctionRef) (this : JSValue)
    (next : VM → JSValue → Prog) (frames : List Frame) :
    (∃ fault, stepCall vm function this next frames = ⟨.fault fault, frames⟩) ∨
      ∃ base scope module start stop heap,
        vm.heap.functions[function]? = some ⟨base, .bytecode scope module start stop⟩ ∧
        scopeDeclare vm.heap scope (cString "this") this = .ok heap ∧
        stepCall vm function this next frames =
          ⟨.done (enterFunction { vm with heap } module scope start),
            ⟨vm.module, vm.stats, vm.scope, .function stop, next⟩ :: frames⟩ := by
  rw [stepCall.eq_def]
  split
  · next base scope module start stop hfunction =>
      cases hdeclare : scopeDeclare vm.heap scope (cString "this") this with
      | error fault => exact .inl ⟨fault, rfl⟩
      | ok heap => exact .inr ⟨base, scope, module, start, stop, heap, hfunction, hdeclare, rfl⟩
  · exact .inl ⟨_, rfl⟩

/-- The same for a module. -/
theorem stepExecModule_cases (vm : VM) (module : ModuleRef) (next : VM → Prog)
    (frames : List Frame) :
    (∃ fault, stepExecModule vm module next frames = ⟨.fault fault, frames⟩) ∨
      ∃ m scope, vm.heap.modules[module]? = some m ∧ m.scope = some scope ∧
        scope < vm.heap.scopes.length ∧
        stepExecModule vm module next frames =
          ⟨.done (enterModule vm module scope),
            ⟨vm.module, vm.stats, vm.scope, .module, fun vm _ => next vm⟩ :: frames⟩ := by
  rw [stepExecModule.eq_def]
  split
  · next scope hmodule =>
      split
      · next hlt => exact .inr ⟨_, scope, hmodule, rfl, hlt, rfl⟩
      · exact .inl ⟨_, rfl⟩
  · exact .inl ⟨_, rfl⟩

/-! ## One instruction -/

/-- The loop of a frame executes `inst` next. -/
structure FrameKind.Executes (kind : FrameKind) (vm : VM) (inst : Option Inst) : Prop where
  fetch : ∃ module, vm.heap.modules[vm.module]? = some module ∧
    module.dataSection.instructions[vm.stats.instructionCounter]? = some inst
  inLoop : ∀ stop, kind = .function stop →
    vm.stats.instructionCounter < stop ∧ (inst.map InstOf.opcode).getD .nop ≠ .ret

/-- What `vm_exec` does with an instruction, once the counter is past it. -/
def execSlot (host : Host) : Option Inst → VM → Prog
  | none, vm => .done vm
  | some inst, vm => execInst host inst vm

theorem step_of_executes (host : Host) {vm : VM} {inst : Option Inst} {frame : Frame}
    (h : frame.kind.Executes vm inst) (frames : List Frame) :
    step host ⟨.done vm, frame :: frames⟩ =
      some ⟨execSlot host inst (vm.setCounter (vm.stats.instructionCounter + 1)),
        frame :: frames⟩ := by
  obtain ⟨⟨module, hmodule, hinst⟩, hloop⟩ := h
  have hcurrent : vm.currentModule = .ok module := by rw [VM.currentModule, hmodule]
  have hfetch : vm.instructionAt vm.stats.instructionCounter = .ok inst := by
    rw [VM.instructionAt, hcurrent]
    simp only [bind, Except.bind, hinst]
    rfl
  have hcount : vm.stats.instructionCounter < module.dataSection.count.toNat := by
    rw [← module.dataSection.count_eq]
    exact (List.getElem?_eq_some_iff.mp hinst).1
  have hcontinues : frame.kind.continues vm = .ok true := by
    cases hkind : frame.kind with
    | function stop =>
        obtain ⟨hlt, hret⟩ := hloop stop hkind
        rw [FrameKind.continues, if_pos hlt, hfetch]
        simpa [bind, Except.bind, pure, Except.pure] using hret
    | module =>
        rw [FrameKind.continues, hcurrent]
        simpa [bind, Except.bind, pure, Except.pure] using hcount
  have hexec : vmExec host vm =
      execSlot host inst (vm.setCounter (vm.stats.instructionCounter + 1)) := by
    rw [vmExec, hcurrent]
    simp only [Prog.after, if_neg (Nat.not_le.mpr hcount), hfetch]
    cases inst <;> rfl
  simp only [step, stepLoop, hcontinues, hexec]

/-! ## Frames below -/

variable {host : Host} {vm : VM} {frame : Frame} {frames : List Frame}

def Config.below (config : Config) (frames : List Frame) : Config :=
  { config with frames := config.frames ++ frames }

/-- A step does not look at the frames below the innermost one. -/
theorem step_below {config config' : Config} (h : step host config = some config')
    (below : List Frame) : step host (config.below below) = some (config'.below below) := by
  obtain ⟨prog, frames⟩ := config
  cases prog with
  | fault f => cases h
  | done vm =>
      cases frames with
      | nil => cases h
      | cons frame frames =>
          obtain rfl := Option.some.inj h
          simp only [step, Config.below, List.cons_append, stepLoop, Option.some.injEq]
          cases frame.kind.continues vm with
          | error f => rfl
          | ok more =>
              cases more with
              | true => rfl
              | false => cases frame.kind.result vm <;> rfl
  | native vm program next =>
      obtain rfl := Option.some.inj h
      rfl
  | call vm function this next =>
      obtain rfl := Option.some.inj h
      simp only [step, Config.below, stepCall, Option.some.injEq]
      split
      · split <;> rfl
      · rfl
  | execModule vm module next =>
      obtain rfl := Option.some.inj h
      simp only [step, Config.below, stepExecModule, Option.some.injEq]
      split
      · split <;> rfl
      · rfl

theorem iterate_below {n : ℕ} {config config' : Config}
    (h : Run.iterate (step host) n config = some config') (below : List Frame) :
    Run.iterate (step host) n (config.below below) = some (config'.below below) := by
  induction n generalizing config with
  | zero =>
      rw [Run.iterate_zero, Option.some.injEq] at h
      rw [h, Run.iterate_zero]
  | succ n ih =>
      cases hstep : step host config with
      | none => rw [Run.iterate_succ, hstep] at h; cases h
      | some next =>
          rw [Run.iterate_succ_of_step hstep] at h
          rw [Run.iterate_succ_of_step (step_below hstep below)]
          exact ih h

end AtomixJS
