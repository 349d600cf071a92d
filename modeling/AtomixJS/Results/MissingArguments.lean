import AtomixJS.Core.Calls
import AtomixJS.Lib.Segment

/-!
# Missing arguments

A function with parameters begins with its prologue: for each parameter one
`LOAD_ARG` and one `ALLOC_LOCAL`.  At the entry of the function the operand
stack holds, from the top, `this`, the arguments, and then whatever the caller
had on it.  `LOAD_ARG` knows where the stack was at the entry but not how many
arguments there are, so for a parameter without an argument it goes on into the
caller's own operands.

The run of the prologue keeps the operands of the entry (`InPrologue`), hence
what a parameter is bound to can be read off the operands at the call.
-/

namespace AtomixJS

open Fallible

/-- The code that binds the parameters, from the given one on. -/
def prologue (first : ℕ) : List UInt16 → List (Option Inst)
  | [] => []
  | name :: names =>
    some (.loadArg (UInt16.ofNat (first + 1))) :: some (.allocLocal name) ::
      prologue (first + 1) names

/-- A call of `function` with `n` arguments.  `own` are the operands of the
caller below what belongs to the call. -/
inductive CallSite (host : Host) (function : FunctionRef) (n : ℕ) :
    VM → List JSValue → Prog → Prop
  | instruction {caller : VM} {operand : UInt16} {this : JSValue} {args own : List JSValue}
      (hops : caller.operands = .func function :: this :: (args ++ own))
      (hsize : caller.stats.stackCounter ≤ stackSize) (hoperand : operand.toNat = n)
      (hargs : args.length = n) :
      CallSite host function n caller own (execInst host (.call operand) caller)
  | api {caller : VM} {this : JSValue} {args : List JSValue} {next : VM → JSValue → Prog}
      (hargs : args.length = n) :
      CallSite host function n caller caller.operands
        (apiCallFunction host caller function this args next)

variable {host : Host} {function n : ℕ} {caller vm : VM} {own base : List JSValue} {prog : Prog}

/-! ## The entry of the function -/

/-- A call of a bytecode function comes to `vm_exec_function` with `this`, the
arguments and the caller's operands on the stack, or it fails. -/
theorem CallSite.reaches_call (site : CallSite host function n caller own prog)
    {objectBase scope module start stop : ℕ}
    (hfunction : caller.heap.functions[function]? =
      some ⟨objectBase, .bytecode scope module start stop⟩) :
    (∃ fault, prog = .fault fault) ∨
      ∃ vm this args next, prog = .call vm function this next ∧ args.length = n ∧
        (this :: (args ++ own)).length ≤ stackSize ∧
        VM.Restacked caller vm (this :: (args ++ own)) := by
  cases site with
  | instruction hops hsize hoperand hargs =>
      rename_i operand this args
      have hrestacked : VM.Restacked caller (caller.drop 1) (this :: (args ++ own)) :=
        VM.drop_restacked [.func function] hops
      have hcounter : caller.stats.stackCounter = (args ++ own).length + 2 :=
        VM.counter_of_operands hops
      refine .inr ⟨caller.drop 1, this, args, callReturn operand,
        instCall_bytecode hops hsize hfunction, hargs, ?_, hrestacked⟩
      rw [List.length_cons]
      omega
  | api hargs =>
      rename_i this args next
      simp only [apiCallFunction, hfunction]
      cases hpush : (do (← pushArgs caller args).append this) with
      | error fault => exact .inl ⟨fault, rfl⟩
      | ok vm =>
          obtain ⟨mid, hmid, hlast⟩ := bind_eq_ok.mp hpush
          have hrestacked := pushArgs_restacked hmid
          obtain ⟨hroom, happend⟩ := VM.append_ok hlast
          rw [hrestacked.operands] at happend
          rw [VM.counter_of_operands hrestacked.operands] at hroom
          exact .inr ⟨vm, this, args, _, rfl, hargs, hroom, hrestacked.trans happend⟩

/-! ## The prologue -/

/-- The machine is in the prologue of an activation, before the code of the
given parameter.  The operands are those at the entry. -/
structure InPrologue (entry : Heap) (module start stop : ℕ) (base : List JSValue) (i : ℕ)
    (frame : Frame) (vm : VM) : Prop where
  kind : frame.kind = .function stop
  module : vm.module = module
  modules : vm.heap.modules = entry.modules
  instructionCounter : vm.stats.instructionCounter = start + 2 * i
  stackStart : vm.stats.stackStart = base.length
  operands : vm.operands = base

variable {entry : Heap} {module start stop i : ℕ} {frame : Frame} {frames : List Frame}
  {m : JSModule} {params : List UInt16}

theorem prologue_length (first : ℕ) (params : List UInt16) :
    (prologue first params).length = 2 * params.length := by
  induction params generalizing first with
  | nil => rfl
  | cons name names ih => rw [prologue, List.length_cons, List.length_cons, ih, List.length_cons]; omega

theorem prologue_at (first : ℕ) (hi : i < params.length) :
    ∃ name, (prologue first params)[2 * i]? = some (some (.loadArg (UInt16.ofNat (first + i + 1)))) ∧
      (prologue first params)[2 * i + 1]? = some (some (.allocLocal name)) := by
  induction params generalizing first i with
  | nil => cases hi
  | cons name names ih =>
      cases i with
      | zero => exact ⟨name, rfl, rfl⟩
      | succ i =>
          obtain ⟨name', hload, halloc⟩ := ih (first + 1) (Nat.lt_of_succ_lt_succ hi)
          refine ⟨name', ?_, ?_⟩
          · rw [prologue, show 2 * (i + 1) = 2 * i + 1 + 1 by omega, List.getElem?_cons_succ,
              List.getElem?_cons_succ, hload, show first + 1 + i = first + (i + 1) by omega]
          · rw [prologue, show 2 * (i + 1) + 1 = 2 * i + 1 + 1 + 1 by omega,
              List.getElem?_cons_succ, List.getElem?_cons_succ, halloc]

/-- In the prologue, the loop executes the instruction the counter is at. -/
private theorem executes_prologue {pc : ℕ} {inst : Inst} (hkind : frame.kind = .function stop)
    (hmodule : vm.module = module) (hmodules : vm.heap.modules = entry.modules)
    (hm : entry.modules[module]? = some m)
    (hcode : Segment.At m.dataSection.instructions start (prologue 0 params))
    (hstop : start + 2 * params.length ≤ stop)
    (hcounter : vm.stats.instructionCounter = start + pc)
    (hinst : (prologue 0 params)[pc]? = some (some inst)) (hret : inst.opcode ≠ .ret) :
    frame.kind.Executes vm (some inst) := by
  have hpc : pc < (prologue 0 params).length := (List.getElem?_eq_some_iff.mp hinst).1
  rw [prologue_length] at hpc
  refine ⟨⟨m, by rw [hmodule, hmodules, hm], ?_⟩, ?_⟩
  · rw [hcounter, hcode.getElem? (by rw [prologue_length]; exact hpc), hinst]
  · intro stop' hstop'
    rw [hkind, FrameKind.function.injEq] at hstop'
    exact ⟨by omega, by simpa using hret⟩

/-- `LOAD_ARG` for parameter `i` pushes operand `i + 1` of the entry. -/
theorem InPrologue.step_loadArg (host : Host) (frames : List Frame)
    (h : InPrologue entry module start stop base i frame vm)
    (hm : entry.modules[module]? = some m)
    (hcode : Segment.At m.dataSection.instructions start (prologue 0 params))
    (hstop : start + 2 * params.length ≤ stop) (hparams : params.length < 2 ^ 16)
    (hsize : base.length ≤ stackSize) (hi : i < params.length) :
    ∃ prog, step host ⟨.done vm, frame :: frames⟩ = some ⟨prog, frame :: frames⟩ ∧
      ((∃ fault, prog = .fault fault) ∨ ∃ vm', prog = .done vm' ∧ base.length < stackSize ∧
        VM.Restacked (vm.setCounter (start + 2 * i + 1)) vm'
          ((base[i + 1]?).getD .undefined :: base)) := by
  obtain ⟨name, hload, -⟩ := prologue_at 0 hi
  rw [Nat.zero_add] at hload
  have hexecutes := executes_prologue h.kind h.module h.modules hm hcode hstop
    h.instructionCounter hload (by simp [InstOf.opcode])
  refine ⟨_, step_of_executes host hexecutes frames, ?_⟩
  rw [h.instructionCounter]
  simp only [execSlot, execInst]
  have hcounter : vm.stats.stackCounter = base.length := VM.counter_of_operands h.operands
  have hoperand : (UInt16.ofNat (i + 1)).toNat = i + 1 := by
    rw [UInt16.toNat_ofNat', Nat.mod_eq_of_lt (by omega)]
  have hload : instLoadArg (UInt16.ofNat (i + 1)) (vm.setCounter (start + 2 * i + 1)) = _ :=
    instLoadArg_eq h.operands h.stackStart (by rw [← hcounter] at hsize; exact hsize)
  rw [hload, hoperand]
  cases happend : VM.append (vm.setCounter (start + 2 * i + 1))
      ((base[i + 1]?).getD .undefined) with
  | error fault => exact .inl ⟨fault, rfl⟩
  | ok vm' =>
      obtain ⟨hroom, hrestacked⟩ := VM.append_ok happend
      rw [show (vm.setCounter (start + 2 * i + 1)).operands = base from h.operands] at hrestacked
      exact .inr ⟨vm', rfl, hcounter ▸ hroom, hrestacked⟩

/-- `ALLOC_LOCAL` takes the argument off again. -/
theorem InPrologue.step_allocLocal (host : Host) (frames : List Frame) {vm' : VM} {v : JSValue}
    (h : InPrologue entry module start stop base i frame vm)
    (hm : entry.modules[module]? = some m)
    (hcode : Segment.At m.dataSection.instructions start (prologue 0 params))
    (hstop : start + 2 * params.length ≤ stop) (hsize : base.length < stackSize)
    (hi : i < params.length)
    (hrestacked : VM.Restacked (vm.setCounter (start + 2 * i + 1)) vm' (v :: base)) :
    ∃ prog, step host ⟨.done vm', frame :: frames⟩ = some ⟨prog, frame :: frames⟩ ∧
      ((∃ fault, prog = .fault fault) ∨ ∃ vm'', prog = .done vm'' ∧
        InPrologue entry module start stop base (i + 1) frame vm'') := by
  obtain ⟨name, -, halloc⟩ := prologue_at 0 hi
  have hcounter : vm'.stats.instructionCounter = start + (2 * i + 1) :=
    hrestacked.instructionCounter
  have hmodule : vm'.module = module := by rw [hrestacked.rest]; exact h.module
  have hmodules : vm'.heap.modules = entry.modules := by rw [hrestacked.rest]; exact h.modules
  have hexecutes := executes_prologue h.kind hmodule hmodules hm hcode hstop hcounter halloc
    (by simp [InstOf.opcode])
  refine ⟨_, step_of_executes host hexecutes frames, ?_⟩
  rw [hcounter]
  simp only [execSlot, execInst]
  have hcounter' : vm'.stats.stackCounter = base.length + 1 :=
    VM.counter_of_operands hrestacked.operands
  cases hrun : instAllocLocal name (vm'.setCounter (start + (2 * i + 1) + 1)) with
  | error fault => exact .inl ⟨fault, rfl⟩
  | ok vm'' =>
      have halloc : instAllocLocal name (vm'.setCounter (start + (2 * i + 1) + 1)) = _ :=
        instAllocLocal_eq hrestacked.operands (show vm'.stats.stackCounter ≤ stackSize by omega)
      rw [halloc] at hrun
      simp only [bind_eq_ok, pure_eq_ok, scopeDeclare, require_eq_ok] at hrun
      obtain ⟨key, -, heap, ⟨-, hheap⟩, rfl⟩ := hrun
      obtain rfl := Except.ok.inj hheap
      have hdrop : VM.Restacked vm' (vm'.drop 1) base :=
        VM.drop_restacked [v] hrestacked.operands
      refine .inr ⟨_, rfl, h.kind, hmodule, hmodules, ?_, ?_, hdrop.operands⟩
      · simp only [VM.drop, VM.setCounter]
        omega
      · exact hrestacked.stackStart.trans h.stackStart

/-- Two steps for each parameter lead through the prologue. -/
theorem InPrologue.run (h : InPrologue entry module start stop base 0 frame vm)
    (hm : entry.modules[module]? = some m)
    (hcode : Segment.At m.dataSection.instructions start (prologue 0 params))
    (hstop : start + 2 * params.length ≤ stop) (hparams : params.length < 2 ^ 16)
    (hsize : base.length ≤ stackSize) {i : ℕ} (hi : i ≤ params.length) {config : Config}
    (hrun : Run.iterate (step host) (2 * i) ⟨.done vm, frame :: frames⟩ = some config) :
    (∃ fault, config.prog = .fault fault) ∨
      ∃ vm', config = ⟨.done vm', frame :: frames⟩ ∧
        InPrologue entry module start stop base i frame vm' := by
  induction i generalizing config with
  | zero =>
      obtain rfl := Option.some.inj hrun
      exact .inr ⟨vm, rfl, h⟩
  | succ i ih =>
      have hsplit : 2 * (i + 1) = 2 * i + 2 := by omega
      rw [hsplit, Run.iterate_add, Option.bind_eq_some_iff] at hrun
      obtain ⟨mid, hmid, hrun⟩ := hrun
      rcases ih (by omega) hmid with ⟨fault, hfault⟩ | ⟨vm1, rfl, hin⟩
      · rw [Run.iterate_succ, step, hfault] at hrun
        cases hrun
      obtain ⟨prog, hstep, hprog⟩ :=
        hin.step_loadArg host frames hm hcode hstop hparams hsize (by omega)
      rw [Run.iterate_succ_of_step hstep] at hrun
      rcases hprog with ⟨fault, rfl⟩ | ⟨vm2, rfl, hroom, hrestacked⟩
      · cases hrun
      obtain ⟨prog', hstep', hprog'⟩ :=
        hin.step_allocLocal host frames hm hcode hstop hroom (by omega)
          hrestacked
      rw [Run.iterate_succ_of_step hstep'] at hrun
      obtain rfl := Option.some.inj hrun
      rcases hprog' with ⟨fault, rfl⟩ | ⟨vm3, rfl, hin'⟩
      · exact .inl ⟨fault, rfl⟩
      · exact .inr ⟨vm3, rfl, hin'⟩

/-! ## The value of a missing parameter -/

/-- Steps from a fault do not happen. -/
private theorem iterate_fault {k : ℕ} {fault : Fault} {config : Config} (hk : 0 < k) :
    Run.iterate (step host) k ⟨.fault fault, frames⟩ ≠ some config := by
  obtain ⟨k, rfl⟩ := Nat.exists_eq_succ_of_ne_zero (Nat.ne_of_gt hk)
  rw [Run.iterate_succ]
  nofun

/-- **Missing arguments.**  In a call with `n` arguments, on either path, let
the function have a parameter number `i ≥ n`.  Once its `LOAD_ARG` has run, the
value pushed for it is `undefined` if and only if the caller's own operand
number `i - n`, counted from the top, is `undefined` or does not exist. -/
theorem loadArg_missing_iff (site : CallSite host function n caller own prog)
    {objectBase scope module start stop : ℕ}
    (hfunction : caller.heap.functions[function]? =
      some ⟨objectBase, .bytecode scope module start stop⟩)
    (hm : caller.heap.modules[module]? = some m)
    (hcode : Segment.At m.dataSection.instructions start (prologue 0 params))
    (hstop : start + 2 * params.length ≤ stop) (hparams : params.length < 2 ^ 16)
    {i : ℕ} (hmissing : n ≤ i) (hi : i < params.length) {config : Config}
    (hrun : Run.iterate (step host) (2 * i + 2) ⟨prog, frames⟩ = some config)
    (hvm : config.vm? = some vm) :
    vm.operands.head? = some .undefined ↔ (own[i - n]?).getD .undefined = .undefined := by
  rcases site.reaches_call hfunction with ⟨fault, rfl⟩ | ⟨vm1, this, args, next, rfl, hargs, hsize, hat⟩
  · exact absurd hrun (iterate_fault (by omega))
  have hfunction1 : vm1.heap.functions[function]? =
      some ⟨objectBase, .bytecode scope module start stop⟩ := by rw [hat.rest]; exact hfunction
  have hstep : step host ⟨.call vm1 function this next, frames⟩ =
      some (stepCall vm1 function this next frames) := rfl
  rw [show 2 * i + 2 = 2 * i + 1 + 1 by omega, Run.iterate_succ_of_step hstep] at hrun
  simp only [stepCall, hfunction1] at hrun
  cases hdeclare : scopeDeclare vm1.heap scope (cString "this") this with
  | error fault =>
      rw [hdeclare] at hrun
      exact absurd hrun (iterate_fault (by omega))
  | ok heap =>
      rw [hdeclare, Run.iterate_add, Option.bind_eq_some_iff] at hrun
      obtain ⟨mid, hmid, hlast⟩ := hrun
      simp only [scopeDeclare, require_eq_ok] at hdeclare
      obtain ⟨-, hheap⟩ := hdeclare
      obtain rfl := Except.ok.inj hheap
      have hin : InPrologue caller.heap module start stop (this :: (args ++ own)) 0
          ⟨vm1.module, vm1.stats, vm1.scope, .function stop, next⟩
          (enterFunction { vm1 with heap := vm1.heap.putBinding scope (cString "this") this }
            module scope start) := by
        refine ⟨rfl, rfl, ?_, rfl, ?_, hat.operands⟩
        · rw [hat.rest]; rfl
        · exact VM.counter_of_operands hat.operands
      rcases hin.run hm hcode hstop hparams hsize (Nat.le_of_lt hi) hmid with
        ⟨fault, hfault⟩ | ⟨vm2, rfl, hin2⟩
      · rw [Run.iterate_succ, step, hfault] at hlast
        cases hlast
      obtain ⟨prog, hstep2, hprog⟩ :=
        hin2.step_loadArg host frames hm hcode hstop hparams hsize hi
      rw [Run.iterate_succ_of_step hstep2] at hlast
      obtain rfl := Option.some.inj hlast
      rcases hprog with ⟨fault, rfl⟩ | ⟨vm3, rfl, -, hrestacked⟩
      · cases hvm
      obtain rfl := Option.some.inj hvm
      have hget : (this :: (args ++ own))[i + 1]? = own[i - n]? := by
        rw [List.getElem?_cons_succ, List.getElem?_append_right (by omega), hargs]
      rw [hrestacked.operands, hget, List.head?_cons, Option.some.injEq]

/-! ## A call with an operand below it -/

/-- Code of `function f(a) {}` with its prologue only. -/
def oneParameter : JSModule :=
  JSModule.ofCode [cString "a"] [some (.loadArg 1), some (.allocLocal 0)] one_string_lt (by decide)

/-- `CALL 0` of that function while the caller holds the given operand. -/
def callAbove (operand : JSValue) : VM where
  module := 0
  globalScope := 0
  scope := 0
  stats :=
    { instructionCounter := 0
      stackCounter := 3
      stackStart := 0
      stack := fun i => if i = 0 then operand else if i = 2 then .func 0 else .undefined }
  heap :=
    { scopes := [⟨none, dictCreateDict 32 (by decide)⟩, ⟨some 0, dictCreateDict 32 (by decide)⟩]
      objects := []
      functions := [⟨0, .bytecode 1 0 0 2⟩]
      modules := [oneParameter]
      objectPrototype := none, arrayPrototype := none
      functionPrototype := none, symbolPrototype := none }

def quietHost : Host where
  nativeFunction := fun _ heap _ _ _ => .ret heap .undefined
  address := fun _ => 0
  indexFirst := true

private theorem callAbove_site (operand : JSValue) :
    CallSite quietHost 0 0 (callAbove operand) [operand]
      (execInst quietHost (.call 0) (callAbove operand)) :=
  have hops : (callAbove operand).operands = .func 0 :: .undefined :: ([] ++ [operand]) := rfl
  .instruction hops (show 3 ≤ stackSize by decide) rfl rfl

private theorem callAbove_run (operand : JSValue) :
    ∃ config vm, Run.iterate (step quietHost) 2
        ⟨execInst quietHost (.call 0) (callAbove operand), []⟩ = some config ∧
      config.vm? = some vm ∧ vm.operands.head? = some operand :=
  ⟨_, _, rfl, rfl, rfl⟩

theorem loadArg_missing_iff_undefined_below :
    ∃ config vm, Run.iterate (step quietHost) 2
        ⟨execInst quietHost (.call 0) (callAbove .undefined), []⟩ = some config ∧
      config.vm? = some vm ∧
        (vm.operands.head? = some .undefined ↔
          ([JSValue.undefined][0]?).getD .undefined = .undefined) := by
  obtain ⟨config, vm, hrun, hvm, -⟩ := callAbove_run .undefined
  have hcode : Segment.At oneParameter.dataSection.instructions 0 (prologue 0 [0]) := ⟨[], rfl⟩
  exact ⟨config, vm, hrun, hvm, loadArg_missing_iff (callAbove_site .undefined) rfl rfl hcode
    (by decide) (by decide) (Nat.le_refl 0) (by decide) hrun hvm⟩

/-- With 7 below the call, the missing argument is 7. -/
theorem loadArg_missing_seven :
    ¬ ∀ (host : Host) (function n : ℕ) (caller : VM) (own : List JSValue) (prog : Prog)
        (objectBase scope module start stop : ℕ) (m : JSModule) (params : List UInt16) (i : ℕ)
        (frames : List Frame) (config : Config) (vm : VM),
      CallSite host function n caller own prog →
      caller.heap.functions[function]? = some ⟨objectBase, .bytecode scope module start stop⟩ →
      caller.heap.modules[module]? = some m →
      Segment.At m.dataSection.instructions start (prologue 0 params) →
      start + 2 * params.length ≤ stop → params.length < 2 ^ 16 → n ≤ i → i < params.length →
      Run.iterate (step host) (2 * i + 2) ⟨prog, frames⟩ = some config →
      config.vm? = some vm → vm.operands.head? = some .undefined := by
  intro hclaim
  obtain ⟨config, vm, hrun, hvm, htop⟩ := callAbove_run (.integer 7)
  have hundefined := hclaim quietHost 0 0 (callAbove (.integer 7)) [.integer 7] _ 0 1 0 0 2
    oneParameter [0] 0 [] config vm (callAbove_site (.integer 7)) rfl rfl ⟨[], rfl⟩ (by decide)
    (by decide) (Nat.le_refl 0) (by decide) hrun hvm
  rw [htop] at hundefined
  exact absurd hundefined (by decide)

end AtomixJS
