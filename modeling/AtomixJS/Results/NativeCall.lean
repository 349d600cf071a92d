import AtomixJS.Core.Calls
import AtomixJS.Core.Natives

/-!
# Calls of native functions

`CALL` on a native function hands over the arguments, and afterwards takes them
and `this` off the operand stack and pushes the result.  In between the native
function may call back.  `api_call_function` on a bytecode function pushes the
arguments and `this`, and takes off only the arguments: every such call leaves
one operand behind, the one that `vm_exec_function` brings back when it restores
the stack.

The proof follows the run of the handler in isolation.  While no frame is open
the native code is *at its level*, and `AtLevel base L` says that the operand
stack is `base` with `L` operands left behind on top of it, now and whenever the
code gets control back.  While frames are open it is enough to know what the
outermost of them gives control back to (`Inside`).  A step from inside stays
inside, with one more operand left behind if it was a call of a bytecode
function made at the level of the native code.
-/

namespace AtomixJS

open Fallible

variable {host : Host} {base own : List JSValue} {n L : ℕ}

/-- The operands are `base`, with `L` more on top. -/
def LeftBehind (base : List JSValue) (L : ℕ) (vm : VM) : Prop :=
  ∃ left, left.length = L ∧ vm.operands = left ++ base

/-- The handler has returned: `n + 1` operands were taken off and one was
pushed. -/
def Returned (base : List JSValue) (n L : ℕ) (vm : VM) : Prop :=
  ∃ left value, left.length = L ∧ vm.operands = value :: (left ++ base).drop (n + 1)

/-- Native code with `L` operands left behind. -/
inductive AtLevel (base : List JSValue) (n : ℕ) : ℕ → Prog → Prop
  | fault {L : ℕ} {fault : Fault} : AtLevel base n L (.fault fault)
  | done {L : ℕ} {vm : VM} (h : Returned base n L vm) : AtLevel base n L (.done vm)
  | native {L : ℕ} {vm : VM} {program : NativeProgram} {next : VM → JSValue → Prog}
      (h : LeftBehind base L vm)
      (hnext : ∀ L' vm' v, LeftBehind base L' vm' → AtLevel base n L' (next vm' v))
      (hvalue : ∀ vm' v vm'', next vm' v = .done vm'' → vm''.operands.head? = some v) :
      AtLevel base n L (.native vm program next)
  | call {L : ℕ} {vm : VM} {function : FunctionRef} {this : JSValue} {next : VM → JSValue → Prog}
      (hnext : ∀ vm' v, vm'.stats = vm.stats → AtLevel base n (L + 1) (next vm' v))
      (hopen : ∀ vm' v vm'', next vm' v ≠ .done vm'') :
      AtLevel base n L (.call vm function this next)
  | execModule {L : ℕ} {vm : VM} {module : ModuleRef} {next : VM → Prog}
      (hnext : ∀ vm', vm'.stats = vm.stats → AtLevel base n L (next vm'))
      (hopen : ∀ vm' vm'', next vm' ≠ .done vm'') :
      AtLevel base n L (.execModule vm module next)

/-- A run of the handler, with `L` operands left behind so far. -/
inductive Inside (base : List JSValue) (n L : ℕ) : Config → Prop
  | atLevel {prog : Prog} (h : AtLevel base n L prog) : Inside base n L ⟨prog, []⟩
  | below {prog : Prog} (frames : List Frame) {frame : Frame}
      (hnext : ∀ vm v, vm.stats = frame.stats → AtLevel base n L (frame.next vm v))
      (hopen : ∀ vm v vm', frame.next vm v ≠ .done vm') :
      Inside base n L ⟨prog, frames ++ [frame]⟩

/-- The native code itself, with no frame open, calls a bytecode function. -/
def Config.entersBytecode : Config → Bool
  | ⟨.call _ _ _ _, []⟩ => true
  | _ => false

/-- How often it does so in the first `k` steps. -/
def bytecodeCalls (host : Host) : ℕ → Config → ℕ
  | 0, _ => 0
  | k + 1, config =>
    config.entersBytecode.toNat +
      match step host config with
      | none => 0
      | some next => bytecodeCalls host k next

/-! ## Steps of native code -/

/-- A callback through `api_call_function`: the continuation gets control back
with one operand more, or with none more from a native function. -/
theorem AtLevel.apiCallFunction {vm : VM} {function : FunctionRef} {this : JSValue}
    {args : List JSValue} {next : VM → JSValue → Prog} (h : LeftBehind base L vm)
    (hnext : ∀ L' vm' v, LeftBehind base L' vm' → AtLevel base n L' (next vm' v))
    (hopen : ∀ vm' v vm'', next vm' v ≠ .done vm'') :
    AtLevel base n L (apiCallFunction host vm function this args next) := by
  obtain ⟨left, hleft, hops⟩ := h
  rw [AtomixJS.apiCallFunction]
  split
  · exact .fault
  · exact .fault
  · exact .native ⟨left, hleft, hops⟩ hnext fun vm' v vm'' hdone => absurd hdone (hopen vm' v vm'')
  · cases hpush : (do (← pushArgs vm args).append this) with
    | error fault => exact .fault
    | ok vm1 =>
        obtain ⟨mid, hmid, hlast⟩ := bind_eq_ok.mp hpush
        have hrestacked := pushArgs_restacked hmid
        obtain ⟨-, happend⟩ := VM.append_ok hlast
        refine .call (fun vm' v hstats => hnext _ _ _ ?_) fun vm' v vm'' => hopen _ v vm''
        -- `this` and the arguments were pushed; as many as there are arguments go
        have hops1 : vm1.operands = this :: (args ++ (left ++ base)) := by
          rw [happend.operands, hrestacked.operands, hops]
        have hops' : vm'.operands = (this :: args) ++ (left ++ base) := by
          rw [VM.operands, hstats]; exact hops1
        have hsplit : vm'.operands =
            (this :: args).take args.length ++ ((this :: args).drop args.length ++ left ++ base) := by
          rw [hops', List.append_assoc, ← List.append_assoc (List.take _ _),
            List.take_append_drop]
        have hlength : ((this :: args).take args.length).length = args.length := by
          rw [List.length_take, List.length_cons]; omega
        have hdrop := (VM.drop_restacked _ hsplit).operands
        rw [hlength] at hdrop
        refine ⟨(this :: args).drop args.length ++ left, ?_, hdrop⟩
        rw [List.length_append, List.length_drop, List.length_cons, hleft]
        omega

/-- One step of a native function at its level. -/
theorem AtLevel.step {config : Config} {prog : Prog} (h : AtLevel base n L prog)
    (hstep : step host ⟨prog, []⟩ = some config) :
    Inside base n (L + (Config.entersBytecode ⟨prog, []⟩).toNat) config := by
  cases h with
  | fault => cases hstep
  | done h => cases hstep
  | @native _ vm program next h hnext hvalue =>
      obtain rfl := Option.some.inj hstep
      have hlevel : L + (Config.entersBytecode ⟨.native vm program next, []⟩).toNat = L := rfl
      rw [hlevel]
      refine .atLevel ?_
      cases program with
      | ret heap value =>
          obtain ⟨left, hleft, hops⟩ := h
          exact hnext L _ _ ⟨left, hleft, hops⟩
      | fault f => exact .fault
      | apiCallFunction heap function this args rest =>
          have hleft' : LeftBehind base L { vm with heap } := h
          exact AtLevel.apiCallFunction hleft'
            (fun L' vm' v hleft => .native hleft hnext hvalue) (fun _ _ _ hdone => nomatch hdone)
      | execModule heap module rest =>
          refine .execModule (fun vm' hstats => .native ?_ hnext hvalue)
            (fun _ _ hdone => nomatch hdone)
          obtain ⟨left, hleft, hops⟩ := h
          exact ⟨left, hleft, by rw [VM.operands, hstats]; exact hops⟩
  | @call _ vm function this next hnext hopen =>
      obtain rfl := Option.some.inj hstep
      rcases stepCall_cases vm function this next [] with
        ⟨fault, heq⟩ | ⟨_, scope, module, start, stop, heap, -, -, heq⟩
      · rw [heq]
        exact .atLevel .fault
      · rw [heq]
        exact .below [] hnext hopen
  | @execModule _ vm module next hnext hopen =>
      obtain rfl := Option.some.inj hstep
      rcases stepExecModule_cases vm module next [] with ⟨fault, heq⟩ | ⟨_, scope, -, -, -, heq⟩
      · rw [heq]
        exact .atLevel .fault
      · rw [heq]
        exact .below [] (fun vm' _ hstats => hnext vm' hstats)
          fun vm' _ vm'' => hopen vm' vm''

/-- One step with frames open, the outermost of which belongs to the native
code. -/
theorem Inside.step_below {prog : Prog} {frames : List Frame} {frame : Frame} {config : Config}
    (hnext : ∀ vm v, vm.stats = frame.stats → AtLevel base n L (frame.next vm v))
    (hopen : ∀ vm v vm', frame.next vm v ≠ .done vm')
    (hstep : step host ⟨prog, frames ++ [frame]⟩ = some config) : Inside base n L config := by
  cases prog with
  | fault f => cases hstep
  | done vm =>
      cases frames with
      | nil =>
          obtain rfl := Option.some.inj hstep
          rcases stepLoop_cases host vm frame [] with ⟨prog, heq⟩ | ⟨value, heq⟩
          · rw [heq]
            exact .below [] hnext hopen
          · rw [heq]
            exact .atLevel (hnext _ value rfl)
      | cons top frames =>
          rw [List.cons_append] at hstep
          obtain rfl := Option.some.inj hstep
          rcases stepLoop_cases host vm top (frames ++ [frame]) with ⟨prog, heq⟩ | ⟨value, heq⟩
          · rw [heq]
            exact .below (top :: frames) hnext hopen
          · rw [heq]
            exact .below _ hnext hopen
  | native vm program next =>
      obtain rfl := Option.some.inj hstep
      exact .below _ hnext hopen
  | call vm function this next =>
      obtain rfl := Option.some.inj hstep
      rcases stepCall_cases vm function this next (frames ++ [frame]) with
        ⟨fault, heq⟩ | ⟨_, scope, module, start, stop, heap, -, -, heq⟩
      · rw [heq]
        exact .below _ hnext hopen
      · rw [heq]
        exact .below (_ :: frames) hnext hopen
  | execModule vm module next =>
      obtain rfl := Option.some.inj hstep
      rcases stepExecModule_cases vm module next (frames ++ [frame]) with
        ⟨fault, heq⟩ | ⟨_, scope, -, -, -, heq⟩
      · rw [heq]
        exact .below _ hnext hopen
      · rw [heq]
        exact .below (_ :: frames) hnext hopen

/-- A step of the handler stays inside. -/
theorem Inside.step {config config' : Config} (h : Inside base n L config)
    (hstep : step host config = some config') :
    Inside base n (L + config.entersBytecode.toNat) config' := by
  cases h with
  | atLevel h => exact h.step hstep
  | @below prog frames frame hnext hopen =>
      have hlevel : L + (Config.entersBytecode ⟨prog, frames ++ [frame]⟩).toNat = L := by
        have hfalse : Config.entersBytecode ⟨prog, frames ++ [frame]⟩ = false := by
          cases prog <;> cases frames <;> rfl
        rw [hfalse]
        rfl
      rw [hlevel]
      exact Inside.step_below hnext hopen hstep

/-- A run of the handler stays inside: one operand is left behind for each call
of a bytecode function. -/
theorem Inside.run {k : ℕ} {config config' : Config} (h : Inside base n L config)
    (hrun : Run.iterate (AtomixJS.step host) k config = some config') :
    Inside base n (L + bytecodeCalls host k config) config' := by
  induction k generalizing L config with
  | zero =>
      obtain rfl := Option.some.inj hrun
      exact h
  | succ k ih =>
      cases hstep : AtomixJS.step host config with
      | none => rw [Run.iterate_succ, hstep] at hrun; cases hrun
      | some next =>
          rw [Run.iterate_succ_of_step hstep] at hrun
          have hnext := ih (h.step hstep) hrun
          rwa [Nat.add_assoc, show config.entersBytecode.toNat + bytecodeCalls host k next =
            bytecodeCalls host (k + 1) config by rw [bytecodeCalls, hstep]] at hnext

/-- The handler returns when the native function does, and pushes its value. -/
theorem Inside.last {config : Config} {vm : VM} (h : Inside base n L config)
    (hstep : AtomixJS.step host config = some ⟨.done vm, []⟩) :
    ∃ before heap value next, config = ⟨.native before (.ret heap value) next, []⟩ ∧
      vm.operands.head? = some value := by
  cases h with
  | @atLevel prog h =>
      cases h with
      | fault => cases hstep
      | done h => cases hstep
      | @native _ before program next h hnext hvalue =>
          have hprog : stepNative host before next program = .done vm :=
            congrArg Config.prog (Option.some.inj hstep)
          cases program with
          | ret heap value => exact ⟨before, heap, value, next, rfl, hvalue _ _ _ hprog⟩
          | fault f => cases hprog
          | apiCallFunction heap function this args rest =>
              simp only [stepNative, apiCallFunction] at hprog
              split at hprog
              · cases hprog
              · cases hprog
              · cases hprog
              · simp only [Prog.after] at hprog
                split at hprog <;> cases hprog
          | execModule heap module rest => cases hprog
      | @call _ before function this next hnext hopen =>
          rcases stepCall_cases before function this next [] with
            ⟨fault, heq⟩ | ⟨_, scope, module, start, stop, heap, -, -, heq⟩ <;>
          · have hconfig := heq.symm.trans (Option.some.inj hstep)
            cases hconfig
      | @execModule _ before module next hnext hopen =>
          rcases stepExecModule_cases before module next [] with
            ⟨fault, heq⟩ | ⟨_, scope, -, -, -, heq⟩ <;>
          · have hconfig := heq.symm.trans (Option.some.inj hstep)
            cases hconfig
  | @below prog frames frame hnext hopen =>
      cases prog with
      | fault f => cases hstep
      | done before =>
          cases frames with
          | nil =>
              rcases stepLoop_cases host before frame [] with ⟨prog, heq⟩ | ⟨value, heq⟩
              · have hconfig := heq.symm.trans (Option.some.inj hstep)
                cases hconfig
              · have hconfig := heq.symm.trans (Option.some.inj hstep)
                exact absurd (congrArg Config.prog hconfig) (hopen _ _ _)
          | cons top frames =>
              rcases stepLoop_cases host before top (frames ++ [frame]) with
                ⟨prog, heq⟩ | ⟨value, heq⟩
              · have hconfig := heq.symm.trans (Option.some.inj hstep)
                cases hconfig
              · have hconfig := heq.symm.trans (Option.some.inj hstep)
                exact absurd (congrArg Config.frames hconfig) (by simp)
      | native before program next =>
          exact absurd (congrArg Config.frames (Option.some.inj hstep)) (by simp)
      | call before function this next =>
          rcases stepCall_cases before function this next (frames ++ [frame]) with
            ⟨fault, heq⟩ | ⟨_, scope, module, start, stop, heap, -, -, heq⟩ <;>
          · have hconfig := heq.symm.trans (Option.some.inj hstep)
            exact absurd (congrArg Config.frames hconfig) (by simp)
      | execModule before module next =>
          rcases stepExecModule_cases before module next (frames ++ [frame]) with
            ⟨fault, heq⟩ | ⟨_, scope, -, -, -, heq⟩ <;>
          · have hconfig := heq.symm.trans (Option.some.inj hstep)
            exact absurd (congrArg Config.frames hconfig) (by simp)

theorem Inside.returned {vm : VM} (h : Inside base n L ⟨.done vm, []⟩) : Returned base n L vm := by
  generalize hconfig : (⟨.done vm, []⟩ : Config) = config at h
  cases h with
  | atLevel h =>
      obtain rfl := congrArg Config.prog hconfig
      cases h with
      | done h => exact h
  | below frames hnext hopen => exact absurd (congrArg Config.frames hconfig) (by simp)

/-! ## The whole call -/

/-- The end of `CALL` pushes the value returned. -/
theorem callReturn_value {operand : UInt16} {vm vm' : VM} {value : JSValue}
    (h : callReturn operand vm value = .done vm') : vm'.operands.head? = some value := by
  rw [callReturn] at h
  cases hpush : (vm.drop (operand.toNat + 1)).append value with
  | error fault => rw [hpush] at h; cases h
  | ok vm1 =>
      rw [hpush] at h
      obtain rfl := Prog.done.inj h
      rw [(VM.append_ok hpush).2.operands, List.head?_cons]

/-- The end of `CALL`, at the level of the native code. -/
theorem callReturn_atLevel {operand : UInt16} {vm : VM} {value : JSValue}
    (hbase : operand.toNat < base.length) (h : LeftBehind base L vm) :
    AtLevel base operand.toNat L (callReturn operand vm value) := by
  obtain ⟨left, hleft, hops⟩ := h
  have hcounter : operand.toNat + 1 ≤ vm.stats.stackCounter := by
    rw [VM.counter_of_operands hops, List.length_append]; omega
  rw [callReturn]
  cases hpush : (vm.drop (operand.toNat + 1)).append value with
  | error fault => exact .fault
  | ok vm1 =>
      refine .done ⟨left, value, hleft, ?_⟩
      rw [(VM.append_ok hpush).2.operands, VM.drop_operands hcounter, hops]

/-- The value a run of native code ends with. -/
def ReturnsLast (host : Host) (k : ℕ) (config : Config) (value : JSValue) : Prop :=
  ∃ j before heap next, k = j + 1 ∧
    Run.iterate (step host) j config = some ⟨.native before (.ret heap value) next, []⟩

/-- **Balance of native calls.**  Let `CALL n` run on a native function with
`this` and `n` arguments below it.  When the handler returns, the native
function has returned a value, and the operand stack is that value on top of
what lay below the call if and only if the native code, on its own level, called
no bytecode function. -/
theorem call_native_balanced_iff {caller : VM} {function objectBase pointer : ℕ}
    {operand : UInt16} {this : JSValue} {args : List JSValue}
    (hops : caller.operands = .func function :: this :: (args ++ own))
    (hargs : args.length = operand.toNat) (hsize : caller.stats.stackCounter ≤ stackSize)
    (hfunction : caller.heap.functions[function]? = some ⟨objectBase, .native (some pointer)⟩)
    {k : ℕ} {vm : VM}
    (hrun : Run.iterate (step host) k ⟨execInst host (.call operand) caller, []⟩ =
      some ⟨.done vm, []⟩) :
    ∃ value, ReturnsLast host k ⟨execInst host (.call operand) caller, []⟩ value ∧
      (vm.operands = value :: own ↔
        bytecodeCalls host k ⟨execInst host (.call operand) caller, []⟩ = 0) := by
  have hdrop : VM.Restacked caller (caller.drop 1) (this :: (args ++ own)) :=
    VM.drop_restacked [.func function] hops
  have hprog : execInst host (.call operand) caller =
      .native (caller.drop 1)
        (host.nativeFunction pointer caller.heap caller.module this args) (callReturn operand) :=
    instCall_native hops hargs hsize hfunction
  have hbase : operand.toNat < (this :: (args ++ own)).length := by
    rw [List.length_cons, List.length_append]; omega
  have hinside : Inside (this :: (args ++ own)) operand.toNat 0
      ⟨execInst host (.call operand) caller, []⟩ := by
    rw [hprog]
    exact .atLevel (.native ⟨[], rfl, hdrop.operands⟩
      (fun _ _ _ hleft => callReturn_atLevel hbase hleft) fun _ _ _ => callReturn_value)
  have hend := hinside.run hrun
  obtain ⟨j, rfl⟩ : ∃ j, k = j + 1 := by
    cases k with
    | zero => rw [Run.iterate_zero, hprog] at hrun; cases hrun
    | succ j => exact ⟨j, rfl⟩
  rw [Run.iterate_add, Option.bind_eq_some_iff] at hrun
  obtain ⟨mid, hmid, hlast⟩ := hrun
  have hstep : step host mid = some ⟨.done vm, []⟩ := by
    rw [Run.iterate_succ, Option.bind_eq_some_iff] at hlast
    obtain ⟨config, hstep, hconfig⟩ := hlast
    rw [hstep, ← Option.some.inj hconfig]
  obtain ⟨before, heap, value, next, rfl, hvalue⟩ := (hinside.run hmid).last hstep
  refine ⟨value, ⟨j, before, heap, next, rfl, hmid⟩, ?_⟩
  rw [Nat.zero_add] at hend
  obtain ⟨left, value', hleft, hops'⟩ := hend.returned
  obtain rfl : value' = value := by
    rw [hops', List.head?_cons, Option.some.injEq] at hvalue
    exact hvalue
  rw [hops', ← hleft]
  constructor
  · intro heq
    have hlength := congrArg List.length heq
    simp only [List.length_cons, List.length_drop, List.length_append, hargs] at hlength
    omega
  · intro hzero
    rw [List.length_eq_zero_iff.mp hzero, List.nil_append, ← hargs, List.drop_succ_cons,
      List.drop_left]

/-! ## A native function that calls back -/

/-- `f.call()` for a function without a body, while the caller holds one
operand: `call` is native function 1 of the core host. -/
def callCall : VM where
  module := 0
  globalScope := 0
  scope := 0
  stats :=
    { instructionCounter := 0
      stackCounter := 3
      stackStart := 0
      stack := fun i => if i = 1 then .func 1 else if i = 2 then .func 0 else .undefined }
  heap :=
    { scopes := [⟨none, dictCreateDict 32 scopeBucketSize_pos⟩, ⟨some 0, dictCreateDict 32 scopeBucketSize_pos⟩]
      objects := []
      functions := [⟨0, .native (some 1)⟩, ⟨0, .bytecode 1 0 0 0⟩]
      modules := [JSModule.ofCode [] [] no_strings_lt no_code_lt]
      objectPrototype := none, arrayPrototype := none
      functionPrototype := none, symbolPrototype := none }

/-- The same call on a native function that does not call back. -/
def callNothing : VM :=
  { callCall with heap := { callCall.heap with functions := [⟨0, .native none⟩, ⟨0, .native (some 2)⟩] }
                  stats := { callCall.stats with stack := fun i => if i = 2 then .func 1 else .undefined } }

theorem call_native_balanced_iff_no_callback :
    ∃ vm value, Run.iterate (step coreHost) 1 ⟨execInst coreHost (.call 0) callNothing, []⟩ =
        some ⟨.done vm, []⟩ ∧
      ReturnsLast coreHost 1 ⟨execInst coreHost (.call 0) callNothing, []⟩ value ∧
        (vm.operands = value :: [.undefined] ↔
          bytecodeCalls coreHost 1 ⟨execInst coreHost (.call 0) callNothing, []⟩ = 0) := by
  obtain ⟨vm, hrun⟩ : ∃ vm, Run.iterate (step coreHost) 1
      ⟨execInst coreHost (.call 0) callNothing, []⟩ = some ⟨.done vm, []⟩ := ⟨_, rfl⟩
  have hops : callNothing.operands = .func 1 :: .undefined :: ([] ++ [.undefined]) := rfl
  obtain ⟨value, hreturns, hiff⟩ :=
    call_native_balanced_iff hops rfl (show 3 ≤ stackSize by decide) rfl hrun
  exact ⟨vm, value, hrun, hreturns, hiff⟩

/-- After `f.call()` there is one operand too many. -/
theorem call_native_leaves_this :
    ¬ ∀ (host : Host) (caller : VM) (function objectBase pointer : ℕ) (operand : UInt16)
        (this : JSValue) (args own : List JSValue) (k : ℕ) (vm : VM),
      caller.heap.functions[function]? = some ⟨objectBase, .native (some pointer)⟩ →
      args.length = operand.toNat → caller.stats.stackCounter ≤ stackSize →
      caller.operands = .func function :: this :: (args ++ own) →
      Run.iterate (step host) k ⟨execInst host (.call operand) caller, []⟩ =
        some ⟨.done vm, []⟩ →
      ∃ value, ReturnsLast host k ⟨execInst host (.call operand) caller, []⟩ value ∧
        vm.operands = value :: own := by
  intro hclaim
  obtain ⟨vm, hrun, hops⟩ : ∃ vm, Run.iterate (step coreHost) 4
      ⟨execInst coreHost (.call 0) callCall, []⟩ = some ⟨.done vm, []⟩ ∧
        vm.operands = [.undefined, .func 1, .undefined] := ⟨_, rfl, rfl⟩
  obtain ⟨value, -, hbalanced⟩ := hclaim coreHost callCall 0 0 1 0 (.func 1) [] [.undefined] 4 vm
    rfl rfl (show 3 ≤ stackSize by decide) rfl hrun
  rw [hops] at hbalanced
  exact absurd (congrArg List.length hbalanced) (by simp)

end AtomixJS