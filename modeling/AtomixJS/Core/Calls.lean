import AtomixJS.Core.Effects
import AtomixJS.Core.Machine

/-!
# What a call hands over

There are three ways to a callee: `CALL` on a native function, `CALL` on a
bytecode function, and `api_call_function` on a bytecode function.  On each of
them the operands at the call are, from the top, `this`, the arguments in order,
and what the caller had on the stack.

`Receives` says what a native function is called with, whatever it does then.
`Observes` says what the instructions of a bytecode function can see at its
entry.  Both determine the arguments.
-/

namespace AtomixJS

open Fallible

variable {host : Host} {vm vm' : VM} {function objectBase : ℕ} {operand : UInt16}
  {this v : JSValue} {args args' own ops : List JSValue}

/-! ## The call instruction -/

/-- The operands handed over are the top ones. -/
theorem readArgs_eq {k : ℕ} (hk : k ≤ vm.stats.stackCounter)
    (hsize : vm.stats.stackCounter ≤ stackSize) :
    readArgs vm k = .ok (vm.operands.take k) := by
  induction k with
  | zero => rfl
  | succ k ih =>
      have hlt : k < vm.operands.length := by rw [vm.operands_length]; omega
      have hslot := VM.slot_of_operands (List.getElem?_eq_getElem hlt) hsize
      rw [readArgs] at ih ⊢
      rw [List.range_succ, List.mapM_append, ih (by omega)]
      simp only [List.mapM_cons, List.mapM_nil, bind, Except.bind]
      rw [sizeSub_of_le hk, show vm.stats.stackCounter - (k + 1) = vm.stats.stackCounter - 1 - k by
        omega, hslot, List.take_succ_eq_append_getElem hlt]
      rfl

/-- `CALL` on a native function copies `this` and the arguments. -/
theorem instCall_native {pointer : ℕ}
    (hops : vm.operands = .func function :: this :: (args ++ own))
    (hargs : args.length = operand.toNat) (hsize : vm.stats.stackCounter ≤ stackSize)
    (hfunction : vm.heap.functions[function]? = some ⟨objectBase, .native (some pointer)⟩) :
    instCall host operand vm =
      .native (vm.drop 1) (host.nativeFunction pointer vm.heap vm.module this args)
        (callReturn operand) := by
  have hdrop : VM.Restacked vm (vm.drop 1) (this :: (args ++ own)) :=
    VM.drop_restacked [.func function] hops
  have hcounter : vm.stats.stackCounter = args.length + own.length + 2 := by
    rw [VM.counter_of_operands hops]
    simp
  have hcounter' : (vm.drop 1).stats.stackCounter = args.length + own.length + 1 := by
    rw [VM.counter_of_operands hdrop.operands]
    simp
  have hneed : vm.need 1 = .ok () := if_neg (by omega)
  have hread : readArgs (vm.drop 1) (operand.toNat + 1) = .ok (this :: args) := by
    rw [readArgs_eq (by omega) (by omega), hdrop.operands, ← hargs, List.take_succ_cons,
      List.take_left]
  have hfunction' : (vm.drop 1).heap.functions[function]? =
      some ⟨objectBase, .native (some pointer)⟩ := hfunction
  simp only [instCall, hneed, slot_top hops hsize, bind, Except.bind, Prog.after, hfunction', hread]
  rfl

/-- `CALL` on a bytecode function leaves them on the stack. -/
theorem instCall_bytecode {scope module start stop : ℕ}
    (hops : vm.operands = .func function :: this :: ops)
    (hsize : vm.stats.stackCounter ≤ stackSize)
    (hfunction : vm.heap.functions[function]? =
      some ⟨objectBase, .bytecode scope module start stop⟩) :
    instCall host operand vm = .call (vm.drop 1) function this (callReturn operand) := by
  have hdrop : VM.Restacked vm (vm.drop 1) (this :: ops) := VM.drop_restacked [.func function] hops
  have hcounter : vm.stats.stackCounter = ops.length + 2 := VM.counter_of_operands hops
  have hcounter' : (vm.drop 1).stats.stackCounter = ops.length + 1 :=
    VM.counter_of_operands hdrop.operands
  have hneed : vm.need 1 = .ok () := if_neg (by omega)
  have hthis : (vm.drop 1).slot (sizeSub (vm.drop 1).stats.stackCounter 1) = .ok this := by
    rw [sizeSub_of_le (by omega)]
    exact slot_top hdrop.operands (by omega)
  have hfunction' : (vm.drop 1).heap.functions[function]? =
      some ⟨objectBase, .bytecode scope module start stop⟩ := hfunction
  simp only [instCall, hneed, slot_top hops hsize, bind, Except.bind, Prog.after, hfunction', hthis]

/-! ## The call from native code -/

theorem pushArgs_of_room {vm : VM} (hroom : vm.stats.stackCounter + args.length ≤ stackSize) :
    ∃ vm', pushArgs vm args = .ok vm' ∧ VM.Restacked vm vm' (args ++ vm.operands) := by
  obtain ⟨vm', hpush⟩ : ∃ vm', pushArgs vm args = .ok vm' := by
    induction args generalizing vm with
    | nil => exact ⟨vm, rfl⟩
    | cons v args ih =>
        rw [List.length_cons] at hroom
        have hfewer : vm.stats.stackCounter + args.length ≤ stackSize := by omega
        obtain ⟨mid, hmid⟩ := ih hfewer
        have hcounter := VM.counter_of_operands (pushArgs_restacked hmid).operands
        rw [List.length_append, VM.operands_length] at hcounter
        obtain ⟨vm', hlast, _⟩ := VM.append_restacked (show mid.stats.stackCounter < stackSize by
          omega) v
        refine ⟨vm', ?_⟩
        rw [pushArgs, List.reverse_cons, List.foldlM_append, bind_eq_ok]
        exact ⟨mid, hmid, by simp only [List.foldlM_cons, List.foldlM_nil, hlast]; rfl⟩
  exact ⟨vm', hpush, pushArgs_restacked hpush⟩

/-- `api_call_function` on a bytecode function pushes what `CALL` finds on the
stack. -/
theorem apiCallFunction_bytecode (host : Host) (this : JSValue) (next : VM → JSValue → Prog)
    {scope module start stop : ℕ} (hroom : vm.stats.stackCounter + args.length < stackSize)
    (hfunction : vm.heap.functions[function]? =
      some ⟨objectBase, .bytecode scope module start stop⟩) :
    ∃ vm', VM.Restacked vm vm' (this :: (args ++ vm.operands)) ∧
      apiCallFunction host vm function this args next =
        .call vm' function this fun vm value => next (vm.drop args.length) value := by
  obtain ⟨mid, hmid, hrestacked⟩ := pushArgs_of_room (Nat.le_of_lt hroom)
  have hcounter := VM.counter_of_operands hrestacked.operands
  rw [List.length_append, VM.operands_length] at hcounter
  obtain ⟨vm', hlast, happend⟩ := VM.append_restacked (show mid.stats.stackCounter < stackSize by
    omega) this
  rw [hrestacked.operands] at happend
  refine ⟨vm', hrestacked.trans happend, ?_⟩
  simp only [apiCallFunction, hfunction, hmid, hlast, bind, Except.bind, Prog.after]

/-! ## The entry of a bytecode function -/

/-- A binding of the scope itself is the nearest one. -/
theorem scopeGet_of_binding {heap : Heap} {scope : ScopeRef} {key : CString}
    (h : heap.binding scope key = some v) : scopeGet heap scope key = .ok v := by
  obtain ⟨node, hnode, hget⟩ := Option.bind_eq_some_iff.mp h
  simp [scopeGet, scopeFind, Chain.walk, hnode, hget]

/-- The machine enters a bytecode function with `this` bound in its scope. -/
theorem stepCall_bytecode (this : JSValue) (next : VM → JSValue → Prog) (frames : List Frame)
    {scope module start stop : ℕ} (hfunction : vm.heap.functions[function]? =
      some ⟨objectBase, .bytecode scope module start stop⟩)
    (hscope : scope < vm.heap.scopes.length) :
    stepCall vm function this next frames =
      ⟨.done (enterFunction { vm with heap := vm.heap.putBinding scope (cString "this") this }
          module scope start),
        ⟨vm.module, vm.stats, vm.scope, .function stop, next⟩ :: frames⟩ := by
  simp only [stepCall, hfunction, scopeDeclare, if_pos hscope]

/-- What `LOAD_ARG` and `LD_THIS` push at the entry of a function. -/
structure Observes (vm : VM) (this : JSValue) (args : List JSValue) : Prop where
  loadArg : ∀ i, 1 ≤ i → i ≤ args.length → ∃ vm', instLoadArg (UInt16.ofNat i) vm = .ok vm' ∧
    vm'.operands.head? = args[i - 1]?
  ldThis : ∃ vm', instLdThis vm = .ok vm' ∧ vm'.operands.head? = some this

theorem observes_entry (heap : Heap) (module start : ℕ) {scope : ScopeRef}
    (hops : vm.operands = this :: (args ++ own)) (hroom : vm.stats.stackCounter < stackSize)
    (hscope : scope < heap.scopes.length) :
    Observes (enterFunction { vm with heap := heap.putBinding scope (cString "this") this }
      module scope start) this args := by
  generalize hentry : enterFunction { vm with heap := heap.putBinding scope (cString "this") this }
    module scope start = entry
  have hops' : entry.operands = this :: (args ++ own) := by
    rw [← hops, ← hentry]
    rfl
  have hcounter : entry.stats.stackCounter = vm.stats.stackCounter := by rw [← hentry]; rfl
  have hroom' : entry.stats.stackCounter < stackSize := hcounter ▸ hroom
  have hlength := VM.counter_of_operands hops'
  have hstart : entry.stats.stackStart = (this :: (args ++ own)).length := by
    rw [← hlength, ← hentry]
    rfl
  constructor
  · intro i hfirst hlast
    rw [List.length_cons, List.length_append] at hlength
    have hoperand : (UInt16.ofNat i).toNat = i := by
      rw [UInt16.toNat_ofNat', Nat.mod_eq_of_lt]
      unfold stackSize at hroom'
      omega
    obtain ⟨i, rfl⟩ : ∃ k, i = k + 1 := ⟨i - 1, by omega⟩
    have hi : i < args.length := hlast
    obtain ⟨vm', hrun, hrestacked⟩ := VM.append_restacked hroom' args[i]
    refine ⟨vm', ?_, ?_⟩
    · rw [instLoadArg_eq hops' hstart (Nat.le_of_lt hroom'), hoperand, List.getElem?_cons_succ,
        List.getElem?_append_left hi, List.getElem?_eq_getElem hi]
      exact hrun
    · rw [hrestacked.operands, Nat.add_sub_cancel, List.getElem?_eq_getElem hi]
      rfl
  · obtain ⟨vm', hrun, hrestacked⟩ := VM.append_restacked hroom' this
    refine ⟨vm', ?_, by rw [hrestacked.operands]; rfl⟩
    have hget : scopeGet entry.heap entry.scope (cString "this") = .ok this := by
      apply scopeGet_of_binding
      rw [← hentry]
      show (heap.putBinding scope (cString "this") this).binding scope (cString "this") = _
      rw [binding_putBinding hscope, if_pos ⟨rfl, rfl⟩]
    have hfree : entry.room = .ok () := if_neg (by omega)
    rw [instLdThis, hfree, hget]
    exact hrun

/-- A function sees one list of arguments of a given length. -/
theorem Observes.unique {this' : JSValue} (h : Observes vm this args)
    (h' : Observes vm this' args') (hlength : args.length = args'.length) : args = args' := by
  apply List.ext_getElem?
  intro i
  by_cases hi : i < args.length
  · obtain ⟨vm₁, hrun, hhead⟩ := h.loadArg (i + 1) (Nat.succ_pos i) hi
    obtain ⟨vm₂, hrun', hhead'⟩ := h'.loadArg (i + 1) (Nat.succ_pos i) (hlength ▸ hi)
    obtain rfl := Except.ok.inj (hrun.symm.trans hrun')
    rw [Nat.add_sub_cancel] at hhead hhead'
    exact hhead.symm.trans hhead'
  · rw [List.getElem?_eq_none (by omega), List.getElem?_eq_none (by omega)]

/-! ## What arrives -/

/-- The next step calls a native function with these arguments, whatever function
that is. -/
def Receives (config : Config) (pointer : ℕ) (this : JSValue) (args : List JSValue) : Prop :=
  ∀ host : Host, ∃ vm next frames, step host config =
    some ⟨.native vm (host.nativeFunction pointer vm.heap vm.module this args) next, frames⟩

/-- After `k` steps the machine is at the entry of a function, which can see these
arguments. -/
def Enters (host : Host) (k : ℕ) (config : Config) (start : ℕ) (this : JSValue)
    (args : List JSValue) : Prop :=
  ∃ vm frames, Run.iterate (step host) k config = some ⟨.done vm, frames⟩ ∧
    vm.stats.instructionCounter = start ∧ Observes vm this args

theorem Enters.head {config config₁ : Config} {k start : ℕ} (hstep : step host config = some config₁)
    (h : Enters host k config₁ start this args) : Enters host (k + 1) config start this args := by
  obtain ⟨vm, frames, hrun, hentry⟩ := h
  exact ⟨vm, frames, (Run.iterate_succ_of_step hstep k).trans hrun, hentry⟩

/-- A call with `this` and the arguments on the stack. -/
theorem enters_call (host : Host) (next : VM → JSValue → Prog) (frames : List Frame)
    {scope module start stop : ℕ} (hops : vm.operands = this :: (args ++ own))
    (hroom : vm.stats.stackCounter < stackSize)
    (hfunction : vm.heap.functions[function]? =
      some ⟨objectBase, .bytecode scope module start stop⟩)
    (hscope : scope < vm.heap.scopes.length) :
    Enters host 1 ⟨.call vm function this next, frames⟩ start this args := by
  have henter := stepCall_bytecode this next frames hfunction hscope
  exact ⟨_, _, Run.iterate_succ_of_step (congrArg some henter) 0, rfl,
    observes_entry vm.heap module start hops hroom hscope⟩

/-- The host whose native functions hand on what they were called with. -/
private def handOn : Host where
  nativeFunction _ heap _ this args := .apiCallFunction heap 0 this args .ret
  address _ := 0
  indexFirst := true

theorem Receives.unique {config : Config} {pointer pointer' : ℕ} {this' : JSValue}
    (h : Receives config pointer this args) (h' : Receives config pointer' this' args') :
    args = args' := by
  obtain ⟨vm, next, frames, hstep⟩ := h handOn
  obtain ⟨vm', next', frames', hstep'⟩ := h' handOn
  have hconfig := Option.some.inj (hstep.symm.trans hstep')
  have hprog := congrArg Config.prog hconfig
  simp only [handOn, Prog.native.injEq, NativeProgram.apiCallFunction.injEq] at hprog
  exact hprog.2.1.2.2.2.1

theorem Enters.unique {config : Config} {k start start' : ℕ} {this' : JSValue}
    (h : Enters host k config start this args) (h' : Enters host k config start' this' args')
    (hlength : args.length = args'.length) : args = args' := by
  obtain ⟨vm, frames, hrun, _, hobserves⟩ := h
  obtain ⟨vm', frames', hrun', _, hobserves'⟩ := h'
  have hconfig := Option.some.inj (hrun.symm.trans hrun')
  obtain rfl := Prog.done.inj (congrArg Config.prog hconfig)
  exact hobserves.unique hobserves' hlength

end AtomixJS
