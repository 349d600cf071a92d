import AtomixJS.Compiler.Calls

/-!
# Loops over parts

The test and the body of a loop are arbitrary nodes.  A part is what `pipe` emits for a
node between two contexts, and `Implements` says that its run does what a given
computation says, on whatever is represented in the state of the machine.  The code of a
`while` then implements the loop of its parts (`implements_while`).  A body may also leave
the loop, by a `return`.
-/

namespace AtomixJS.Compiler

open Simulation (Simulates Outcome)

/-! ## What is represented -/

/-- The state of the machine but for the operands and the counter. -/
structure World where
  heap : Heap
  module : ModuleRef
  globalScope : ScopeRef
  scope : ScopeRef
  stackStart : ℕ

def worldOf (vm : VM) : World := ⟨vm.heap, vm.module, vm.globalScope, vm.scope, vm.stats.stackStart⟩

variable {α β : Type} {act : Activation} {represents : α → World → Prop} {pc pc' : ℕ}
  {ops ops' : List JSValue} {a : α} {config : Config} {instruction : Instruction} {v : JSValue}

/-- The machine is at a point of the code and represents something. -/
def Activation.In (act : Activation) (represents : α → World → Prop) (pc : ℕ)
    (ops : List JSValue) (a : α) (config : Config) : Prop :=
  ∃ vm, config = act.config vm ∧ Holds act.target vm pc ops ∧ represents a (worldOf vm)

theorem worldOf_restacked {vm vm' : VM} (h : VM.Restacked vm vm' ops) : worldOf vm' = worldOf vm := by
  unfold worldOf
  rw [h.stackStart, h.rest]

theorem Holds.of_world {target : Target} {vm vm' : VM} (h : Holds target vm pc ops)
    (hworld : worldOf vm' = worldOf vm) (hcounter : vm'.stats.instructionCounter = pc')
    (hoperands : vm'.operands = ops') (hsize : ops'.length ≤ stackSize) :
    Holds target vm' pc' ops' := by
  obtain ⟨module, hmodule, hinstructions⟩ := h.code
  have hheap : vm'.heap = vm.heap := congrArg World.heap hworld
  have hcurrent : vm'.module = vm.module := congrArg World.module hworld
  exact ⟨⟨module, by rw [hheap, hcurrent, hmodule], hinstructions⟩, hcounter, hoperands, hsize⟩

namespace Activation.In

/-- An instruction that changes the operands and the counter only. -/
theorem step (h : act.In represents pc ops a config) (hhas : act.Has pc instruction)
    (hret : instruction.opcode ≠ .ret) (hsize : ops'.length ≤ stackSize)
    (hexec : ∀ vm : VM, vm.operands = ops → vm.stats.stackCounter ≤ stackSize →
      vm.stats.instructionCounter = pc + 1 →
      ∃ vm', execSlot act.host instruction.loaded vm = .done vm' ∧ worldOf vm' = worldOf vm ∧
        vm'.stats.instructionCounter = pc' ∧ vm'.operands = ops') :
    ∃ config', AtomixJS.step act.host config = some config' ∧
      act.In represents pc' ops' a config' := by
  obtain ⟨vm, rfl, hholds, hrepresents⟩ := h
  have hstep := step_of_executes act.host (executes hhas hret hholds) act.frames
  have hcounter : (vm.setCounter (vm.stats.instructionCounter + 1)).stats.stackCounter ≤ stackSize := by
    show vm.stats.stackCounter ≤ stackSize
    rw [VM.counter_of_operands hholds.operands]
    exact hholds.size
  obtain ⟨vm', hrun, hworld, hpc, hoperands⟩ :=
    hexec (vm.setCounter (vm.stats.instructionCounter + 1)) hholds.operands hcounter
      (congrArg (· + 1) hholds.counter)
  rw [hrun] at hstep
  have hworld' : worldOf vm' = worldOf vm := hworld
  exact ⟨_, hstep, vm', rfl, hholds.of_world hworld' hpc hoperands hsize, hworld' ▸ hrepresents⟩

theorem size (h : act.In represents pc ops a config) : ops.length ≤ stackSize := by
  obtain ⟨_, _, hholds, _⟩ := h
  exact hholds.size

theorem pop (h : act.In represents pc (v :: ops) a config) (hhas : act.Has pc .pop) :
    ∃ config', AtomixJS.step act.host config = some config' ∧
      act.In represents (pc + 1) ops a config' := by
  have hsize : ops.length + 1 ≤ stackSize := h.size
  refine h.step hhas (by decide) (Nat.le_of_succ_le hsize) fun vm hoperands _ hcounter => ?_
  obtain ⟨hrun, hrestacked⟩ := instPop_restacked hoperands
  refine ⟨vm.drop 1, ?_, worldOf_restacked hrestacked, hrestacked.instructionCounter.trans hcounter,
    hrestacked.operands⟩
  show Prog.ofExcept (instPop vm) = _
  rw [hrun]
  rfl

theorem ldTrue (h : act.In represents pc ops a config) (hhas : act.Has pc .ldTrue)
    (hroom : ops.length < stackSize) : ∃ config', AtomixJS.step act.host config = some config' ∧
      act.In represents (pc + 1) (.boolean true :: ops) a config' := by
  refine h.step hhas (by decide) hroom fun vm hoperands hle hcounter => ?_
  obtain ⟨vm', hpush, hrestacked⟩ := VM.push_restacked
    (show vm.stats.stackCounter < stackSize from (VM.counter_of_operands hoperands).symm ▸ hroom)
    (.boolean true)
  refine ⟨vm', ?_, worldOf_restacked hrestacked, hrestacked.instructionCounter.trans hcounter,
    hoperands ▸ hrestacked.operands⟩
  show Prog.ofExcept (vm.push (.boolean true)) = _
  rw [hpush]
  rfl

theorem jmp {target : ℕ} (h : act.In represents pc ops a config) (hhas : act.Has pc (.jmp target))
    (hlt : target < 2 ^ 16) : ∃ config', AtomixJS.step act.host config = some config' ∧
      act.In represents target ops a config' := by
  refine h.step hhas (fun h => nomatch h) h.size fun vm hoperands _ _ =>
    ⟨vm.setCounter target, ?_, rfl, rfl, hoperands⟩
  show Prog.done (vm.setCounter (UInt16.ofNat target).toNat) = _
  rw [UInt16.toNat_ofNat', Nat.mod_eq_of_lt hlt]

theorem jmpF {target : ℕ} {falsy : Bool} (h : act.In represents pc (v :: ops) a config)
    (hhas : act.Has pc (.jmpF target)) (hfalsy : valueIsFalsy v = .ok falsy)
    (hlt : target < 2 ^ 16) : ∃ config', AtomixJS.step act.host config = some config' ∧
      act.In represents (if falsy then target else pc + 1) ops a config' := by
  have hsize : ops.length + 1 ≤ stackSize := h.size
  refine h.step hhas (fun h => nomatch h) (Nat.le_of_succ_le hsize)
    fun vm hoperands hle hcounter => ?_
  have hrestacked : vm.Restacked (vm.drop 1) ops := VM.drop_restacked [v] hoperands
  have hrun : execSlot act.host (Instruction.loaded (.jmpF target)) vm = Prog.ofExcept (do
      return if ← valueIsFalsy v then (vm.drop 1).setCounter (UInt16.ofNat target).toNat
        else vm.drop 1) := by
    show Prog.ofExcept (instJmpIf valueIsFalsy (UInt16.ofNat target) vm) = _
    rw [instJmpIf_eq hoperands hle]
  rw [hrun, hfalsy, UInt16.toNat_ofNat', Nat.mod_eq_of_lt hlt]
  cases falsy with
  | true =>
    have hworld : worldOf (vm.drop 1) = worldOf vm := worldOf_restacked hrestacked
    exact ⟨_, rfl, hworld, rfl, hrestacked.operands⟩
  | false =>
    exact ⟨_, rfl, worldOf_restacked hrestacked, hrestacked.instructionCounter.trans hcounter,
      hrestacked.operands⟩

end Activation.In

end AtomixJS.Compiler
