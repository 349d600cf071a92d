import AtomixJS.Core.Execution
import AtomixJS.Lib.Fallible

/-!
# Effects of the handlers

What the handlers without calls do, in terms of the operand list.  A handler
that only moves operands gets a `Restacked` state; a handler that also works on
scopes or jumps is rewritten to what is left of it once its operands are known.
-/

namespace AtomixJS

open Fallible

variable {vm vm' : VM} {v l r : JSValue} {ops : List JSValue} {operand : UInt16}

/-- The top operand is in the top slot. -/
theorem slot_top (hops : vm.operands = v :: ops) (hsize : vm.stats.stackCounter ≤ stackSize) :
    vm.slot (vm.stats.stackCounter - 1) = .ok v :=
  VM.slot_of_operands (i := 0) (by rw [hops]; rfl) hsize

private theorem need_one (hops : vm.operands = v :: ops) : vm.need 1 = .ok () := by
  have hcounter : vm.stats.stackCounter = ops.length + 1 := VM.counter_of_operands hops
  exact if_neg (by omega)

/-- A push that returned found room. -/
theorem VM.append_ok (h : vm.append v = .ok vm') :
    vm.stats.stackCounter < stackSize ∧ VM.Restacked vm vm' (v :: vm.operands) := by
  by_cases hlt : vm.stats.stackCounter < stackSize
  · obtain ⟨vm'', hrun, hrestacked⟩ := VM.append_restacked hlt v
    obtain rfl : vm'' = vm' := Except.ok.inj (hrun.symm.trans h)
    exact ⟨hlt, hrestacked⟩
  · rw [VM.append, VM.setSlot, if_neg hlt] at h
    cases h

/-- The arguments of a call lie on top, the first one uppermost. -/
theorem pushArgs_restacked {args : List JSValue} {vm vm' : VM} (h : pushArgs vm args = .ok vm') :
    VM.Restacked vm vm' (args ++ vm.operands) := by
  induction args generalizing vm' with
  | nil =>
      obtain rfl := pure_eq_ok.mp h
      exact ⟨rfl, rfl, rfl, rfl⟩
  | cons v args ih =>
      rw [pushArgs, List.reverse_cons, List.foldlM_append, bind_eq_ok] at h
      obtain ⟨mid, hmid, hlast⟩ := h
      have hrestacked := ih hmid
      simp only [List.foldlM_cons, List.foldlM_nil, bind_eq_ok, pure_eq_ok] at hlast
      obtain ⟨_, hlast, rfl⟩ := hlast
      obtain ⟨_, happend⟩ := VM.append_ok hlast
      rw [hrestacked.operands] at happend
      exact hrestacked.trans happend

/-! ## Operands only -/

theorem instPop_restacked (hops : vm.operands = v :: ops) :
    instPop vm = .ok (vm.drop 1) ∧ VM.Restacked vm (vm.drop 1) ops := by
  refine ⟨?_, VM.drop_restacked [v] hops⟩
  rw [instPop, need_one hops]
  rfl

theorem instDup_restacked (hops : vm.operands = v :: ops)
    (hroom : vm.stats.stackCounter < stackSize) :
    ∃ vm', instDup vm = .ok vm' ∧ VM.Restacked vm vm' (v :: v :: ops) := by
  obtain ⟨vm', hrun, hrestacked⟩ := VM.append_restacked hroom v
  refine ⟨vm', ?_, hops ▸ hrestacked⟩
  have hfree : vm.room = .ok () := if_neg (by omega)
  rw [instDup, need_one hops, hfree, slot_top hops (by omega)]
  exact hrun

theorem instSwap_restacked {w : JSValue} (hops : vm.operands = v :: w :: ops)
    (hsize : vm.stats.stackCounter ≤ stackSize) :
    ∃ vm', instSwap vm = .ok vm' ∧ VM.Restacked vm vm' (w :: v :: ops) := by
  have hcounter : vm.stats.stackCounter = ops.length + 2 := VM.counter_of_operands hops
  have hneed : vm.need 2 = .ok () := if_neg (by omega)
  have hbelow : vm.slot (vm.stats.stackCounter - 2) = .ok w :=
    VM.slot_of_operands (i := 1) (by rw [hops]; rfl) hsize
  refine ⟨{ vm with stats := (vm.stats.setSlot ops.length v).setSlot (ops.length + 1) w }, ?_, ?_,
    rfl, rfl, rfl⟩
  · have hfirst : vm.setSlot (vm.stats.stackCounter - 2) v =
        .ok { vm with stats := vm.stats.setSlot ops.length v } := by
      rw [hcounter, VM.setSlot]
      exact if_pos (show ops.length < stackSize by omega)
    rw [instSwap, hneed, slot_top hops hsize, hbelow]
    simp only [Fallible.ok_bind, hfirst]
    rw [show (vm.stats.setSlot ops.length v).stackCounter = ops.length + 2 from hcounter, VM.setSlot]
    exact if_pos (show ops.length + 1 < stackSize by omega)
  · simp only [VM.operands, VMStats.operands, hcounter, slotsBelow, List.cons.injEq] at hops
    have hother : ops.length ≠ ops.length + 1 := Nat.ne_of_lt (Nat.lt_succ_self _)
    simp only [VM.operands, VMStats.operands, VMStats.setSlot, hcounter, slotsBelow, if_pos,
      if_neg hother, List.cons.injEq, true_and]
    refine Eq.trans ?_ hops.2.2
    exact slotsBelow_congr fun i hi => by rw [if_neg (by omega), if_neg (by omega)]

/-- `LOAD_ARG` counts the operands at the entry of the function from the top,
`this` being number 0.  Beyond the last one it pushes `undefined`. -/
theorem instLoadArg_eq (hops : vm.operands = ops) (hstart : vm.stats.stackStart = ops.length)
    (hsize : vm.stats.stackCounter ≤ stackSize) :
    instLoadArg operand vm = vm.append ((ops[operand.toNat]?).getD .undefined) := by
  have hcounter : vm.stats.stackCounter = ops.length := VM.counter_of_operands hops
  rw [instLoadArg]
  split
  · next hle => rw [List.getElem?_eq_none (by omega), Option.getD_none]
  · next hlt =>
      obtain ⟨w, hw⟩ : ∃ w, ops[operand.toNat]? = some w :=
        ⟨_, List.getElem?_eq_getElem (by omega)⟩
      have hslot := VM.slot_of_operands (hops.symm ▸ hw) hsize
      rw [show vm.stats.stackStart - operand.toNat - 1 =
        vm.stats.stackCounter - 1 - operand.toNat by omega, hslot, hw]
      rfl

/-! ## Variables -/

theorem instAllocLocal_eq (hops : vm.operands = v :: ops)
    (hsize : vm.stats.stackCounter ≤ stackSize) :
    instAllocLocal operand vm = (do
      let key ← vm.loadStr operand
      return { vm.drop 1 with heap := ← scopeDeclare vm.heap vm.scope key v }) := by
  rw [instAllocLocal, need_one hops, slot_top hops hsize]
  rfl

theorem instStoreLocal_eq (hops : vm.operands = v :: ops)
    (hsize : vm.stats.stackCounter ≤ stackSize) :
    instStoreLocal operand vm = (do
      let key ← vm.loadStr operand
      match ← scopeSet vm.heap vm.scope key v with
      | some heap => return { vm.drop 1 with heap }
      | none => .error (.panic "Could not update local")) := by
  rw [instStoreLocal, need_one hops, slot_top hops hsize]
  rfl

theorem instLoadLocal_eq (hroom : vm.stats.stackCounter < stackSize) :
    instLoadLocal operand vm = (do
      let key ← vm.loadStr operand
      if !(← scopeContains vm.heap vm.scope key) then .error (.panic "Symbol not found")
      else vm.append (← scopeGet vm.heap vm.scope key)) := by
  have hfree : vm.room = .ok () := if_neg (by omega)
  rw [instLoadLocal, hfree]
  rfl

/-! ## Jumps -/

theorem instJmpIf_eq {test : JSValue → Except Fault Bool} (hops : vm.operands = v :: ops)
    (hsize : vm.stats.stackCounter ≤ stackSize) :
    instJmpIf test operand vm = (do
      return if ← test v then (vm.drop 1).setCounter operand.toNat else vm.drop 1) := by
  have hcounter : vm.stats.stackCounter = ops.length + 1 := VM.counter_of_operands hops
  rw [instJmpIf, sizeSub_of_le (by omega), slot_top hops hsize]
  rfl

end AtomixJS
