import AtomixJS.Core.Heap

/-!
# The virtual machine and its operand stack

`VMStats` holds the whole operand stack by value, so saving and restoring it
around a call brings back every slot.  A slot outside the array is never read or
written: such an access is a fault.  Counters are `size_t`, and a difference
that would be negative wraps.

Proofs do not look at slots but at `operands`, the values below the stack
counter with the top one first.  Pushing, dropping and overwriting the top are
the list operations one expects, and `Restacked` says that they change nothing
but the operand stack.
-/

namespace AtomixJS

/-- `STACK_SIZE`. -/
def stackSize : ℕ := 254

/-- `struct VMStats`. -/
structure VMStats where
  instructionCounter : ℕ
  stackCounter : ℕ
  stackStart : ℕ
  stack : ℕ → JSValue

/-- `struct VM`, with the heap it works on. -/
structure VM where
  module : ModuleRef
  globalScope : ScopeRef
  scope : ScopeRef
  stats : VMStats
  heap : Heap

/-- Subtraction of `size_t`. -/
def sizeSub (a b : ℕ) : ℕ := if b ≤ a then a - b else a + 2 ^ 64 - b

@[simp] theorem sizeSub_of_le {a b : ℕ} (h : b ≤ a) : sizeSub a b = a - b := if_pos h

/-! ## Slots -/

/-- Read a slot of the operand stack. -/
def VM.slot (vm : VM) (i : ℕ) : Except Fault JSValue :=
  if i < stackSize then .ok (vm.stats.stack i)
  else .error (.undefinedBehaviour "read outside the operand stack")

def VMStats.setSlot (stats : VMStats) (i : ℕ) (v : JSValue) : VMStats :=
  { stats with stack := fun j => if j = i then v else stats.stack j }

/-- Write a slot of the operand stack. -/
def VM.setSlot (vm : VM) (i : ℕ) (v : JSValue) : Except Fault VM :=
  if i < stackSize then .ok { vm with stats := vm.stats.setSlot i v }
  else .error (.undefinedBehaviour "write outside the operand stack")

/-- `vm->stats.stack_counter -= n`. -/
def VM.drop (vm : VM) (n : ℕ) : VM :=
  { vm with stats := { vm.stats with stackCounter := sizeSub vm.stats.stackCounter n } }

/-- `vm->stats.stack[vm->stats.stack_counter - 1] = v`. -/
def VM.setTop (vm : VM) (v : JSValue) : Except Fault VM :=
  vm.setSlot (sizeSub vm.stats.stackCounter 1) v

/-- `vm->stats.stack[vm->stats.stack_counter++] = v`, without a check. -/
def VM.append (vm : VM) (v : JSValue) : Except Fault VM := do
  let vm ← vm.setSlot vm.stats.stackCounter v
  return { vm with stats := { vm.stats with stackCounter := vm.stats.stackCounter + 1 } }

/-- The check of the handlers that push. -/
def VM.room (vm : VM) : Except Fault Unit :=
  if stackSize ≤ vm.stats.stackCounter then .error (.panic "Stack overflow") else .ok ()

/-- The check of the handlers that pop. -/
def VM.need (vm : VM) (n : ℕ) : Except Fault Unit :=
  if vm.stats.stackCounter < n then .error (.panic "Stack underflow") else .ok ()

/-- A checked push. -/
def VM.push (vm : VM) (v : JSValue) : Except Fault VM := do
  vm.room
  vm.append v

def VM.setCounter (vm : VM) (ic : ℕ) : VM :=
  { vm with stats := { vm.stats with instructionCounter := ic } }

/-! ## The operand stack as a list -/

/-- The first `n` slots, the last one first. -/
def slotsBelow (stack : ℕ → JSValue) : ℕ → List JSValue
  | 0 => []
  | n + 1 => stack n :: slotsBelow stack n

/-- The values on the operand stack, the top one first. -/
def VMStats.operands (stats : VMStats) : List JSValue :=
  slotsBelow stats.stack stats.stackCounter

def VM.operands (vm : VM) : List JSValue := vm.stats.operands

@[simp] theorem slotsBelow_length (stack : ℕ → JSValue) (n : ℕ) :
    (slotsBelow stack n).length = n := by
  induction n with
  | zero => rfl
  | succ n ih => rw [slotsBelow, List.length_cons, ih]

theorem slotsBelow_congr {stack stack' : ℕ → JSValue} {n : ℕ}
    (h : ∀ i < n, stack i = stack' i) : slotsBelow stack n = slotsBelow stack' n := by
  induction n with
  | zero => rfl
  | succ n ih =>
      rw [slotsBelow, slotsBelow, h n (Nat.lt_succ_self n),
        ih fun i hi => h i (Nat.lt_succ_of_lt hi)]

theorem slotsBelow_drop (stack : ℕ → JSValue) (n k : ℕ) :
    (slotsBelow stack n).drop k = slotsBelow stack (n - k) := by
  induction n generalizing k with
  | zero => simp [slotsBelow]
  | succ n ih =>
      cases k with
      | zero => rfl
      | succ k => rw [slotsBelow, List.drop_succ_cons, ih, Nat.succ_sub_succ]

theorem slotsBelow_getElem? (stack : ℕ → JSValue) {n i : ℕ} (h : i < n) :
    (slotsBelow stack n)[i]? = some (stack (n - 1 - i)) := by
  induction n generalizing i with
  | zero => cases h
  | succ n ih =>
      cases i with
      | zero => rfl
      | succ i =>
          rw [slotsBelow, List.getElem?_cons_succ, ih (Nat.lt_of_succ_lt_succ h)]
          congr 2
          omega

@[simp] theorem VM.operands_length (vm : VM) : vm.operands.length = vm.stats.stackCounter :=
  slotsBelow_length _ _

variable {vm vm' : VM} {v : JSValue} {ops : List JSValue}

/-- The top operands are in the top slots. -/
theorem VM.slot_of_operands {i : ℕ} (h : vm.operands[i]? = some v)
    (hsize : vm.stats.stackCounter ≤ stackSize) :
    vm.slot (vm.stats.stackCounter - 1 - i) = .ok v := by
  have hi : i < vm.stats.stackCounter := by
    simpa using (List.getElem?_eq_some_iff.mp h).1
  rw [VM.operands, VMStats.operands, slotsBelow_getElem? _ hi, Option.some.injEq] at h
  rw [VM.slot, if_pos (by omega), h]

/-! ## Changing the operand stack -/

/-- `vm'` is `vm` but for its operand stack, which is now `ops`. -/
structure VM.Restacked (vm vm' : VM) (ops : List JSValue) : Prop where
  operands : vm'.operands = ops
  rest : vm' = { vm with stats := vm'.stats }
  instructionCounter : vm'.stats.instructionCounter = vm.stats.instructionCounter
  stackStart : vm'.stats.stackStart = vm.stats.stackStart

theorem VM.Restacked.trans {vm'' : VM} {ops' : List JSValue} (h : VM.Restacked vm vm' ops)
    (h' : VM.Restacked vm' vm'' ops') : VM.Restacked vm vm'' ops' where
  operands := h'.operands
  rest := by rw [h'.rest, h.rest]
  instructionCounter := h'.instructionCounter.trans h.instructionCounter
  stackStart := h'.stackStart.trans h.stackStart

theorem VM.append_restacked (h : vm.stats.stackCounter < stackSize) (v : JSValue) :
    ∃ vm', vm.append v = .ok vm' ∧ VM.Restacked vm vm' (v :: vm.operands) := by
  refine ⟨{ vm with stats := { vm.stats.setSlot vm.stats.stackCounter v with
    stackCounter := vm.stats.stackCounter + 1 } }, ?_, ?_, rfl, rfl, rfl⟩
  · rw [VM.append, VM.setSlot, if_pos h]; rfl
  simp only [VM.operands, VMStats.operands, slotsBelow, VMStats.setSlot, if_pos,
    List.cons.injEq, true_and]
  exact slotsBelow_congr fun i hi => if_neg (Nat.ne_of_lt hi)

theorem VM.push_restacked (h : vm.stats.stackCounter < stackSize) (v : JSValue) :
    ∃ vm', vm.push v = .ok vm' ∧ VM.Restacked vm vm' (v :: vm.operands) := by
  rw [VM.push, VM.room, if_neg (by omega)]
  exact VM.append_restacked h v

theorem VM.setTop_restacked {top : JSValue} (hops : vm.operands = top :: ops)
    (hsize : vm.stats.stackCounter ≤ stackSize) (v : JSValue) :
    ∃ vm', vm.setTop v = .ok vm' ∧ VM.Restacked vm vm' (v :: ops) := by
  have hcounter : vm.stats.stackCounter = ops.length + 1 := by
    rw [← vm.operands_length, hops]; rfl
  refine ⟨{ vm with stats := vm.stats.setSlot ops.length v }, ?_, ?_, rfl, rfl, rfl⟩
  · rw [VM.setTop, sizeSub_of_le (by omega), VM.setSlot, if_pos (by omega), hcounter]
    rfl
  · simp only [VM.operands, VMStats.operands, hcounter, slotsBelow, List.cons.injEq] at hops
    simp only [VM.operands, VMStats.operands, VMStats.setSlot, hcounter, slotsBelow, if_pos,
      List.cons.injEq, true_and]
    calc slotsBelow (fun j => if j = ops.length then v else vm.stats.stack j) ops.length
        = slotsBelow vm.stats.stack ops.length :=
          slotsBelow_congr fun i hi => if_neg (Nat.ne_of_lt hi)
      _ = ops := hops.2

theorem VM.drop_operands {n : ℕ} (h : n ≤ vm.stats.stackCounter) :
    (vm.drop n).operands = vm.operands.drop n := by
  simp only [VM.operands, VMStats.operands, VM.drop, sizeSub_of_le h, slotsBelow_drop]

theorem VM.drop_restacked (top : List JSValue) (hops : vm.operands = top ++ ops) :
    VM.Restacked vm (vm.drop top.length) ops := by
  have hcounter : top.length ≤ vm.stats.stackCounter := by
    rw [← vm.operands_length, hops, List.length_append]; omega
  exact ⟨by rw [VM.drop_operands hcounter, hops, List.drop_left], rfl, rfl, rfl⟩

/-- The number of operands follows from the list. -/
theorem VM.counter_of_operands (hops : vm.operands = ops) :
    vm.stats.stackCounter = ops.length := by
  rw [← vm.operands_length, hops]

end AtomixJS
