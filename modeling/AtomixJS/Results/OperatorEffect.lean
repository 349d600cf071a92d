import AtomixJS.Core.Operators

/-!
# The stack effect of the binary operators

An operator is documented to pop two operands and to push its result.  The
handlers that answer some operand pairs at once write the answer over the right
operand before they have taken anything off, so the left operand stays below
the result.  The effect is the documented one exactly for all other pairs.
-/

namespace AtomixJS

/-- The documented effect: one operand fewer, the result on top, and nothing
changed below the two operands. -/
structure BinaryEffect (address : JSValue → CInt) (op : BinaryOpcode) (vm vm' : VM) : Prop where
  counter : vm'.stats.stackCounter = vm.stats.stackCounter - 1
  result :
    let left := vm.stats.stack (vm.stats.stackCounter - 2)
    let right := vm.stats.stack (vm.stats.stackCounter - 1)
    let top := vm'.stats.stack (vm'.stats.stackCounter - 1)
    binaryShortcut op left right = some top ∨ binaryValue address op left right = .ok top
  lower : ∀ i < vm.stats.stackCounter - 2, vm'.stats.stack i = vm.stats.stack i

/-- The operand pairs that a handler answers before it takes an operand off. -/
def AnsweredAtOnce (op : BinaryOpcode) (left right : JSValue) : Prop :=
  match op with
  | .add => left.isUndefined ∨ right.isUndefined
  | .minus | .mul => left.isOpaque ∨ right.isOpaque
  | .div | .mod => left.isOpaque ∨ right.isOpaque ∨ right.isNull
  | _ => False

theorem binaryShortcut_eq_none (op : BinaryOpcode) (left right : JSValue) :
    binaryShortcut op left right = none ↔ ¬ AnsweredAtOnce op left right := by
  cases op <;>
    simp [binaryShortcut, addShortcut, opaqueShortcut, quotientShortcut, AnsweredAtOnce, not_or,
      and_assoc]

variable {address : JSValue → CInt} {op : BinaryOpcode} {vm vm' : VM}

/-- Two operands are a list of two and a rest. -/
private theorem operands_of_two (htwo : 2 ≤ vm.stats.stackCounter) :
    vm.operands = vm.stats.stack (vm.stats.stackCounter - 1) ::
      vm.stats.stack (vm.stats.stackCounter - 2) ::
        slotsBelow vm.stats.stack (vm.stats.stackCounter - 2) := by
  obtain ⟨n, hn⟩ := Nat.exists_eq_add_of_le' htwo
  rw [VM.operands, VMStats.operands, hn]
  rfl

/-- Equal operand lists have equal slots. -/
private theorem slots_of_operands {n : ℕ} {ops : List JSValue} {top : JSValue}
    (hops : vm'.operands = top :: ops) (hrest : ops = slotsBelow vm.stats.stack n) :
    vm'.stats.stackCounter = n + 1 ∧ vm'.stats.stack n = top ∧
      ∀ i < n, vm'.stats.stack i = vm.stats.stack i := by
  subst hrest
  have hcounter : vm'.stats.stackCounter = n + 1 := by
    rw [VM.counter_of_operands hops, List.length_cons, slotsBelow_length]
  rw [VM.operands, VMStats.operands, hcounter, slotsBelow, List.cons.injEq] at hops
  refine ⟨hcounter, hops.1, fun i hi => ?_⟩
  have hget := congrArg (fun l => l[n - 1 - i]?) hops.2
  simp only [slotsBelow_getElem? _ (show n - 1 - i < n by omega), Option.some.injEq] at hget
  rwa [show n - 1 - (n - 1 - i) = i by omega] at hget

/-- **Net effect of the binary operators.**  On every state with two operands,
the handler has the documented effect whenever it returns if and only if the
operand pair is not one that it answers at once. -/
theorem instBinary_effect_iff (address : JSValue → CInt) (op : BinaryOpcode) (vm : VM)
    (htwo : 2 ≤ vm.stats.stackCounter) (hsize : vm.stats.stackCounter ≤ stackSize) :
    (∀ vm', instBinary address op vm = .ok vm' → BinaryEffect address op vm vm') ↔
      ¬ AnsweredAtOnce op (vm.stats.stack (vm.stats.stackCounter - 2))
        (vm.stats.stack (vm.stats.stackCounter - 1)) := by
  have hops := operands_of_two htwo
  rw [← binaryShortcut_eq_none]
  constructor
  · intro heffect
    by_contra hshort
    obtain ⟨v, hv⟩ := Option.ne_none_iff_exists'.mp hshort
    obtain ⟨vm', hrun, hrestacked⟩ :=
      binaryHandler_shortcut (binaryValue address op) hops hsize hv
    have hcounter := (heffect vm' hrun).counter
    have hlength := VM.counter_of_operands hrestacked.operands
    simp only [List.length_cons, slotsBelow_length] at hlength
    omega
  · intro hshort vm' hrun
    cases hvalue : binaryValue address op (vm.stats.stack (vm.stats.stackCounter - 2))
        (vm.stats.stack (vm.stats.stackCounter - 1)) with
    | error fault =>
        rw [instBinary, binaryHandler_eq hops hsize, hshort, hvalue] at hrun
        cases hrun
    | ok v =>
        obtain ⟨vm'', hrun', hrestacked⟩ := binaryHandler_restacked hops hsize hshort hvalue
        obtain rfl : vm'' = vm' := Except.ok.inj (hrun'.symm.trans hrun)
        obtain ⟨hcounter, htop, hlower⟩ := slots_of_operands hrestacked.operands rfl
        refine ⟨by omega, .inr ?_, hlower⟩
        rw [hvalue, hcounter, Nat.add_sub_cancel, htop]

/-- A machine with `undefined` and 1 on its operand stack. -/
def undefinedPlusOne : VM where
  module := 0
  globalScope := 0
  scope := 0
  stats :=
    { instructionCounter := 0
      stackCounter := 2
      stackStart := 0
      stack := fun i => if i = 1 then .integer 1 else .undefined }
  heap :=
    { scopes := [], objects := [], functions := [], modules := []
      objectPrototype := none, arrayPrototype := none
      functionPrototype := none, symbolPrototype := none }

theorem instBinary_effect_iff_teq_undefined_one :
    ¬ AnsweredAtOnce .teq .undefined (.integer 1) ∧
      ∀ vm', instBinary (fun _ => 0) .teq undefinedPlusOne = .ok vm' →
        BinaryEffect (fun _ => 0) .teq undefinedPlusOne vm' :=
  ⟨not_false, (instBinary_effect_iff (fun _ => 0) .teq undefinedPlusOne (by decide)
    (by decide)).mpr not_false⟩

/-- `undefined + 1` does not have the effect: the stack counter does not move,
and `undefined` stays below the result. -/
theorem instBinary_add_undefined :
    ¬ ∀ (address : JSValue → CInt) (op : BinaryOpcode) (vm vm' : VM),
      2 ≤ vm.stats.stackCounter → vm.stats.stackCounter ≤ stackSize →
        instBinary address op vm = .ok vm' → BinaryEffect address op vm vm' := by
  intro hclaim
  have hops : undefinedPlusOne.operands = [.integer 1, .undefined] := rfl
  have hshort : binaryShortcut .add .undefined (.integer 1) = some .nan := rfl
  obtain ⟨vm', hrun, hrestacked⟩ :=
    binaryHandler_shortcut (binaryValue (fun _ => 0) .add) hops (by decide) hshort
  have hcounter := (hclaim (fun _ => 0) .add undefinedPlusOne vm' (by decide) (by decide)
    hrun).counter
  have hlength : vm'.stats.stackCounter = 2 := VM.counter_of_operands hrestacked.operands
  rw [hlength] at hcounter
  exact absurd hcounter (by decide)

end AtomixJS
