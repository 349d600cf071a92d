import AtomixJS.Core.Machine
import AtomixJS.Lib.Fallible

/-!
# Bounds of the operand stack and of the code

The model makes a fault of every access outside the operand stack or the instruction array.
Most handlers check the stack counter before they touch a slot, and then such a fault cannot
come up.  Five places do not check: `LOAD_ARG` and `api_call_function` push without looking for
room, the conditional jumps and `CALL` take operands that need not be there, and the loop of a
function reads the next opcode before it compares the counter with the number of instructions.
`Config.Guarded` is what these leave to the program.

`Prog.StaysInBounds` carries the bounds through the calls that C code waits for: a call gives the
stack back as it was, or with more on it.
-/

namespace AtomixJS

/-- An access outside the operand stack or the instruction array. -/
def Fault.isOutOfBounds : Fault → Bool
  | .undefinedBehaviour what =>
    what = "read outside the operand stack" || what = "write outside the operand stack" ||
      what = "read outside the instruction array"
  | _ => false

/-- A computation without such an access. -/
abbrev Safely {α : Type} (post : α → Prop) (x : Except Fault α) : Prop :=
  Fallible.Ensures (fun fault => fault.isOutOfBounds = false) post x

/-! ## Functions that do not see the stack -/

/-- Without such an access, whatever the result is. -/
abbrev Apart {α : Type} (x : Except Fault α) : Prop := Safely (fun _ => True) x

variable {address : JSValue → CInt} {heap : Heap} {scope : ScopeRef} {key : CString}
  {v left right : JSValue}

theorem scopeDeclare_apart : Apart (scopeDeclare heap scope key v) :=
  .ite (fun _ => trivial) fun _ => rfl

theorem scopeGet_apart : Apart (scopeGet heap scope key) := by
  unfold scopeGet
  split
  · trivial
  · trivial
  · rfl
  · rfl

theorem scopeSet_apart : Apart (scopeSet heap scope key v) := by
  unfold scopeSet
  split
  · trivial
  · trivial
  · rfl
  · rfl

theorem scopeContains_apart : Apart (scopeContains heap scope key) := by
  unfold scopeContains
  split
  · trivial
  · trivial
  · rfl
  · rfl

theorem objectReadProperty_apart {obj : ObjectRef} {key : PropertyKey} :
    Apart (objectReadProperty heap obj key) := by
  unfold objectReadProperty
  split
  · split
    · trivial
    · rfl
    · trivial
    · trivial
  · trivial
  · rfl
  · rfl

theorem objectWriteProperty_apart {obj : ObjectRef} {key : PropertyKey} :
    Apart (objectWriteProperty heap obj key v) := by
  unfold objectWriteProperty
  split
  · rfl
  · split
    · trivial
    · rfl
    · trivial

theorem stringTableLoadStr_apart {table : StringTable} {idx : UInt32} :
    Apart (stringTableLoadStr table idx) := by
  unfold stringTableLoadStr
  refine .ite (fun _ => rfl) fun _ => ?_
  split
  · rfl
  · split
    · rfl
    · exact .ite (fun _ => rfl) fun _ => trivial

theorem valueIsFalsy_apart : Apart (valueIsFalsy v) := by
  cases v <;> trivial

theorem valueIsTruthy_apart : Apart (valueIsTruthy v) :=
  valueIsFalsy_apart.bind fun _ _ => trivial

theorem valueToString_apart : Apart (valueToString v) := by
  cases v <;> trivial

theorem objectOf_apart : Apart (objectOf heap v) := by
  unfold objectOf
  split
  · trivial
  · split
    · trivial
    · rfl
  · rfl

theorem propertyKey_apart : Apart (propertyKey v) := by
  unfold propertyKey
  split
  · trivial
  · exact valueToString_apart.bind fun _ _ => trivial

/-! ### Operators -/

theorem signed_apart {i : ℤ} : Apart (signed i) := .ite (fun _ => trivial) fun _ => rfl

theorem toInt_apart {d : Binary64} : Apart (toInt d) := by
  unfold toInt
  split
  · trivial
  · rfl

theorem narrow_apart {d : Binary64} : Apart (narrow d) := toInt_apart.bind fun _ _ => trivial

theorem arithmetic_apart {ints : CInt → CInt → Except Fault JSValue}
    {doubles : Binary64 → Binary64 → Except Fault JSValue} (hints : ∀ l r, Apart (ints l r))
    (hdoubles : ∀ l r, Apart (doubles l r)) :
    Apart (arithmetic address ints doubles left right) := by
  unfold arithmetic
  split
  · exact hints _ _
  · exact hdoubles _ _
  · exact hdoubles _ _
  · rfl

theorem divDoubles_apart {l r : Binary64} : Apart (divDoubles l r) :=
  .ite (fun _ => trivial) fun _ => .ite (fun _ => trivial) fun _ => narrow_apart

theorem modInts_apart {l r : CInt} : Apart (modInts l r) :=
  .ite (fun _ => trivial) fun _ => .ite (fun _ => rfl) fun _ => trivial

theorem modDoubles_apart {l r : Binary64} : Apart (modDoubles l r) :=
  .ite (fun _ => trivial) fun _ => narrow_apart

theorem numberToInt_apart : Apart (numberToInt address v) := by
  unfold numberToInt
  split
  · exact toInt_apart
  · trivial

theorem bitwise_apart {op : CInt → CInt → Except Fault CInt} (hop : ∀ l r, Apart (op l r)) :
    Apart (bitwise address op left right) :=
  numberToInt_apart.bind fun _ _ => numberToInt_apart.bind fun _ _ => (hop _ _).bind fun _ _ => trivial

theorem orFallback_apart : Apart (orFallback left right) := by
  unfold orFallback
  split
  · trivial
  · exact toInt_apart.bind fun _ _ => trivial
  · trivial
  · exact toInt_apart.bind fun _ _ => trivial
  · trivial

theorem shift_apart {op : CInt → CInt → Except Fault CInt} (hop : ∀ l r, Apart (op l r)) :
    Apart (shift address op left right) := by
  unfold shift
  refine .ite (fun _ => trivial) fun _ => .ite (fun _ => ?_) fun _ => bitwise_apart hop
  split
  · exact toInt_apart.bind fun _ _ => trivial
  · trivial

theorem shiftCount_apart {r : CInt} : Apart (shiftCount r) := by
  unfold shiftCount
  split
  · trivial
  · rfl

theorem tripleEquals_apart : Apart (tripleEquals left right) := by
  cases left <;> cases right <;> trivial

theorem relational_apart {ints : ℤ → ℤ → Bool} {doubles : Binary64 → Binary64 → Bool} :
    Apart (relational ints doubles left right) := by
  unfold relational
  refine .ite (fun _ => trivial) fun _ => ?_
  split <;> trivial

theorem binaryValue_apart (op : BinaryOpcode) : Apart (binaryValue address op left right) := by
  cases op with
  | add =>
    unfold binaryValue addValue
    exact arithmetic_apart (fun _ _ => signed_apart.bind fun _ _ => trivial) fun _ _ => trivial
  | minus =>
    unfold binaryValue minusValue
    exact arithmetic_apart (fun _ _ => signed_apart.bind fun _ _ => trivial) fun _ _ => trivial
  | mul =>
    unfold binaryValue mulValue
    exact arithmetic_apart (fun _ _ => signed_apart.bind fun _ _ => trivial) fun _ _ => narrow_apart
  | div =>
    unfold binaryValue divValue
    exact arithmetic_apart (fun _ _ => rfl) fun _ _ => divDoubles_apart
  | mod =>
    unfold binaryValue modValue
    exact arithmetic_apart (fun _ _ => modInts_apart) fun _ _ => modDoubles_apart
  | binaryAnd => exact .ite (fun _ => trivial) fun _ => bitwise_apart fun _ _ => trivial
  | binaryOr => exact .ite (fun _ => orFallback_apart) fun _ => bitwise_apart fun _ _ => trivial
  | binaryXor => exact .ite (fun _ => orFallback_apart) fun _ => bitwise_apart fun _ _ => trivial
  | binaryLshft =>
    unfold binaryValue binaryLshftValue
    refine shift_apart fun _ _ => shiftCount_apart.bind fun _ _ => ?_
    exact .ite (fun _ => rfl) fun _ => signed_apart
  | binaryRshft =>
    unfold binaryValue binaryRshftValue
    exact shift_apart fun _ _ => shiftCount_apart.bind fun _ _ => trivial
  | binaryZrshft =>
    unfold binaryValue binaryZrshftValue
    exact shift_apart fun _ _ => shiftCount_apart.bind fun _ _ => trivial
  | teq => exact tripleEquals_apart.bind fun _ _ => trivial
  | nteq => exact tripleEquals_apart.bind fun _ _ => trivial
  | gt =>
    unfold binaryValue gtValue
    exact relational_apart
  | geq =>
    unfold binaryValue geqValue
    exact relational_apart
  | lt =>
    unfold binaryValue ltValue
    exact relational_apart
  | leq =>
    unfold binaryValue leqValue
    exact relational_apart

theorem unaryValue_apart (op : UnaryOpcode) : Apart (unaryValue address op v) := by
  cases op with
  | binaryNot =>
    refine .ite (fun _ => trivial) fun _ => ?_
    split
    · exact toInt_apart.bind fun _ _ => trivial
    · trivial
  | not => exact valueIsFalsy_apart.bind fun _ _ => trivial
  | negate =>
    refine .ite (fun _ => trivial) fun _ => ?_
    split
    · exact signed_apart.bind fun _ _ => trivial
    · trivial
    · rfl
  | typeof => cases v <;> trivial

/-! ## The operand stack -/

/-- Both counters are in the stack. -/
structure VM.Bounded (vm : VM) : Prop where
  stackCounter : vm.stats.stackCounter ≤ stackSize
  stackStart : vm.stats.stackStart ≤ stackSize

/-- The same, with so many operands. -/
structure VM.Depth (n : ℕ) (vm : VM) : Prop where
  bounded : vm.Bounded
  counter : vm.stats.stackCounter = n

variable {vm : VM} {n k : ℕ}

theorem VM.Bounded.depth (h : vm.Bounded) : vm.Depth vm.stats.stackCounter := ⟨h, rfl⟩

namespace VM.Depth

theorem le (h : vm.Depth n) : n ≤ stackSize := h.counter ▸ h.bounded.stackCounter

theorem setHeap (h : vm.Depth n) (heap : Heap) : VM.Depth n { vm with heap } :=
  ⟨⟨h.bounded.stackCounter, h.bounded.stackStart⟩, h.counter⟩

theorem setCounter (h : vm.Depth n) (ic : ℕ) : (vm.setCounter ic).Depth n :=
  ⟨⟨h.bounded.stackCounter, h.bounded.stackStart⟩, h.counter⟩

theorem drop (h : vm.Depth n) (hk : k ≤ n) : (vm.drop k).Depth (n - k) := by
  have hcounter : (vm.drop k).stats.stackCounter = n - k := by
    show sizeSub vm.stats.stackCounter k = n - k
    rw [h.counter, sizeSub_of_le hk]
  refine ⟨⟨?_, h.bounded.stackStart⟩, hcounter⟩
  rw [hcounter]
  exact Nat.le_trans (Nat.sub_le n k) h.le

theorem slot (h : vm.Depth n) (hk : k < n) : Apart (vm.slot k) := by
  have hlt : k < stackSize := Nat.lt_of_lt_of_le hk h.le
  rw [VM.slot, if_pos hlt]
  trivial

/-- The slot `k` below the top. -/
theorem slot_sub (h : vm.Depth n) (hk : 0 < k) (hle : k ≤ n) :
    Apart (vm.slot (vm.stats.stackCounter - k)) :=
  h.slot (by rw [h.counter]; omega)

theorem setSlot (h : vm.Depth n) (hk : k < stackSize) : Safely (VM.Depth n) (vm.setSlot k v) := by
  rw [VM.setSlot, if_pos hk]
  exact ⟨⟨h.bounded.stackCounter, h.bounded.stackStart⟩, h.counter⟩

theorem setTop (h : vm.Depth n) (hn : 0 < n) : Safely (VM.Depth n) (vm.setTop v) := by
  refine h.setSlot ?_
  have hle := h.le
  rw [h.counter, sizeSub_of_le hn]
  omega

theorem append (h : vm.Depth n) (hn : n < stackSize) : Safely (VM.Depth (n + 1)) (vm.append v) := by
  have hslot : Safely (VM.Depth n) (vm.setSlot vm.stats.stackCounter v) :=
    h.setSlot (h.counter ▸ hn)
  refine hslot.bind fun vm' h' => ?_
  have hcounter : vm'.stats.stackCounter + 1 = n + 1 := congrArg (· + 1) h'.counter
  exact ⟨⟨hcounter ▸ hn, h'.bounded.stackStart⟩, hcounter⟩

theorem room (h : vm.Depth n) : Safely (fun _ => n < stackSize) vm.room := by
  unfold VM.room
  rw [h.counter]
  exact .ite (fun _ => rfl) fun hlt => Nat.lt_of_not_le hlt

theorem need (h : vm.Depth n) (k : ℕ) : Safely (fun _ => k ≤ n) (vm.need k) := by
  unfold VM.need
  rw [h.counter]
  exact .ite (fun _ => rfl) fun hlt => Nat.le_of_not_lt hlt

theorem push (h : vm.Depth n) : Safely (VM.Depth (n + 1)) (vm.push v) :=
  h.room.bind fun _ hn => h.append hn

theorem pushArgs (h : vm.Depth n) {args : List JSValue} (hn : n + args.length ≤ stackSize) :
    Safely (VM.Depth (n + args.length)) (pushArgs vm args) := by
  unfold AtomixJS.pushArgs
  rw [← List.length_reverse] at hn ⊢
  generalize args.reverse = values at hn ⊢
  induction values generalizing vm n with
  | nil => exact h
  | cons v values ih =>
    rw [List.length_cons] at hn ⊢
    rw [List.foldlM_cons]
    refine (h.append (by omega)).bind fun vm' h' => ?_
    rw [Nat.add_comm values.length, ← Nat.add_assoc]
    exact ih h' (by omega)

end VM.Depth

/-! ## What is left to the program -/

/-- If `api_call_function` pushes the arguments and `this`, there is room for them. -/
def HasRoom (vm : VM) (function : FunctionRef) (argc : ℕ) : Prop :=
  ∀ base scope module start stop,
    vm.heap.functions[function]? = some ⟨base, .bytecode scope module start stop⟩ →
    vm.stats.stackCounter + argc + 1 ≤ stackSize

/-- What the handler of an instruction relies on. -/
def Guarded (vm : VM) : Inst → Prop
  | .loadArg _ => vm.stats.stackCounter < stackSize
  | .jmpF _ | .jmpT _ => 0 < vm.stats.stackCounter
  | .call operand => 0 < vm.stats.stackCounter → ∀ function base kind,
      vm.slot (vm.stats.stackCounter - 1) = .ok (.func function) →
      vm.heap.functions[function]? = some ⟨base, kind⟩ → kind ≠ .native none →
      operand.toNat + 2 ≤ vm.stats.stackCounter
  -- a getter, and a setter among the exports, find no more room than there was
  | .objLoad operand => 0 < vm.stats.stackCounter → ∀ value ref key function this,
      vm.slot (vm.stats.stackCounter - 1) = .ok value → objectOf vm.heap value = .ok ref →
      vm.loadStr operand = .ok key →
      objectReadProperty vm.heap ref (.string key) = .ok (.getter function this) →
      HasRoom vm function 0
  | .exportAs operand => 0 < vm.stats.stackCounter → ∀ value module key function this,
      vm.slot (vm.stats.stackCounter - 1) = .ok value → vm.currentModule = .ok module →
      vm.loadStr operand = .ok key →
      objectWriteProperty vm.heap module.exports (.string key) value =
        .ok (.setter function this) →
      HasRoom (vm.drop 1) function 1
  | _ => True

/-- What one round of a loop relies on: the next index is one of the module, and so is what the
handler needs there. -/
structure FrameKind.Guarded (kind : FrameKind) (vm : VM) : Prop where
  counter : ∀ stop module, kind = .function stop → vm.stats.instructionCounter < stop →
    vm.currentModule = .ok module →
    vm.stats.instructionCounter < module.dataSection.count.toNat
  inst : ∀ inst, kind.continues vm = .ok true →
    vm.instructionAt vm.stats.instructionCounter = .ok (some inst) → AtomixJS.Guarded vm inst

/-- What the next step relies on. -/
def Config.Guarded (config : Config) : Prop :=
  match config.prog, config.frames with
  | .done vm, frame :: _ => frame.kind.Guarded vm
  | .native vm (.apiCallFunction heap function _ args _) _, _ =>
    HasRoom { vm with heap } function args.length
  | _, _ => True

/-! ## C code that waits -/

/-- A native function touches nothing outside, whatever the calls do that it makes. -/
def NativeProgram.StaysInBounds : NativeProgram → Prop
  | .ret _ _ => True
  | .fault f => f.isOutOfBounds = false
  | .apiCallFunction _ _ _ _ next => ∀ heap value, (next heap value).StaysInBounds
  | .execModule _ _ next => ∀ heap, (next heap).StaysInBounds

/-- The stack counter stays in the stack and nothing is touched outside, whatever the calls do
that the code waits for.  They give the stack back with at least the operands that it had. -/
def Prog.StaysInBounds : Prog → Prop
  | .done vm => vm.Bounded
  | .fault f => f.isOutOfBounds = false
  | .native vm program next => vm.Bounded ∧ program.StaysInBounds ∧ ∀ vm' value, vm'.Bounded →
      vm.stats.stackCounter ≤ vm'.stats.stackCounter → (next vm' value).StaysInBounds
  | .call vm _ _ next => vm.Bounded ∧ ∀ vm' value, vm'.Bounded →
      vm.stats.stackCounter ≤ vm'.stats.stackCounter → (next vm' value).StaysInBounds
  | .execModule vm _ next => vm.Bounded ∧ ∀ vm', vm'.Bounded →
      vm.stats.stackCounter ≤ vm'.stats.stackCounter → (next vm').StaysInBounds

/-- The native functions touch nothing outside. -/
def Host.StaysInBounds (host : Host) : Prop :=
  ∀ pointer heap module this args,
    (host.nativeFunction pointer heap module this args).StaysInBounds

variable {host : Host} {vm' : VM} {function : FunctionRef} {this : JSValue} {args : List JSValue}
  {next : VM → JSValue → Prog} {operand : UInt16}

theorem Prog.StaysInBounds.after {α : Type} {result : Except Fault α} {next : α → Prog}
    (h : Safely (fun a => (next a).StaysInBounds) result) : (Prog.after result next).StaysInBounds := by
  cases result with
  | error f =>
    show (Prog.fault f).StaysInBounds
    exact h
  | ok a => exact h

theorem Prog.StaysInBounds.ofExcept {result : Except Fault VM} (h : Safely VM.Bounded result) :
    (Prog.ofExcept result).StaysInBounds := by
  refine .after (h.mono fun vm hvm => ?_)
  exact hvm

theorem staysInBounds_apiCallFunction (hhost : host.StaysInBounds) (h : vm.Depth n)
    (hroom : HasRoom vm function args.length)
    (hnext : ∀ vm' value, vm'.Bounded → n ≤ vm'.stats.stackCounter →
      (next vm' value).StaysInBounds) :
    (apiCallFunction host vm function this args next).StaysInBounds := by
  unfold apiCallFunction
  split
  · exact rfl
  · exact rfl
  · refine ⟨h.bounded, hhost _ _ _ _ _, fun vm' value hvm' hle => ?_⟩
    exact hnext vm' value hvm' (h.counter ▸ hle)
  · next base scope module start stop hfunction =>
    have hfits := hroom base scope module start stop hfunction
    rw [h.counter] at hfits
    refine .after ?_
    refine (h.pushArgs (by omega)).bind fun pushed hpushed => ?_
    refine (hpushed.append (by omega)).mono fun called hcalled => ⟨hcalled.bounded, ?_⟩
    -- the callee gives back the arguments and `this`, of which the arguments are dropped
    intro vm' value hvm' hle
    rw [hcalled.counter] at hle
    have hdrop : (vm'.drop args.length).Depth (vm'.stats.stackCounter - args.length) :=
      hvm'.depth.drop (by omega)
    refine hnext _ value hdrop.bounded ?_
    rw [hdrop.counter]
    omega

theorem staysInBounds_stepNative (hhost : host.StaysInBounds) {program : NativeProgram}
    (h : (Prog.native vm program next).StaysInBounds) {frames : List Frame}
    (hguard : Config.Guarded ⟨.native vm program next, frames⟩) :
    (stepNative host vm next program).StaysInBounds := by
  obtain ⟨hvm, hprogram, hnext⟩ := h
  cases program with
  | ret heap value => exact hnext _ value (hvm.depth.setHeap heap).bounded (Nat.le_refl _)
  | fault f => exact hprogram
  | apiCallFunction heap function this args rest =>
    refine staysInBounds_apiCallFunction hhost (hvm.depth.setHeap heap) hguard
      fun vm' value hvm' hle => ?_
    refine ⟨hvm', hprogram _ _, fun vm'' value' hvm'' hle' => ?_⟩
    exact hnext vm'' value' hvm'' (Nat.le_trans hle hle')
  | execModule heap module rest =>
    refine ⟨(hvm.depth.setHeap heap).bounded, fun vm' hvm' hle => ?_⟩
    refine ⟨hvm', hprogram _, fun vm'' value' hvm'' hle' => ?_⟩
    exact hnext vm'' value' hvm'' (Nat.le_trans hle hle')

/-! ## Handlers -/

theorem currentModule_apart : Apart vm.currentModule := by
  unfold VM.currentModule
  split
  · trivial
  · rfl

theorem loadStr_apart {idx : UInt16} : Apart (vm.loadStr idx) :=
  currentModule_apart.bind fun _ _ => stringTableLoadStr_apart

namespace VM.Depth

theorem binaryHandler (h : vm.Depth n) {shortcut : JSValue → JSValue → Option JSValue}
    {value : JSValue → JSValue → Except Fault JSValue} (hvalue : ∀ l r, Apart (value l r)) :
    Safely VM.Bounded (binaryHandler shortcut value vm) := by
  refine (h.need 2).bind fun _ hn => ?_
  refine (h.slot_sub (by omega) hn).bind fun left _ => ?_
  refine (h.slot_sub (by omega) (by omega)).bind fun right _ => ?_
  split
  · exact (h.setTop (by omega)).mono fun vm' h' => h'.bounded
  · refine (hvalue left right).bind fun v _ => ?_
    exact ((h.drop (by omega)).setTop (by omega)).mono fun vm' h' => h'.bounded

theorem unaryHandler (h : vm.Depth n) {value : JSValue → Except Fault JSValue}
    (hvalue : ∀ v, Apart (value v)) : Safely VM.Bounded (unaryHandler value vm) := by
  refine (h.need 1).bind fun _ hn => ?_
  refine (h.slot_sub (by omega) hn).bind fun right _ => ?_
  refine (hvalue right).bind fun v _ => ?_
  exact (h.setTop (by omega)).mono fun vm' h' => h'.bounded

theorem instLdString (h : vm.Depth n) : Safely VM.Bounded (instLdString operand vm) := by
  refine h.room.bind fun _ hn => ?_
  refine loadStr_apart.bind fun key _ => ?_
  exact (h.append hn).mono fun vm' h' => h'.bounded

theorem instLdThis (h : vm.Depth n) : Safely VM.Bounded (instLdThis vm) := by
  refine h.room.bind fun _ hn => ?_
  refine scopeGet_apart.bind fun value _ => ?_
  exact (h.append hn).mono fun vm' h' => h'.bounded

theorem instPop (h : vm.Depth n) : Safely VM.Bounded (instPop vm) :=
  (h.need 1).bind fun _ hn => (h.drop hn).bounded

theorem instDup (h : vm.Depth n) : Safely VM.Bounded (instDup vm) := by
  refine (h.need 1).bind fun _ hn => ?_
  refine h.room.bind fun _ hlt => ?_
  refine (h.slot_sub (by omega) hn).bind fun value _ => ?_
  exact (h.append hlt).mono fun vm' h' => h'.bounded

theorem instSwap (h : vm.Depth n) : Safely VM.Bounded (instSwap vm) := by
  have hle := h.le
  refine (h.need 2).bind fun _ hn => ?_
  refine (h.slot_sub (by omega) hn).bind fun left _ => ?_
  refine (h.slot_sub (by omega) (by omega)).bind fun right _ => ?_
  refine (h.setSlot (by rw [h.counter]; omega)).bind fun vm₁ h₁ => ?_
  exact (h₁.setSlot (by rw [h₁.counter]; omega)).mono fun vm₂ h₂ => h₂.bounded

theorem instAllocLocal (h : vm.Depth n) : Safely VM.Bounded (instAllocLocal operand vm) := by
  refine (h.need 1).bind fun _ hn => ?_
  refine (h.slot_sub (by omega) hn).bind fun value _ => ?_
  refine loadStr_apart.bind fun key _ => ?_
  refine scopeDeclare_apart.bind fun heap _ => ?_
  exact ((h.drop hn).setHeap heap).bounded

theorem instStoreLocal (h : vm.Depth n) : Safely VM.Bounded (instStoreLocal operand vm) := by
  refine (h.need 1).bind fun _ hn => ?_
  refine (h.slot_sub (by omega) hn).bind fun value _ => ?_
  refine loadStr_apart.bind fun key _ => ?_
  refine scopeSet_apart.bind fun heap? _ => ?_
  split
  · exact ((h.drop hn).setHeap _).bounded
  · rfl

theorem instLoadLocal (h : vm.Depth n) : Safely VM.Bounded (instLoadLocal operand vm) := by
  refine h.room.bind fun _ hn => ?_
  refine loadStr_apart.bind fun key _ => ?_
  refine scopeContains_apart.bind fun found _ => ?_
  refine .ite (fun _ => rfl) fun _ => ?_
  refine scopeGet_apart.bind fun value _ => ?_
  exact (h.append hn).mono fun vm' h' => h'.bounded

theorem instLoadArg (h : vm.Depth n) (hn : n < stackSize) :
    Safely VM.Bounded (instLoadArg operand vm) := by
  unfold AtomixJS.instLoadArg
  refine .ite (fun _ => (h.append hn).mono fun vm' h' => h'.bounded) fun hle => ?_
  -- the start of the frame is in the stack, and the slot is below it
  have hstart := h.bounded.stackStart
  have hslot : Apart (vm.slot (vm.stats.stackStart - operand.toNat - 1)) := by
    rw [VM.slot, if_pos (by omega)]
    trivial
  refine hslot.bind fun value _ => ?_
  exact (h.append hn).mono fun vm' h' => h'.bounded

theorem instFuncDecl (h : vm.Depth n) {name : Option UInt16} {size : UInt16} :
    Safely VM.Bounded (instFuncDecl name size vm) := by
  refine h.room.bind fun _ hn => ?_
  have hrest : ∀ heap value ic,
      Safely VM.Bounded (do let vm ← VM.append { vm with heap } value; return vm.setCounter ic) :=
    fun heap value ic => ((h.setHeap heap).append hn).bind fun vm' h' => (h'.setCounter ic).bounded
  cases name with
  | none => exact hrest _ _ _
  | some idx =>
    refine loadStr_apart.bind fun key _ => ?_
    exact scopeDeclare_apart.bind fun heap _ => hrest heap _ _

theorem instArrAlloc (h : vm.Depth n) : Safely VM.Bounded (instArrAlloc vm) :=
  h.room.bind fun _ hn => ((h.setHeap _).append hn).mono fun _ h' => h'.bounded

theorem instObjAlloc (h : vm.Depth n) : Safely VM.Bounded (instObjAlloc vm) :=
  h.room.bind fun _ hn => ((h.setHeap _).append hn).mono fun _ h' => h'.bounded

theorem instPopScope (h : vm.Depth n) : Safely VM.Bounded (instPopScope vm) := by
  unfold AtomixJS.instPopScope
  split
  · rfl
  · split
    · rfl
    · exact ⟨h.bounded.stackCounter, h.bounded.stackStart⟩

theorem instJmpIf (h : vm.Depth n) (hn : 0 < n) {test : JSValue → Except Fault Bool}
    (htest : ∀ v, Apart (test v)) : Safely VM.Bounded (instJmpIf test operand vm) := by
  have hslot : Apart (vm.slot (sizeSub vm.stats.stackCounter 1)) :=
    h.slot (by rw [h.counter, sizeSub_of_le hn]; omega)
  refine hslot.bind fun value _ => ?_
  refine (htest value).bind fun b _ => ?_
  show VM.Bounded (if b then (vm.drop 1).setCounter operand.toNat else vm.drop 1)
  split
  · exact ((h.drop hn).setCounter _).bounded
  · exact (h.drop hn).bounded

end VM.Depth

/-! ### Handlers that call -/

theorem staysInBounds_objectGetProperty (hhost : host.StaysInBounds) (h : vm.Depth n)
    {obj : ObjectRef} {key : PropertyKey}
    (hroom : ∀ function this, objectReadProperty vm.heap obj key = .ok (.getter function this) →
      HasRoom vm function 0)
    (hnext : ∀ vm' value, vm'.Bounded → n ≤ vm'.stats.stackCounter →
      (next vm' value).StaysInBounds) :
    (objectGetProperty host vm obj key next).StaysInBounds := by
  refine .after ((objectReadProperty_apart.and_eq).mono fun read hread => ?_)
  cases read with
  | value value => exact hnext vm value h.bounded (Nat.le_of_eq h.counter.symm)
  | getter function this =>
    exact staysInBounds_apiCallFunction hhost h (hroom function this hread.2) hnext

theorem staysInBounds_objectSetProperty (hhost : host.StaysInBounds) (h : vm.Depth n)
    {obj : ObjectRef} {key : PropertyKey}
    (hroom : ∀ function this, objectWriteProperty vm.heap obj key v = .ok (.setter function this) →
      HasRoom vm function 1) :
    (objectSetProperty host vm obj key v .done).StaysInBounds := by
  refine .after ((objectWriteProperty_apart.and_eq).mono fun write hwrite => ?_)
  cases write with
  | stored heap => exact (h.setHeap heap).bounded
  | setter function this =>
    exact staysInBounds_apiCallFunction hhost h (hroom function this hwrite.2)
      fun vm' value hvm' _ => hvm'

theorem staysInBounds_loadIntoTop (hhost : host.StaysInBounds) (h : vm.Depth n) (hn : 0 < n)
    {obj : ObjectRef} {key : PropertyKey}
    (hroom : ∀ function this, objectReadProperty vm.heap obj key = .ok (.getter function this) →
      HasRoom vm function 0) :
    (loadIntoTop host vm obj key).StaysInBounds := by
  unfold loadIntoTop
  refine staysInBounds_objectGetProperty hhost h hroom fun vm' value hvm' hle => .ofExcept ?_
  have htop : sizeSub vm.stats.stackCounter 1 < stackSize := by
    have hsize := h.le
    rw [h.counter, sizeSub_of_le hn]
    omega
  have htop' : sizeSub vm'.stats.stackCounter 1 < stackSize := by
    have hsize := hvm'.stackCounter
    rw [sizeSub_of_le (by omega)]
    omega
  split
  · exact (hvm'.depth.setSlot htop).mono fun vm'' h' => h'.bounded
  · exact (hvm'.depth.setSlot htop').mono fun vm'' h' => h'.bounded

theorem hasRoom_of_le {argc : ℕ} (h : vm.stats.stackCounter + argc + 1 ≤ stackSize)
    (function : FunctionRef) : HasRoom vm function argc := fun _ _ _ _ _ _ => h

namespace VM.Depth

theorem objLoad (hhost : host.StaysInBounds) (h : vm.Depth n) (hguard : Guarded vm (.objLoad operand)) :
    (instObjLoad host operand vm).StaysInBounds := by
  refine .after ((h.need 1).bind fun _ hn => ?_)
  refine ((h.slot_sub (by omega) hn).and_eq).bind fun value hvalue => ?_
  refine (objectOf_apart.and_eq).bind fun ref href => ?_
  refine (loadStr_apart.and_eq).bind fun key hkey => ?_
  exact staysInBounds_loadIntoTop hhost h (by omega) fun function this hread =>
    hguard (h.counter ▸ hn) value ref key function this hvalue.2 href.2 hkey.2 hread

theorem objCload (hhost : host.StaysInBounds) (h : vm.Depth n) :
    (instObjCload host vm).StaysInBounds := by
  refine .after ((h.need 2).bind fun _ hn => ?_)
  refine (h.slot_sub (by omega) (by omega)).bind fun computed _ => ?_
  refine (h.slot_sub (by omega) hn).bind fun value _ => ?_
  refine objectOf_apart.bind fun ref _ => ?_
  refine propertyKey_apart.bind fun key _ => ?_
  have hdrop : (vm.drop 1).Depth (n - 1) := h.drop (by omega)
  have hle := h.le
  exact staysInBounds_loadIntoTop hhost hdrop (by omega) fun function this _ =>
    hasRoom_of_le (by rw [hdrop.counter]; omega) function

theorem objStore (hhost : host.StaysInBounds) (h : vm.Depth n) :
    (instObjStore host operand vm).StaysInBounds := by
  refine .after ((h.need 2).bind fun _ hn => ?_)
  refine (h.slot_sub (by omega) (by omega)).bind fun value _ => ?_
  refine (h.slot_sub (by omega) hn).bind fun obj _ => ?_
  refine objectOf_apart.bind fun ref _ => ?_
  refine loadStr_apart.bind fun key _ => ?_
  have hdrop := h.drop hn
  have hle := h.le
  exact staysInBounds_objectSetProperty hhost hdrop fun function this _ =>
    hasRoom_of_le (by rw [hdrop.counter]; omega) function

theorem objCstore (hhost : host.StaysInBounds) (h : vm.Depth n) :
    (instObjCstore host vm).StaysInBounds := by
  refine .after ((h.need 3).bind fun _ hn => ?_)
  refine (h.slot_sub (by omega) (by omega)).bind fun computed _ => ?_
  refine (h.slot_sub (by omega) (by omega)).bind fun obj _ => ?_
  refine (h.slot_sub (by omega) hn).bind fun value _ => ?_
  refine objectOf_apart.bind fun ref _ => ?_
  refine propertyKey_apart.bind fun key _ => ?_
  have hdrop := h.drop hn
  have hle := h.le
  exact staysInBounds_objectSetProperty hhost hdrop fun function this _ =>
    hasRoom_of_le (by rw [hdrop.counter]; omega) function

theorem exportAs (hhost : host.StaysInBounds) (h : vm.Depth n)
    (hguard : Guarded vm (.exportAs operand)) : (instExport host operand vm).StaysInBounds := by
  refine .after ((h.need 1).bind fun _ hn => ?_)
  refine ((h.slot_sub (by omega) hn).and_eq).bind fun value hvalue => ?_
  refine (loadStr_apart.and_eq).bind fun key hkey => ?_
  refine (currentModule_apart.and_eq).bind fun module hmodule => ?_
  exact staysInBounds_objectSetProperty hhost (h.drop hn) fun function this hwrite =>
    hguard (h.counter ▸ hn) value module key function this hvalue.2 hmodule.2 hkey.2 hwrite

/-- What `CALL` does behind the call. -/
theorem callReturn (h : vm.Depth n) (hn : operand.toNat + 1 ≤ n) (value : JSValue) :
    (callReturn operand vm value).StaysInBounds := by
  have hle := h.le
  exact .ofExcept (((h.drop hn).append (by omega)).mono fun vm' h' => h'.bounded)

theorem readArgs (h : vm.Depth n) {argc : ℕ} (hn : argc ≤ n) : Apart (readArgs vm argc) := by
  have hslots : ∀ i ∈ List.range argc, Apart (vm.slot (sizeSub vm.stats.stackCounter (i + 1))) := by
    intro i hi
    have hlt := List.mem_range.mp hi
    exact h.slot (by rw [h.counter, sizeSub_of_le (by omega)]; omega)
  exact (Fallible.Ensures.mapM hslots).mono fun _ _ => trivial

theorem call (hhost : host.StaysInBounds) (h : vm.Depth n) (hguard : Guarded vm (.call operand)) :
    (instCall host operand vm).StaysInBounds := by
  refine .after ?_
  refine (h.need 1).bind fun _ hn => ?_
  refine ((h.slot_sub (by omega) hn).and_eq).mono fun callee hcallee => ?_
  have hdrop := h.drop hn
  have hreturn : ∀ base kind function, callee = .func function →
      vm.heap.functions[function]? = some ⟨base, kind⟩ → kind ≠ .native none →
      operand.toNat + 1 ≤ n - 1 := by
    rintro base kind function rfl hfunction hkind
    have hfits := hguard (h.counter ▸ hn) function base kind hcallee.2 hfunction hkind
    rw [h.counter] at hfits
    omega
  dsimp only
  split
  · next function =>
    split
    · exact rfl
    · exact rfl
    · next base pointer hfunction =>
      have hfits := hreturn base _ function rfl hfunction (by rintro ⟨⟩)
      refine .after ((hdrop.readArgs hfits).mono fun args _ => ?_)
      refine ⟨hdrop.bounded, hhost _ _ _ _ _, fun vm' value hvm' hle => ?_⟩
      rw [hdrop.counter] at hle
      exact hvm'.depth.callReturn (by omega) value
    · next base scope module start stop hfunction =>
      have hfits := hreturn base _ function rfl hfunction (by rintro ⟨⟩)
      have hslot : Apart ((vm.drop 1).slot (sizeSub (vm.drop 1).stats.stackCounter 1)) :=
        hdrop.slot (by rw [hdrop.counter, sizeSub_of_le (by omega)]; omega)
      refine .after (hslot.mono fun this _ => ⟨hdrop.bounded, fun vm' value hvm' hle => ?_⟩)
      rw [hdrop.counter] at hle
      exact hvm'.depth.callReturn (by omega) value
  · exact rfl

end VM.Depth

/-- One instruction. -/
theorem staysInBounds_execInst (hhost : host.StaysInBounds) (h : vm.Depth n) {inst : Inst}
    (hguard : Guarded vm inst) : (execInst host inst vm).StaysInBounds := by
  cases inst with
  | nop | ret => exact h.bounded
  | ldInt i => exact .ofExcept (h.push.mono fun vm' h' => h'.bounded)
  | ldDouble d => exact .ofExcept (h.push.mono fun vm' h' => h'.bounded)
  | ldUndf | ldNull | ldTrue | ldFalse => exact .ofExcept (h.push.mono fun vm' h' => h'.bounded)
  | ldString operand => exact .ofExcept h.instLdString
  | ldThis => exact .ofExcept h.instLdThis
  | binary op => exact .ofExcept (h.binaryHandler fun l r => binaryValue_apart op)
  | unary op => exact .ofExcept (h.unaryHandler fun v => unaryValue_apart op)
  | pop => exact .ofExcept h.instPop
  | dup => exact .ofExcept h.instDup
  | swap => exact .ofExcept h.instSwap
  | allocLocal operand => exact .ofExcept h.instAllocLocal
  | storeLocal operand => exact .ofExcept h.instStoreLocal
  | loadLocal operand => exact .ofExcept h.instLoadLocal
  | loadArg operand => exact .ofExcept (h.instLoadArg (h.counter ▸ hguard))
  | funcDecl operand operand2 => exact .ofExcept h.instFuncDecl
  | funcDeclE operand => exact .ofExcept h.instFuncDecl
  | call operand => exact h.call hhost hguard
  | arrAlloc => exact .ofExcept h.instArrAlloc
  | objAlloc => exact .ofExcept h.instObjAlloc
  | objStore operand => exact h.objStore hhost
  | objLoad operand => exact h.objLoad hhost hguard
  | objCload => exact h.objCload hhost
  | objCstore => exact h.objCstore hhost
  | pushScope => exact ⟨h.bounded.stackCounter, h.bounded.stackStart⟩
  | popScope => exact .ofExcept h.instPopScope
  | jmp operand => exact (h.setCounter _).bounded
  | jmpF operand => exact .ofExcept (h.instJmpIf (h.counter ▸ hguard) fun v => valueIsFalsy_apart)
  | jmpT operand => exact .ofExcept (h.instJmpIf (h.counter ▸ hguard) fun v => valueIsTruthy_apart)
  | exportAs operand => exact h.exportAs hhost hguard

/-! ## Steps -/

/-- What a frame saved fits in the stack, and its caller goes on with that. -/
structure Frame.StaysInBounds (frame : Frame) : Prop where
  stackCounter : frame.stats.stackCounter ≤ stackSize
  stackStart : frame.stats.stackStart ≤ stackSize
  next : ∀ vm value, vm.Bounded → frame.stats.stackCounter ≤ vm.stats.stackCounter →
    (frame.next vm value).StaysInBounds

structure Config.StaysInBounds (config : Config) : Prop where
  prog : config.prog.StaysInBounds
  frames : ∀ frame ∈ config.frames, frame.StaysInBounds

variable {frame : Frame} {frames : List Frame}

theorem instructionAt_apart {ic : ℕ}
    (hlt : ∀ module, vm.currentModule = .ok module → ic < module.dataSection.count.toNat) :
    Apart (vm.instructionAt ic) := by
  refine (currentModule_apart.and_eq).bind fun module hmodule => ?_
  have hbound := hlt module hmodule.2
  rw [← module.dataSection.count_eq] at hbound
  rw [List.getElem?_eq_getElem hbound]
  trivial

theorem continues_apart {kind : FrameKind} (hguard : kind.Guarded vm) :
    Apart (kind.continues vm) := by
  cases kind with
  | function stop =>
    refine .ite (fun hlt => ?_) fun _ => trivial
    have hinst := instructionAt_apart fun module hmodule => hguard.counter stop module rfl hlt hmodule
    exact hinst.bind fun _ _ => trivial
  | module => exact currentModule_apart.bind fun _ _ => trivial

theorem result_apart {kind : FrameKind} (h : vm.Depth n) : Apart (kind.result vm) := by
  cases kind with
  | function stop =>
    refine .ite (fun hlt => ?_) fun _ => trivial
    rw [h.counter] at hlt
    exact h.slot_sub (by omega) (by omega)
  | module => trivial

theorem staysInBounds_vmExec (hhost : host.StaysInBounds) (h : vm.Depth n) {kind : FrameKind}
    (hguard : kind.Guarded vm) (hcontinues : kind.continues vm = .ok true) :
    (vmExec host vm).StaysInBounds := by
  refine .after ((currentModule_apart.and_eq).mono fun module hmodule => ?_)
  split
  · exact rfl
  · next hlt =>
    have hfetch : Apart (vm.instructionAt vm.stats.instructionCounter) := by
      refine instructionAt_apart fun module' hmodule' => ?_
      obtain rfl := Except.ok.inj (hmodule.2.symm.trans hmodule')
      exact Nat.lt_of_not_le hlt
    refine .after ((hfetch.and_eq).mono fun inst? hinst => ?_)
    cases inst? with
    | none => exact (h.setCounter _).bounded
    | some inst =>
      exact staysInBounds_execInst hhost (h.setCounter _) (hguard.inst inst hcontinues hinst.2)

theorem staysInBounds_stepLoop (hhost : host.StaysInBounds) (hvm : vm.Bounded)
    (hguard : frame.kind.Guarded vm) (hframes : ∀ f ∈ frame :: frames, f.StaysInBounds) :
    (stepLoop host vm frame frames).StaysInBounds := by
  have hcontinues := (continues_apart hguard).and_eq
  unfold stepLoop
  split
  · next fault hfault =>
    rw [hfault] at hcontinues
    exact ⟨hcontinues, hframes⟩
  · next hmore => exact ⟨staysInBounds_vmExec hhost hvm.depth hguard hmore, hframes⟩
  · have hresult : Apart (frame.kind.result vm) := result_apart hvm.depth
    split
    · next fault hfault =>
      rw [hfault] at hresult
      exact ⟨hresult, hframes⟩
    · next value _ =>
      have hframe := hframes frame List.mem_cons_self
      refine ⟨hframe.next _ value ⟨hframe.stackCounter, hframe.stackStart⟩ (Nat.le_refl _), ?_⟩
      exact fun f hf => hframes f (List.mem_cons_of_mem _ hf)

/-- A new frame saves the state of its caller. -/
theorem staysInBounds_open {kind : FrameKind} {prog : Prog} (hvm : vm.Bounded)
    (hprog : prog.StaysInBounds) (hframes : ∀ f ∈ frames, f.StaysInBounds)
    (hnext : ∀ vm' value, vm'.Bounded → vm.stats.stackCounter ≤ vm'.stats.stackCounter →
      (next vm' value).StaysInBounds) :
    Config.StaysInBounds ⟨prog, ⟨vm.module, vm.stats, vm.scope, kind, next⟩ :: frames⟩ := by
  refine ⟨hprog, fun f hf => ?_⟩
  rcases List.mem_cons.mp hf with rfl | hf
  · exact ⟨hvm.stackCounter, hvm.stackStart, hnext⟩
  · exact hframes f hf

theorem staysInBounds_stepCall (h : (Prog.call vm function this next).StaysInBounds)
    (hframes : ∀ f ∈ frames, f.StaysInBounds) :
    (stepCall vm function this next frames).StaysInBounds := by
  obtain ⟨hvm, hnext⟩ := h
  unfold stepCall
  split
  · next base scope module start stop hfunction =>
    have hdeclare : Apart (scopeDeclare vm.heap scope (cString "this") this) := scopeDeclare_apart
    split
    · next fault hfault =>
      rw [hfault] at hdeclare
      exact ⟨hdeclare, hframes⟩
    · refine staysInBounds_open hvm ?_ hframes hnext
      exact ⟨hvm.stackCounter, hvm.stackCounter⟩
  · exact ⟨rfl, hframes⟩

theorem staysInBounds_stepExecModule {module : ModuleRef} {next : VM → Prog}
    (h : (Prog.execModule vm module next).StaysInBounds)
    (hframes : ∀ f ∈ frames, f.StaysInBounds) :
    (stepExecModule vm module next frames).StaysInBounds := by
  obtain ⟨hvm, hnext⟩ := h
  unfold stepExecModule
  split
  · split
    · refine staysInBounds_open hvm ?_ hframes fun vm' _ => hnext vm'
      exact ⟨Nat.zero_le _, Nat.zero_le _⟩
    · exact ⟨rfl, hframes⟩
  · exact ⟨rfl, hframes⟩

/-- The step: from a state in bounds a guarded step leads to one in bounds. -/
theorem Config.StaysInBounds.step {config config' : Config} (hhost : host.StaysInBounds)
    (hguard : config.Guarded) (h : config.StaysInBounds)
    (hstep : step host config = some config') : config'.StaysInBounds := by
  obtain ⟨prog, frames⟩ := config
  obtain ⟨hprog, hframes⟩ := h
  cases prog with
  | fault f => cases hstep
  | done vm =>
    cases frames with
    | nil => cases hstep
    | cons frame frames =>
      obtain rfl := Option.some.inj hstep
      exact staysInBounds_stepLoop hhost hprog hguard hframes
  | native vm program next =>
    obtain rfl := Option.some.inj hstep
    exact ⟨staysInBounds_stepNative hhost hprog hguard, hframes⟩
  | call vm function this next =>
    obtain rfl := Option.some.inj hstep
    exact staysInBounds_stepCall hprog hframes
  | execModule vm module next =>
    obtain rfl := Option.some.inj hstep
    exact staysInBounds_stepExecModule hprog hframes

/-! ## Steps that are not guarded -/

/-- A fault of a slot is an access outside. -/
theorem slot_error {k : ℕ} {f : Fault} (h : vm.slot k = .error f) : f.isOutOfBounds = true := by
  unfold VM.slot at h
  split at h
  · cases h
  · obtain rfl := Except.error.inj h
    rfl

theorem slot_lt (h : Apart (vm.slot k)) : k < stackSize := by
  by_contra hout
  rw [VM.slot, if_neg hout] at h
  cases h

theorem append_error (h : ¬ vm.stats.stackCounter < stackSize) (v : JSValue) :
    vm.append v = .error (.undefinedBehaviour "write outside the operand stack") := by
  have hslot : vm.setSlot vm.stats.stackCounter v =
      .error (.undefinedBehaviour "write outside the operand stack") := if_neg h
  rw [VM.append, hslot]
  rfl

theorem append_lt (h : Apart (vm.append v)) : vm.stats.stackCounter < stackSize := by
  by_contra hout
  rw [append_error hout] at h
  cases h

theorem sizeSub_wraps {a b : ℕ} (hlt : a < b) (hb : b ≤ 2 ^ 16) : ¬ sizeSub a b < stackSize := by
  have hsize : stackSize = 254 := rfl
  rw [sizeSub, if_neg (by omega)]
  omega

/-- `api_call_function` pushes the arguments and `this` in the stack only if there is room. -/
theorem pushArgs_lt (h : Apart (do (← pushArgs vm args).append this)) :
    vm.stats.stackCounter + args.length < stackSize := by
  unfold pushArgs at h
  rw [← List.length_reverse]
  generalize args.reverse = values at h ⊢
  induction values generalizing vm with
  | nil => exact append_lt h
  | cons v values ih =>
    rw [List.foldlM_cons, bind_assoc] at h
    have hlt : vm.stats.stackCounter < stackSize := by
      by_contra hout
      rw [append_error hout] at h
      cases h
    obtain ⟨vm', happend, hrestacked⟩ := VM.append_restacked hlt v
    have hcounter : vm'.stats.stackCounter = vm.stats.stackCounter + 1 := by
      rw [VM.counter_of_operands hrestacked.operands, List.length_cons, VM.operands_length]
    rw [happend, Fallible.ok_bind] at h
    have hrest := ih h
    rw [hcounter] at hrest
    rw [List.length_cons]
    omega

theorem Prog.StaysInBounds.apart {α : Type} {result : Except Fault α} {next : α → Prog}
    (h : (Prog.after result next).StaysInBounds) : Apart result := by
  cases result with
  | error f => exact h
  | ok a => trivial

theorem hasRoom_of_apiCallFunction
    (h : (apiCallFunction host vm function this args next).StaysInBounds) :
    HasRoom vm function args.length := by
  intro base scope module start stop hfunction
  unfold apiCallFunction at h
  simp only [hfunction] at h
  exact pushArgs_lt h.apart

theorem VM.Depth.le_of_callReturn (h : vm.Depth n) {value : JSValue}
    (hreturn : (AtomixJS.callReturn operand vm value).StaysInBounds) : operand.toNat + 1 ≤ n := by
  have happend : Apart ((vm.drop (operand.toNat + 1)).append value) := hreturn.apart
  have hlt : sizeSub vm.stats.stackCounter (operand.toNat + 1) < stackSize := append_lt happend
  by_contra hle
  have hword := operand.toNat_lt
  exact sizeSub_wraps (by rw [h.counter]; omega) (by omega) hlt

theorem VM.Depth.le_of_readArgs (h : vm.Depth n) {argc : ℕ} (hargc : argc < 2 ^ 16)
    (hread : Apart (AtomixJS.readArgs vm (argc + 1))) : argc + 1 ≤ n := by
  cases hmap : AtomixJS.readArgs vm (argc + 1) with
  | error f =>
    obtain ⟨i, -, hslot⟩ := Fallible.error_of_mapM_error hmap
    rw [hmap] at hread
    have hinside : f.isOutOfBounds = false := hread
    rw [slot_error hslot] at hinside
    cases hinside
  | ok values =>
    -- the last of the arguments is in the stack
    obtain ⟨value, hslot⟩ := Fallible.ok_of_mapM_ok hmap (List.mem_range.mpr (Nat.lt_succ_self argc))
    have hlast : Apart (vm.slot (sizeSub vm.stats.stackCounter (argc + 1))) := by
      rw [hslot]
      trivial
    have hlt := slot_lt hlast
    by_contra hle
    exact sizeSub_wraps (by rw [h.counter]; omega) (by omega) hlt

theorem guarded_call (h : vm.Depth n) (hexec : (instCall host operand vm).StaysInBounds) :
    Guarded vm (.call operand) := by
  intro hpos function base kind hcallee hfunction hkind
  have hword := operand.toNat_lt
  have hneed : vm.need 1 = .ok () := if_neg (by omega)
  have hdrop : (vm.drop 1).Depth (n - 1) := h.drop (h.counter ▸ hpos)
  rw [h.counter] at hpos ⊢
  unfold instCall at hexec
  rw [hneed, hcallee] at hexec
  simp only [Fallible.ok_bind, Prog.after, show (vm.drop 1).heap = vm.heap from rfl,
    hfunction] at hexec
  cases kind with
  | native pointer =>
    cases pointer with
    | none => exact absurd rfl hkind
    | some pointer =>
      have hle := hdrop.le_of_readArgs hword hexec.apart
      omega
  | bytecode scope module start stop =>
    have hslot := hexec.apart
    have hthis := slot_lt hslot
    rw [VM.slot, if_pos hthis] at hexec
    have hle := hdrop.le_of_callReturn (hexec.2 (vm.drop 1) .undefined hdrop.bounded (Nat.le_refl _))
    omega

/-- The converse: a handler that stays in bounds was guarded. -/
theorem guarded_of_execInst (h : vm.Depth n) {inst : Inst}
    (hexec : (execInst host inst vm).StaysInBounds) : Guarded vm inst := by
  cases inst with
  | loadArg operand =>
    have hload : Apart (instLoadArg operand vm) := hexec.apart
    unfold instLoadArg at hload
    split at hload
    · exact append_lt hload
    · have hstart := h.bounded.stackStart
      rw [VM.slot, if_pos (by omega)] at hload
      exact append_lt hload
  | jmpF operand =>
    have hslot := slot_lt (Fallible.Ensures.of_bind hexec.apart)
    have hpos : 0 < vm.stats.stackCounter := by
      by_contra hzero
      exact sizeSub_wraps (by omega) (by omega) hslot
    exact hpos
  | jmpT operand =>
    have hslot := slot_lt (Fallible.Ensures.of_bind hexec.apart)
    have hpos : 0 < vm.stats.stackCounter := by
      by_contra hzero
      exact sizeSub_wraps (by omega) (by omega) hslot
    exact hpos
  | call operand => exact guarded_call h hexec
  | objLoad operand =>
    intro hpos value ref key function this hvalue href hkey hread
    have hneed : vm.need 1 = .ok () := if_neg (by omega)
    have hexec' : (instObjLoad host operand vm).StaysInBounds := hexec
    unfold instObjLoad at hexec'
    rw [hneed] at hexec'
    simp only [Fallible.ok_bind, hvalue, href, hkey] at hexec'
    have hload : (loadIntoTop host vm ref (.string key)).StaysInBounds := hexec'
    unfold loadIntoTop objectGetProperty at hload
    rw [hread] at hload
    have hroom : HasRoom vm function ([] : List JSValue).length := hasRoom_of_apiCallFunction hload
    exact hroom
  | exportAs operand =>
    intro hpos value module key function this hvalue hmodule hkey hwrite
    have hneed : vm.need 1 = .ok () := if_neg (by omega)
    have hexec' : (instExport host operand vm).StaysInBounds := hexec
    unfold instExport at hexec'
    rw [hneed] at hexec'
    have hkey' : (vm.drop 1).loadStr operand = .ok key := hkey
    have hmodule' : (vm.drop 1).currentModule = .ok module := hmodule
    simp only [Fallible.ok_bind, hvalue, hkey', hmodule'] at hexec'
    have hset : (objectSetProperty host (vm.drop 1) module.exports (.string key) value
      .done).StaysInBounds := hexec'
    unfold objectSetProperty at hset
    rw [show (vm.drop 1).heap = vm.heap from rfl, hwrite] at hset
    have hroom : HasRoom (vm.drop 1) function [value].length := hasRoom_of_apiCallFunction hset
    exact hroom
  | _ => trivial

theorem guarded_of_stepLoop (hvm : vm.Bounded)
    (h : (stepLoop host vm frame frames).StaysInBounds) : frame.kind.Guarded vm := by
  refine ⟨fun stop module hkind hlt hmodule => ?_, fun inst hcontinues hinst => ?_⟩
  · by_contra hout
    -- the opcode is read behind the last instruction
    have hfetch : vm.instructionAt vm.stats.instructionCounter =
        .error (.undefinedBehaviour "read outside the instruction array") := by
      rw [VM.instructionAt, hmodule, Fallible.ok_bind, List.getElem?_eq_none]
      rw [module.dataSection.count_eq]
      exact Nat.le_of_not_lt hout
    have hcontinues : frame.kind.continues vm =
        .error (.undefinedBehaviour "read outside the instruction array") := by
      rw [hkind, FrameKind.continues, if_pos hlt, hfetch]
      rfl
    unfold stepLoop at h
    rw [hcontinues] at h
    have hfault := h.prog
    cases hfault
  · have hexec : (vmExec host vm).StaysInBounds := by
      unfold stepLoop at h
      rw [hcontinues] at h
      exact h.prog
    unfold VM.instructionAt at hinst
    obtain ⟨module, hmodule, hget⟩ := Fallible.bind_eq_ok.mp hinst
    have hlt : vm.stats.instructionCounter < module.dataSection.count.toNat := by
      rw [← module.dataSection.count_eq]
      by_contra hout
      rw [List.getElem?_eq_none (Nat.le_of_not_lt hout)] at hget
      cases hget
    have hfetch : vm.instructionAt vm.stats.instructionCounter = .ok (some inst) := hinst
    unfold vmExec at hexec
    rw [hmodule] at hexec
    simp only [Prog.after, if_neg (Nat.not_le.mpr hlt), hfetch] at hexec
    have hguard := guarded_of_execInst (hvm.depth.setCounter (vm.stats.instructionCounter + 1)) hexec
    exact hguard

/-- A step from a state in bounds stays in bounds exactly when it is guarded. -/
theorem Config.StaysInBounds.step_iff {config config' : Config} (hhost : host.StaysInBounds)
    (h : config.StaysInBounds) (hstep : AtomixJS.step host config = some config') :
    config'.StaysInBounds ↔ config.Guarded := by
  refine ⟨fun h' => ?_, fun hguard => h.step hhost hguard hstep⟩
  obtain ⟨prog, frames⟩ := config
  cases prog with
  | fault f => trivial
  | done vm =>
    cases frames with
    | nil => trivial
    | cons frame frames =>
      obtain rfl := Option.some.inj hstep
      exact guarded_of_stepLoop h.prog h'
  | native vm program next =>
    obtain rfl := Option.some.inj hstep
    cases program with
    | apiCallFunction heap function this args rest =>
      have hroom : HasRoom { vm with heap } function args.length := hasRoom_of_apiCallFunction h'.prog
      exact hroom
    | _ => trivial
  | call vm function this next => trivial
  | execModule vm module next => trivial

end AtomixJS
