import AtomixJS.Core.Bounds
import AtomixJS.Core.Effects
import AtomixJS.Core.Soundness

/-!
# The machine on a sound heap

Every instruction keeps the heap sound and what the machine holds in it, and finds no pointer that
leads nowhere.  `Config.Sound` carries this through the calls that C code waits for: a call gives
the state back as it was but for the heap, which has grown.

The outermost frame is that of the entry module.  What it saved includes a scope that nobody has
set, so nothing is said of the machine when it has ended but that its heap is sound.
-/

namespace AtomixJS

variable {g : ScopeRef} {heap h h' : Heap} {vm vm' : VM} {v left right : JSValue} {k : ℕ}
  {operand : UInt16} {address : JSValue → CInt}

/-! ## Values -/

theorem valueIsFalsy_intact (hv : v.Valid h) : Intact (fun _ => True) (valueIsFalsy v) := by
  cases v with
  | gsBox getter setter => exact absurd hv id
  | _ => trivial

theorem valueIsTruthy_intact (hv : v.Valid h) : Intact (fun _ => True) (valueIsTruthy v) :=
  (valueIsFalsy_intact hv).bind fun _ _ => trivial

theorem valueToString_intact (hv : v.Valid h) : Intact (fun _ => True) (valueToString v) := by
  cases v with
  | gsBox getter setter => exact absurd hv id
  | _ => trivial

theorem propertyKey_intact (hv : v.Valid h) : Intact (fun _ => True) (propertyKey v) := by
  unfold propertyKey
  split
  · trivial
  · exact (valueToString_intact hv).bind fun _ _ => trivial

theorem objectOf_intact (hs : h.Sound g) (hv : v.Valid h) :
    Intact (fun obj => obj < h.objects.length) (objectOf h v) := by
  unfold objectOf
  split
  · exact hv
  · next function =>
    split
    · next f hf => exact (hs.function f (List.mem_of_getElem? hf)).base
    · next hnone => exact absurd (List.getElem?_eq_none_iff.mp hnone) (Nat.not_le.mpr hv)
  · rfl

/-! ### Operators -/

/-- A value that points nowhere, and so is valid in every heap. -/
abbrev JSValue.Scalar (v : JSValue) : Prop := ∀ h, v.Valid h

theorem signed_intact {i : ℤ} : Intact (fun _ => True) (signed i) :=
  .ite (fun _ => trivial) fun _ => rfl

theorem toInt_intact {d : Binary64} : Intact (fun _ => True) (toInt d) := by
  unfold toInt
  split
  · trivial
  · rfl

theorem narrow_intact {d : Binary64} : Intact JSValue.Scalar (narrow d) := by
  refine toInt_intact.bind fun i _ => ?_
  show JSValue.Scalar (if _ then _ else _)
  split <;> exact fun _ => trivial

theorem arithmetic_intact {ints : CInt → CInt → Except Fault JSValue}
    {doubles : Binary64 → Binary64 → Except Fault JSValue}
    (hints : ∀ l r, Intact JSValue.Scalar (ints l r))
    (hdoubles : ∀ l r, Intact JSValue.Scalar (doubles l r)) :
    Intact JSValue.Scalar (arithmetic address ints doubles left right) := by
  unfold arithmetic
  split
  · exact hints _ _
  · exact hdoubles _ _
  · exact hdoubles _ _
  · rfl

theorem signed_integer_intact {i : ℤ} :
    Intact JSValue.Scalar (do return .integer (← signed i)) :=
  signed_intact.bind fun _ _ _ => trivial

theorem divDoubles_intact {l r : Binary64} : Intact JSValue.Scalar (divDoubles l r) :=
  .ite (fun _ _ => trivial) fun _ => .ite (fun _ _ => trivial) fun _ => narrow_intact

theorem modInts_intact {l r : CInt} : Intact JSValue.Scalar (modInts l r) :=
  .ite (fun _ _ => trivial) fun _ => .ite (fun _ => rfl) fun _ _ => trivial

theorem modDoubles_intact {l r : Binary64} : Intact JSValue.Scalar (modDoubles l r) :=
  .ite (fun _ _ => trivial) fun _ => narrow_intact

theorem numberToInt_intact : Intact (fun _ => True) (numberToInt address v) := by
  unfold numberToInt
  split
  · exact toInt_intact
  · trivial

theorem bitwise_intact {op : CInt → CInt → Except Fault CInt}
    (hop : ∀ l r, Intact (fun _ => True) (op l r)) :
    Intact JSValue.Scalar (bitwise address op left right) :=
  numberToInt_intact.bind fun _ _ => numberToInt_intact.bind fun _ _ =>
    (hop _ _).bind fun _ _ _ => trivial

theorem orFallback_intact : Intact JSValue.Scalar (orFallback left right) := by
  unfold orFallback
  split
  · exact fun _ => trivial
  · exact toInt_intact.bind fun _ _ _ => trivial
  · exact fun _ => trivial
  · exact toInt_intact.bind fun _ _ _ => trivial
  · exact fun _ => trivial

theorem shift_intact {op : CInt → CInt → Except Fault CInt}
    (hop : ∀ l r, Intact (fun _ => True) (op l r)) :
    Intact JSValue.Scalar (shift address op left right) := by
  unfold shift
  refine .ite (fun _ _ => trivial) fun hleft => .ite (fun _ => ?_) fun _ => bitwise_intact hop
  cases left with
  | double l => exact toInt_intact.bind fun _ _ _ => trivial
  | integer l => exact fun _ => trivial
  | _ => exact absurd rfl hleft

theorem shiftCount_intact {r : CInt} : Intact (fun _ => True) (shiftCount r) := by
  unfold shiftCount
  split
  · trivial
  · rfl

theorem tripleEquals_intact : Intact (fun _ => True) (tripleEquals left right) := by
  cases left <;> cases right <;> trivial

theorem relational_intact {ints : ℤ → ℤ → Bool} {doubles : Binary64 → Binary64 → Bool} :
    Intact JSValue.Scalar (relational ints doubles left right) := by
  unfold relational
  refine .ite (fun _ _ => trivial) fun _ => ?_
  split <;> first | exact fun _ => trivial | rfl

/-- The operators make no pointers. -/
theorem binaryValue_intact (op : BinaryOpcode) :
    Intact JSValue.Scalar (binaryValue address op left right) := by
  cases op with
  | add =>
    unfold binaryValue addValue
    exact arithmetic_intact (fun _ _ => signed_integer_intact) fun _ _ _ => trivial
  | minus =>
    unfold binaryValue minusValue
    exact arithmetic_intact (fun _ _ => signed_integer_intact) fun _ _ _ => trivial
  | mul =>
    unfold binaryValue mulValue
    exact arithmetic_intact (fun _ _ => signed_integer_intact) fun _ _ => narrow_intact
  | div =>
    unfold binaryValue divValue
    exact arithmetic_intact (fun _ _ => rfl) fun _ _ => divDoubles_intact
  | mod =>
    unfold binaryValue modValue
    exact arithmetic_intact (fun _ _ => modInts_intact) fun _ _ => modDoubles_intact
  | binaryAnd => exact .ite (fun _ _ => trivial) fun _ => bitwise_intact fun _ _ => trivial
  | binaryOr => exact .ite (fun _ => orFallback_intact) fun _ => bitwise_intact fun _ _ => trivial
  | binaryXor => exact .ite (fun _ => orFallback_intact) fun _ => bitwise_intact fun _ _ => trivial
  | binaryLshft =>
    unfold binaryValue binaryLshftValue
    refine shift_intact fun _ _ => shiftCount_intact.bind fun _ _ => ?_
    exact .ite (fun _ => rfl) fun _ => signed_intact
  | binaryRshft =>
    unfold binaryValue binaryRshftValue
    exact shift_intact fun _ _ => shiftCount_intact.bind fun _ _ => trivial
  | binaryZrshft =>
    unfold binaryValue binaryZrshftValue
    exact shift_intact fun _ _ => shiftCount_intact.bind fun _ _ => trivial
  | teq => exact tripleEquals_intact.bind fun _ _ _ => trivial
  | nteq => exact tripleEquals_intact.bind fun _ _ _ => trivial
  | gt =>
    unfold binaryValue gtValue
    exact relational_intact
  | geq =>
    unfold binaryValue geqValue
    exact relational_intact
  | lt =>
    unfold binaryValue ltValue
    exact relational_intact
  | leq =>
    unfold binaryValue leqValue
    exact relational_intact

theorem binaryShortcut_scalar {op : BinaryOpcode}
    (h : binaryShortcut op left right = some v) : v.Scalar := by
  have hnan : ∀ {c : Bool}, (if c then some JSValue.nan else none) = some v → v.Scalar := by
    intro c h
    split at h
    · obtain rfl := Option.some.inj h
      exact fun _ => trivial
    · cases h
  cases op <;> first | exact hnan h | cases h

theorem unaryValue_intact (op : UnaryOpcode) (hv : v.Valid h) :
    Intact JSValue.Scalar (unaryValue address op v) := by
  cases op with
  | binaryNot =>
    refine .ite (fun _ _ => trivial) fun _ => ?_
    split
    · exact toInt_intact.bind fun _ _ _ => trivial
    · exact fun _ => trivial
  | not => exact (valueIsFalsy_intact hv).bind fun _ _ _ => trivial
  | negate =>
    refine .ite (fun _ _ => trivial) fun _ => ?_
    split
    · exact signed_integer_intact
    · exact fun _ => trivial
    · rfl
  | typeof => cases v <;> first | exact fun _ => trivial | rfl

/-! ## The operand stack -/

/-- What the machine holds is in its heap.  Of the operand stack that are the operands, and those
below the start of the current function, which `LOAD_ARG` reads. -/
structure VM.Sound (g : ScopeRef) (vm : VM) : Prop where
  heap : vm.heap.Sound g
  globalScope : vm.globalScope = g
  module : vm.module < vm.heap.modules.length
  scope : vm.heap.ScopeEndsAt g vm.scope
  slot : ∀ i, i < vm.stats.stackCounter ∨ i < vm.stats.stackStart →
    (vm.stats.stack i).Valid vm.heap

/-- A sound state whose heap has grown out of `h`. -/
structure VM.Later (g : ScopeRef) (h : Heap) (vm : VM) : Prop where
  sound : vm.Sound g
  grows : h.Grows g vm.heap

theorem VM.Later.trans (hgrows : h.Grows g h') (hlater : VM.Later g h' vm) : VM.Later g h vm :=
  ⟨hlater.sound, hgrows.trans hlater.grows⟩

namespace VM.Sound

theorem later (hvm : vm.Sound g) : VM.Later g vm.heap vm := ⟨hvm, .refl g vm.heap⟩

theorem withHeap (hvm : vm.Sound g) (hlater : vm.heap.Later g heap) :
    VM.Sound g { vm with heap } where
  heap := hlater.sound
  globalScope := hvm.globalScope
  module := by
    rw [hlater.grows.modules]
    exact hvm.module
  scope := hvm.scope.grows hlater.grows
  slot := fun i hi => (hvm.slot i hi).grows hlater.grows

theorem setCounter (hvm : vm.Sound g) (ic : ℕ) : (vm.setCounter ic).Sound g :=
  ⟨hvm.heap, hvm.globalScope, hvm.module, hvm.scope, hvm.slot⟩

theorem drop (hvm : vm.Sound g) (hk : k ≤ vm.stats.stackCounter) : (vm.drop k).Sound g := by
  refine ⟨hvm.heap, hvm.globalScope, hvm.module, hvm.scope, fun i hi => hvm.slot i ?_⟩
  simp only [VM.drop, sizeSub_of_le hk] at hi
  omega

theorem need (k : ℕ) : Intact (fun _ => k ≤ vm.stats.stackCounter) (vm.need k) :=
  .ite (fun _ => rfl) fun hlt => Nat.le_of_not_lt hlt

theorem room : Intact (fun _ => True) vm.room := .ite (fun _ => rfl) fun _ => trivial

theorem readSlot (hvm : vm.Sound g) (hk : k < vm.stats.stackCounter ∨ k < vm.stats.stackStart) :
    Intact (fun v => v.Valid vm.heap) (vm.slot k) :=
  .ite (fun _ => hvm.slot k hk) fun _ => rfl

/-- A slot from the top is an operand if it is in the stack. -/
theorem readTop (hvm : vm.Sound g) (hpos : 0 < k) (hk : k ≤ 2 ^ 16) :
    Intact (fun v => v.Valid vm.heap ∧ k ≤ vm.stats.stackCounter)
      (vm.slot (sizeSub vm.stats.stackCounter k)) := by
  refine .ite (fun hlt => ?_) fun _ => rfl
  have hle : k ≤ vm.stats.stackCounter := by
    by_contra hlt'
    exact sizeSub_wraps (by omega) hk hlt
  rw [sizeSub_of_le hle]
  exact ⟨hvm.slot _ (.inl (by omega)), hle⟩

theorem setSlot (hvm : vm.Sound g) (k : ℕ) (hv : v.Valid vm.heap) :
    Intact (VM.Later g vm.heap) (vm.setSlot k v) := by
  refine .ite (fun _ => ⟨⟨hvm.heap, hvm.globalScope, hvm.module, hvm.scope, fun i hi => ?_⟩,
    .refl g vm.heap⟩) fun _ => rfl
  show JSValue.Valid vm.heap (if i = k then v else vm.stats.stack i)
  split
  · exact hv
  · exact hvm.slot i hi

theorem setTop (hvm : vm.Sound g) (hv : v.Valid vm.heap) :
    Intact (VM.Later g vm.heap) (vm.setTop v) := hvm.setSlot _ hv

theorem append (hvm : vm.Sound g) (hv : v.Valid vm.heap) :
    Intact (VM.Later g vm.heap) (vm.append v) := by
  unfold VM.append VM.setSlot
  split
  · refine ⟨⟨hvm.heap, hvm.globalScope, hvm.module, hvm.scope, fun i hi => ?_⟩, .refl g vm.heap⟩
    show JSValue.Valid vm.heap (if i = vm.stats.stackCounter then v else vm.stats.stack i)
    split
    · exact hv
    · next hne =>
      refine hvm.slot i ?_
      have hi' : i < vm.stats.stackCounter + 1 ∨ i < vm.stats.stackStart := hi
      omega
  · exact rfl

theorem push (hvm : vm.Sound g) (hv : v.Valid vm.heap) :
    Intact (VM.Later g vm.heap) (vm.push v) := room.bind fun _ _ => hvm.append hv

/-- A push after work on the heap. -/
theorem appendIn (hvm : vm.Sound g) (hlater : vm.heap.Later g heap) (hv : v.Valid heap) :
    Intact (VM.Later g vm.heap) (VM.append { vm with heap } v) :=
  ((hvm.withHeap hlater).append hv).mono fun _ h => .trans hlater.grows h

theorem currentModule (hvm : vm.Sound g) :
    Intact (fun m => vm.heap.modules[vm.module]? = some m ∧ m.Sound g vm.heap)
      vm.currentModule := by
  unfold VM.currentModule
  split
  · next m hm => exact ⟨hm, hvm.heap.module m (List.mem_of_getElem? hm)⟩
  · next hnone => exact absurd (List.getElem?_eq_none_iff.mp hnone) (Nat.not_le.mpr hvm.module)

theorem loadStr (hvm : vm.Sound g) (idx : UInt16) : Intact (fun _ => True) (vm.loadStr idx) := by
  refine hvm.currentModule.bind fun m _ => ?_
  unfold stringTableLoadStr
  refine .ite (fun _ => rfl) fun _ => ?_
  split
  · exact rfl
  · split
    · exact rfl
    · exact .ite (fun _ => rfl) fun _ => trivial

/-! ## Handlers -/

theorem instBinary (hvm : vm.Sound g) (op : BinaryOpcode) :
    Intact (VM.Later g vm.heap) (instBinary address op vm) := by
  refine (need 2).bind fun _ hn => ?_
  refine (hvm.readSlot (.inl (by omega))).bind fun left _ => ?_
  refine (hvm.readSlot (.inl (by omega))).bind fun right _ => ?_
  split
  · next v hshort => exact hvm.setTop (binaryShortcut_scalar hshort _)
  · refine (binaryValue_intact op).bind fun v hv => ?_
    exact (hvm.drop (by omega)).setTop (hv _)

theorem instUnary (hvm : vm.Sound g) (op : UnaryOpcode) :
    Intact (VM.Later g vm.heap) (instUnary address op vm) := by
  refine (need 1).bind fun _ hn => ?_
  refine (hvm.readSlot (.inl (by omega))).bind fun right hright => ?_
  exact (unaryValue_intact op hright).bind fun v hv => hvm.setTop (hv _)

theorem instLdString (hvm : vm.Sound g) :
    Intact (VM.Later g vm.heap) (instLdString operand vm) :=
  room.bind fun _ _ => (hvm.loadStr operand).bind fun _ _ => hvm.append trivial

theorem instLdThis (hvm : vm.Sound g) : Intact (VM.Later g vm.heap) (instLdThis vm) :=
  room.bind fun _ _ =>
    (scopeGet_intact hvm.heap hvm.scope _).bind fun _ hv => hvm.append hv

theorem instPop (hvm : vm.Sound g) : Intact (VM.Later g vm.heap) (instPop vm) :=
  (need 1).bind fun _ hn => (hvm.drop hn).later

theorem instDup (hvm : vm.Sound g) : Intact (VM.Later g vm.heap) (instDup vm) := by
  refine (need 1).bind fun _ hn => ?_
  refine room.bind fun _ _ => ?_
  exact (hvm.readSlot (.inl (by omega))).bind fun v hv => hvm.append hv

theorem instSwap (hvm : vm.Sound g) : Intact (VM.Later g vm.heap) (instSwap vm) := by
  refine (need 2).bind fun _ hn => ?_
  refine (hvm.readSlot (.inl (by omega))).bind fun left hleft => ?_
  refine (hvm.readSlot (.inl (by omega))).bind fun right hright => ?_
  refine (hvm.setSlot _ hright).bind fun mid hmid => ?_
  exact (hmid.sound.setSlot _ (hleft.grows hmid.grows)).mono fun _ h => .trans hmid.grows h

theorem instAllocLocal (hvm : vm.Sound g) :
    Intact (VM.Later g vm.heap) (instAllocLocal operand vm) := by
  refine (need 1).bind fun _ hn => ?_
  refine (hvm.readSlot (.inl (by omega))).bind fun v hv => ?_
  refine ((hvm.drop hn).loadStr operand).bind fun key _ => ?_
  refine (scopeDeclare_intact hvm.heap hvm.scope key hv).bind fun heap hheap => ?_
  exact ⟨(hvm.drop hn).withHeap hheap, hheap.grows⟩

theorem instStoreLocal (hvm : vm.Sound g) :
    Intact (VM.Later g vm.heap) (instStoreLocal operand vm) := by
  refine (need 1).bind fun _ hn => ?_
  refine (hvm.readSlot (.inl (by omega))).bind fun v hv => ?_
  refine ((hvm.drop hn).loadStr operand).bind fun key _ => ?_
  refine (scopeSet_intact hvm.heap hvm.scope key hv).bind fun result hresult => ?_
  split
  · next heap =>
    have hheap := hresult heap rfl
    exact ⟨(hvm.drop hn).withHeap hheap, hheap.grows⟩
  · rfl

theorem instLoadLocal (hvm : vm.Sound g) :
    Intact (VM.Later g vm.heap) (instLoadLocal operand vm) := by
  refine room.bind fun _ _ => ?_
  refine (hvm.loadStr operand).bind fun key _ => ?_
  refine (scopeContains_intact hvm.scope key).bind fun _ _ => ?_
  refine .ite (fun _ => rfl) fun _ => ?_
  exact (scopeGet_intact hvm.heap hvm.scope key).bind fun _ hv => hvm.append hv

theorem instLoadArg (hvm : vm.Sound g) :
    Intact (VM.Later g vm.heap) (instLoadArg operand vm) := by
  refine .ite (fun _ => hvm.append trivial) fun hle => ?_
  exact (hvm.readSlot (.inr (by omega))).bind fun _ hv => hvm.append hv

theorem instFuncDecl (hvm : vm.Sound g) (name : Option UInt16) (size : UInt16) :
    Intact (VM.Later g vm.heap) (instFuncDecl name size vm) := by
  refine room.bind fun _ _ => ?_
  have hnew := functionCreateFunction_provides hvm.heap hvm.scope hvm.module
    vm.stats.instructionCounter (vm.stats.instructionCounter + size.toNat)
  dsimp only
  generalize functionCreateFunction vm.heap vm.scope vm.module vm.stats.instructionCounter
    (vm.stats.instructionCounter + size.toNat) = result at hnew ⊢
  obtain ⟨heap, function⟩ := result
  have hpush : ∀ heap', heap.Later g heap' → ∀ ic, Intact (VM.Later g vm.heap) (do
      let vm ← VM.append { vm with heap := heap' } (.func function)
      return vm.setCounter ic) := by
    intro heap' hheap ic
    have hvalid : (JSValue.func function).Valid heap' :=
      JSValue.Valid.grows (v := .func function) hnew.lt hheap.grows
    refine (hvm.appendIn (hnew.later.trans hheap) hvalid).bind fun vm' h' => ?_
    exact ⟨h'.sound.setCounter ic, h'.grows⟩
  cases name with
  | none => exact hpush heap (.refl hnew.later.sound) _
  | some idx =>
    refine (hvm.loadStr idx).bind fun key _ => ?_
    have hscope := hvm.scope.grows hnew.later.grows
    refine (scopeDeclare_intact (v := .func function) hnew.later.sound hscope key hnew.lt).bind
      fun heap' hheap => ?_
    exact hpush heap' hheap _

theorem instArrAlloc (hvm : vm.Sound g) : Intact (VM.Later g vm.heap) (instArrAlloc vm) := by
  have hnew := (objectGetArrayPrototype_provides hvm.heap).createObject
  exact room.bind fun _ _ => hvm.appendIn hnew.later hnew.lt

theorem instObjAlloc (hvm : vm.Sound g) : Intact (VM.Later g vm.heap) (instObjAlloc vm) := by
  have hnew := (objectGetObjectPrototype_provides hvm.heap).createObject
  exact room.bind fun _ _ => hvm.appendIn hnew.later hnew.lt

theorem instPushScope (hvm : vm.Sound g) : VM.Later g vm.heap (instPushScope vm) := by
  have hscope := hvm.heap.createScope (some vm.scope)
  have hsound := hvm.withHeap hscope
  exact ⟨⟨hsound.heap, hsound.globalScope, hsound.module, hvm.scope.createScope hvm.heap,
    hsound.slot⟩, hscope.grows⟩

theorem instPopScope (hvm : vm.Sound g) : Intact (VM.Later g vm.heap) (instPopScope vm) := by
  unfold AtomixJS.instPopScope
  have hends := hvm.scope
  split
  · next hnone =>
    exact absurd (List.getElem?_eq_none_iff.mp hnone) (Nat.not_le.mpr hends.lt)
  · next scope hscope =>
    split
    · rfl
    · next parent hparent =>
      refine ⟨⟨hvm.heap, hvm.globalScope, hvm.module, ?_, hvm.slot⟩, .refl g vm.heap⟩
      cases hends with
      | last hnode hlink =>
        obtain rfl := Option.some.inj (hscope.symm.trans hnode)
        exact absurd (hparent.symm.trans hlink) (Option.some_ne_none _)
      | next hnode hlink hrest =>
        obtain rfl := Option.some.inj (hscope.symm.trans hnode)
        exact Option.some.inj (hlink.symm.trans hparent) ▸ hrest

theorem instJmpIf (hvm : vm.Sound g) {test : JSValue → Except Fault Bool}
    (htest : ∀ v, v.Valid vm.heap → Intact (fun _ => True) (test v)) :
    Intact (VM.Later g vm.heap) (instJmpIf test operand vm) := by
  refine (hvm.readTop (k := 1) (by omega) (by omega)).bind fun v hv => ?_
  refine (htest v hv.1).bind fun b _ => ?_
  have hdrop := hvm.drop hv.2
  show VM.Later g vm.heap (if b then (vm.drop 1).setCounter operand.toNat else vm.drop 1)
  split
  · exact (hdrop.setCounter _).later
  · exact hdrop.later

end VM.Sound

/-! ## C code that waits -/

/-- A native function keeps the heap sound, whatever the calls do that it makes.  It executes a
module only if it has just set its flag. -/
def NativeProgram.Sound (g : ScopeRef) (h : Heap) : NativeProgram → Prop
  | .ret heap value => h.Later g heap ∧ value.Valid heap
  | .fault f => f.isCorrupt = false
  | .apiCallFunction heap function this args next =>
    h.Later g heap ∧ function < heap.functions.length ∧ this.Valid heap ∧
      (∀ arg ∈ args, arg.Valid heap) ∧
      ∀ heap' value, heap.Later g heap' → value.Valid heap' → (next heap' value).Sound g heap'
  | .execModule heap module next =>
    h.Later g heap ∧ (∃ m, h.modules[module]? = some m ∧ m.initialized = false ∧
      heap.modules[module]? = some { m with initialized := true }) ∧
      ∀ heap', heap.Later g heap' → (next heap').Sound g heap'

/-- The heap stays sound and so does what the machine holds in it, until the C code ends in a state
of `Q`.  A call that C code waits for changes nothing but the heap; only a native function may
leave more on the stack. -/
def Prog.Sound (g : ScopeRef) (Q : VM → Prop) (h : Heap) : Prog → Prop
  | .done vm => h.Grows g vm.heap ∧ Q vm
  | .fault f => f.isCorrupt = false
  | .native vm program next =>
    VM.Later g h vm ∧ program.Sound g vm.heap ∧ ∀ vm' value, VM.Later g vm.heap vm' →
      vm.stats.stackCounter ≤ vm'.stats.stackCounter → value.Valid vm'.heap →
        (next vm' value).Sound g Q vm'.heap
  | .call vm function this next =>
    VM.Later g h vm ∧ (∃ base scope module start stop,
      vm.heap.functions[function]? = some ⟨base, .bytecode scope module start stop⟩) ∧
      this.Valid vm.heap ∧ ∀ heap value, vm.heap.Later g heap → value.Valid heap →
        (next { vm with heap } value).Sound g Q heap
  | .execModule _ _ _ => False

/-- The same of C code that may be about to execute a module. -/
def Prog.Runs (g : ScopeRef) (Q : VM → Prop) (h : Heap) : Prog → Prop
  | .execModule vm module next =>
    h.Later g vm.heap ∧ vm.globalScope = g ∧
      (∃ m scope, vm.heap.modules[module]? = some m ∧ m.scope = some scope) ∧
      ∀ heap, vm.heap.Later g heap → (next { vm with heap }).Sound g Q heap
  | prog => prog.Sound g Q h

/-- C code that is at its end, without a call. -/
def Prog.Settled (g : ScopeRef) (h : Heap) : Prog → Prop
  | .done vm => VM.Later g h vm
  | .fault f => f.isCorrupt = false
  | _ => False

/-- The native functions keep the heap sound. -/
def Host.Sound (g : ScopeRef) (host : Host) (count : ℕ) : Prop :=
  ∀ pointer heap module this args, pointer < nativeCount → heap.Sound g →
    heap.modules.length = count → module < count → this.Valid heap →
    (∀ arg ∈ args, arg.Valid heap) →
    (host.nativeFunction pointer heap module this args).Sound g heap

variable {host : Host} {Q : VM → Prop} {function : FunctionRef} {this : JSValue}
  {args : List JSValue} {next : VM → JSValue → Prog} {prog : Prog}

theorem Prog.Sound.trans (hgrows : h.Grows g h') (hprog : prog.Sound g Q h') : prog.Sound g Q h := by
  cases prog with
  | done vm => exact ⟨hgrows.trans hprog.1, hprog.2⟩
  | fault f => exact hprog
  | native vm program next => exact ⟨.trans hgrows hprog.1, hprog.2⟩
  | call vm function this next => exact ⟨.trans hgrows hprog.1, hprog.2⟩
  | execModule vm module next => exact hprog

theorem Prog.Sound.runs (hprog : prog.Sound g Q h) : prog.Runs g Q h := by
  cases prog with
  | execModule vm module next => exact absurd hprog id
  | _ => exact hprog

theorem Prog.Sound.after {α : Type} {result : Except Fault α} {next : α → Prog}
    (h' : Intact (fun a => (next a).Sound g Q h) result) :
    (Prog.after result next).Sound g Q h := by
  cases result with
  | error f =>
    show (Prog.fault f).Sound g Q h
    exact h'
  | ok a => exact h'

theorem Prog.Settled.sound (hprog : prog.Settled g h) : prog.Sound g (VM.Sound g) h := by
  cases prog with
  | done vm => exact ⟨hprog.grows, hprog.sound⟩
  | fault f => exact hprog
  | _ => exact absurd hprog id

theorem Prog.Settled.after {α : Type} {result : Except Fault α} {next : α → Prog}
    (h' : Intact (fun a => (next a).Settled g h) result) :
    (Prog.after result next).Settled g h := by
  cases result with
  | error f =>
    show (Prog.fault f).Settled g h
    exact h'
  | ok a => exact h'

theorem Prog.Settled.ofExcept {result : Except Fault VM} (h' : Intact (VM.Later g h) result) :
    (Prog.ofExcept result).Settled g h := by
  refine .after (h'.mono fun vm hvm => ?_)
  exact hvm

theorem pushArgs_intact (hvm : vm.Sound g) (hargs : ∀ arg ∈ args, arg.Valid vm.heap) :
    Intact (VM.Later g vm.heap) (pushArgs vm args) := by
  unfold pushArgs
  have hvalues : ∀ value ∈ args.reverse, value.Valid vm.heap :=
    fun value hvalue => hargs value (List.mem_reverse.mp hvalue)
  clear hargs
  generalize args.reverse = values at hvalues ⊢
  induction values generalizing vm with
  | nil => exact hvm.later
  | cons value values ih =>
    rw [List.foldlM_cons]
    refine (hvm.append (hvalues value List.mem_cons_self)).bind fun mid hmid => ?_
    have hrest := ih hmid.sound fun value' hvalue' =>
      (hvalues value' (List.mem_cons_of_mem _ hvalue')).grows hmid.grows
    exact hrest.mono fun _ h => .trans hmid.grows h

/-- A call from native code leaves what it has pushed of `this`, but no operand less. -/
theorem sound_apiCallFunction (hhost : host.Sound g vm.heap.modules.length) (hvm : vm.Sound g)
    (hfunction : function < vm.heap.functions.length) (hthis : this.Valid vm.heap)
    (hargs : ∀ arg ∈ args, arg.Valid vm.heap)
    (hnext : ∀ vm' value, VM.Later g vm.heap vm' →
      vm.stats.stackCounter ≤ vm'.stats.stackCounter → value.Valid vm'.heap →
        (next vm' value).Sound g Q vm'.heap) :
    (apiCallFunction host vm function this args next).Sound g Q vm.heap := by
  have hcallee : vm.heap.functions[function]? = some vm.heap.functions[function] :=
    List.getElem?_eq_getElem hfunction
  have hsound := hvm.heap.function _ (List.mem_of_getElem? hcallee)
  unfold apiCallFunction
  split
  · next hnone => exact absurd (hcallee.symm.trans hnone) (Option.some_ne_none _)
  · next base hcode =>
    obtain ⟨pointer, _, hpointer⟩ := (hvm.heap.function _ (List.mem_of_getElem? hcode)).code
    cases hpointer
  · next base pointer hcode =>
    obtain ⟨p, hp, hpointer⟩ := (hvm.heap.function _ (List.mem_of_getElem? hcode)).code
    obtain rfl := Option.some.inj hpointer
    exact ⟨hvm.later, hhost pointer vm.heap vm.module this args hp hvm.heap rfl hvm.module hthis
      hargs, hnext⟩
  · next base scope module start stop hcode =>
    refine .after ?_
    refine ((pushArgs_intact hvm hargs).and_eq).bind fun pushed hpushed => ?_
    refine ((hpushed.1.sound.append (hthis.grows hpushed.1.grows)).and_eq).mono fun called hcalled => ?_
    have hgrows := hpushed.1.grows.trans hcalled.1.grows
    refine ⟨.trans hpushed.1.grows hcalled.1, ⟨base, scope, module, start, stop,
      hgrows.function hcode⟩, hthis.grows hgrows, fun heap value hheap hvalue => ?_⟩
    have hcounter : vm.stats.stackCounter + args.length + 1 = called.stats.stackCounter := by
      have hpushes := VM.counter_of_operands (pushArgs_restacked hpushed.2).operands
      have hlast := VM.counter_of_operands (VM.append_ok hcalled.2).2.operands
      rw [List.length_append, VM.operands_length] at hpushes
      rw [List.length_cons, VM.operands_length] at hlast
      omega
    have hback := hcalled.1.sound.withHeap hheap
    have hdrop : (VM.drop { called with heap } args.length).Sound g :=
      hback.drop (show args.length ≤ called.stats.stackCounter by omega)
    refine hnext _ value ⟨hdrop, hgrows.trans hheap.grows⟩ ?_ hvalue
    show vm.stats.stackCounter ≤ sizeSub called.stats.stackCounter args.length
    rw [sizeSub_of_le (by omega)]
    omega

/-- A native function goes on, or executes a module. -/
theorem sound_stepNative {program : NativeProgram} (hhost : host.Sound g vm.heap.modules.length)
    (hprog : (Prog.native vm program next).Sound g Q h) :
    (stepNative host vm next program).Sound g Q vm.heap ∨
      (∃ heap module rest, program = .execModule heap module rest) ∧
        (stepNative host vm next program).Runs g Q vm.heap := by
  obtain ⟨hvm, hprogram, hnext⟩ := hprog
  cases program with
  | ret heap value =>
    obtain ⟨hheap, hvalue⟩ := hprogram
    refine .inl (.trans hheap.grows ?_)
    exact hnext { vm with heap } value ⟨hvm.sound.withHeap hheap, hheap.grows⟩ (Nat.le_refl _) hvalue
  | fault f => exact .inl hprogram
  | apiCallFunction heap function this args rest =>
    obtain ⟨hheap, hfunction, hthis, hargs, hrest⟩ := hprogram
    refine .inl (.trans hheap.grows ?_)
    have hcount : heap.modules.length = vm.heap.modules.length := hheap.grows.modules
    refine sound_apiCallFunction (hcount ▸ hhost) (hvm.sound.withHeap hheap) hfunction hthis hargs
      fun vm' value hvm' hle hvalue => ?_
    refine ⟨hvm'.sound.later, hrest vm'.heap value ⟨hvm'.sound.heap, hvm'.grows⟩ hvalue,
      fun vm'' value' hvm'' hle' hvalue' => ?_⟩
    exact hnext vm'' value' (.trans (hheap.grows.trans hvm'.grows) hvm'') (Nat.le_trans hle hle')
      hvalue'
  | execModule heap module rest =>
    obtain ⟨hheap, ⟨m, hm, hfresh, hm'⟩, hrest⟩ := hprogram
    obtain ⟨scope, hscope⟩ := Option.isSome_iff_exists.mp
      ((hvm.sound.heap.module m (List.mem_of_getElem? hm)).executable hfresh)
    refine .inr ⟨⟨heap, module, rest, rfl⟩, hheap, hvm.sound.globalScope, ⟨_, scope, hm', hscope⟩,
      fun heap' hheap' => ?_⟩
    have hvm' : VM.Later g vm.heap { vm with heap := heap' } :=
      ⟨hvm.sound.withHeap (hheap.trans hheap'), hheap.grows.trans hheap'.grows⟩
    refine ⟨hvm'.sound.later, hrest heap' hheap', fun vm'' value hvm'' hle hvalue => ?_⟩
    exact hnext vm'' value (.trans hvm'.grows hvm'') hle hvalue

/-! ### Handlers that would call an accessor -/

theorem settled_objectGetProperty {obj : ObjectRef} {pkey : PropertyKey} (hvm : vm.Sound g)
    (hobj : obj < vm.heap.objects.length)
    (hnext : ∀ value, value.Valid vm.heap → (next vm value).Settled g vm.heap) :
    (objectGetProperty host vm obj pkey next).Settled g vm.heap := by
  refine .after ((objectReadProperty_intact hvm.heap hobj pkey).mono fun read hread => ?_)
  obtain ⟨value, rfl, hvalue⟩ := hread
  exact hnext value hvalue

theorem settled_objectSetProperty {obj : ObjectRef} {pkey : PropertyKey} (hvm : vm.Sound g)
    (hobj : obj < vm.heap.objects.length) (hv : v.Valid vm.heap) :
    (objectSetProperty host vm obj pkey v .done).Settled g vm.heap := by
  unfold objectSetProperty
  rw [objectWriteProperty_eq hvm.heap hobj]
  have hheap := hvm.heap.putProperty hobj pkey hv
  exact ⟨hvm.withHeap hheap, hheap.grows⟩

theorem settled_loadIntoTop {obj : ObjectRef} {pkey : PropertyKey} (hvm : vm.Sound g)
    (hobj : obj < vm.heap.objects.length) :
    (loadIntoTop host vm obj pkey).Settled g vm.heap := by
  unfold loadIntoTop
  exact settled_objectGetProperty hvm hobj fun _ hvalue => .ofExcept (hvm.setSlot _ hvalue)

namespace VM.Sound

theorem objStore (hvm : vm.Sound g) : (instObjStore host operand vm).Settled g vm.heap := by
  refine .after ((need 2).bind fun _ hn => ?_)
  refine (hvm.readSlot (.inl (by omega))).bind fun value hvalue => ?_
  refine (hvm.readSlot (.inl (by omega))).bind fun obj hobj => ?_
  have hdrop := hvm.drop hn
  refine (objectOf_intact hvm.heap hobj).bind fun ref href => ?_
  exact (hdrop.loadStr operand).bind fun key _ => settled_objectSetProperty hdrop href hvalue

theorem objLoad (hvm : vm.Sound g) : (instObjLoad host operand vm).Settled g vm.heap := by
  refine .after ((need 1).bind fun _ hn => ?_)
  refine (hvm.readSlot (.inl (by omega))).bind fun obj hobj => ?_
  refine (objectOf_intact hvm.heap hobj).bind fun ref href => ?_
  exact (hvm.loadStr operand).bind fun key _ => settled_loadIntoTop hvm href

theorem objCload (hvm : vm.Sound g) : (instObjCload host vm).Settled g vm.heap := by
  refine .after ((need 2).bind fun _ hn => ?_)
  refine (hvm.readSlot (.inl (by omega))).bind fun computed hcomputed => ?_
  refine (hvm.readSlot (.inl (by omega))).bind fun obj hobj => ?_
  refine (objectOf_intact hvm.heap hobj).bind fun ref href => ?_
  refine (propertyKey_intact hcomputed).bind fun key _ => ?_
  exact settled_loadIntoTop (hvm.drop (by omega)) href

theorem objCstore (hvm : vm.Sound g) : (instObjCstore host vm).Settled g vm.heap := by
  refine .after ((need 3).bind fun _ hn => ?_)
  refine (hvm.readSlot (.inl (by omega))).bind fun computed hcomputed => ?_
  refine (hvm.readSlot (.inl (by omega))).bind fun obj hobj => ?_
  refine (hvm.readSlot (.inl (by omega))).bind fun value hvalue => ?_
  refine (objectOf_intact hvm.heap hobj).bind fun ref href => ?_
  refine (propertyKey_intact hcomputed).bind fun key _ => ?_
  exact settled_objectSetProperty (hvm.drop hn) href hvalue

theorem exportAs (hvm : vm.Sound g) : (instExport host operand vm).Settled g vm.heap := by
  refine .after ((need 1).bind fun _ hn => ?_)
  refine (hvm.readSlot (.inl (by omega))).bind fun value hvalue => ?_
  have hdrop := hvm.drop hn
  refine (hdrop.loadStr operand).bind fun key _ => ?_
  exact hdrop.currentModule.bind fun m hm => settled_objectSetProperty hdrop hm.2.exports hvalue

/-- What `CALL` does behind the call. -/
theorem callReturn (hvm : vm.Sound g) (hv : v.Valid vm.heap) :
    (callReturn operand vm v).Sound g (VM.Sound g) vm.heap := by
  refine Prog.Settled.sound (.ofExcept ?_)
  have hword := operand.toNat_lt
  by_cases hle : operand.toNat + 1 ≤ vm.stats.stackCounter
  · exact (hvm.drop hle).append hv
  · -- a counter that has wrapped is outside the stack
    have hout : ¬ (vm.drop (operand.toNat + 1)).stats.stackCounter < stackSize :=
      sizeSub_wraps (Nat.lt_of_not_le hle) (by omega)
    rw [append_error hout]
    exact rfl

theorem readArgs (hvm : vm.Sound g) (hk : k ≤ 2 ^ 16) :
    Intact (fun args => ∀ arg ∈ args, arg.Valid vm.heap) (readArgs vm k) := by
  refine Fallible.Ensures.mapM fun i hi => ?_
  have hlt := List.mem_range.mp hi
  exact (hvm.readTop (Nat.succ_pos i) (by omega)).mono fun _ h => h.1

theorem call (hhost : host.Sound g vm.heap.modules.length) (hvm : vm.Sound g) :
    (instCall host operand vm).Sound g (VM.Sound g) vm.heap := by
  have hword := operand.toNat_lt
  refine .after ((need 1).bind fun _ hn => ?_)
  refine (hvm.readSlot (.inl (by omega))).mono fun callee hcallee => ?_
  have hdrop := hvm.drop hn
  dsimp only
  split
  · next function =>
    split
    · next hnone =>
      exact absurd (List.getElem?_eq_none_iff.mp hnone) (Nat.not_le.mpr hcallee)
    · next base hcode =>
      obtain ⟨pointer, _, hpointer⟩ := (hvm.heap.function _ (List.mem_of_getElem? hcode)).code
      cases hpointer
    · next base pointer hcode =>
      obtain ⟨p, hp, hpointer⟩ := (hvm.heap.function _ (List.mem_of_getElem? hcode)).code
      obtain rfl := Option.some.inj hpointer
      refine .after ((hdrop.readArgs (by omega)).mono fun args hargs => ?_)
      have hthis : (args.headD .undefined).Valid vm.heap := by
        cases args with
        | nil => trivial
        | cons this args => exact hargs this List.mem_cons_self
      exact ⟨hdrop.later, hhost pointer vm.heap vm.module _ _ hp hvm.heap rfl hvm.module hthis
        fun arg harg => hargs arg (List.mem_of_mem_tail harg),
        fun vm' value hvm' _ hvalue => hvm'.sound.callReturn hvalue⟩
    · next base scope module start stop hcode =>
      refine .after ((hdrop.readTop (by omega) (by omega)).mono fun this hthis => ?_)
      exact ⟨hdrop.later, ⟨base, scope, module, start, stop, hcode⟩, hthis.1,
        fun heap value hheap hvalue => (hdrop.withHeap hheap).callReturn hvalue⟩
  · exact rfl

end VM.Sound

/-- Every instruction but `CALL` ends without a call. -/
theorem settled_execInst (hvm : vm.Sound g) {inst : Inst} (hcall : ∀ operand, inst ≠ .call operand) :
    (execInst host inst vm).Settled g vm.heap := by
  cases inst with
  | nop | ret => exact hvm.later
  | ldInt i => exact .ofExcept (hvm.push trivial)
  | ldDouble d => exact .ofExcept (hvm.push trivial)
  | ldUndf | ldNull | ldTrue | ldFalse => exact .ofExcept (hvm.push trivial)
  | ldString operand => exact .ofExcept hvm.instLdString
  | ldThis => exact .ofExcept hvm.instLdThis
  | binary op => exact .ofExcept (hvm.instBinary op)
  | unary op => exact .ofExcept (hvm.instUnary op)
  | pop => exact .ofExcept hvm.instPop
  | dup => exact .ofExcept hvm.instDup
  | swap => exact .ofExcept hvm.instSwap
  | allocLocal operand => exact .ofExcept hvm.instAllocLocal
  | storeLocal operand => exact .ofExcept hvm.instStoreLocal
  | loadLocal operand => exact .ofExcept hvm.instLoadLocal
  | loadArg operand => exact .ofExcept hvm.instLoadArg
  | funcDecl operand operand2 => exact .ofExcept (hvm.instFuncDecl _ _)
  | funcDeclE operand => exact .ofExcept (hvm.instFuncDecl _ _)
  | call operand => exact absurd rfl (hcall operand)
  | arrAlloc => exact .ofExcept hvm.instArrAlloc
  | objAlloc => exact .ofExcept hvm.instObjAlloc
  | objStore operand => exact hvm.objStore
  | objLoad operand => exact hvm.objLoad
  | objCload => exact hvm.objCload
  | objCstore => exact hvm.objCstore
  | pushScope => exact hvm.instPushScope
  | popScope => exact .ofExcept hvm.instPopScope
  | jmp operand =>
    have hjump := (hvm.setCounter operand.toNat).later
    exact hjump
  | jmpF operand => exact .ofExcept (hvm.instJmpIf fun v hv => valueIsFalsy_intact hv)
  | jmpT operand => exact .ofExcept (hvm.instJmpIf fun v hv => valueIsTruthy_intact hv)
  | exportAs operand => exact hvm.exportAs

/-- One instruction. -/
theorem sound_execInst (hhost : host.Sound g vm.heap.modules.length) (hvm : vm.Sound g)
    (inst : Inst) : (execInst host inst vm).Sound g (VM.Sound g) vm.heap := by
  by_cases hcall : ∃ operand, inst = .call operand
  · obtain ⟨operand, rfl⟩ := hcall
    exact hvm.call hhost
  · push Not at hcall
    exact (settled_execInst hvm hcall).sound

theorem sound_vmExec (hhost : host.Sound g vm.heap.modules.length) (hvm : vm.Sound g) :
    (vmExec host vm).Sound g (VM.Sound g) vm.heap := by
  refine .after (hvm.currentModule.mono fun module _ => ?_)
  split
  · exact rfl
  · have hfetch : Intact (fun _ => True) (vm.instructionAt vm.stats.instructionCounter) := by
      refine hvm.currentModule.bind fun m _ => ?_
      split
      · trivial
      · exact rfl
    refine .after (hfetch.mono fun inst? _ => ?_)
    cases inst? with
    | none => exact ⟨.refl g vm.heap, hvm.setCounter _⟩
    | some inst =>
      have hvm' := hvm.setCounter (vm.stats.instructionCounter + 1)
      have hhost' : host.Sound g
          (vm.setCounter (vm.stats.instructionCounter + 1)).heap.modules.length := hhost
      exact sound_execInst hhost' hvm' inst

theorem settled_vmExec (hvm : vm.Sound g) {inst : Option Inst}
    (hinst : vm.instructionAt vm.stats.instructionCounter = .ok inst)
    (hcall : inst.map InstOf.opcode ≠ some .call) : (vmExec host vm).Settled g vm.heap := by
  refine .after (hvm.currentModule.mono fun module _ => ?_)
  split
  · exact rfl
  · rw [hinst]
    cases inst with
    | none => exact (hvm.setCounter (vm.stats.instructionCounter + 1)).later
    | some inst =>
      have hvm' := hvm.setCounter (vm.stats.instructionCounter + 1)
      have hother : ∀ operand, inst ≠ .call operand := by
        rintro operand rfl
        exact hcall rfl
      exact (settled_execInst hvm' hother :)

/-! ## Steps -/

variable {frame : Frame} {frames : List Frame} {config config' : Config}

/-- How the C code under the given frames ends. -/
def Ended (g : ScopeRef) : List Frame → VM → Prop
  | [], vm => vm.heap.Sound g
  | _ :: _, vm => vm.Sound g

/-- When a frame is left, its caller goes on with the state it saved and the heap that there is
then. -/
def FramesSound (g : ScopeRef) (h : Heap) : List Frame → Prop
  | [] => True
  | frame :: frames =>
    (∀ vm value, h.Later g vm.heap → vm.globalScope = g → value.Valid vm.heap →
      (frame.next (frame.restore vm) value).Sound g (Ended g frames) vm.heap) ∧
    FramesSound g h frames

structure Config.Sound (g : ScopeRef) (h : Heap) (config : Config) : Prop where
  prog : config.prog.Runs g (Ended g config.frames) h
  frames : FramesSound g h config.frames

theorem FramesSound.grows (hframes : FramesSound g h frames) (hgrows : h.Grows g h') :
    FramesSound g h' frames := by
  induction frames with
  | nil => trivial
  | cons frame frames ih =>
    refine ⟨fun vm value hvm hglobal hvalue => ?_, ih hframes.2⟩
    exact hframes.1 vm value ⟨hvm.sound, hgrows.trans hvm.grows⟩ hglobal hvalue

theorem continues_intact {kind : FrameKind} (hvm : vm.Sound g) :
    Intact (fun _ => True) (kind.continues vm) := by
  cases kind with
  | function stop =>
    refine .ite (fun _ => ?_) fun _ => trivial
    refine (hvm.currentModule.bind fun m _ => ?_ : Intact (fun _ => True) _).bind fun _ _ => trivial
    split
    · trivial
    · exact rfl
  | module => exact hvm.currentModule.bind fun _ _ => trivial

theorem result_intact {kind : FrameKind} (hvm : vm.Sound g) :
    Intact (fun v => v.Valid vm.heap) (kind.result vm) := by
  cases kind with
  | function stop =>
    exact .ite (fun hlt => hvm.readSlot (.inl (by omega))) fun _ => trivial
  | module => trivial

theorem sound_stepLoop (hhost : host.Sound g vm.heap.modules.length) (hvm : vm.Sound g)
    (hframes : FramesSound g vm.heap (frame :: frames)) {config : Config}
    (hconfig : stepLoop host vm frame frames = config) :
    config.prog.Sound g (Ended g config.frames) vm.heap ∧ FramesSound g vm.heap config.frames := by
  subst hconfig
  have hcontinues : Intact (fun _ => True) (frame.kind.continues vm) := continues_intact hvm
  have hresult : Intact (fun v => v.Valid vm.heap) (frame.kind.result vm) := result_intact hvm
  unfold stepLoop
  split
  · next fault hfault =>
    rw [hfault] at hcontinues
    exact ⟨hcontinues, hframes⟩
  · exact ⟨sound_vmExec hhost hvm, hframes⟩
  · split
    · next fault hfault =>
      rw [hfault] at hresult
      exact ⟨hresult, hframes⟩
    · next value hvalue =>
      rw [hvalue] at hresult
      exact ⟨hframes.1 vm value (.refl hvm.heap) hvm.globalScope hresult, hframes.2⟩

theorem sound_stepCall (hprog : (Prog.call vm function this next).Sound g (Ended g frames) vm.heap)
    (hframes : FramesSound g vm.heap frames) :
    ∃ h', vm.heap.Grows g h' ∧ Config.Sound g h' (stepCall vm function this next frames) := by
  obtain ⟨⟨hvm, _⟩, ⟨base, scope, module, start, stop, hcode⟩, hthis, hnext⟩ := hprog
  obtain ⟨hscope, hmodule⟩ := (hvm.heap.function _ (List.mem_of_getElem? hcode)).code
  have hdeclare := scopeDeclare_intact hvm.heap hscope (cString "this") hthis
  unfold stepCall
  rw [hcode]
  dsimp only
  split
  · next fault hfault =>
    rw [hfault] at hdeclare
    exact ⟨vm.heap, .refl g vm.heap, hdeclare, hframes⟩
  · next heap hheap =>
    rw [hheap] at hdeclare
    have hlater : vm.heap.Later g heap := hdeclare
    have hvm' := hvm.withHeap hlater
    have henter : (enterFunction { vm with heap } module scope start).Sound g :=
      { heap := hlater.sound
        globalScope := hvm.globalScope
        module := by
          show module < heap.modules.length
          rw [hlater.grows.modules]
          exact hmodule
        scope := hscope.grows hlater.grows
        slot := fun i hi => hvm'.slot i (.inl (hi.elim id id)) }
    refine ⟨heap, hlater.grows, ⟨⟨.refl g heap, henter⟩, fun vm₁ value hvm₁ hglobal hvalue => ?_,
      hframes.grows hlater.grows⟩⟩
    -- the caller finds its state again, with the heap that the callee leaves
    have hrestore : Frame.restore ⟨vm.module, vm.stats, vm.scope, .function stop, next⟩ vm₁ =
        { vm with heap := vm₁.heap } := by
      rw [Frame.restore, hglobal, ← hvm.globalScope]
    rw [hrestore]
    exact hnext vm₁.heap value (hlater.trans hvm₁) hvalue

theorem sound_stepExecModule {next : VM → Prog} {module : ModuleRef}
    (hprog : (Prog.execModule vm module next).Runs g (Ended g frames) vm.heap)
    (hframes : FramesSound g vm.heap frames) :
    ∃ h', vm.heap.Grows g h' ∧ Config.Sound g h' (stepExecModule vm module next frames) := by
  obtain ⟨⟨hs, _⟩, hglobal, ⟨m, scope, hm, hscope⟩, hnext⟩ := hprog
  obtain ⟨hne, hparent⟩ := (hs.module m (List.mem_of_getElem? hm)).scope scope hscope
  have hlater := hs.setParent hne hparent
  have hends := hs.setParent_ends hne hparent
  obtain ⟨node, hnode, _⟩ := hparent
  obtain ⟨bundle, header, stringTable, dataSection, initialized, exports, scope'⟩ := m
  obtain rfl : scope' = some scope := hscope
  have hmodule := (List.getElem?_eq_some_iff.mp hm).1
  unfold stepExecModule
  rw [hm]
  dsimp only
  rw [if_pos (List.getElem?_eq_some_iff.mp hnode).1]
  subst hglobal
  refine ⟨_, hlater.grows, ⟨⟨.refl _ _, ?_⟩, fun vm₁ value hvm₁ hglobal hvalue => ?_,
    hframes.grows hlater.grows⟩⟩
  · have hempty : ∀ i, ¬ (i < 0 ∨ i < 0) := by omega
    exact ⟨hlater.sound, rfl, hmodule, hends, fun i hi => absurd hi (hempty i)⟩
  · have hrestore : Frame.restore ⟨vm.module, vm.stats, vm.scope, .module, fun vm _ => next vm⟩ vm₁ =
        { vm with heap := vm₁.heap } := by
      rw [Frame.restore, hglobal]
    rw [hrestore]
    exact hnext vm₁.heap (hlater.trans hvm₁)

/-- The heap of a state. -/
def Prog.heap? : Prog → Option Heap
  | .done vm | .native vm _ _ | .call vm _ _ _ | .execModule vm _ _ => some vm.heap
  | .fault _ => none

theorem Prog.Runs.rebase (hprog : prog.Runs g Q h) (h' : prog.heap? = some heap) :
    h.Grows g heap ∧ prog.Runs g Q heap := by
  cases prog with
  | fault f => cases h'
  | done vm =>
    obtain rfl := Option.some.inj h'
    exact ⟨hprog.1, .refl g vm.heap, hprog.2⟩
  | native vm program next =>
    obtain rfl := Option.some.inj h'
    exact ⟨hprog.1.grows, hprog.1.sound.later, hprog.2⟩
  | call vm function this next =>
    obtain rfl := Option.some.inj h'
    exact ⟨hprog.1.grows, hprog.1.sound.later, hprog.2⟩
  | execModule vm module next =>
    obtain rfl := Option.some.inj h'
    exact ⟨hprog.1.grows, .refl hprog.1.sound, hprog.2⟩

/-- The heap of a sound configuration has grown out of `h`. -/
theorem Config.Sound.rebase (hconfig : config.Sound g h) (h' : config.prog.heap? = some heap) :
    h.Grows g heap ∧ config.Sound g heap := by
  obtain ⟨hgrows, hprog⟩ := hconfig.prog.rebase h'
  exact ⟨hgrows, hprog, hconfig.frames.grows hgrows⟩

/-- One step. -/
theorem Config.Sound.step (hconfig : config.Sound g h)
    (hhost : host.Sound g h.modules.length) (hstep : AtomixJS.step host config = some config') :
    ∃ h', h.Grows g h' ∧ config'.Sound g h' := by
  obtain ⟨prog, frames⟩ := config
  have hbase : ∀ heap, prog.heap? = some heap → heap.modules.length = h.modules.length :=
    fun heap hheap => (hconfig.rebase hheap).1.modules
  cases prog with
  | fault f => cases hstep
  | done vm =>
    cases frames with
    | nil => cases hstep
    | cons frame frames =>
      obtain rfl := Option.some.inj hstep
      obtain ⟨hgrows, hprog, hframes⟩ := hconfig.rebase rfl
      obtain ⟨hloop, hframes'⟩ := sound_stepLoop (hbase vm.heap rfl ▸ hhost) hprog.2 hframes rfl
      exact ⟨vm.heap, hgrows, hloop.runs, hframes'⟩
  | native vm program next =>
    obtain rfl := Option.some.inj hstep
    obtain ⟨hgrows, hprog, hframes⟩ := hconfig.rebase rfl
    have hnative := sound_stepNative (hbase vm.heap rfl ▸ hhost) hprog
    exact ⟨vm.heap, hgrows, hnative.elim Prog.Sound.runs And.right, hframes⟩
  | call vm function this next =>
    obtain rfl := Option.some.inj hstep
    obtain ⟨hgrows, hprog, hframes⟩ := hconfig.rebase rfl
    obtain ⟨h', hgrows', hsound⟩ := sound_stepCall hprog hframes
    exact ⟨h', hgrows.trans hgrows', hsound⟩
  | execModule vm module next =>
    obtain rfl := Option.some.inj hstep
    obtain ⟨hgrows, hprog, hframes⟩ := hconfig.rebase rfl
    obtain ⟨h', hgrows', hsound⟩ := sound_stepExecModule hprog hframes
    exact ⟨h', hgrows.trans hgrows', hsound⟩

/-- A module is executed by a native function that has found its flag unset and set it. -/
theorem Config.Sound.executes {module : ModuleRef} {next : VM → Prog}
    (hconfig : config.Sound g h) (hhost : host.Sound g h.modules.length)
    (hstep : AtomixJS.step host config = some ⟨.execModule vm module next, frames⟩) :
    ∃ heap m, config.prog.heap? = some heap ∧ heap.modules[module]? = some m ∧
      m.initialized = false ∧ vm.heap.modules[module]? = some { m with initialized := true } := by
  obtain ⟨prog, frames'⟩ := config
  have hbase : ∀ heap, prog.heap? = some heap → heap.modules.length = h.modules.length :=
    fun heap hheap => (hconfig.rebase hheap).1.modules
  cases prog with
  | fault f => cases hstep
  | done vm₀ =>
    cases frames' with
    | nil => cases hstep
    | cons frame frames' =>
      obtain ⟨_, hprog, hframes⟩ := hconfig.rebase rfl
      obtain ⟨hloop, _⟩ := sound_stepLoop (hbase vm₀.heap rfl ▸ hhost) hprog.2 hframes
        (Option.some.inj hstep)
      exact absurd hloop id
  | native vm₀ program next₀ =>
    obtain ⟨_, hprog, _⟩ := hconfig.rebase rfl
    have hresult : stepNative host vm₀ next₀ program = .execModule vm module next :=
      congrArg Config.prog (Option.some.inj hstep)
    rcases sound_stepNative (hbase vm₀.heap rfl ▸ hhost) hprog with hsound | ⟨⟨heap, m, rest, rfl⟩, _⟩
    · rw [hresult] at hsound
      exact absurd hsound id
    · obtain ⟨hvm, hmodule, _⟩ := Prog.execModule.inj hresult
      subst hvm hmodule
      obtain ⟨_, ⟨found, hfound, hfresh, hset⟩, _⟩ := hprog.2.1
      exact ⟨vm₀.heap, found, rfl, hfound, hfresh, hset⟩
  | call vm₀ function this next₀ =>
    have hcall := Option.some.inj hstep
    rcases stepCall_cases vm₀ function this next₀ frames' with
      ⟨fault, hfault⟩ | ⟨_, _, _, _, _, _, _, _, hentered⟩
    · rw [hfault] at hcall
      cases congrArg Config.prog hcall
    · rw [hentered] at hcall
      cases congrArg Config.prog hcall
  | execModule vm₀ module₀ next₀ =>
    have hexec := Option.some.inj hstep
    rcases stepExecModule_cases vm₀ module₀ next₀ frames' with
      ⟨fault, hfault⟩ | ⟨_, _, _, _, _, hentered⟩
    · rw [hfault] at hexec
      cases congrArg Config.prog hexec
    · rw [hentered] at hexec
      cases congrArg Config.prog hexec

/-- A whole run. -/
theorem Config.Sound.run (hconfig : config.Sound g h) (hhost : host.Sound g h.modules.length) {n : ℕ}
    (hrun : Run.iterate (AtomixJS.step host) n config = some config') :
    ∃ h', h.Grows g h' ∧ config'.Sound g h' := by
  induction n generalizing config h with
  | zero =>
    obtain rfl := Option.some.inj hrun
    exact ⟨h, .refl g h, hconfig⟩
  | succ n ih =>
    cases hstep : AtomixJS.step host config with
    | none =>
      rw [Run.iterate_succ, hstep] at hrun
      cases hrun
    | some mid =>
      rw [Run.iterate_succ_of_step hstep] at hrun
      obtain ⟨h', hgrows, hmid⟩ := hconfig.step hhost hstep
      obtain ⟨h'', hgrows', hlast⟩ := ih hmid (hgrows.modules ▸ hhost) hrun
      exact ⟨h'', hgrows.trans hgrows', hlast⟩

end AtomixJS
