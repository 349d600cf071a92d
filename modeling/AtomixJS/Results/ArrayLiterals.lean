import AtomixJS.Compiler.Exports
import AtomixJS.Core.Arrays
import AtomixJS.Core.Calls
import AtomixJS.Results.CoreCompilation
import AtomixJS.Results.PrototypeChains

/-!
# Array literals

The code of an array literal makes an array, stores its length, and then stores the value of
each element under the decimal text of its index.  What the elements do besides pushing their
values is up to them, as long as they leave the new array alone.  The array is the one that the
native function `array` makes of the same values.
-/

namespace AtomixJS.Compiler

/-! ## The code -/

/-- The context behind the length. -/
def arrayHeader (ctx : PipeContext) (n : ℕ) : PipeContext :=
  let (lengthIdx, ctx) :=
    ((ctx.addInstruction .arrAlloc).addInstruction .dup).registerString (jsString "length")
  (ctx.addInstruction (.ldInt n)).addInstruction (.objStore lengthIdx)

variable {ctx ctx' ctx₁ : PipeContext} {i : ℕ} {e : Expression} {v : JSValue}

theorem pipeElements_cons {elements : List (Option Expression)} :
    pipeElements (some e :: elements) i ctx = .ok ctx' ↔
      ∃ ctx₁, pipeExpression e (ctx.addInstruction .dup) = .ok ctx₁ ∧
        pipeElements elements (i + 1) (ctx₁.addNamed .objStore (jsString (toString i))) = .ok ctx' := by
  rw [pipeElements, Fallible.bind_eq_ok]

/-! ## The machine in the code -/

/-- The machine executes the code of a program and has its strings. -/
structure Runs (target : Target) (vm : VM) (pc : ℕ) (ops : List JSValue) : Prop where
  holds : Holds target vm pc ops
  strings : ∃ module, vm.heap.modules[vm.module]? = some module ∧
    module.stringTable = target.module.stringTable

variable {act : Activation} {target : Target} {vm vm' : VM} {pc idx : ℕ} {ops ops' : List JSValue}
  {name : JSString} {arr : ObjectRef} {heap : Heap} {instruction : Instruction}
  {refs : List ScopeRef} {env : Env}

namespace Runs

theorem stackCounter (h : Runs target vm pc ops) : vm.stats.stackCounter = ops.length :=
  VM.counter_of_operands h.holds.operands

theorem setCounter (h : Runs target vm pc ops) (pc' : ℕ) : Runs target (vm.setCounter pc') pc' ops where
  holds := { h.holds with counter := rfl }
  strings := h.strings

theorem restack (h : Runs target vm pc ops) (hrestacked : VM.Restacked vm vm' ops')
    (hsize : ops'.length ≤ stackSize) : Runs target vm' pc ops' := by
  obtain ⟨hoperands, hrest, hcounter, -⟩ := hrestacked
  refine ⟨⟨?_, hcounter.trans h.holds.counter, hoperands, hsize⟩, ?_⟩
  · rw [hrest]
    exact h.holds.code
  · rw [hrest]
    exact h.strings

/-- The heap may change but for the modules. -/
theorem setHeap (h : Runs target vm pc ops) (hmodules : heap.modules = vm.heap.modules) :
    Runs target { vm with heap } pc ops := by
  refine ⟨{ h.holds with code := ?_ }, ?_⟩
  · show ∃ module, heap.modules[vm.module]? = some module ∧ _
    rw [hmodules]
    exact h.holds.code
  · show ∃ module, heap.modules[vm.module]? = some module ∧ _
    rw [hmodules]
    exact h.strings

theorem drop (top : List JSValue) (h : Runs target vm pc (top ++ ops)) :
    Runs target (vm.drop top.length) pc ops := by
  refine h.restack (VM.drop_restacked top h.holds.operands) (Nat.le_trans ?_ h.holds.size)
  rw [List.length_append]
  omega

theorem push (h : Runs target vm pc ops) (hroom : ops.length < stackSize) (v : JSValue) :
    ∃ vm', vm.push v = .ok vm' ∧ vm'.heap = vm.heap ∧ Runs target vm' pc (v :: ops) := by
  obtain ⟨vm', hpush, hrestacked⟩ := VM.push_restacked (h.stackCounter ▸ hroom) v
  rw [h.holds.operands] at hrestacked
  exact ⟨vm', hpush, by rw [hrestacked.rest], h.restack hrestacked hroom⟩

theorem loadStr (hloads : target.Loads) (h : Runs target vm pc ops)
    (hname : target.strings[idx]? = some name) :
    ∃ key, vm.loadStr (UInt16.ofNat idx) = .ok key ∧ key.map (·.toUInt16) = name := by
  obtain ⟨module, hmodule, hstrings⟩ := h.strings
  exact hloads.loadName hmodule hstrings hname

/-- One instruction. -/
theorem execute (h : Runs act.target vm pc ops) (hhas : act.Has pc instruction)
    (hret : instruction.opcode ≠ .ret)
    (hexec : execSlot act.host instruction.loaded (vm.setCounter (pc + 1)) = .done vm') :
    step act.host (act.config vm) = some (act.config vm') := by
  have hstep := step_of_executes act.host (Activation.executes hhas hret h.holds) act.frames
  rw [h.holds.counter, hexec] at hstep
  exact hstep

theorem dup (h : Runs act.target vm pc (v :: ops)) (hhas : act.Has pc .dup)
    (hroom : ops.length + 1 < stackSize) :
    ∃ vm', step act.host (act.config vm) = some (act.config vm') ∧ vm'.heap = vm.heap ∧
      Runs act.target vm' (pc + 1) (v :: v :: ops) := by
  have hnext := h.setCounter (pc + 1)
  obtain ⟨vm', hdup, hrestacked⟩ := instDup_restacked hnext.holds.operands
    (by rw [hnext.stackCounter, List.length_cons]; exact hroom)
  refine ⟨vm', h.execute hhas (by decide) ?_, by rw [hrestacked.rest]; rfl, hnext.restack hrestacked hroom⟩
  exact congrArg Prog.ofExcept hdup

/-- `OBJ_STORE` into an object that holds no accessor under the name. -/
theorem objStore (hloads : act.target.Loads) (h : Runs act.target vm pc (v :: .object arr :: ops))
    (hhas : act.Has pc (.objStore idx)) (hname : act.target.strings[idx]? = some name)
    (hlt : arr < vm.heap.objects.length) (hopen : NoAccessor vm.heap arr name) :
    ∃ vm' key, step act.host (act.config vm) = some (act.config vm') ∧
      key.map (·.toUInt16) = name ∧ vm'.heap = vm.heap.putProperty arr (.string key) v ∧
      Runs act.target vm' (pc + 1) ops := by
  have hnext := h.setCounter (pc + 1)
  have hdropped : Runs act.target ((vm.setCounter (pc + 1)).drop 2) (pc + 1) ops :=
    hnext.drop [v, .object arr]
  obtain ⟨key, hload, hkey⟩ := hdropped.loadStr hloads hname
  have hcounter : (vm.setCounter (pc + 1)).stats.stackCounter = ops.length + 2 := hnext.stackCounter
  have hsize : (vm.setCounter (pc + 1)).stats.stackCounter ≤ stackSize :=
    hnext.stackCounter ▸ hnext.holds.size
  have hneed : (vm.setCounter (pc + 1)).need 2 = .ok () := if_neg (by omega)
  have hbelow : (vm.setCounter (pc + 1)).slot ((vm.setCounter (pc + 1)).stats.stackCounter - 2) =
      .ok (.object arr) := VM.slot_of_operands (i := 1) (by rw [hnext.holds.operands]; rfl) hsize
  have hwrite := objectWriteProperty_of_own hlt (hopen key hkey) v
  refine ⟨{ (vm.setCounter (pc + 1)).drop 2 with heap := vm.heap.putProperty arr (.string key) v },
    key, h.execute hhas (fun h => nomatch h) ?_, hkey, rfl, hdropped.setHeap rfl⟩
  show instObjStore act.host (UInt16.ofNat idx) _ = _
  rw [instObjStore, hneed]
  simp only [Fallible.ok_bind, slot_top hnext.holds.operands hsize, hbelow, objectOf, hload]
  show Prog.after (objectWriteProperty vm.heap _ _ _) _ = _
  rw [hwrite]
  rfl

end Runs

/-! ## Keys -/

theorem lengthKey_eq {key : CString} (h : key.map (·.toUInt16) = jsString "length") :
    key = cString "length" := toUInt16_inj (h.trans (by decide))

/-- The compiler and the machine write an index in the same way. -/
theorem indexKey_eq {key : CString} (h : key.map (·.toUInt16) = jsString (toString i))
    (hlt : i < 2 ^ 31) : PropertyKey.string key = intKey (BitVec.ofNat 32 i) := by
  have hdigits : signedDigits (BitVec.ofNat 32 i) = Nat.toDigits 10 i := by
    unfold signedDigits
    rw [toInt_ofNat hlt, if_neg (by omega), Int.natAbs_natCast]
  have htext : (intToString (BitVec.ofNat 32 i)).map (·.toUInt16) = jsString (toString i) := by
    unfold jsString
    rw [intToString_eq, hdigits, List.map_map, Nat.toString_eq_repr, Nat.toList_repr]
    refine List.map_congr_left fun c hc => ?_
    have hdigit := Nat.isDigit_of_mem_toDigits (by decide) (by decide) hc
    have hcode : c.toNat < 256 :=
      Nat.lt_of_le_of_lt (Char.isDigit_iff_toNat.mp hdigit).2 (by decide)
    rw [← UInt16.toNat_inj]
    show c.toNat % 256 = c.toNat % 65536
    omega
  rw [toUInt16_inj (h.trans htext.symm)]
  rfl

/-! ## The elements -/

/-- The array and the prototypes stay as they are. -/
structure Spares (arr : ObjectRef) (h h' : Heap) : Prop where
  object : h'.objects[arr]? = h.objects[arr]?
  objectPrototype : h'.objectPrototype = h.objectPrototype
  arrayPrototype : h'.arrayPrototype = h.arrayPrototype

/-- The machine runs through what was added between two contexts.  This pushes exactly one value,
and leaves the array alone. -/
structure Activation.PushesBeside (act : Activation) (arr : ObjectRef) (ctx ctx' : PipeContext)
    (v : JSValue) (vm vm' : VM) : Prop where
  run : Run.Reaches (step act.host) (act.config vm) (act.config vm')
  value : ∀ ops, Runs act.target vm ctx.code.length ops → Runs act.target vm' ctx'.code.length (v :: ops)
  spares : Spares arr vm.heap vm'.heap

/-- Each element, from the state behind its `DUP`, pushes its value beside the array.  The next one
begins in the state behind `OBJ_STORE`. -/
def Activation.ElementsRun (act : Activation) (arr : ObjectRef) :
    List (Expression × JSValue) → ℕ → PipeContext → VM → Prop
  | [], _, _, _ => True
  | (e, v) :: elements, i, ctx, vm =>
    ∀ vm₁, step act.host (act.config vm) = some (act.config vm₁) →
      ∃ ctx₁ vm₂, pipeExpression e (ctx.addInstruction .dup) = .ok ctx₁ ∧
        act.PushesBeside arr (ctx.addInstruction .dup) ctx₁ v vm₁ vm₂ ∧
        ∀ vm₃, step act.host (act.config vm₂) = some (act.config vm₃) →
          act.ElementsRun arr elements (i + 1) (ctx₁.addNamed .objStore (jsString (toString i))) vm₃

variable {size : CInt} {values : List JSValue} {elements : List (Expression × JSValue)} {h h' : Heap}

theorem Spares.own (hspares : Spares arr h h') : h'.own arr = h.own arr := by
  funext key
  unfold Heap.own
  rw [hspares.object]

theorem Spares.filled (hspares : Spares arr h h') (hfilled : Filled h arr size values) :
    Filled h' arr size values := by
  refine ⟨?_, ?_, fun i => ?_⟩
  · have hnode := List.getElem?_eq_getElem hfilled.lt
    rw [← hspares.object] at hnode
    exact (List.getElem?_eq_some_iff.mp hnode).1
  · rw [hspares.own]
    exact hfilled.length
  · rw [hspares.own]
    exact hfilled.element i

theorem Spares.below (hspares : Spares arr h h') (hbelow : BelowArrayPrototype h arr) :
    BelowArrayPrototype h' arr := by
  obtain ⟨root, p, hroot, hp, hne, hother, hlink⟩ := hbelow.prototypes
  refine ⟨root, p, hspares.objectPrototype.trans hroot, hspares.arrayPrototype.trans hp, hne, hother,
    ?_⟩
  rw [hspares.object]
  exact hlink

theorem extends_elements {list : List (Option Expression)}
    (hemit : pipeElements list i ctx = .ok ctx') : Extends ctx ctx' := by
  obtain ⟨visits, hemission, -⟩ := visits_elements hemit
  exact hemission.extends

/-- What is placed for an element, and for those behind it. -/
theorem element_placed {list : List (Option Expression)}
    (hvalue : pipeExpression e (ctx.addInstruction .dup) = .ok ctx₁)
    (hrest : pipeElements list (i + 1) (ctx₁.addNamed .objStore (jsString (toString i))) = .ok ctx')
    (hplaced : act.Placed ctx ctx') :
    act.Has ctx.code.length .dup ∧ act.Placed (ctx.addInstruction .dup) ctx₁ ∧
      act.Placed ctx₁ (ctx₁.addNamed .objStore (jsString (toString i))) ∧
      act.Placed (ctx₁.addNamed .objStore (jsString (toString i))) ctx' := by
  have hdup := Extends.add ctx .dup
  have hexpression := extends_node (n := .expression e) hvalue
  have hstore := Extends.addNamed ctx₁ .objStore (jsString (toString i))
  have hothers := extends_elements hrest
  exact ⟨(hplaced.first ((hexpression.trans hstore).trans hothers)).added,
    (hplaced.second hdup).first (hstore.trans hothers),
    (hplaced.second (hdup.trans hexpression)).first hothers,
    hplaced.second ((hdup.trans hexpression).trans hstore)⟩

/-- The store behind an element. -/
theorem Runs.storeElement (hloads : act.target.Loads)
    (hplaced : act.Placed ctx (ctx.addNamed .objStore (jsString (toString values.length))))
    (h : Runs act.target vm ctx.code.length (v :: .object arr :: ops))
    (hfilled : Filled vm.heap arr size values) (hbelow : BelowArrayPrototype vm.heap arr)
    (hcount : values.length < 2 ^ 31) :
    ∃ vm', step act.host (act.config vm) = some (act.config vm') ∧
      Runs act.target vm'
        (ctx.addNamed .objStore (jsString (toString values.length))).code.length ops ∧
      Filled vm'.heap arr size (values ++ [v]) ∧ BelowArrayPrototype vm'.heap arr := by
  obtain ⟨hhas, hname⟩ := hplaced.named
  have hopen : NoAccessor vm.heap arr (jsString (toString values.length)) := by
    intro key hkey getter setter
    rw [indexKey_eq hkey hcount, hfilled.element, toInt_ofNat hcount, Int.toNat_natCast,
      List.getElem?_eq_none (Nat.le_refl _), ite_self]
    intro heq
    cases heq
  obtain ⟨vm', key, hstep, hkey, hheap, hruns⟩ := h.objStore hloads hhas hname hfilled.lt hopen
  rw [indexKey_eq hkey hcount] at hheap
  refine ⟨vm', hstep, ?_, ?_, ?_⟩
  · rw [show (ctx.addNamed .objStore (jsString (toString values.length))).code.length =
      ctx.code.length + 1 from addInstruction_length _ _]
    exact hruns
  · rw [hheap]
    exact hfilled.store hcount
  · rw [hheap]
    exact hbelow.putProperty _ _ _

/-- The run: each element comes behind those before it. -/
theorem elements_run (hloads : act.target.Loads)
    (hemit : pipeElements (elements.map fun element => some element.1) values.length ctx = .ok ctx')
    (hplaced : act.Placed ctx ctx') (hruns : Runs act.target vm ctx.code.length (.object arr :: ops))
    (hroom : ops.length + 3 ≤ stackSize) (hfilled : Filled vm.heap arr size values)
    (hbelow : BelowArrayPrototype vm.heap arr) (hcount : values.length + elements.length ≤ 2 ^ 31)
    (helements : act.ElementsRun arr elements values.length ctx vm) :
    ∃ vm', Run.Reaches (step act.host) (act.config vm) (act.config vm') ∧
      Runs act.target vm' ctx'.code.length (.object arr :: ops) ∧
      Filled vm'.heap arr size (values ++ elements.map Prod.snd) ∧
      BelowArrayPrototype vm'.heap arr := by
  induction elements generalizing ctx vm values with
  | nil =>
    obtain rfl := Except.ok.inj hemit
    rw [List.map_nil, List.append_nil]
    exact ⟨vm, .refl _, hruns, hfilled, hbelow⟩
  | cons element elements ih =>
    obtain ⟨e, v⟩ := element
    rw [List.length_cons] at hcount
    obtain ⟨ctx₁, hvalue, hrest⟩ := pipeElements_cons.mp hemit
    obtain ⟨hhas, -, hstore, hothers⟩ := element_placed hvalue hrest hplaced
    -- `DUP`, the expression and `OBJ_STORE`
    obtain ⟨vm₁, hstep₁, hheap₁, hruns₁⟩ := hruns.dup hhas (by omega)
    obtain ⟨ctx₂, vm₂, hvalue', hpushes, hnext⟩ := helements vm₁ hstep₁
    obtain rfl := Except.ok.inj (hvalue'.symm.trans hvalue)
    rw [← addInstruction_length ctx .dup] at hruns₁
    have hspares : Spares arr vm.heap vm₂.heap := hheap₁ ▸ hpushes.spares
    obtain ⟨vm₃, hstep₃, hruns₃, hfilled₃, hbelow₃⟩ := (hpushes.value _ hruns₁).storeElement hloads
      hstore (hspares.filled hfilled) (hspares.below hbelow) (by omega)
    -- the elements behind it
    have hlength : (values ++ [v]).length = values.length + 1 := by
      rw [List.length_append, List.length_singleton]
    obtain ⟨vm', hreaches, hruns', hfilled', hbelow'⟩ := ih (hlength ▸ hrest) hothers hruns₃ hfilled₃
      hbelow₃ (by omega) (hlength ▸ hnext vm₃ hstep₃)
    rw [List.append_assoc, List.singleton_append] at hfilled'
    exact ⟨vm', .head hstep₁ (hpushes.run.trans (.head hstep₃ hreaches)), hruns', hfilled', hbelow'⟩

/-! ### Names -/

theorem Stands.runs (h : Stands target vm pc ops refs env) : Runs target vm pc ops :=
  ⟨h.holds, target.module, h.module_eq, rfl⟩

/-- A quiet instruction keeps the bindings. -/
theorem Stands.next {pc' : ℕ} (h : Stands act.target vm pc ops refs env)
    (hhas : act.Has pc instruction) (hquiet : instruction.isQuiet = true)
    (hstep : step act.host (act.config vm) = some (act.config vm'))
    (hruns : Runs act.target vm' pc' ops') : Stands act.target vm' pc' ops' refs env := by
  have hexecutes := Activation.executes hhas (InstOf.opcode_ne_ret_of_isQuiet hquiet) h.holds
  have hexec := Option.some.inj ((step_of_executes act.host hexecutes act.frames).symm.trans hstep)
  have hdone : execSlot act.host instruction.loaded
      (vm.setCounter (vm.stats.instructionCounter + 1)) = .done vm' := congrArg Config.prog hexec
  have hkeeps : (execSlot act.host instruction.loaded
      (vm.setCounter (vm.stats.instructionCounter + 1))).Quiet _ := execSlot_quiet hquiet
  rw [hdone] at hkeeps
  obtain ⟨⟨hmodule, hscope, -⟩, hscopes, hmodules⟩ := hkeeps
  have hsame : ∀ ref, vm'.heap.binding ref = vm.heap.binding ref := by
    intro ref
    funext key
    unfold Heap.binding
    rw [hscopes]
    rfl
  refine ⟨h.loads, ?_, hruns.holds.counter, hruns.holds.operands, hruns.holds.size, ?_,
    h.bindings.congr fun ref _ => hsame ref⟩
  · rw [hmodules, hmodule]
    exact h.module_eq
  · unfold Heap.ScopeChain
    rw [hscopes, hscope]
    exact h.chain

/-- Names with bindings and strings push their values and do nothing else. -/
theorem elementsRun_of_reads
    (hemit : pipeElements (elements.map fun element => some element.1) values.length ctx = .ok ctx')
    (hplaced : act.Placed ctx ctx')
    (hreads : ∀ element ∈ elements, Reads env element.1 element.2)
    (hstands : Stands act.target vm ctx.code.length (.object arr :: ops) refs env)
    (hroom : ops.length + 3 ≤ stackSize) (hfilled : Filled vm.heap arr size values)
    (hbelow : BelowArrayPrototype vm.heap arr) (hcount : values.length + elements.length ≤ 2 ^ 31) :
    act.ElementsRun arr elements values.length ctx vm := by
  have hunique : ∀ {vm vm₁ vm₂ : VM}, step act.host (act.config vm) = some (act.config vm₁) →
      step act.host (act.config vm) = some (act.config vm₂) → vm₁ = vm₂ := by
    intro vm vm₁ vm₂ h₁ h₂
    exact Prog.done.inj (congrArg Config.prog (Option.some.inj (h₁.symm.trans h₂)))
  induction elements generalizing ctx vm values with
  | nil => exact trivial
  | cons element elements ih =>
    obtain ⟨e, v⟩ := element
    rw [List.length_cons] at hcount
    obtain ⟨ctx₁, hvalue, hrest⟩ := pipeElements_cons.mp hemit
    obtain ⟨hhas, hexpression, hstore, hothers⟩ := element_placed hvalue hrest hplaced
    intro vm₁ hstep₁
    obtain ⟨vm₁', hstep₁', hheap₁, hruns₁⟩ := hstands.runs.dup hhas (by omega)
    obtain rfl := hunique hstep₁ hstep₁'
    have hstands₁ := hstands.next hhas rfl hstep₁ hruns₁
    rw [← addInstruction_length ctx .dup] at hstands₁
    -- the name is read
    obtain ⟨vm₂, hread, hstands₂, hheap₂⟩ := reads_run hvalue hexpression
      (hreads _ List.mem_cons_self) hstands₁ (by simp only [List.length_cons]; omega)
    have hheap := hheap₂.trans hheap₁
    refine ⟨ctx₁, vm₂, hvalue, ⟨⟨1, hread.iterate⟩, fun ops' hops' => ?_, ?_⟩, fun vm₃ hstep₃ => ?_⟩
    · obtain rfl := hstands₁.operands.symm.trans hops'.holds.operands
      exact hstands₂.runs
    · rw [hheap₂]
      exact ⟨rfl, rfl, rfl⟩
    · obtain ⟨vm₃', hstep₃', hruns₃, hfilled₃, hbelow₃⟩ := hstands₂.runs.storeElement
        hstands.loads hstore (hheap ▸ hfilled) (hheap ▸ hbelow) (by omega)
      obtain rfl := hunique hstep₃ hstep₃'
      have hlength : (values ++ [v]).length = values.length + 1 := by
        rw [List.length_append, List.length_singleton]
      rw [← hlength]
      exact ih (hlength ▸ hrest) hothers (fun element hmem => hreads element (List.mem_cons_of_mem _ hmem))
        (hstands₂.next hstore.named.1 rfl hstep₃ hruns₃) hfilled₃ hbelow₃ (by omega)

/-! ## The array in front of its elements -/

theorem Runs.arrAlloc (h : Runs act.target vm pc ops) (hhas : act.Has pc .arrAlloc)
    (hroom : ops.length < stackSize) :
    ∃ vm', step act.host (act.config vm) = some (act.config vm') ∧
      vm'.heap = (createArray vm.heap).1 ∧
      Runs act.target vm' (pc + 1) (.object (createArray vm.heap).2 :: ops) := by
  have hnext := h.setCounter (pc + 1)
  have hcreated : Runs act.target { vm.setCounter (pc + 1) with heap := (createArray vm.heap).1 }
      (pc + 1) ops := hnext.setHeap (objectGetArrayPrototype_keeps vm.heap).2
  obtain ⟨vm', hpush, hheap, hruns⟩ := hcreated.push hroom (.object (createArray vm.heap).2)
  have hfree : (vm.setCounter (pc + 1)).room = .ok () :=
    if_neg (by rw [hnext.stackCounter]; omega)
  have hfree' : VM.room { vm.setCounter (pc + 1) with heap := (createArray vm.heap).1 } = .ok () :=
    hfree
  rw [VM.push, hfree', Fallible.ok_bind] at hpush
  refine ⟨vm', h.execute hhas (by decide) ?_, hheap, hruns⟩
  show Prog.ofExcept (instArrAlloc (vm.setCounter (pc + 1))) = _
  rw [instArrAlloc, hfree, Fallible.ok_bind]
  exact congrArg Prog.ofExcept hpush

theorem Runs.ldInt {n : ℕ} (h : Runs act.target vm pc ops) (hhas : act.Has pc (.ldInt n))
    (hroom : ops.length < stackSize) :
    ∃ vm', step act.host (act.config vm) = some (act.config vm') ∧ vm'.heap = vm.heap ∧
      Runs act.target vm' (pc + 1) (.integer (BitVec.ofNat 32 n) :: ops) := by
  obtain ⟨vm', hpush, hheap, hruns⟩ := (h.setCounter (pc + 1)).push hroom
    (.integer (BitVec.ofNat 32 n))
  have hvalue : BitVec.ofInt 32 (n : ℤ) = BitVec.ofNat 32 n := BitVec.ofInt_natCast 32 n
  refine ⟨vm', h.execute hhas (by rintro ⟨⟩) ?_, hheap, hruns⟩
  show Prog.ofExcept ((vm.setCounter (pc + 1)).push (.integer (BitVec.ofInt 32 (n : ℤ)))) = _
  rw [hvalue, hpush]
  rfl

theorem extends_header (ctx : PipeContext) (n : ℕ) : Extends ctx (arrayHeader ctx n) :=
  ((((Extends.add ctx .arrAlloc).trans (.add _ .dup)).trans (.register _ _)).trans
    (.add _ (.ldInt n))).trans (.add _ (.objStore _))

/-- Four instructions make the array and give it its length. -/
theorem header_run {n : ℕ} (hloads : act.target.Loads) (hplaced : act.Placed ctx (arrayHeader ctx n))
    (hruns : Runs act.target vm ctx.code.length ops) (hroom : ops.length + 3 ≤ stackSize)
    (hsettled : Settled vm.heap) :
    ∃ vm' arr, Run.iterate (step act.host) 4 (act.config vm) = some (act.config vm') ∧
      Runs act.target vm' (arrayHeader ctx n).code.length (.object arr :: ops) ∧
      Filled vm'.heap arr (BitVec.ofNat 32 n) [] ∧ BelowArrayPrototype vm'.heap arr ∧
      ∀ refs env, Stands act.target vm ctx.code.length ops refs env →
        Stands act.target vm' (arrayHeader ctx n).code.length (.object arr :: ops) refs env := by
  obtain ⟨hlt, hbelow, hempty⟩ := createArray_settled hsettled
  -- the four instructions
  have hcode : (arrayHeader ctx n).code = ctx.code ++ [.arrAlloc, .dup, .ldInt n,
      .objStore (((ctx.addInstruction .arrAlloc).addInstruction .dup).registerString
        (jsString "length")).1] := by
    simp [arrayHeader]
  have hhas : ∀ k instruction, ([.arrAlloc, .dup, .ldInt n,
      .objStore (((ctx.addInstruction .arrAlloc).addInstruction .dup).registerString
        (jsString "length")).1] : List Instruction)[k]? = some instruction →
      act.Has (ctx.code.length + k) instruction := by
    intro k instruction hget
    refine hplaced.get (Nat.le_add_right _ _) ?_
    rw [hcode, List.getElem?_append_right (Nat.le_add_right _ _), Nat.add_sub_cancel_left]
    exact hget
  have hname : act.target.strings[(((ctx.addInstruction .arrAlloc).addInstruction
      .dup).registerString (jsString "length")).1]? = some (jsString "length") :=
    hplaced.string (((ctx.addInstruction .arrAlloc).addInstruction
      .dup).stable.registerString_getElem? (jsString "length"))
  -- their steps
  obtain ⟨vm₁, hstep₁, hheap₁, hruns₁⟩ := hruns.arrAlloc (hhas 0 _ rfl) (by omega)
  obtain ⟨vm₂, hstep₂, hheap₂, hruns₂⟩ := hruns₁.dup (hhas 1 _ rfl) (by omega)
  obtain ⟨vm₃, hstep₃, hheap₃, hruns₃⟩ := hruns₂.ldInt (hhas 2 _ rfl)
    (by simp only [List.length_cons]; omega)
  have hheap : vm₃.heap = (createArray vm.heap).1 := (hheap₃.trans hheap₂).trans hheap₁
  rw [← hheap] at hlt hbelow hempty
  have hopen : NoAccessor vm₃.heap (createArray vm.heap).2 (jsString "length") := by
    intro key _ getter setter
    rw [hempty]
    intro heq
    cases heq
  obtain ⟨vm₄, key, hstep₄, hkey, hheap₄, hruns₄⟩ := hruns₃.objStore hloads (hhas 3 _ rfl) hname hlt
    hopen
  rw [lengthKey_eq hkey] at hheap₄
  have hend : (arrayHeader ctx n).code.length = ctx.code.length + 4 := by
    rw [hcode, List.length_append]
    rfl
  rw [← hend] at hruns₄
  refine ⟨vm₄, (createArray vm.heap).2, ?_, hruns₄, ?_, ?_, fun refs env hstands => ?_⟩
  · rw [Run.iterate_succ_of_step hstep₁, Run.iterate_succ_of_step hstep₂,
      Run.iterate_succ_of_step hstep₃, Run.iterate_succ_of_step hstep₄, Run.iterate_zero]
  · rw [hheap₄]
    exact .start hlt hempty _
  · rw [hheap₄]
    exact hbelow.putProperty _ _ _
  · have hstands₁ := hstands.next (hhas 0 _ rfl) rfl hstep₁ hruns₁
    have hstands₂ := hstands₁.next (hhas 1 _ rfl) rfl hstep₂ hruns₂
    have hstands₃ := hstands₂.next (hhas 2 _ rfl) rfl hstep₃ hruns₃
    exact hstands₃.next (hhas 3 _ rfl) rfl hstep₄ hruns₄

theorem pipeExpression_array
    (hemit : pipeExpression (.arrayExpression (elements.map fun element => some element.1)) ctx =
      .ok ctx') :
    pipeElements (elements.map fun element => some element.1) 0 (arrayHeader ctx elements.length) =
      .ok ctx' := by
  rw [pipeExpression, List.length_map] at hemit
  exact hemit

/-- Of names with bindings and of strings a literal can be made. -/
theorem literal_of_reads
    (hemit : pipeExpression (.arrayExpression (elements.map fun element => some element.1)) ctx =
      .ok ctx')
    (hplaced : act.Placed ctx ctx') (hstands : Stands act.target vm ctx.code.length ops refs env)
    (hroom : ops.length + 3 ≤ stackSize) (hsettled : Settled vm.heap)
    (hcount : elements.length ≤ 2 ^ 31) (hreads : ∀ element ∈ elements, Reads env element.1 element.2)
    (vm₁ : VM) (arr : ObjectRef)
    (hheader : Run.iterate (step act.host) 4 (act.config vm) = some (act.config vm₁))
    (hops : vm₁.operands = .object arr :: ops) :
    act.ElementsRun arr elements 0 (arrayHeader ctx elements.length) vm₁ := by
  have hrest := pipeExpression_array hemit
  obtain ⟨vm₁', arr', hheader', hruns, hfilled, hbelow, hkeeps⟩ := header_run hstands.loads
    (hplaced.first (extends_elements hrest)) hstands.runs hroom hsettled
  obtain rfl := Prog.done.inj (congrArg Config.prog (Option.some.inj (hheader'.symm.trans hheader)))
  obtain rfl := JSValue.object.inj (List.cons.inj (hops.symm.trans hruns.holds.operands)).1
  have hcount' : ([] : List JSValue).length + elements.length ≤ 2 ^ 31 := by
    rw [List.length_nil, Nat.zero_add]
    exact hcount
  exact elementsRun_of_reads hrest (hplaced.second (extends_header ctx _)) hreads
    (hkeeps refs env hstands) hroom hfilled hbelow hcount'

/-! ## The constructor -/

/-- `CALL` on the native function `array`. -/
theorem array_call {link : Linkage} {address : JSValue → CInt} {indexFirst : Bool}
    {function objectBase : ℕ} {operand : UInt16} {this : JSValue} {own : List JSValue}
    {frames : List Frame} (hops : vm.operands = .func function :: this :: (values ++ own))
    (hsize : vm.stats.stackCounter ≤ stackSize) (hcount : values.length = operand.toNat)
    (hfunction : vm.heap.functions[function]? = some ⟨objectBase, .native (some 7)⟩)
    (hsettled : Settled vm.heap) (hone : values.length ≠ 1)
    (hvalues : ∀ v ∈ values, v.isGsBox = false) :
    ∃ vm' arr, Run.iterate (step (sourceHost link address indexFirst)) 1
        ⟨execInst (sourceHost link address indexFirst) (.call operand) vm, frames⟩ =
          some ⟨.done vm', frames⟩ ∧
      vm'.operands = .object arr :: own ∧ ActsAsArray vm'.heap arr values := by
  have hlt : values.length < 2 ^ 31 := by
    have hword := operand.toNat_lt
    omega
  obtain ⟨heap, arr, hrun, hfilled, hbelow⟩ := array_settled hsettled hone hlt vm.module this
  have hcall : execInst (sourceHost link address indexFirst) (.call operand) vm =
      .native (vm.drop 1) (.ret heap (.object arr)) (callReturn operand) := by
    rw [← hrun]
    exact instCall_native hops hcount hsize hfunction
  -- the callee, `this` and the arguments give way to the array
  have hcounter := VM.counter_of_operands hops
  rw [List.length_cons, List.length_cons, List.length_append] at hcounter
  have hdrop : VM.Restacked vm (vm.drop 1) (this :: (values ++ own)) :=
    VM.drop_restacked [.func function] hops
  have hreturned : VM.Restacked { vm.drop 1 with heap } (VM.drop { vm.drop 1 with heap }
      (operand.toNat + 1)) own := by
    have hoperands : VM.operands { vm.drop 1 with heap } = this :: values ++ own := hdrop.operands
    have hboth := VM.drop_restacked (this :: values) hoperands
    rwa [List.length_cons, hcount] at hboth
  have hroom : (VM.drop { vm.drop 1 with heap } (operand.toNat + 1)).stats.stackCounter <
      stackSize := by
    rw [VM.counter_of_operands hreturned.operands]
    omega
  obtain ⟨vm', happend, hrestacked⟩ := VM.append_restacked hroom (.object arr)
  have hstep : step (sourceHost link address indexFirst)
      ⟨.native (vm.drop 1) (.ret heap (.object arr)) (callReturn operand), frames⟩ =
        some ⟨.done vm', frames⟩ :=
    congrArg (fun result => some (Config.mk (Prog.ofExcept result) frames)) happend
  have hheap : vm'.heap = heap := by
    rw [hrestacked.rest]
    rfl
  refine ⟨vm', arr, ?_, ?_, ?_⟩
  · rw [hcall, Run.iterate_succ_of_step hstep, Run.iterate_zero]
  · rw [hrestacked.operands, hreturned.operands]
  · rw [hheap]
    exact hfilled.actsAsArray hbelow hlt hvalues

/-! ## Literals and the constructor -/

/-- **Arrays.**  The compiled literal of some expressions makes an array of their values, if
each pushes its value and leaves the array alone.  `Array`, called with several values or none,
makes an array of those.  Both have the length, are arrays, and have the values under their
indices and nothing under the other integers. -/
theorem arrays_agree (hloads : act.target.Loads)
    (hemit : pipeExpression (.arrayExpression (elements.map fun element => some element.1)) ctx =
      .ok ctx')
    (hplaced : act.Placed ctx ctx') (hruns : Runs act.target vm ctx.code.length ops)
    (hroom : ops.length + 3 ≤ stackSize) (hsettled : Settled vm.heap)
    (hcount : elements.length < 2 ^ 31) (hvalues : ∀ element ∈ elements, element.2.isGsBox = false)
    (helements : ∀ vm₁ arr,
      Run.iterate (step act.host) 4 (act.config vm) = some (act.config vm₁) →
      vm₁.operands = .object arr :: ops →
      act.ElementsRun arr elements 0 (arrayHeader ctx elements.length) vm₁) :
    (∃ vm' arr, Run.Reaches (step act.host) (act.config vm) (act.config vm') ∧
      vm'.operands = .object arr :: ops ∧ vm'.stats.instructionCounter = ctx'.code.length ∧
      ActsAsArray vm'.heap arr (elements.map Prod.snd)) ∧
    ∀ (link : Linkage) (address : JSValue → CInt) (indexFirst : Bool) (caller : VM)
      (function objectBase : ℕ) (operand : UInt16) (this : JSValue) (own : List JSValue)
      (frames : List Frame), elements.length ≠ 1 →
      caller.operands = .func function :: this :: (elements.map Prod.snd ++ own) →
      caller.stats.stackCounter ≤ stackSize → elements.length = operand.toNat →
      caller.heap.functions[function]? = some ⟨objectBase, .native (some 7)⟩ →
      Settled caller.heap →
      ∃ vm' arr, Run.iterate (step (sourceHost link address indexFirst)) 1
          ⟨execInst (sourceHost link address indexFirst) (.call operand) caller, frames⟩ =
            some ⟨.done vm', frames⟩ ∧
        vm'.operands = .object arr :: own ∧ ActsAsArray vm'.heap arr (elements.map Prod.snd) := by
  have hboxes : ∀ v ∈ elements.map Prod.snd, v.isGsBox = false := by
    intro v hv
    obtain ⟨element, hmem, rfl⟩ := List.mem_map.mp hv
    exact hvalues element hmem
  have hlength : (elements.map Prod.snd).length = elements.length := List.length_map _
  constructor
  · have hrest := pipeExpression_array hemit
    have hothers := extends_elements hrest
    obtain ⟨vm₁, arr, hheader, hruns₁, hfilled, hbelow, -⟩ :=
      header_run hloads (hplaced.first hothers) hruns hroom hsettled
    have hcount' : ([] : List JSValue).length + elements.length ≤ 2 ^ 31 := by
      rw [List.length_nil, Nat.zero_add]
      exact Nat.le_of_lt hcount
    obtain ⟨vm', hreaches, hruns', hfilled', hbelow'⟩ := elements_run hloads hrest
      (hplaced.second (extends_header ctx _)) hruns₁ hroom hfilled hbelow hcount'
      (helements vm₁ arr hheader hruns₁.holds.operands)
    rw [List.nil_append, ← hlength] at hfilled'
    refine ⟨vm', arr, Run.Reaches.trans ⟨4, hheader⟩ hreaches, hruns'.holds.operands,
      hruns'.holds.counter, ?_⟩
    exact hfilled'.actsAsArray hbelow' (by omega) hboxes
  · intro link address indexFirst caller function objectBase operand this own frames hone hops hsize
      hoperand hfunction hcaller
    exact array_call hops hsize (hlength.trans hoperand) hfunction hcaller
      (by rwa [hlength]) hboxes

/-! ### Two elements -/

private theorem array_strings_lt :
    [cString "length", cString "a", cString "0", cString "1"].length < 2 ^ 32 := by decide

/-- `["a", undefined]` -/
private def pairElements : List (Expression × JSValue) :=
  [(.stringLiteral (jsString "a"), .string (cString "a")),
    (.identifier (jsString "undefined"), .undefined)]

/-- The context behind it. -/
private def pairContext : PipeContext :=
  (pipeExpression (.arrayExpression (pairElements.map fun element => some element.1))
    .empty).toOption.getD .empty

/-- Its code. -/
private def pairTarget : Target where
  module := JSModule.ofCode [cString "length", cString "a", cString "0", cString "1"]
    [some .arrAlloc, some .dup, some (.ldInt 2), some (.objStore 0), some .dup,
      some (.ldString 1), some (.objStore 2), some .dup, some .ldUndf, some (.objStore 3)]
    array_strings_lt (by decide)
  strings := [jsString "length", jsString "a", jsString "0", jsString "1"]
  code := [.arrAlloc, .dup, .ldInt 2, .objStore 0, .dup, .ldString 1, .objStore 2, .dup, .ldUndf,
    .objStore 3]
  instructions_eq := rfl

private theorem pairTarget_loads : pairTarget.Loads := by
  have hstrings : ∀ i < 4, ∃ loaded,
      stringTableLoadStr pairTarget.module.stringTable (UInt32.ofNat i) = .ok loaded ∧
        some (loaded.map (·.toUInt16)) = pairTarget.strings[i]? := by
    intro i hi
    have h : i = 0 ∨ i = 1 ∨ i = 2 ∨ i = 3 := by omega
    rcases h with rfl | rfl | rfl | rfl
    · exact ⟨cString "length", by decide, by decide⟩
    · exact ⟨cString "a", by decide, by decide⟩
    · exact ⟨cString "0", by decide, by decide⟩
    · exact ⟨cString "1", by decide, by decide⟩
  refine ⟨by decide, by decide, fun i s hs => ?_⟩
  obtain ⟨hi, -⟩ := List.getElem?_eq_some_iff.mp hs
  obtain ⟨loaded, hload, heq⟩ := hstrings i hi
  exact ⟨loaded, hload, Option.some.inj (heq.trans hs)⟩

private def pairMachine : VM := machineOf pairTarget 0

private theorem pairMachine_stands :
    Stands pairTarget pairMachine 0 [] [0] [fun _ => none] := by
  refine ⟨pairTarget_loads, rfl, rfl, rfl, Nat.zero_le _, .last rfl rfl, .cons (fun key => ?_) .nil⟩
  exact dictGet_create scopeBucketSize scopeBucketSize_pos key

private theorem pairMachine_settled : Settled pairMachine.heap where
  rooted := { Heap.Rooted.empty with }
  separate := by rintro p ⟨⟩

/-- A machine before `CALL` on `array`, with the same two values. -/
private def arrayCaller : VM where
  module := 0
  globalScope := 0
  scope := 0
  stats :=
    { instructionCounter := 0, stackCounter := 4, stackStart := 0
      stack := fun i =>
        if i = 3 then .func 0 else if i = 1 then .string (cString "a") else .undefined }
  heap := (functionCreateNativeFunction Heap.empty (some 7)).1

private theorem arrayCaller_settled : Settled arrayCaller.heap := by
  have hrun : (HeapOperation.createNativeFunction (some 7)).run Heap.empty = .ok arrayCaller.heap := rfl
  exact (HeapOperation.Reaches.step .empty (by rintro v ⟨⟩) (by rintro ⟨⟩) hrun).settled

/-- `["a", undefined]` and `Array("a", undefined)`. -/
theorem arrays_agree_pair :
    (∃ vm' arr, Run.Reaches (step (activationOf pairTarget).host)
        ((activationOf pairTarget).config pairMachine) ((activationOf pairTarget).config vm') ∧
      vm'.operands = [.object arr] ∧ ActsAsArray vm'.heap arr [.string (cString "a"), .undefined]) ∧
    ∃ vm' arr, Run.iterate (step (sourceHost ⟨[], []⟩ (fun _ => 0) true)) 1
        ⟨execInst (sourceHost ⟨[], []⟩ (fun _ => 0) true) (.call 2) arrayCaller, []⟩ =
          some ⟨.done vm', []⟩ ∧
      vm'.operands = [.object arr] ∧ ActsAsArray vm'.heap arr [.string (cString "a"), .undefined] := by
  have hemit : pipeExpression (.arrayExpression (pairElements.map fun element => some element.1))
      .empty = .ok pairContext := rfl
  have hplaced : (activationOf pairTarget).Placed .empty pairContext :=
    ⟨agree_extended ⟨[], rfl⟩ (Nat.le_refl _), List.prefix_rfl, Nat.le_refl _, Nat.le_refl _⟩
  have hreads : ∀ element ∈ pairElements, Reads [fun _ => none] element.1 element.2 := by
    intro element hmem
    rcases List.mem_cons.mp hmem with rfl | hmem
    · exact .string (by decide)
    · obtain rfl := List.mem_singleton.mp hmem
      exact .undefined
  have hvalues : ∀ element ∈ pairElements, element.2.isGsBox = false := by decide
  obtain ⟨⟨vm₁, arr₁, hrun₁, hops₁, -, harray₁⟩, hcall⟩ := arrays_agree pairTarget_loads hemit hplaced
    pairMachine_stands.runs (by decide) pairMachine_settled (by decide) hvalues
    (literal_of_reads hemit hplaced pairMachine_stands (by decide) pairMachine_settled (by decide)
      hreads)
  obtain ⟨vm₂, arr₂, hrun₂, hops₂, harray₂⟩ := hcall ⟨[], []⟩ (fun _ => 0) true arrayCaller 0 1 2
    .undefined [] [] (by decide) rfl (by decide) rfl rfl arrayCaller_settled
  exact ⟨⟨vm₁, arr₁, hrun₁, hops₁, harray₁⟩, vm₂, arr₂, hrun₂, hops₂, harray₂⟩

end AtomixJS.Compiler
