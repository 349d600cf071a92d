import AtomixJS.Core.Operators

/-!
# Instruction handlers

Most handlers change the machine state and return.  A few call back into the
machine: `CALL`, and the property handlers when they meet an accessor.  In C
those calls nest on the C stack.  Here the rest of the C code that has to run is
a value, a `Prog`: it has finished in some state, or it waits for a call with
a function that says how it goes on.

A native function is C code that works on the heap and may call back through
`api_call_function` or `vm_exec_module`; `NativeProgram` is what it does from
one such call to the next.  It has no access to the operand stack.
-/

namespace AtomixJS

/-- What a native function still has to do. -/
inductive NativeProgram
  | ret (heap : Heap) (value : JSValue)
  | fault (fault : Fault)
  | apiCallFunction (heap : Heap) (function : FunctionRef) (this : JSValue) (args : List JSValue)
      (next : Heap → JSValue → NativeProgram)
  | execModule (heap : Heap) (module : ModuleRef) (next : Heap → NativeProgram)

/-- What the model takes from outside the source: the native functions behind
the function pointers, the low half of the address in a value that holds a
pointer, and whether `a[i] = f()` computes `i` before it calls `f`, which C
leaves open. -/
structure Host where
  nativeFunction : ℕ → Heap → ModuleRef → JSValue → List JSValue → NativeProgram
  address : JSValue → CInt
  indexFirst : Bool

/-- What the C code at the top of the C stack still has to do.  `call` stands
for the declaration of `this` in the scope of a bytecode function followed by
`vm_exec_function`. -/
inductive Prog
  | done (vm : VM)
  | fault (fault : Fault)
  | native (vm : VM) (program : NativeProgram) (next : VM → JSValue → Prog)
  | call (vm : VM) (function : FunctionRef) (this : JSValue) (next : VM → JSValue → Prog)
  | execModule (vm : VM) (module : ModuleRef) (next : VM → Prog)

/-- Code without calls, and code that needs its result. -/
def Prog.after {α : Type} (result : Except Fault α) (next : α → Prog) : Prog :=
  match result with
  | .ok a => next a
  | .error e => .fault e

def Prog.ofExcept (result : Except Fault VM) : Prog := Prog.after result .done

/-! ## Reading the module -/

/-- `vm->module`. -/
def VM.currentModule (vm : VM) : Except Fault JSModule :=
  match vm.heap.modules[vm.module]? with
  | some module => .ok module
  | none => .error (.undefinedBehaviour "module pointer")

/-- `string_table_load_str(&vm->module->string_table, idx)`. -/
def VM.loadStr (vm : VM) (idx : UInt16) : Except Fault CString := do
  stringTableLoadStr (← vm.currentModule).stringTable idx.toUInt32

/-- `vm->module->data_section.instructions[ic]`, without a check against the
count. -/
def VM.instructionAt (vm : VM) (ic : ℕ) : Except Fault (Option Inst) := do
  match (← vm.currentModule).dataSection.instructions[ic]? with
  | some inst => return inst
  | none => .error (.undefinedBehaviour "read outside the instruction array")

/-! ## Handlers that push -/

/-- `inst_ld_string`. -/
def instLdString (operand : UInt16) (vm : VM) : Except Fault VM := do
  vm.room
  vm.append (.string (← vm.loadStr operand))

/-- `inst_ld_this`. -/
def instLdThis (vm : VM) : Except Fault VM := do
  vm.room
  vm.append (← scopeGet vm.heap vm.scope (cString "this"))

/-! ## Stack handlers -/

/-- `inst_pop`. -/
def instPop (vm : VM) : Except Fault VM := do
  vm.need 1
  return vm.drop 1

/-- `inst_dup`. -/
def instDup (vm : VM) : Except Fault VM := do
  vm.need 1
  vm.room
  vm.append (← vm.slot (vm.stats.stackCounter - 1))

/-- `inst_swap`. -/
def instSwap (vm : VM) : Except Fault VM := do
  vm.need 2
  let left ← vm.slot (vm.stats.stackCounter - 2)
  let right ← vm.slot (vm.stats.stackCounter - 1)
  let vm ← vm.setSlot (vm.stats.stackCounter - 2) right
  vm.setSlot (vm.stats.stackCounter - 1) left

/-! ## Variables -/

/-- `inst_alloc_store_local` on `OP_ALLOC_LOCAL`. -/
def instAllocLocal (operand : UInt16) (vm : VM) : Except Fault VM := do
  vm.need 1
  let value ← vm.slot (vm.stats.stackCounter - 1)
  let vm := vm.drop 1
  let key ← vm.loadStr operand
  return { vm with heap := ← scopeDeclare vm.heap vm.scope key value }

/-- `inst_alloc_store_local` on `OP_STORE_LOCAL`. -/
def instStoreLocal (operand : UInt16) (vm : VM) : Except Fault VM := do
  vm.need 1
  let value ← vm.slot (vm.stats.stackCounter - 1)
  let vm := vm.drop 1
  let key ← vm.loadStr operand
  match ← scopeSet vm.heap vm.scope key value with
  | some heap => return { vm with heap }
  | none => .error (.panic "Could not update local")

/-- `inst_load_local`. -/
def instLoadLocal (operand : UInt16) (vm : VM) : Except Fault VM := do
  vm.room
  let key ← vm.loadStr operand
  if !(← scopeContains vm.heap vm.scope key) then .error (.panic "Symbol not found")
  else vm.append (← scopeGet vm.heap vm.scope key)

/-- `inst_load_arg`.  In the expression for the slot the stack counter cancels
out, and the handler does not check for room. -/
def instLoadArg (operand : UInt16) (vm : VM) : Except Fault VM := do
  if vm.stats.stackStart ≤ operand.toNat then vm.append .undefined
  else vm.append (← vm.slot (vm.stats.stackStart - operand.toNat - 1))

/-! ## Functions -/

/-- `inst_func_decl`.  The function starts at the next instruction, behind which
the machine goes on after `size` more. -/
def instFuncDecl (name : Option UInt16) (size : UInt16) (vm : VM) : Except Fault VM := do
  vm.room
  let start := vm.stats.instructionCounter
  let (heap, function) :=
    functionCreateFunction vm.heap vm.scope vm.module start (start + size.toNat)
  let value := JSValue.func function
  let heap ←
    match name with
    | none => pure heap
    | some idx => scopeDeclare heap vm.scope (← vm.loadStr idx) value
  let vm ← { vm with heap }.append value
  return vm.setCounter (start + size.toNat)

/-- Push the arguments, the last one first. -/
def pushArgs (vm : VM) (args : List JSValue) : Except Fault VM :=
  args.reverse.foldlM VM.append vm

/-- `api_call_function`. -/
def apiCallFunction (host : Host) (vm : VM) (function : FunctionRef) (this : JSValue)
    (args : List JSValue) (next : VM → JSValue → Prog) : Prog :=
  match vm.heap.functions[function]? with
  | none => .fault (.undefinedBehaviour "function pointer")
  | some ⟨_, .native none⟩ => .fault (.panic "Function holds not a valid pointer")
  | some ⟨_, .native (some pointer)⟩ =>
    .native vm (host.nativeFunction pointer vm.heap vm.module this args) next
  | some ⟨_, .bytecode _ _ _ _⟩ =>
    .after (do (← pushArgs vm args).append this) fun vm =>
      .call vm function this fun vm value => next (vm.drop args.length) value

/-- The slots below the top, for `this` and the arguments of a native call. -/
def readArgs (vm : VM) (n : ℕ) : Except Fault (List JSValue) :=
  (List.range n).mapM fun i => vm.slot (sizeSub vm.stats.stackCounter (i + 1))

/-- The end of `inst_call`. -/
def callReturn (operand : UInt16) (vm : VM) (value : JSValue) : Prog :=
  .ofExcept ((vm.drop (operand.toNat + 1)).append value)

/-- `inst_call`. -/
def instCall (host : Host) (operand : UInt16) (vm : VM) : Prog :=
  .after (do vm.need 1; vm.slot (vm.stats.stackCounter - 1)) fun callee =>
    let vm := vm.drop 1
    match callee with
    | .func function =>
      match vm.heap.functions[function]? with
      | none => .fault (.undefinedBehaviour "function pointer")
      | some ⟨_, .native none⟩ => .fault (.panic "Function holds not a valid pointer")
      | some ⟨_, .native (some pointer)⟩ =>
        .after (readArgs vm (operand.toNat + 1)) fun args =>
          .native vm (host.nativeFunction pointer vm.heap vm.module (args.headD .undefined) args.tail)
            (callReturn operand)
      | some ⟨_, .bytecode _ _ _ _⟩ =>
        .after (vm.slot (sizeSub vm.stats.stackCounter 1)) fun this =>
          .call vm function this (callReturn operand)
    | _ => .fault (.panic "Callee is not a function")

/-! ## Objects -/

/-- `inst_arr_alloc`. -/
def instArrAlloc (vm : VM) : Except Fault VM := do
  vm.room
  let (heap, root) := objectGetArrayPrototype vm.heap
  let (heap, obj) := objectCreateObject heap (some root)
  { vm with heap }.append (.object obj)

/-- `inst_obj_alloc`. -/
def instObjAlloc (vm : VM) : Except Fault VM := do
  vm.room
  let (heap, root) := objectGetObjectPrototype vm.heap
  let (heap, obj) := objectCreateObject heap (some root)
  { vm with heap }.append (.object obj)

/-- The object of a property access. -/
def objectOf (heap : Heap) (value : JSValue) : Except Fault ObjectRef :=
  match value with
  | .object ref => .ok ref
  | .func function =>
    match heap.functions[function]? with
    | some f => .ok f.base
    | none => .error (.undefinedBehaviour "function pointer")
  | _ => .error (.panic "Target is not a object")

/-- The key of a computed property access. -/
def propertyKey (computed : JSValue) : Except Fault PropertyKey :=
  match computed with
  | .symbol ref => .ok (.symbol ref)
  | _ => return .string (← valueToString computed)

/-- `object_get_property`, with the call of a getter. -/
def objectGetProperty (host : Host) (vm : VM) (obj : ObjectRef) (key : PropertyKey)
    (next : VM → JSValue → Prog) : Prog :=
  .after (objectReadProperty vm.heap obj key) fun
    | .value value => next vm value
    | .getter function this => apiCallFunction host vm function this [] next

/-- `object_set_property`, with the call of a setter. -/
def objectSetProperty (host : Host) (vm : VM) (obj : ObjectRef) (key : PropertyKey)
    (value : JSValue) (next : VM → Prog) : Prog :=
  .after (objectWriteProperty vm.heap obj key value) fun
    | .stored heap => next { vm with heap }
    | .setter function this => apiCallFunction host vm function this [value] fun vm _ => next vm

/-- `vm->stats.stack[vm->stats.stack_counter - 1] = object_get_property(..)`. -/
def loadIntoTop (host : Host) (vm : VM) (obj : ObjectRef) (key : PropertyKey) : Prog :=
  let index := sizeSub vm.stats.stackCounter 1
  objectGetProperty host vm obj key fun vm value =>
    .ofExcept (vm.setSlot (if host.indexFirst then index else sizeSub vm.stats.stackCounter 1) value)

/-- `inst_obj_store`. -/
def instObjStore (host : Host) (operand : UInt16) (vm : VM) : Prog :=
  .after (do
    vm.need 2
    let value ← vm.slot (vm.stats.stackCounter - 1)
    let obj ← vm.slot (vm.stats.stackCounter - 2)
    let vm := vm.drop 2
    let ref ← objectOf vm.heap obj
    let key ← vm.loadStr operand
    return (vm, ref, key, value)) fun (vm, ref, key, value) =>
      objectSetProperty host vm ref (.string key) value .done

/-- `inst_obj_load`. -/
def instObjLoad (host : Host) (operand : UInt16) (vm : VM) : Prog :=
  .after (do
    vm.need 1
    let ref ← objectOf vm.heap (← vm.slot (vm.stats.stackCounter - 1))
    let key ← vm.loadStr operand
    return (ref, key)) fun (ref, key) => loadIntoTop host vm ref (.string key)

/-- `inst_obj_cload`. -/
def instObjCload (host : Host) (vm : VM) : Prog :=
  .after (do
    vm.need 2
    let computed ← vm.slot (vm.stats.stackCounter - 1)
    let ref ← objectOf vm.heap (← vm.slot (vm.stats.stackCounter - 2))
    let key ← propertyKey computed
    return (vm.drop 1, ref, key)) fun (vm, ref, key) => loadIntoTop host vm ref key

/-- `inst_obj_cstore`. -/
def instObjCstore (host : Host) (vm : VM) : Prog :=
  .after (do
    vm.need 3
    let computed ← vm.slot (vm.stats.stackCounter - 1)
    let obj ← vm.slot (vm.stats.stackCounter - 2)
    let value ← vm.slot (vm.stats.stackCounter - 3)
    let ref ← objectOf vm.heap obj
    let key ← propertyKey computed
    return (vm.drop 3, ref, key, value)) fun (vm, ref, key, value) =>
      objectSetProperty host vm ref key value .done

/-- `inst_export`. -/
def instExport (host : Host) (operand : UInt16) (vm : VM) : Prog :=
  .after (do
    vm.need 1
    let value ← vm.slot (vm.stats.stackCounter - 1)
    let vm := vm.drop 1
    let key ← vm.loadStr operand
    return (vm, (← vm.currentModule).exports, key, value)) fun (vm, ref, key, value) =>
      objectSetProperty host vm ref (.string key) value .done

/-! ## Scopes and jumps -/

/-- `inst_push_scope`. -/
def instPushScope (vm : VM) : VM :=
  let (heap, scope) := scopeCreateScope vm.heap (some vm.scope)
  { vm with heap, scope }

/-- `inst_pop_scope`. -/
def instPopScope (vm : VM) : Except Fault VM :=
  match vm.heap.scopes[vm.scope]? with
  | none => .error (.undefinedBehaviour "scope pointer")
  | some scope =>
    match scope.parent with
    | none => .error (.panic "No parent scope to pop")
    | some parent => .ok { vm with scope := parent }

/-- `inst_jmp_f` and `inst_jmp_t`, which take the test off without a check. -/
def instJmpIf (test : JSValue → Except Fault Bool) (operand : UInt16) (vm : VM) :
    Except Fault VM := do
  let value ← vm.slot (sizeSub vm.stats.stackCounter 1)
  let vm := vm.drop 1
  return if ← test value then vm.setCounter operand.toNat else vm

/-! ## The instruction set -/

/-- `vm->inst_set[OPCODE_OF(instruction)](vm, instruction)`. -/
def execInst (host : Host) (inst : Inst) (vm : VM) : Prog :=
  match inst with
  | .nop | .ret => .done vm
  | .ldInt operand => .ofExcept (vm.push (.integer operand))
  | .ldDouble operand => .ofExcept (vm.push (.double operand))
  | .ldString operand => .ofExcept (instLdString operand vm)
  | .ldUndf => .ofExcept (vm.push .undefined)
  | .ldNull => .ofExcept (vm.push .null)
  | .ldTrue => .ofExcept (vm.push (.boolean true))
  | .ldFalse => .ofExcept (vm.push (.boolean false))
  | .ldThis => .ofExcept (instLdThis vm)
  | .binary op => .ofExcept (instBinary host.address op vm)
  | .unary op => .ofExcept (instUnary host.address op vm)
  | .pop => .ofExcept (instPop vm)
  | .dup => .ofExcept (instDup vm)
  | .swap => .ofExcept (instSwap vm)
  | .allocLocal operand => .ofExcept (instAllocLocal operand vm)
  | .storeLocal operand => .ofExcept (instStoreLocal operand vm)
  | .loadLocal operand => .ofExcept (instLoadLocal operand vm)
  | .loadArg operand => .ofExcept (instLoadArg operand vm)
  | .funcDecl operand operand2 => .ofExcept (instFuncDecl (some operand) operand2 vm)
  | .funcDeclE operand => .ofExcept (instFuncDecl none operand vm)
  | .call operand => instCall host operand vm
  | .arrAlloc => .ofExcept (instArrAlloc vm)
  | .objAlloc => .ofExcept (instObjAlloc vm)
  | .objStore operand => instObjStore host operand vm
  | .objLoad operand => instObjLoad host operand vm
  | .objCload => instObjCload host vm
  | .objCstore => instObjCstore host vm
  | .pushScope => .done (instPushScope vm)
  | .popScope => .ofExcept (instPopScope vm)
  | .jmp operand => .done (vm.setCounter operand.toNat)
  | .jmpF operand => .ofExcept (instJmpIf valueIsFalsy operand vm)
  | .jmpT operand => .ofExcept (instJmpIf valueIsTruthy operand vm)
  | .exportAs operand => instExport host operand vm

/-- `vm_exec`. -/
def vmExec (host : Host) (vm : VM) : Prog :=
  .after vm.currentModule fun module =>
    if module.dataSection.count.toNat ≤ vm.stats.instructionCounter then
      .fault (.panic "Instruction counter is out of bounds of the current module")
    else
      .after (vm.instructionAt vm.stats.instructionCounter) fun
        | none => .done (vm.setCounter (vm.stats.instructionCounter + 1))
        | some inst => execInst host inst (vm.setCounter (vm.stats.instructionCounter + 1))

end AtomixJS
