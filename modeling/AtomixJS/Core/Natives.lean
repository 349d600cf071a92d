import AtomixJS.Core.Machine

/-!
# Native functions of the core module

The native functions of `core.c` that call back into the machine, as programs
on the heap.  Each takes the heap, the current module, `this` and the arguments.
-/

namespace AtomixJS

/-- `object_get_property`, called from native code. -/
def NativeProgram.getProperty (heap : Heap) (obj : ObjectRef) (key : PropertyKey)
    (next : Heap → JSValue → NativeProgram) : NativeProgram :=
  match objectReadProperty heap obj key with
  | .error e => .fault e
  | .ok (.value value) => next heap value
  | .ok (.getter function this) => .apiCallFunction heap function this [] next

/-- `instantiate`, the constructor call behind `new`. -/
def instantiate (heap : Heap) (_ : ModuleRef) (_ : JSValue) (args : List JSValue) :
    NativeProgram :=
  match args with
  | .func constructor :: rest =>
    match heap.functions[constructor]? with
    | none => .fault (.undefinedBehaviour "function pointer")
    | some ⟨base, _⟩ =>
      .getProperty heap base (.string (cString "prototype")) fun heap prototype =>
        match prototype with
        | .object prototype =>
          let (heap, obj) := objectCreateObject heap (some prototype)
          .apiCallFunction heap constructor (.object obj) rest fun heap value =>
            match value with
            | .object _ => .ret heap value
            | _ => .ret heap (.object obj)
        | _ => .ret heap .undefined
  | _ => .ret heap .undefined

/-- `call`, the method that all functions inherit. -/
def call (heap : Heap) (_ : ModuleRef) (this : JSValue) (args : List JSValue) : NativeProgram :=
  match this with
  | .func function =>
    match args with
    | [] => .apiCallFunction heap function .undefined [] .ret
    | this :: rest => .apiCallFunction heap function this rest .ret
  | _ => .ret heap .undefined

/-- The host that offers `instantiate` as native function 0 and `call` as native
function 1. -/
def coreHost : Host where
  nativeFunction
    | 0 => instantiate
    | 1 => call
    | _ => fun heap _ _ _ => .ret heap .undefined
  address := fun _ => 0
  indexFirst := true

end AtomixJS
