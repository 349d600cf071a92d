import AtomixJS.Core.CoreModule
import AtomixJS.Core.Loader

/-!
# From the file to the first instruction

`main` loads a module or a bundle, makes the machine with the global scope and the core module in
it, and executes the entry module.  What C leaves unset in the machine, its current scope and the
slots of the operand stack, are parameters.
-/

namespace AtomixJS

/-! ## The core module -/

/-- `createSymbol` of `symbol.c`. -/
def createSymbol (heap : Heap) (description : CString) : Heap × ObjectRef :=
  let (heap, root) := objectGetSymbolPrototype heap
  let (heap, symbol) := objectCreateObject heap (some root)
  (heap.putProperty symbol (.string (cString "description")) (.string description), symbol)

/-- `symbol_to_primitive`, the first time that it is called. -/
def symbolToPrimitive (heap : Heap) : Heap × JSValue :=
  let (heap, symbol) := createSymbol heap (cString "Symbol.toPrimitive")
  (heap, .symbol symbol)

/-- A native function as a property of an object.  None of the objects of `core_init` holds an
accessor, so that `object_set_property` stores the value. -/
def defineMethod (heap : Heap) (obj : ObjectRef) (name : CString) (pointer : ℕ) : Heap :=
  let (heap, function) := functionCreateNativeFunction heap (some pointer)
  heap.putProperty obj (.string name) (.func function)

/-- A native function with its base, and the prototype that `core_init` gives to the base. -/
def defineConstructor (heap : Heap) (pointer : ℕ) (getPrototype : Heap → Heap × ObjectRef) :
    Except Fault (Heap × FunctionRef × ObjectRef × ObjectRef) := do
  let (heap, function) := functionCreateNativeFunction heap (some pointer)
  let base ← objectOf heap (.func function)
  let (heap, prototype) := getPrototype heap
  return (heap.setPrototype base prototype, function, base, prototype)

/-- `core_init`. -/
def coreInit (heap : Heap) (scope : ScopeRef) : Except Fault Heap := do
  let (heap, print) := functionCreateNativeFunction heap (some 0)
  let heap ← scopeDeclare heap scope (cString "print") (.func print)
  let (heap, root) := objectGetObjectPrototype heap
  let (heap, module) := objectCreateObject heap (some root)
  let heap := defineMethod heap module (cString "getExportObj") 1
  let heap := defineMethod heap module (cString "importModule") 2
  let heap ← scopeDeclare heap scope (cString "Module") (.object module)
  let (heap, object) := functionCreateNativeFunction heap (some 3)
  let base ← objectOf heap (.func object)
  let heap := defineMethod heap base (cString "instantiate") 4
  let heap := defineMethod heap base (cString "create") 5
  let heap := defineMethod heap base (cString "setPrototypeOf") 6
  let heap ← scopeDeclare heap scope (cString "Object") (.func object)
  let (heap, array, base, _) ← defineConstructor heap 7 objectGetArrayPrototype
  let heap := defineMethod heap base (cString "isArray") 8
  let heap ← scopeDeclare heap scope (cString "Array") (.func array)
  let (heap, function, _, prototype) ← defineConstructor heap 9 objectGetFunctionPrototype
  let heap ← scopeDeclare heap scope (cString "Function") (.func function)
  let heap := defineMethod heap prototype (cString "call") 10
  let (heap, symbol, base, _) ← defineConstructor heap 11 objectGetSymbolPrototype
  let (heap, toPrimitive) := symbolToPrimitive heap
  let heap := heap.putProperty base (.string (cString "toPrimitive")) toPrimitive
  scopeDeclare heap scope (cString "Symbol") (.func symbol)

/-! ## The machine -/

/-- `vm_init`.  The core module is the only one in the list of `bind_modules`. -/
def vmInit (heap : Heap) (module : ModuleRef) (scope : ScopeRef) (stack : ℕ → JSValue) :
    Except Fault VM := do
  let (heap, globalScope) := scopeCreateScope heap none
  let heap ← coreInit heap globalScope
  return { module, globalScope, scope, heap
           stats := { instructionCounter := 0, stackCounter := 0, stackStart := 0, stack } }

/-- What `unknown_load_from_buffer` has loaded. -/
inductive LoadResult
  | module (module : JSModule)
  | bundle (bundle : JSBundle)

/-- `unknown_load_from_buffer`. -/
def unknownLoadFromBuffer (buff : List UInt8) (bundle : BundleRef) (h : Heap) :
    Except Fault (LoadResult × Heap) := do
  if buff.take 4 = [0x2E, 0x41, 0x78, 0x4D] then
    let (module, h) ← moduleLoadFromBuffer buff h
    return (.module module, h)
  else
    let (bundle, h) ← bundleLoadFromBuffer buff bundle h
    return (.bundle bundle, h)

/-- What `main` executes: the machine and its entry module, with the bundles that `importModule`
searches. -/
structure Program where
  link : Linkage
  vm : VM
  entry : ModuleRef

/-- `main` up to the call of `vm_exec_module`.  A bundle without an entry point is not executed. -/
def main (buff : List UInt8) (scope : ScopeRef) (stack : ℕ → JSValue) :
    Except Fault (Option Program) := do
  let (result, heap) ← unknownLoadFromBuffer buff 0 Heap.empty
  match result with
  | .module module =>
    let vm ← vmInit { heap with modules := [module] } 0 scope stack
    return some { link := { bundles := [], nativeModules := [] }, vm, entry := 0 }
  | .bundle bundle =>
    if bundle.entryPoint = 0 then return none
    else
      let heap := { heap with modules := bundle.modules }
      let link : Linkage :=
        { bundles := [(bundle, List.range bundle.modules.length)], nativeModules := [] }
      let entry ← link.getModule heap (some 0) bundle.entryPoint
      let vm ← vmInit heap entry scope stack
      return some { link, vm, entry }

end AtomixJS
