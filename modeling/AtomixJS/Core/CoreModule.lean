import AtomixJS.Core.Natives

/-!
# The core module

The native functions of `core.c`, each as what it does from one call back into
the machine to the next.  What they print is not part of the model.
-/

namespace AtomixJS

/-! ## Modules -/

/-- The modules in memory: the bundles with the place of each of their modules in
the heap, and the list of native modules. -/
structure Linkage where
  bundles : List (JSBundle × List ModuleRef)
  nativeModules : List ModuleRef

/-- `bundle_get_module`, up to the pointer that it returns. -/
def Linkage.getModule (link : Linkage) (heap : Heap) (bundle : Option BundleRef) (hash : UInt64) :
    Except Fault ModuleRef := do
  let inMemory := bundle.bind (link.bundles[·]?)
  let natives := link.nativeModules.filterMap (heap.modules[·]?)
  let found ←
    match ← bundleGetModule (inMemory.map (·.1)) natives hash with
    | .bundle index => pure ((inMemory.map (·.2)).getD [])[index]?
    | .native index => pure link.nativeModules[index]?
  match found with
  | some module => pure module
  | none => .error (.undefinedBehaviour "module pointer")

/-- The hash that `module_import_module` makes of its two arguments.  The first one
is sign-extended before the shift. -/
def importKey (first second : CInt) : UInt64 :=
  ⟨(first.signExtend 64 <<< 32) ||| second.zeroExtend 64⟩

/-- The shift drops what the sign extension has added. -/
theorem importKey_toNat (first second : CInt) :
    (importKey first second).toNat = first.toNat * 2 ^ 32 + second.toNat := by
  have hfirst := first.isLt
  have hsecond := second.isLt
  have hextended : (first.signExtend 64).toNat % 2 ^ 32 = first.toNat := by
    rw [BitVec.toNat_signExtend]
    split
    · rw [BitVec.toNat_setWidth]
      omega
    · rw [BitVec.toNat_setWidth]
      omega
  have hhigh : (first.signExtend 64 <<< 32).toNat = 2 ^ 32 * first.toNat := by
    rw [BitVec.toNat_shiftLeft, Nat.shiftLeft_eq]
    omega
  have hlow : (second.zeroExtend 64).toNat = second.toNat := by
    rw [BitVec.zeroExtend, BitVec.toNat_setWidth]
    omega
  show ((first.signExtend 64 <<< 32) ||| second.zeroExtend 64).toNat = _
  rw [BitVec.toNat_or, hhigh, hlow, ← Nat.two_pow_add_eq_or_of_lt hsecond]
  omega

/-- `module_get_export_obj`. -/
def moduleGetExportObj (heap : Heap) (module : ModuleRef) (_ : JSValue) (_ : List JSValue) :
    NativeProgram :=
  match heap.modules[module]? with
  | some current => .ret heap (.object current.exports)
  | none => .fault (.undefinedBehaviour "module pointer")

/-- `module->initialized = 1`. -/
def Heap.setInitialized (heap : Heap) (module : ModuleRef) : Heap :=
  { heap with modules := heap.modules.modify module fun m => { m with initialized := true } }

/-- `module_import_module`, once the key is known. -/
def importByKey (link : Linkage) (heap : Heap) (module : ModuleRef) (hash : UInt64) :
    NativeProgram :=
  match heap.modules[module]? with
  | none => .fault (.undefinedBehaviour "module pointer")
  | some current =>
    match link.getModule heap current.bundle hash with
    | .error e => .fault e
    | .ok imported =>
      match heap.modules[imported]? with
      | none => .fault (.undefinedBehaviour "module pointer")
      | some m =>
        if m.initialized then .ret heap (.object m.exports)
        else
          .execModule (heap.setInitialized imported) imported fun heap =>
            match heap.modules[imported]? with
            | some m => .ret heap (.object m.exports)
            | none => .fault (.undefinedBehaviour "module pointer")

/-- `module_import_module`. -/
def moduleImportModule (link : Linkage) (heap : Heap) (module : ModuleRef) (_ : JSValue)
    (args : List JSValue) : NativeProgram :=
  match args with
  | .integer first :: .integer second :: _ => importByKey link heap module (importKey first second)
  | _ => .ret heap .undefined

/-! ## Objects -/

/-- An object or a function, which is an object as well. -/
def JSValue.hasObject : JSValue → Bool
  | object _ | func _ => true
  | _ => false

/-- `create`. -/
def create (heap : Heap) (_ : ModuleRef) (_ : JSValue) (args : List JSValue) : NativeProgram :=
  match args with
  | .object prototype :: _ =>
    let (heap, obj) := objectCreateObject heap (some prototype)
    .ret heap (.object obj)
  | _ =>
    let (heap, root) := objectGetObjectPrototype heap
    let (heap, obj) := objectCreateObject heap (some root)
    .ret heap (.object obj)

/-- `target->prototype = prototype`. -/
def Heap.setPrototype (heap : Heap) (target prototype : ObjectRef) : Heap :=
  { heap with objects := heap.objects.modify target fun o => { o with prototype := some prototype } }

/-- `setPrototypeOf`. -/
def setPrototypeOf (heap : Heap) (_ : ModuleRef) (_ : JSValue) (args : List JSValue) :
    NativeProgram :=
  match args with
  | first :: second :: _ =>
    if first.hasObject && second.hasObject then
      match objectOf heap first, objectOf heap second with
      | .ok target, .ok prototype =>
        if target < heap.objects.length then .ret (heap.setPrototype target prototype) .undefined
        else .fault (.undefinedBehaviour "object pointer")
      | .error e, _ | .ok _, .error e => .fault e
    else .ret heap .undefined
  | _ => .ret heap .undefined

/-! ## Arrays -/

/-- The loop of `value_is_array`.  There are no more prototypes than objects, so a
walk over more of them has no end. -/
def prototypeWalk (objects : List JSObject) (root array : ObjectRef) :
    ℕ → Option ObjectRef → Except Fault Bool
  | 0, _ => .error .divergence
  | _ + 1, none => .error (.undefinedBehaviour "null prototype")
  | bound + 1, some prototype =>
    if prototype = root then .ok false
    else if prototype = array then .ok true
    else
      match objects[prototype]? with
      | some o => prototypeWalk objects root array bound o.prototype
      | none => .error (.undefinedBehaviour "object pointer")

/-- `value_is_array`, which makes the prototypes that do not exist yet. -/
def valueIsArray (heap : Heap) (value : JSValue) : Except Fault (Heap × Bool) :=
  match value with
  | .object obj => do
    let (heap, root) := objectGetObjectPrototype heap
    let (heap, array) := objectGetArrayPrototype heap
    match heap.objects[obj]? with
    | some o =>
      let isArray ← prototypeWalk heap.objects root array (heap.objects.length + 1) o.prototype
      pure (heap, isArray)
    | none => .error (.undefinedBehaviour "object pointer")
  | _ => .ok (heap, false)

/-- `is_array`. -/
def isArray (heap : Heap) (_ : ModuleRef) (_ : JSValue) (args : List JSValue) : NativeProgram :=
  match args with
  | [] => .ret heap (.boolean false)
  | value :: _ =>
    match valueIsArray heap value with
    | .ok (heap, state) => .ret heap (.boolean state)
    | .error e => .fault e

/-- The elements of a new array, which are new properties all of them. -/
def putElements (heap : Heap) (arr : ObjectRef) (elements : List JSValue) : Heap :=
  elements.zipIdx.foldl
    (fun heap (value, i) => heap.putProperty arr (.string (intToString (BitVec.ofNat 32 i))) value)
    heap

/-- `array`. -/
def array (heap : Heap) (_ : ModuleRef) (_ : JSValue) (args : List JSValue) : NativeProgram :=
  let (heap, root) := objectGetArrayPrototype heap
  let (heap, arr) := objectCreateObject heap (some root)
  let lengthKey := PropertyKey.string (cString "length")
  match args with
  | [.double _] => .ret heap .undefined
  | [.integer size] =>
    let heap := heap.putProperty arr lengthKey (.integer size)
    .ret (putElements heap arr (List.replicate size.toInt.toNat .undefined)) (.object arr)
  | _ =>
    let heap := heap.putProperty arr lengthKey (.integer (BitVec.ofNat 32 args.length))
    .ret (putElements heap arr args) (.object arr)

/-! ## Symbols -/

/-- `symbol`. -/
def symbol (heap : Heap) (_ : ModuleRef) (_ : JSValue) (args : List JSValue) : NativeProgram :=
  let (heap, root) := objectGetSymbolPrototype heap
  let (heap, obj) := objectCreateObject heap (some root)
  match args with
  | [] => .ret heap (.symbol obj)
  | value :: _ =>
    match valueToString value with
    | .ok description =>
      .ret (heap.putProperty obj (.string (cString "description")) (.string description))
        (.symbol obj)
    | .error e => .fault e

/-! ## The function pointers -/

/-- `print`, and the functions that do nothing yet: `object` and `function`. -/
def returnUndefined (heap : Heap) (_ : ModuleRef) (_ : JSValue) (_ : List JSValue) :
    NativeProgram := .ret heap .undefined

/-- The native functions in the order in which `core_init` makes them. -/
def coreFunction (link : Linkage) (pointer : ℕ) :
    Heap → ModuleRef → JSValue → List JSValue → NativeProgram :=
  match pointer with
  | 0 | 3 | 9 => returnUndefined
  | 1 => moduleGetExportObj
  | 2 => moduleImportModule link
  | 4 => instantiate
  | 5 => create
  | 6 => setPrototypeOf
  | 7 => array
  | 8 => isArray
  | 10 => call
  | 11 => symbol
  | _ => fun _ _ _ _ => .fault (.undefinedBehaviour "function pointer")

/-- The machine with the native functions of the source. -/
def sourceHost (link : Linkage) (address : JSValue → CInt) (indexFirst : Bool) : Host where
  nativeFunction := coreFunction link
  address
  indexFirst

end AtomixJS
