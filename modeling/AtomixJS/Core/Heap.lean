import AtomixJS.Core.Dict
import AtomixJS.Core.Format
import AtomixJS.Lib.Chain

/-!
# The heap

Scopes, objects, functions and modules live in stores that only grow; a
pointer is an index.  The garbage collector is not modelled, since it frees
nothing that can be reached.

A scope is a dictionary with a link to its parent.  The source has three
recursive functions on scopes, `scope_get`, `scope_set` and `scope_contains`,
which all go up to the nearest scope that has the key; `scopeFind` is that walk.
`binding` reads one scope, and the lemmas say how each operation changes the
bindings: `putBinding` changes one binding of one scope, a new scope has none.
-/

namespace AtomixJS

/-- `struct Scope`. -/
structure Scope where
  parent : Option ScopeRef
  symbols : JSDict
  deriving DecidableEq, Repr

/-- `struct JSObject`. -/
structure JSObject where
  prototype : Option ObjectRef
  properties : JSDict
  deriving DecidableEq, Repr

/-- What a function runs: the pointer of a native function, or a range of
instructions of a module together with the scope that `function_create_function`
made for it. -/
inductive FunctionCode
  | native (nativeFunction : Option ℕ)
  | bytecode (scope : ScopeRef) (module : ModuleRef) (instructionStart instructionEnd : ℕ)
  deriving DecidableEq, Repr

/-- `struct JSFunction`. -/
structure JSFunction where
  base : ObjectRef
  code : FunctionCode
  deriving DecidableEq, Repr

/-- The stores, and the four prototypes that are made when first asked for. -/
structure Heap where
  scopes : List Scope
  objects : List JSObject
  functions : List JSFunction
  modules : List JSModule
  objectPrototype : Option ObjectRef
  arrayPrototype : Option ObjectRef
  functionPrototype : Option ObjectRef
  symbolPrototype : Option ObjectRef
  deriving DecidableEq, Repr

def Heap.empty : Heap := ⟨[], [], [], [], none, none, none, none⟩

/-- `SCOPE_BUCKET_SIZE`. -/
def scopeBucketSize : ℕ := 32

theorem scopeBucketSize_pos : 0 < scopeBucketSize := by decide

/-- `OBJECT_BUCKET_SIZE`. -/
def objectBucketSize : ℕ := 16

/-! ## Scopes -/

/-- `scope_create_scope`. -/
def scopeCreateScope (h : Heap) (parent : Option ScopeRef) : Heap × ScopeRef :=
  ({ h with scopes := h.scopes ++ [⟨parent, dictCreateDict scopeBucketSize scopeBucketSize_pos⟩] },
    h.scopes.length)

def scopeParent (_ : ScopeRef) (scope : Scope) : Option ScopeRef := scope.parent

/-- The nearest scope, from `scope` upwards, that has the key. -/
def scopeFind (h : Heap) (scope : ScopeRef) (key : CString) : Chain.Found Scope :=
  Chain.walk h.scopes scopeParent (fun s => (dictGet s.symbols key).isSome)
    (h.scopes.length + 1) scope

/-- Write a binding of one scope. -/
def Heap.putBinding (h : Heap) (scope : ScopeRef) (key : CString) (value : JSValue) : Heap :=
  { h with scopes := h.scopes.modify scope fun s => { s with symbols := dictPut s.symbols key value } }

/-- `scope_set`.  The result `none` is the return value 0. -/
def scopeSet (h : Heap) (scope : ScopeRef) (key : CString) (value : JSValue) :
    Except Fault (Option Heap) :=
  match scopeFind h scope key with
  | .at ref _ => .ok (some (h.putBinding ref key value))
  | .absent => .ok none
  | .dangling => .error (.undefinedBehaviour "scope pointer")
  | .endless => .error .divergence

/-- `scope_declare`. -/
def scopeDeclare (h : Heap) (scope : ScopeRef) (key : CString) (value : JSValue) :
    Except Fault Heap :=
  if scope < h.scopes.length then .ok (h.putBinding scope key value)
  else .error (.undefinedBehaviour "scope pointer")

/-- `scope_get`. -/
def scopeGet (h : Heap) (scope : ScopeRef) (key : CString) : Except Fault JSValue :=
  match scopeFind h scope key with
  | .at _ s => .ok ((dictGet s.symbols key).getD .undefined)
  | .absent => .ok .undefined
  | .dangling => .error (.undefinedBehaviour "scope pointer")
  | .endless => .error .divergence

/-- `scope_contains` with the flag that includes the parent scopes, as all its
callers pass it. -/
def scopeContains (h : Heap) (scope : ScopeRef) (key : CString) : Except Fault Bool :=
  match scopeFind h scope key with
  | .at _ _ => .ok true
  | .absent => .ok false
  | .dangling => .error (.undefinedBehaviour "scope pointer")
  | .endless => .error .divergence

/-! ## Objects -/

/-- `object_create_object`. -/
def objectCreateObject (h : Heap) (prototype : Option ObjectRef) : Heap × ObjectRef :=
  ({ h with objects := h.objects ++ [⟨prototype, dictCreateDict objectBucketSize (by decide)⟩] },
    h.objects.length)

/-- `object_get_object_prototype`.  The root prototype is its own prototype. -/
def objectGetObjectPrototype (h : Heap) : Heap × ObjectRef :=
  match h.objectPrototype with
  | some ref => (h, ref)
  | none =>
    let (h, ref) := objectCreateObject h (some h.objects.length)
    ({ h with objectPrototype := some ref }, ref)

/-- `object_get_array_prototype`. -/
def objectGetArrayPrototype (h : Heap) : Heap × ObjectRef :=
  match h.arrayPrototype with
  | some ref => (h, ref)
  | none =>
    let (h, root) := objectGetObjectPrototype h
    let (h, ref) := objectCreateObject h (some root)
    ({ h with arrayPrototype := some ref }, ref)

/-- `object_get_function_prototype`. -/
def objectGetFunctionPrototype (h : Heap) : Heap × ObjectRef :=
  match h.functionPrototype with
  | some ref => (h, ref)
  | none =>
    let (h, root) := objectGetObjectPrototype h
    let (h, ref) := objectCreateObject h (some root)
    ({ h with functionPrototype := some ref }, ref)

/-- `object_get_symbol_prototype`. -/
def objectGetSymbolPrototype (h : Heap) : Heap × ObjectRef :=
  match h.symbolPrototype with
  | some ref => (h, ref)
  | none =>
    let (h, root) := objectGetObjectPrototype h
    let (h, ref) := objectCreateObject h (some root)
    ({ h with symbolPrototype := some ref }, ref)

/-- Write a property of one object. -/
def Heap.putProperty (h : Heap) (obj : ObjectRef) (key : PropertyKey) (value : JSValue) : Heap :=
  { h with objects := h.objects.modify obj fun o => { o with properties := o.properties.put key value } }

/-- What reading a property comes to. -/
inductive PropertyRead
  | value (value : JSValue)
  | getter (function : FunctionRef) (this : JSValue)

/-- What writing a property comes to. -/
inductive PropertyWrite
  | stored (heap : Heap)
  | setter (function : FunctionRef) (this : JSValue)

/-- The link that `object_get_property` follows: it stops at an object that is
its own prototype. -/
def objectPrototypeLink (ref : ObjectRef) (obj : JSObject) : Option ObjectRef :=
  if obj.prototype = some ref then none else obj.prototype

/-- `object_get_property` and `object_get_property_by_symbol` up to the call of
a getter.  The receiver is the object that holds the property. -/
def objectReadProperty (h : Heap) (obj : ObjectRef) (key : PropertyKey) :
    Except Fault PropertyRead :=
  match Chain.walk h.objects objectPrototypeLink (fun o => (o.properties.find key).isSome)
      (h.objects.length + 1) obj with
  | .at ref o =>
    match o.properties.find key with
    | some (.gsBox (some getter) _) => .ok (.getter getter (.object ref))
    | some (.gsBox none _) => .error (.panic "Property contains no getter")
    | some value => .ok (.value value)
    | none => .ok (.value .undefined)
  | .absent => .ok (.value .undefined)
  | .dangling => .error (.undefinedBehaviour "object pointer")
  | .endless => .error .divergence

/-- `object_set_property` and `object_set_property_with_symbol` up to the call
of a setter.  Only the object itself is looked at. -/
def objectWriteProperty (h : Heap) (obj : ObjectRef) (key : PropertyKey) (value : JSValue) :
    Except Fault PropertyWrite :=
  match h.objects[obj]? with
  | none => .error (.undefinedBehaviour "object pointer")
  | some o =>
    match o.properties.find key with
    | some (.gsBox _ (some setter)) => .ok (.setter setter (.object obj))
    | some (.gsBox _ none) => .error (.panic "Property contains no setter")
    | _ => .ok (.stored (h.putProperty obj key value))

/-! ## Functions -/

/-- The prototype object of a new function: `constructor` leads back to it. -/
def functionCreatePrototype (h : Heap) (base : ObjectRef) (function : FunctionRef) : Heap :=
  let (h, root) := objectGetObjectPrototype h
  let (h, prototype) := objectCreateObject h (some root)
  let h := h.putProperty prototype (.string (cString "constructor")) (.func function)
  h.putProperty base (.string (cString "prototype")) (.object prototype)

/-- `function_create_native_function`. -/
def functionCreateNativeFunction (h : Heap) (functionPtr : Option ℕ) : Heap × FunctionRef :=
  let function := h.functions.length
  let (h, root) := objectGetObjectPrototype h
  let (h, base) := objectCreateObject h (some root)
  let h := { h with functions := h.functions ++ [⟨base, .native functionPtr⟩] }
  (functionCreatePrototype h base function, function)

/-- `function_create_function`. -/
def functionCreateFunction (h : Heap) (parentScope : ScopeRef) (module : ModuleRef)
    (instructionStart instructionEnd : ℕ) : Heap × FunctionRef :=
  let function := h.functions.length
  let (h, scope) := scopeCreateScope h (some parentScope)
  let (h, root) := objectGetFunctionPrototype h
  let (h, base) := objectCreateObject h (some root)
  let h := { h with
    functions := h.functions ++ [⟨base, .bytecode scope module instructionStart instructionEnd⟩] }
  (functionCreatePrototype h base function, function)

/-! ## Bindings -/

/-- The binding of a key in one scope. -/
def Heap.binding (h : Heap) (scope : ScopeRef) (key : CString) : Option JSValue :=
  h.scopes[scope]?.bind fun s => dictGet s.symbols key

/-- The scopes from `scope` up to one without a parent. -/
def Heap.ScopeChain (h : Heap) (scope : ScopeRef) (refs : List ScopeRef) : Prop :=
  Chain.Linked h.scopes scopeParent scope refs

variable {h : Heap} {scope : ScopeRef} {refs : List ScopeRef} {key : CString} {value : JSValue}

theorem binding_putBinding (hlt : scope < h.scopes.length) (scope' : ScopeRef) (key' : CString) :
    (h.putBinding scope key value).binding scope' key' =
      if scope' = scope ∧ key' = key then some value else h.binding scope' key' := by
  simp only [Heap.binding, Heap.putBinding, List.getElem?_modify]
  by_cases hscope : scope = scope'
  · subst scope'
    simp [List.getElem?_eq_getElem hlt]
  · simp [hscope, Ne.symm hscope]

/-- Writing a binding leaves every chain as it is. -/
theorem putBinding_chain (scope' : ScopeRef) (hchain : h.ScopeChain scope refs) :
    (h.putBinding scope' key value).ScopeChain scope refs := by
  refine Chain.Linked.congr hchain fun s _ node hnode => ?_
  simp only [Heap.putBinding, List.getElem?_modify, hnode]
  split <;> exact ⟨_, rfl, rfl⟩

@[simp] theorem putBinding_length (scope : ScopeRef) :
    (h.putBinding scope key value).scopes.length = h.scopes.length := by
  simp [Heap.putBinding]

/-- The search of the three scope functions, on a chain: it ends at the nearest
scope with the key. -/
private theorem scopeFind_of_chain (hchain : h.ScopeChain scope refs) (key : CString) :
    scopeFind h scope key =
      match refs.find? fun s => (h.binding s key).isSome with
      | none => .absent
      | some s => (h.scopes[s]?.map (Chain.Found.at s)).getD .absent := by
  have hbound : refs.length ≤ h.scopes.length + 1 := Nat.le_succ_of_le hchain.length_le
  have hhit : (fun s => (h.scopes[s]?.map fun s => (dictGet s.symbols key).isSome).getD false) =
      fun s => (h.binding s key).isSome := by
    funext s
    rw [Heap.binding]
    cases h.scopes[s]? <;> rfl
  rw [scopeFind, Chain.walk_of_linked hchain hbound, hhit]
  cases refs.find? _ <;> rfl

private theorem node_of_find? {s : ScopeRef}
    (hfind : refs.find? (fun s => (h.binding s key).isSome) = some s) :
    ∃ node v, h.scopes[s]? = some node ∧ dictGet node.symbols key = some v ∧
      h.binding s key = some v := by
  have hsome : (h.binding s key).isSome := by simpa using List.find?_some hfind
  obtain ⟨v, hv⟩ := Option.isSome_iff_exists.mp hsome
  obtain ⟨node, hnode, hget⟩ := Option.bind_eq_some_iff.mp hv
  exact ⟨node, v, hnode, hget, hv⟩

private theorem findSome?_of_find? {s : ScopeRef}
    (hfind : refs.find? (fun s => (h.binding s key).isSome) = some s) :
    refs.findSome? (h.binding · key) = h.binding s key := by
  induction refs with
  | nil => cases hfind
  | cons r refs ih =>
      rw [List.find?_cons] at hfind
      cases hr : h.binding r key with
      | some v =>
          rw [hr] at hfind
          obtain rfl : r = s := by simpa using hfind
          rw [List.findSome?_cons, hr]
      | none =>
          rw [hr] at hfind
          rw [List.findSome?_cons, hr]
          exact ih (by simpa using hfind)

private theorem findSome?_of_find?_none
    (hfind : refs.find? (fun s => (h.binding s key).isSome) = none) :
    refs.findSome? (h.binding · key) = none := by
  rw [List.findSome?_eq_none_iff]
  intro s hs
  simpa using List.find?_eq_none.mp hfind s hs

/-- `scope_get` reads the nearest binding. -/
theorem scopeGet_of_chain (hchain : h.ScopeChain scope refs) (key : CString) :
    scopeGet h scope key = .ok ((refs.findSome? (h.binding · key)).getD .undefined) := by
  rw [scopeGet, scopeFind_of_chain hchain]
  cases hfind : refs.find? fun s => (h.binding s key).isSome with
  | none => rw [findSome?_of_find?_none hfind]; rfl
  | some s =>
      obtain ⟨node, v, hnode, hget, hv⟩ := node_of_find? hfind
      rw [findSome?_of_find? hfind, hv]
      simp [hnode, hget]

/-- `scope_contains` tells whether there is one. -/
theorem scopeContains_of_chain (hchain : h.ScopeChain scope refs) (key : CString) :
    scopeContains h scope key = .ok (refs.findSome? (h.binding · key)).isSome := by
  rw [scopeContains, scopeFind_of_chain hchain]
  cases hfind : refs.find? fun s => (h.binding s key).isSome with
  | none => rw [findSome?_of_find?_none hfind]; rfl
  | some s =>
      obtain ⟨node, v, hnode, hget, hv⟩ := node_of_find? hfind
      rw [findSome?_of_find? hfind, hv]
      simp [hnode]

/-- `scope_set` writes it. -/
theorem scopeSet_of_chain (hchain : h.ScopeChain scope refs) (key : CString) (value : JSValue) :
    scopeSet h scope key value =
      .ok ((refs.find? fun s => (h.binding s key).isSome).map (h.putBinding · key value)) := by
  rw [scopeSet, scopeFind_of_chain hchain]
  cases hfind : refs.find? fun s => (h.binding s key).isSome with
  | none => rfl
  | some s =>
      obtain ⟨node, v, hnode, hget, hv⟩ := node_of_find? hfind
      simp [hnode]

end AtomixJS
