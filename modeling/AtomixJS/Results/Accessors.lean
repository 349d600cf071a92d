import AtomixJS.Core.Natives
import AtomixJS.Core.Objects

/-!
# Inherited accessors

An accessor box that an object inherits is not used as the object's own.  The walk of
`object_get_property` hands the object on which it stands to the getter, not the one at which
it began.  And `object_set_property` does not walk at all: it puts the value into the object,
and the setter is not called.
-/

namespace AtomixJS

/-- Reading a property is one call of the getter, and the result of that is what is read. -/
def CallsGetter (vm : VM) (obj : ObjectRef) (key : PropertyKey) (getter : FunctionRef)
    (this : JSValue) : Prop :=
  objectReadProperty vm.heap obj key = .ok (.getter getter this) ∧
  (∀ host next, objectGetProperty host vm obj key next =
    apiCallFunction host vm getter this [] next) ∧
  ∀ next, NativeProgram.getProperty vm.heap obj key next =
    .apiCallFunction vm.heap getter this [] next

/-- Writing a property is one call of the setter with the value, and nothing is stored. -/
def CallsSetter (vm : VM) (obj : ObjectRef) (key : PropertyKey) (value : JSValue)
    (setter : FunctionRef) (this : JSValue) : Prop :=
  objectWriteProperty vm.heap obj key value = .ok (.setter setter this) ∧
  ∀ host next, objectSetProperty host vm obj key value next =
    apiCallFunction host vm setter this [value] fun vm _ => next vm

/-- Writing a property makes it an own property. -/
def StoresOwn (vm : VM) (obj : ObjectRef) (key : PropertyKey) (value : JSValue) : Prop :=
  ∀ host next, objectSetProperty host vm obj key value next =
    next { vm with heap := vm.heap.putProperty obj key value }

/-- The nearest holder of a key on a prototype chain has a getter and a setter under it. -/
structure Inherits (vm : VM) (obj holder : ObjectRef) (key : PropertyKey)
    (getter setter : FunctionRef) : Prop where
  chain : ∃ refs, vm.heap.PrototypeChain obj refs ∧
    refs.find? (fun r => (vm.heap.own r key).isSome) = some holder
  accessor : vm.heap.own holder key = some (.gsBox (some getter) (some setter))

variable {vm : VM} {obj holder : ObjectRef} {key : PropertyKey} {getter setter : FunctionRef}
  {this value : JSValue}

/-! ## Calls -/

theorem callsGetter_iff : CallsGetter vm obj key getter this ↔
    objectReadProperty vm.heap obj key = .ok (.getter getter this) := by
  constructor
  · exact And.left
  · intro hread
    refine ⟨hread, fun host next => ?_, fun next => ?_⟩
    · unfold objectGetProperty
      rw [hread]
      rfl
    · unfold NativeProgram.getProperty
      rw [hread]

theorem callsSetter_iff : CallsSetter vm obj key value setter this ↔
    objectWriteProperty vm.heap obj key value = .ok (.setter setter this) := by
  constructor
  · exact And.left
  · intro hwrite
    refine ⟨hwrite, fun host next => ?_⟩
    unfold objectSetProperty
    rw [hwrite]
    rfl

theorem Inherits.lt (h : Inherits vm obj holder key getter setter) :
    obj < vm.heap.objects.length := by
  obtain ⟨refs, hchain, -⟩ := h.chain
  cases hchain with
  | last hnode hlink => exact (List.getElem?_eq_some_iff.mp hnode).1
  | next hnode hlink hrest => exact (List.getElem?_eq_some_iff.mp hnode).1

/-- Nearer than the holder no object has the key. -/
theorem Inherits.own_eq_none (h : Inherits vm obj holder key getter setter) (hne : holder ≠ obj) :
    vm.heap.own obj key = none := by
  obtain ⟨refs, hchain, hfind⟩ := h.chain
  cases hchain with
  | last hnode hlink =>
    have hmem := List.mem_of_find?_eq_some hfind
    exact absurd (List.mem_singleton.mp hmem) hne
  | next hnode hlink hrest =>
    rw [List.find?_cons] at hfind
    split at hfind
    · exact absurd (Option.some.inj hfind).symm hne
    · next hown => exact Option.not_isSome_iff_eq_none.mp (Bool.eq_false_iff.mp hown)

/-! ## Receivers -/

/-- **Accessors.**  The getter and the setter of a box get the object whose property is read or
written if and only if the box is the object's own.  Else the getter gets the holder of the box,
and writing makes an own property. -/
theorem accessors_iff (h : Inherits vm obj holder key getter setter) (value : JSValue) :
    (CallsGetter vm obj key getter (.object obj) ↔ holder = obj) ∧
    (CallsSetter vm obj key value setter (.object obj) ↔ holder = obj) ∧
    CallsGetter vm obj key getter (.object holder) ∧
    (holder ≠ obj → StoresOwn vm obj key value) := by
  obtain ⟨refs, hchain, hfind⟩ := h.chain
  have hread := objectReadProperty_of_getter hchain hfind h.accessor
  have hstored : holder ≠ obj → objectWriteProperty vm.heap obj key value =
      .ok (.stored (vm.heap.putProperty obj key value)) := by
    intro hne
    refine objectWriteProperty_of_own h.lt (fun getter setter hown => ?_) value
    rw [h.own_eq_none hne] at hown
    cases hown
  refine ⟨?_, ?_, callsGetter_iff.mpr hread, ?_⟩
  · rw [callsGetter_iff, hread]
    constructor
    · intro heq
      cases heq
      rfl
    · rintro rfl
      rfl
  · rw [callsSetter_iff]
    constructor
    · intro hwrite
      by_contra hne
      rw [hstored hne] at hwrite
      cases hwrite
    · rintro rfl
      exact objectWriteProperty_of_setter h.accessor value
  · intro hne host next
    unfold objectSetProperty
    rw [hstored hne]
    rfl

/-- An object with an accessor `a`, and one below it. -/
def accessorHeap : Heap :=
  let (h, getter) := functionCreateNativeFunction Heap.empty (some 0)
  let (h, setter) := functionCreateNativeFunction h (some 1)
  let (h, holder) := objectCreateObject h (some 0)
  let h := h.putProperty holder (.string (cString "a")) (.gsBox (some getter) (some setter))
  (objectCreateObject h (some holder)).1

def accessorVM : VM := ⟨0, 0, 0, ⟨0, 0, 0, fun _ => .undefined⟩, accessorHeap⟩

/-- The getter and the setter get the object that has them. -/
theorem accessors_iff_own :
    CallsGetter accessorVM 5 (.string (cString "a")) 0 (.object 5) ∧
      CallsSetter accessorVM 5 (.string (cString "a")) (.integer 1) 1 (.object 5) := by
  have h : Inherits accessorVM 5 5 (.string (cString "a")) 0 1 :=
    ⟨⟨[5, 0], .next rfl rfl (.last rfl rfl), rfl⟩, rfl⟩
  obtain ⟨hgetter, hsetter, -⟩ := accessors_iff h (.integer 1)
  exact ⟨hgetter.mpr rfl, hsetter.mpr rfl⟩

/-- Read from the object below, the getter gets the object above, and a value written there
stays there. -/
theorem accessors_inherited :
    Inherits accessorVM 6 5 (.string (cString "a")) 0 1 ∧
      objectReadProperty accessorHeap 6 (.string (cString "a")) = .ok (.getter 0 (.object 5)) ∧
      objectWriteProperty accessorHeap 6 (.string (cString "a")) (.integer 1) = .ok (.stored
        (accessorHeap.putProperty 6 (.string (cString "a")) (.integer 1))) ∧
      (accessorHeap.putProperty 6 (.string (cString "a")) (.integer 1)).own 6
        (.string (cString "a")) = some (.integer 1) ∧
      ¬ CallsGetter accessorVM 6 (.string (cString "a")) 0 (.object 6) ∧
      ¬ CallsSetter accessorVM 6 (.string (cString "a")) (.integer 1) 1 (.object 6) := by
  have hread : objectReadProperty accessorHeap 6 (.string (cString "a")) =
      .ok (.getter 0 (.object 5)) := rfl
  have hwrite : objectWriteProperty accessorHeap 6 (.string (cString "a")) (.integer 1) =
      .ok (.stored (accessorHeap.putProperty 6 (.string (cString "a")) (.integer 1))) := rfl
  refine ⟨⟨⟨[6, 5, 0], .next rfl rfl (.next rfl rfl (.last rfl rfl)), rfl⟩, rfl⟩, hread, hwrite,
    rfl, ?_, ?_⟩
  · intro h
    cases hread.symm.trans h.1
  · intro h
    cases hwrite.symm.trans h.1

end AtomixJS
