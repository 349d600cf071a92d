import AtomixJS.Core.Heap
import AtomixJS.Lib.Store

/-!
# Objects as a store with inheritance

`Heap.own` is what an object itself holds under a key, string or symbol.  On a
prototype chain that ends, reading a property is reading the store through the
chain (`objectReadProperty_of_chain`), and writing one is one write in the store
(`objectWriteProperty_of_plain`) that leaves every prototype as it is.
-/

namespace AtomixJS

/-- What an object itself holds under a key. -/
def Heap.own (h : Heap) : Store.Contents ObjectRef PropertyKey JSValue :=
  fun obj key => h.objects[obj]?.bind (·.properties.find key)

/-- The objects that a lookup in `obj` visits.  The last one is its own prototype,
or has none. -/
def Heap.PrototypeChain (h : Heap) (obj : ObjectRef) (refs : List ObjectRef) : Prop :=
  Chain.Linked h.objects objectPrototypeLink obj refs

/-- `JS_GS_BOX`. -/
def JSValue.isGsBox : JSValue → Bool
  | gsBox _ _ => true
  | _ => false

/-- No object holds an accessor box. -/
def Heap.Plain (h : Heap) : Prop :=
  ∀ obj key value, h.own obj key = some value → value.isGsBox = false

variable {h : Heap} {obj : ObjectRef} {refs : List ObjectRef} {key : PropertyKey} {value : JSValue}

/-! ## Writing -/

theorem own_putProperty (hlt : obj < h.objects.length) (key : PropertyKey) (value : JSValue) :
    (h.putProperty obj key value).own = Store.write h.own ⟨obj, key, value⟩ := by
  funext obj' key'
  simp only [Heap.own, Heap.putProperty, List.getElem?_modify, Store.write]
  by_cases hobj : obj' = obj
  · subst hobj
    by_cases hkey : key' = key <;>
      simp [List.getElem?_eq_getElem hlt, JSDict.find_put, hkey]
  · simp [hobj, Ne.symm hobj]

@[simp] theorem putProperty_length :
    (h.putProperty obj key value).objects.length = h.objects.length := by
  simp [Heap.putProperty]

/-- Writing a property leaves every chain as it is. -/
theorem putProperty_chain {obj' : ObjectRef} (hchain : h.PrototypeChain obj refs) :
    (h.putProperty obj' key value).PrototypeChain obj refs := by
  apply Chain.Linked.congr hchain
  intro r _ node hnode
  simp only [Heap.putProperty, List.getElem?_modify, hnode]
  split
  · exact ⟨_, rfl, rfl⟩
  · exact ⟨_, rfl, rfl⟩

/-- A value is stored in an object that holds no accessor under the key. -/
theorem objectWriteProperty_of_own (hlt : obj < h.objects.length)
    (hbox : ∀ getter setter, h.own obj key ≠ some (.gsBox getter setter)) (value : JSValue) :
    objectWriteProperty h obj key value = .ok (.stored (h.putProperty obj key value)) := by
  have hnode : h.objects[obj]? = some h.objects[obj] := List.getElem?_eq_getElem hlt
  have hfind : h.own obj key = (h.objects[obj]).properties.find key := by
    unfold Heap.own
    rw [hnode, Option.bind_some]
  unfold objectWriteProperty
  rw [hnode]
  dsimp only
  split
  · next heq => exact absurd (hfind.trans heq) (hbox _ _)
  · next heq => exact absurd (hfind.trans heq) (hbox _ _)
  · rfl

/-- A value without accessors is stored in an object that holds none. -/
theorem objectWriteProperty_of_plain (hplain : h.Plain) (hlt : obj < h.objects.length)
    (key : PropertyKey) (value : JSValue) :
    objectWriteProperty h obj key value = .ok (.stored (h.putProperty obj key value)) :=
  objectWriteProperty_of_own hlt (fun _ _ hown => nomatch hplain _ _ _ hown) value

theorem Heap.Plain.putProperty (hplain : h.Plain) (hlt : obj < h.objects.length)
    (hvalue : value.isGsBox = false) : (h.putProperty obj key value).Plain := by
  intro obj' key' value' hown
  rw [own_putProperty hlt, Store.write] at hown
  split at hown
  · exact Option.some.inj hown ▸ hvalue
  · exact hplain obj' key' value' hown

/-! ## New objects -/

/-- A new object holds nothing. -/
theorem own_createObject (prototype : Option ObjectRef) :
    (objectCreateObject h prototype).1.own = h.own := by
  funext obj key
  simp only [Heap.own, objectCreateObject]
  rcases Nat.lt_trichotomy obj h.objects.length with hlt | rfl | hgt
  · rw [List.getElem?_append_left hlt]
  · simp
  · rw [List.getElem?_eq_none (by simpa using hgt), List.getElem?_eq_none (by omega)]

theorem Heap.Plain.createObject (hplain : h.Plain) (prototype : Option ObjectRef) :
    (objectCreateObject h prototype).1.Plain := by
  intro obj key value hown
  rw [own_createObject] at hown
  exact hplain obj key value hown

theorem Heap.Plain.empty : Heap.empty.Plain := fun _ _ _ hown => nomatch hown

/-! ## Reading -/

/-- The walk of `object_get_property` stops where an object itself holds the key. -/
theorem hit_eq_own (h : Heap) (key : PropertyKey) :
    (fun r => (h.objects[r]?.map fun o => (o.properties.find key).isSome).getD false) =
      fun r => (h.own r key).isSome := by
  funext r
  unfold Heap.own
  cases h.objects[r]? <;> rfl

/-- The walk of `object_get_property` ends at the nearest object that holds the
key. -/
theorem objectReadProperty_of_chain (hchain : h.PrototypeChain obj refs) (hplain : h.Plain)
    (key : PropertyKey) :
    objectReadProperty h obj key =
      .ok (.value ((Store.inherited h.own refs key).getD .undefined)) := by
  have hbound : refs.length ≤ h.objects.length + 1 := Nat.le_succ_of_le hchain.length_le
  unfold objectReadProperty
  rw [Chain.walk_of_linked hchain hbound, hit_eq_own]
  cases hfind : refs.find? fun r => (h.own r key).isSome with
  | none =>
      have hnone : Store.inherited h.own refs key = none := by
        unfold Store.inherited
        rw [List.findSome?_eq_none_iff]
        intro r hr
        simpa using List.find?_eq_none.mp hfind r hr
      rw [hnone]
      rfl
  | some r =>
      have hsome : (h.own r key).isSome := by simpa using List.find?_some hfind
      obtain ⟨v, hv⟩ := Option.isSome_iff_exists.mp hsome
      obtain ⟨node, hnode, hget⟩ := Option.bind_eq_some_iff.mp hv
      have hinherited : Store.inherited h.own refs key = some v := by
        rw [← hv]
        exact Store.inherited_of_find? hfind
      have hbox := hplain r key v hv
      rw [hinherited]
      simp only [hnode, Option.map_some, Option.getD_some, hget]
      cases v with
      | gsBox getter setter => exact absurd hbox (by simp [JSValue.isGsBox])
      | _ => rfl

/-- A property of the object itself. -/
theorem objectReadProperty_of_own (hown : h.own obj key = some value)
    (hvalue : value.isGsBox = false) : objectReadProperty h obj key = .ok (.value value) := by
  obtain ⟨node, hnode, hget⟩ := Option.bind_eq_some_iff.mp hown
  unfold objectReadProperty
  simp only [Chain.walk, hnode, hget, Option.isSome_some, if_true]
  cases value with
  | gsBox getter setter => cases hvalue
  | _ => rfl

/-- Nothing on the chain holds the key. -/
theorem objectReadProperty_of_absent (hchain : h.PrototypeChain obj refs)
    (habsent : ∀ r ∈ refs, h.own r key = none) :
    objectReadProperty h obj key = .ok (.value .undefined) := by
  have hbound : refs.length ≤ h.objects.length + 1 := Nat.le_succ_of_le hchain.length_le
  have hnone : refs.find? (fun r => (h.own r key).isSome) = none := by
    rw [List.find?_eq_none]
    intro r hr
    simp [habsent r hr]
  unfold objectReadProperty
  rw [Chain.walk_of_linked hchain hbound, hit_eq_own, hnone]

/-! ## Accessors -/

/-- The getter of the nearest object that holds the key gets that object. -/
theorem objectReadProperty_of_getter (hchain : h.PrototypeChain obj refs) {holder : ObjectRef}
    (hfind : refs.find? (fun r => (h.own r key).isSome) = some holder) {getter : FunctionRef}
    {setter : Option FunctionRef} (hown : h.own holder key = some (.gsBox (some getter) setter)) :
    objectReadProperty h obj key = .ok (.getter getter (.object holder)) := by
  have hbound : refs.length ≤ h.objects.length + 1 := Nat.le_succ_of_le hchain.length_le
  obtain ⟨node, hnode, hget⟩ := Option.bind_eq_some_iff.mp hown
  unfold objectReadProperty
  rw [Chain.walk_of_linked hchain hbound, hit_eq_own, hfind]
  simp only [hnode, Option.map_some, Option.getD_some, hget]

/-- A setter of the object itself gets the object. -/
theorem objectWriteProperty_of_setter {getter : Option FunctionRef} {setter : FunctionRef}
    (hown : h.own obj key = some (.gsBox getter (some setter))) (value : JSValue) :
    objectWriteProperty h obj key value = .ok (.setter setter (.object obj)) := by
  obtain ⟨node, hnode, hget⟩ := Option.bind_eq_some_iff.mp hown
  unfold objectWriteProperty
  rw [hnode]
  dsimp only
  rw [hget]

end AtomixJS
