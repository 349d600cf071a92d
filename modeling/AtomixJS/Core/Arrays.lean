import AtomixJS.Core.Effects
import AtomixJS.Core.Prototypes
import AtomixJS.Lib.Numeral

/-!
# Arrays

An array is an object below the array prototype, with its length and with its elements under
decimal keys.  The decimal texts of two integers differ, and none is `length`.  So each element
that is stored is one more property, and `Filled` says which ones there are so far.

What a program sees of an array (`ActsAsArray`) follows from this, however the array was made.
-/

namespace AtomixJS

/-! ## Decimal keys -/

/-- The text of an integer, with its sign. -/
def signedDigits (i : CInt) : List Char :=
  let digits := Nat.toDigits 10 i.toInt.natAbs
  if i.toInt < 0 then '-' :: digits else digits

/-- The key of an element. -/
def intKey (i : CInt) : PropertyKey := .string (intToString i)

theorem intToString_eq (i : CInt) :
    intToString i = (signedDigits i).map fun c => c.toNat.toUInt8 := by
  unfold intToString signedDigits
  dsimp only
  split <;> rfl

theorem signedDigits_ascii {i : CInt} {c : Char} (h : c ∈ signedDigits i) :
    c = '-' ∨ c.isDigit = true := by
  have hdigits : ∀ c ∈ Nat.toDigits 10 i.toInt.natAbs, c.isDigit = true :=
    fun c hc => Nat.isDigit_of_mem_toDigits (by decide) (by decide) hc
  unfold signedDigits at h
  dsimp only at h
  split at h
  · rcases List.mem_cons.mp h with rfl | h
    · exact .inl rfl
    · exact .inr (hdigits c h)
  · exact .inr (hdigits c h)

theorem signedDigits_injective : Function.Injective signedDigits := by
  intro i j heq
  have hhead : ∀ i : CInt, (signedDigits i).head? = some '-' ↔ i.toInt < 0 := by
    intro i
    unfold signedDigits
    dsimp only
    split
    · next hneg => simp [hneg]
    · next hpos =>
      refine iff_of_false (fun hminus => ?_) hpos
      have hdigit := Nat.isDigit_of_mem_toDigits (b := 10) (by decide) (by decide)
        (List.mem_of_head? hminus)
      exact absurd hdigit (by decide)
  have hsign : i.toInt < 0 ↔ j.toInt < 0 := by rw [← hhead i, ← hhead j, heq]
  have hdigits : Nat.toDigits 10 i.toInt.natAbs = Nat.toDigits 10 j.toInt.natAbs := by
    unfold signedDigits at heq
    dsimp only at heq
    by_cases hneg : i.toInt < 0
    · rw [if_pos hneg, if_pos (hsign.mp hneg)] at heq
      exact (List.cons.inj heq).2
    · rw [if_neg hneg, if_neg (mt hsign.mpr hneg)] at heq
      exact heq
  have habs := Numeral.toDigits_injective (by decide) (by decide) hdigits
  refine BitVec.eq_of_toInt_eq ?_
  omega

/-- The text of a key can be read back. -/
theorem chars_intToString (i : CInt) :
    (intToString i).map (fun b => Char.ofNat b.toNat) = signedDigits i := by
  rw [intToString_eq, List.map_map]
  refine (List.map_congr_left fun c hc => ?_).trans (List.map_id _)
  have hcode : c.toNat < 256 := by
    rcases signedDigits_ascii hc with rfl | hdigit
    · decide
    · exact Nat.lt_of_le_of_lt (Char.isDigit_iff_toNat.mp hdigit).2 (by decide)
  show Char.ofNat c.toNat.toUInt8.toNat = c
  rw [show c.toNat.toUInt8.toNat = c.toNat % 256 from rfl, Nat.mod_eq_of_lt hcode, Char.ofNat_toNat]

theorem intKey_injective : Function.Injective intKey := by
  intro i j heq
  apply signedDigits_injective
  rw [← chars_intToString, PropertyKey.string.inj heq, chars_intToString]

theorem intKey_ne_length (i : CInt) : intKey i ≠ .string (cString "length") := by
  intro heq
  have htext : signedDigits i = "length".toList := by
    rw [← chars_intToString, PropertyKey.string.inj heq]
    rfl
  have hletter : 'l' ∈ signedDigits i := by
    rw [htext]
    decide
  rcases signedDigits_ascii hletter with hminus | hdigit
  · exact absurd hminus (by decide)
  · exact absurd hdigit (by decide)

/-! ## What an array holds -/

/-- An array whose length is written and whose first elements are. -/
structure Filled (h : Heap) (arr : ObjectRef) (size : CInt) (values : List JSValue) : Prop where
  lt : arr < h.objects.length
  length : h.own arr (.string (cString "length")) = some (.integer size)
  element : ∀ i : CInt, h.own arr (intKey i) =
    if 0 ≤ i.toInt then values[i.toInt.toNat]? else none

/-- An object right below the array prototype, which is not the root. -/
structure BelowArrayPrototype (h : Heap) (arr : ObjectRef) : Prop where
  prototypes : ∃ root p, h.objectPrototype = some root ∧ h.arrayPrototype = some p ∧ p ≠ root ∧
    p ≠ arr ∧ (h.objects[arr]?).map JSObject.prototype = some (some p)

variable {h h' : Heap} {arr : ObjectRef} {size : CInt} {values elements : List JSValue} {v : JSValue}

theorem toInt_ofNat {n : ℕ} (h : n < 2 ^ 31) : (BitVec.ofNat 32 n).toInt = n := by
  have hnat : (BitVec.ofNat 32 n).toNat = n := by
    rw [BitVec.toNat_ofNat, Nat.mod_eq_of_lt (by omega)]
  rw [BitVec.toInt_eq_toNat_of_lt (by omega), hnat]

/-- The step: one more element. -/
theorem Filled.store (hfilled : Filled h arr size values) (hcount : values.length < 2 ^ 31) :
    Filled (h.putProperty arr (intKey (BitVec.ofNat 32 values.length)) v) arr size (values ++ [v]) := by
  refine ⟨by rw [putProperty_length]; exact hfilled.lt, ?_, fun i => ?_⟩
  · rw [own_putProperty hfilled.lt, Store.write, if_neg fun hsame => intKey_ne_length _ hsame.2.symm]
    exact hfilled.length
  · rw [own_putProperty hfilled.lt, Store.write]
    by_cases hhere : i = BitVec.ofNat 32 values.length
    · rw [if_pos ⟨rfl, congrArg intKey hhere⟩, hhere, toInt_ofNat hcount,
        if_pos (Int.natCast_nonneg _), Int.toNat_natCast, List.getElem?_concat_length]
    · rw [if_neg fun hsame => hhere (intKey_injective hsame.2), hfilled.element]
      split
      · next hpos =>
        have hother : i.toInt.toNat ≠ values.length := by
          intro heq
          refine hhere (BitVec.eq_of_toInt_eq ?_)
          rw [toInt_ofNat hcount]
          omega
        rcases Nat.lt_or_gt_of_ne hother with hlt | hgt
        · rw [List.getElem?_append_left hlt]
        · rw [List.getElem?_eq_none (Nat.le_of_lt hgt),
            List.getElem?_eq_none (by rw [List.length_append, List.length_singleton]; omega)]
      · rfl

theorem BelowArrayPrototype.putProperty (hbelow : BelowArrayPrototype h arr) (obj : ObjectRef)
    (key : PropertyKey) (value : JSValue) :
    BelowArrayPrototype (h.putProperty obj key value) arr := by
  obtain ⟨root, p, hroot, hp, hne, hother, hlink⟩ := hbelow.prototypes
  refine ⟨root, p, hroot, hp, hne, hother, ?_⟩
  simp only [Heap.putProperty, List.getElem?_modify]
  rw [← hlink]
  cases h.objects[arr]? with
  | none => split <;> rfl
  | some o => split <;> rfl

/-- One round of the loop of `array`. -/
def storeElement (arr : ObjectRef) (h : Heap) (item : JSValue × ℕ) : Heap :=
  h.putProperty arr (intKey (BitVec.ofNat 32 item.2)) item.1

/-- The run: the loop adds the elements one by one. -/
theorem Filled.storeAll (hfilled : Filled h arr size values) (hbelow : BelowArrayPrototype h arr)
    (hcount : values.length + elements.length ≤ 2 ^ 31) :
    Filled ((elements.zipIdx values.length).foldl (storeElement arr) h) arr size
      (values ++ elements) ∧
    BelowArrayPrototype ((elements.zipIdx values.length).foldl (storeElement arr) h) arr := by
  induction elements generalizing h values with
  | nil =>
    rw [List.append_nil]
    exact ⟨hfilled, hbelow⟩
  | cons v elements ih =>
    rw [List.length_cons] at hcount
    have hnext := ih (hfilled.store (v := v) (by omega)) (hbelow.putProperty arr _ v)
      (by rw [List.length_append, List.length_singleton]; omega)
    rw [List.append_assoc, List.singleton_append, List.length_append, List.length_singleton] at hnext
    rw [List.zipIdx_cons, List.foldl_cons]
    exact hnext

/-! ## New arrays -/

/-- A rooted heap whose array prototype, if there is one, is not the root. -/
structure Settled (h : Heap) : Prop where
  rooted : h.Rooted
  separate : ∀ p, h.arrayPrototype = some p → h.objectPrototype ≠ some p

/-- A new object below the array prototype. -/
def createArray (h : Heap) : Heap × ObjectRef :=
  objectCreateObject (objectGetArrayPrototype h).1 (some (objectGetArrayPrototype h).2)

theorem objectGetArrayPrototype_settled (hsettled : Settled h) :
    ∃ root, (objectGetArrayPrototype h).1.objectPrototype = some root ∧
      (objectGetArrayPrototype h).1.arrayPrototype = some (objectGetArrayPrototype h).2 ∧
      (objectGetArrayPrototype h).2 ≠ root := by
  unfold objectGetArrayPrototype
  split
  · next p hp =>
    obtain ⟨root, hroot, -⟩ := hsettled.rooted.chain p (hsettled.rooted.array p hp)
    refine ⟨root, hroot, hp, ?_⟩
    rintro rfl
    exact hsettled.separate p hp hroot
  · have hlt := (objectGetObjectPrototype_allocates hsettled.rooted).lt
    have hroot : (objectGetObjectPrototype h).1.objectPrototype =
        some (objectGetObjectPrototype h).2 := by
      unfold objectGetObjectPrototype
      split
      · next hsome => exact hsome
      · rfl
    exact ⟨_, hroot, rfl, Nat.ne_of_gt hlt⟩

/-- It is an array with nothing in it yet. -/
theorem createArray_settled (hsettled : Settled h) :
    (createArray h).2 < (createArray h).1.objects.length ∧
    BelowArrayPrototype (createArray h).1 (createArray h).2 ∧
    ∀ key, (createArray h).1.own (createArray h).2 key = none := by
  have halloc := objectGetArrayPrototype_allocates hsettled.rooted
  obtain ⟨root, hroot, hp, hne⟩ := objectGetArrayPrototype_settled hsettled
  obtain ⟨o, ho, hlink⟩ := objectCreateObject_new (objectGetArrayPrototype h).1
    (some (objectGetArrayPrototype h).2)
  refine ⟨halloc.createObject.lt, ⟨root, _, hroot, hp, hne, Nat.ne_of_lt halloc.lt, ?_⟩, fun key => ?_⟩
  · show ((createArray h).1.objects[(objectGetArrayPrototype h).1.objects.length]?).map _ = _
    rw [createArray, ho, Option.map_some, hlink]
  · rw [createArray, own_createObject]
    unfold Heap.own
    rw [show (objectCreateObject (objectGetArrayPrototype h).1 _).2 =
      (objectGetArrayPrototype h).1.objects.length from rfl, List.getElem?_eq_none (Nat.le_refl _)]
    rfl

/-- With its length it is filled as far as nothing. -/
theorem Filled.start (hlt : arr < h.objects.length) (hempty : ∀ key, h.own arr key = none)
    (size : CInt) : Filled (h.putProperty arr (.string (cString "length")) (.integer size)) arr size [] := by
  refine ⟨by rwa [putProperty_length], ?_, fun i => ?_⟩
  · rw [own_putProperty hlt, Store.write, if_pos ⟨rfl, rfl⟩]
  · rw [own_putProperty hlt, Store.write, if_neg fun hsame => intKey_ne_length i hsame.2, hempty,
      List.getElem?_nil, ite_self]

/-- `array`, called with several values or none. -/
theorem array_settled (hsettled : Settled h) (hone : values.length ≠ 1)
    (hcount : values.length < 2 ^ 31) (module : ModuleRef) (this : JSValue) :
    ∃ h' arr, array h module this values = .ret h' (.object arr) ∧
      Filled h' arr (BitVec.ofNat 32 values.length) values ∧ BelowArrayPrototype h' arr := by
  obtain ⟨hlt, hbelow, hempty⟩ := createArray_settled hsettled
  have hrun : array h module this values = .ret ((values.zipIdx 0).foldl
      (storeElement (createArray h).2) ((createArray h).1.putProperty (createArray h).2
        (.string (cString "length")) (.integer (BitVec.ofNat 32 values.length))))
      (.object (createArray h).2) := by
    unfold AtomixJS.array
    dsimp only
    split
    · exact absurd rfl hone
    · exact absurd rfl hone
    · rfl
  have hstart := Filled.start hlt hempty (BitVec.ofNat 32 values.length)
  have hcount' : ([] : List JSValue).length + values.length ≤ 2 ^ 31 := by
    rw [List.length_nil, Nat.zero_add]
    exact Nat.le_of_lt hcount
  obtain ⟨hfilled, hbelow'⟩ := hstart.storeAll (hbelow.putProperty _ _ _) hcount'
  exact ⟨_, _, hrun, hfilled, hbelow'⟩

/-! ## What is seen of an array -/

/-- Neither the array prototype nor what it inherits from has a key that is an integer. -/
def NoIntegerKeys (h : Heap) : Prop :=
  ∃ p refs, h.arrayPrototype = some p ∧ h.PrototypeChain p refs ∧
    ∀ r ∈ refs, ∀ i, h.own r (intKey i) = none

/-- An array of these values, for `length`, for `Array.isArray` and for `OBJ_CLOAD`. -/
structure ActsAsArray (h : Heap) (arr : ObjectRef) (values : List JSValue) : Prop where
  length : ∃ size : CInt, size.toInt = values.length ∧
    objectReadProperty h arr (.string (cString "length")) = .ok (.value (.integer size))
  isArray : ∀ module this, ∃ h', isArray h module this [.object arr] = .ret h' (.boolean true)
  load : NoIntegerKeys h → ∀ (host : Host) (vm : VM) (i : CInt) (ops : List JSValue),
    vm.heap = h → vm.operands = .integer i :: .object arr :: ops →
    vm.stats.stackCounter ≤ stackSize →
    ∃ vm', execInst host .objCload vm = .done vm' ∧ vm'.heap = h ∧
      vm'.operands = (if 0 ≤ i.toInt then values[i.toInt.toNat]? else none).getD .undefined :: ops

theorem BelowArrayPrototype.isArray (hbelow : BelowArrayPrototype h arr) (module : ModuleRef)
    (this : JSValue) : isArray h module this [.object arr] = .ret h (.boolean true) := by
  obtain ⟨root, p, hroot, hp, hne, -, hlink⟩ := hbelow.prototypes
  obtain ⟨o, ho, hlink⟩ := Option.map_eq_some_iff.mp hlink
  have hvalue : valueIsArray h (.object arr) = .ok (h, true) := by
    unfold valueIsArray objectGetObjectPrototype
    rw [hroot]
    dsimp only
    unfold objectGetArrayPrototype
    rw [hp]
    dsimp only
    simp only [ho, hlink]
    rw [prototypeWalk, if_neg hne, if_pos rfl]
    rfl
  unfold AtomixJS.isArray
  simp only [hvalue]

theorem Filled.read (hfilled : Filled h arr size values) (hbelow : BelowArrayPrototype h arr)
    (hvalues : ∀ v ∈ values, v.isGsBox = false) (hkeys : NoIntegerKeys h) (i : CInt) :
    objectReadProperty h arr (intKey i) =
      .ok (.value ((if 0 ≤ i.toInt then values[i.toInt.toNat]? else none).getD .undefined)) := by
  have hown := hfilled.element i
  cases hfind : (if 0 ≤ i.toInt then values[i.toInt.toNat]? else none) with
  | some v =>
    rw [hfind] at hown
    refine objectReadProperty_of_own hown (hvalues v ?_)
    split at hfind
    · exact List.mem_of_getElem? hfind
    · cases hfind
  | none =>
    rw [hfind] at hown
    obtain ⟨root, p, -, hp, -, hother, hlink⟩ := hbelow.prototypes
    obtain ⟨p', refs, hp', hchain, hnone⟩ := hkeys
    obtain rfl := Option.some.inj (hp.symm.trans hp')
    obtain ⟨o, ho, hlink⟩ := Option.map_eq_some_iff.mp hlink
    have hnext : h.PrototypeChain arr (arr :: refs) := by
      refine .next ho ?_ hchain
      rw [objectPrototypeLink, hlink]
      simp [hother]
    refine objectReadProperty_of_absent hnext fun r hr => ?_
    rcases List.mem_cons.mp hr with rfl | hr
    · exact hown
    · exact hnone r hr i

/-- Reading a property of the object on top but one, under the key on top. -/
theorem objCload_value {host : Host} {vm : VM} {computed value : JSValue} {obj : ObjectRef}
    {key : PropertyKey} {ops : List JSValue} (hops : vm.operands = computed :: .object obj :: ops)
    (hsize : vm.stats.stackCounter ≤ stackSize) (hkey : propertyKey computed = .ok key)
    (hread : objectReadProperty vm.heap obj key = .ok (.value value)) :
    ∃ vm', execInst host .objCload vm = .done vm' ∧ vm'.heap = vm.heap ∧
      vm'.operands = value :: ops := by
  have hcounter := VM.counter_of_operands hops
  rw [List.length_cons, List.length_cons] at hcounter
  have hneed : vm.need 2 = .ok () := if_neg (by omega)
  have hbelow : vm.slot (vm.stats.stackCounter - 2) = .ok (.object obj) :=
    VM.slot_of_operands (i := 1) (by rw [hops]; rfl) hsize
  have hdrop : VM.Restacked vm (vm.drop 1) (.object obj :: ops) :=
    VM.drop_restacked [computed] hops
  obtain ⟨vm', hset, hrestacked⟩ := VM.setTop_restacked hdrop.operands
    (by rw [VM.counter_of_operands hdrop.operands, List.length_cons]; omega) value
  have hrest : vm'.heap = vm.heap := by rw [hrestacked.rest]; rfl
  refine ⟨vm', ?_, hrest, hrestacked.operands⟩
  show instObjCload host vm = .done vm'
  rw [instObjCload, hneed]
  simp only [Fallible.ok_bind, slot_top hops hsize, hbelow, objectOf, hkey]
  show loadIntoTop host (vm.drop 1) obj key = _
  rw [loadIntoTop, objectGetProperty, show (vm.drop 1).heap = vm.heap from rfl, hread]
  show Prog.ofExcept ((vm.drop 1).setSlot (if host.indexFirst then _ else _) value) = _
  rw [ite_self]
  exact congrArg Prog.ofExcept hset

theorem Filled.actsAsArray (hfilled : Filled h arr (BitVec.ofNat 32 values.length) values)
    (hbelow : BelowArrayPrototype h arr) (hcount : values.length < 2 ^ 31)
    (hvalues : ∀ v ∈ values, v.isGsBox = false) : ActsAsArray h arr values where
  length := ⟨_, toInt_ofNat hcount, objectReadProperty_of_own hfilled.length rfl⟩
  isArray module this := ⟨h, hbelow.isArray module this⟩
  load hkeys host vm i ops hheap hops hsize := by
    have hread := hfilled.read hbelow hvalues hkeys i
    rw [← hheap] at hread ⊢
    exact objCload_value hops hsize rfl hread

end AtomixJS
