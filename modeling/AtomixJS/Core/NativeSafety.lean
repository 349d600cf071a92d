import AtomixJS.Core.CoreModule
import AtomixJS.Core.Safety

/-!
# Sound native functions

The native functions of `core_init` keep the heap sound, whatever the code does that they call.
-/

namespace AtomixJS

section Natives

variable {g : ScopeRef} {heap : Heap} {module : ModuleRef} {this : JSValue} {args : List JSValue}
  {link : Linkage} {count : ℕ}

/-- The modules in memory are modules of the heap. -/
structure Linkage.Sound (link : Linkage) (count : ℕ) : Prop where
  bundle : ∀ bundle refs, (bundle, refs) ∈ link.bundles → refs.length = bundle.modules.length ∧
    ∀ m ∈ refs, m < count
  native : ∀ m ∈ link.nativeModules, m < count

/-- What the search finds is in the array. -/
theorem search_intact {hashes : List UInt64} {hash : UInt64} {rounds : ℕ} {low high : UInt16}
    {result : Except Fault (Option ℕ)} (h : search hashes hash rounds low high = some result) :
    Intact (fun found => ∀ i, found = some i → i < hashes.length) result := by
  induction rounds generalizing low high with
  | zero => cases h
  | succ rounds ih =>
    rw [search] at h
    split at h
    · obtain rfl := Option.some.inj h
      exact fun i hi => absurd hi (Option.some_ne_none i).symm
    · obtain rfl := Option.some.inj h
      rfl
    · next index hfound =>
      obtain rfl := Option.some.inj h
      intro i hi
      obtain rfl := Option.some.inj hi
      unfold searchStep at hfound
      split at hfound
      · dsimp only at hfound
        split at hfound
        · cases hfound
        · next hget =>
          split at hfound
          · obtain rfl := SearchStep.found.inj hfound
            exact (List.getElem?_eq_some_iff.mp hget).1
          · split at hfound <;> cases hfound
      · cases hfound
    · exact ih h

/-- A location in the bundle or the list that were searched. -/
def ModuleLocation.Inside (bundle : Option JSBundle) (nativeModules : List JSModule) :
    ModuleLocation → Prop
  | .bundle index => ∃ b, bundle = some b ∧ index < b.modules.length
  | .native index => index < nativeModules.length

theorem bundleGetModule_intact {bundle : Option JSBundle} {nativeModules : List JSModule}
    {hash : UInt64} :
    Intact (ModuleLocation.Inside bundle nativeModules)
      (bundleGetModule bundle nativeModules hash) := by
  have hnative : ∀ result : Except Fault ModuleLocation,
      (∀ i, nativeModules.findIdx? (·.header.hash = hash) = some i → result = .ok (.native i)) →
      (nativeModules.findIdx? (·.header.hash = hash) = none →
        result = .error (.panic "Could not find module in bundle")) →
      Intact (ModuleLocation.Inside bundle nativeModules) result := by
    intro result hsome hnone
    cases hfind : nativeModules.findIdx? (·.header.hash = hash) with
    | none =>
      rw [hnone hfind]
      exact rfl
    | some i =>
      rw [hsome i hfind]
      exact (List.findIdx?_eq_some_iff_getElem.mp hfind).1
  unfold bundleGetModule
  cases bundle with
  | none =>
    have hin : Intact (fun found => found = none) (pure none : Except Fault (Option ℕ)) := rfl
    refine hin.bind fun inBundle hnone => ?_
    subst hnone
    refine hnative _ (fun i hi => ?_) fun hnone => ?_
    · dsimp only
      rw [hi]
      rfl
    · dsimp only
      rw [hnone]
  | some bundle =>
    have hsearch : Intact (fun found => ∀ i, found = some i → i < bundle.modules.length)
        ((search (bundle.modules.map (·.header.hash)) hash (2 ^ 32 + 1) 0
          bundle.moduleCount).getD (.error .divergence)) := by
      cases hfound : search (bundle.modules.map (·.header.hash)) hash (2 ^ 32 + 1) 0
          bundle.moduleCount with
      | none => exact rfl
      | some result =>
        refine (search_intact hfound).mono fun found hin i hi => ?_
        have hlt := hin i hi
        rwa [List.length_map] at hlt
    refine hsearch.bind fun inBundle hin => ?_
    cases inBundle with
    | some index => exact ⟨bundle, rfl, hin index rfl⟩
    | none =>
      refine hnative _ (fun i hi => ?_) fun hnone => ?_
      · dsimp only
        rw [hi]
        rfl
      · dsimp only
        rw [hnone]

/-- `bundle_get_module` returns a module of the heap. -/
theorem getModule_intact (hlink : link.Sound count) {bundle : Option BundleRef} {hash : UInt64} :
    Intact (fun m => m < count) (link.getModule heap bundle hash) := by
  have hread : ∀ found : Option ModuleRef, (∃ m < count, found = some m) →
      Intact (fun found => ∃ m < count, found = some m)
        (pure found : Except Fault (Option ModuleRef)) := fun found hm => hm
  unfold Linkage.getModule
  refine bundleGetModule_intact.bind fun location hlocation => ?_
  cases location with
  | bundle index =>
    obtain ⟨b, hb, hindex⟩ := hlocation
    obtain ⟨inMemory, hmemory, rfl⟩ := Option.map_eq_some_iff.mp hb
    obtain ⟨i, hi, hget⟩ := Option.bind_eq_some_iff.mp hmemory
    obtain ⟨hlength, hrefs⟩ := hlink.bundle inMemory.1 inMemory.2 (List.mem_of_getElem? hget)
    have hlt : index < inMemory.2.length := hlength.symm ▸ hindex
    refine (hread _ ⟨inMemory.2[index], hrefs _ (List.getElem_mem hlt), ?_⟩).bind fun found hm => ?_
    · rw [hmemory]
      exact List.getElem?_eq_getElem hlt
    · obtain ⟨m, hm, rfl⟩ := hm
      exact hm
  | native index =>
    have hlt : index < link.nativeModules.length :=
      Nat.lt_of_lt_of_le hlocation (List.length_filterMap_le _ _)
    refine (hread _ ⟨link.nativeModules[index], hlink.native _ (List.getElem_mem hlt),
      List.getElem?_eq_getElem hlt⟩).bind fun found hm => ?_
    obtain ⟨m, hm, rfl⟩ := hm
    exact hm

theorem getModule_lt (hlink : link.Sound count) {bundle : Option BundleRef} {hash : UInt64}
    {m : ModuleRef} (h : link.getModule heap bundle hash = .ok m) : m < count := by
  have hin : Intact (fun m => m < count) (link.getModule heap bundle hash) := getModule_intact hlink
  rw [h] at hin
  exact hin

theorem sound_import (hlink : link.Sound count) (hs : heap.Sound g)
    (hcount : heap.modules.length = count) (hmodule : module < count) {hash : UInt64} :
    (importByKey link heap module hash).Sound g heap := by
  unfold importByKey
  split
  · next hnone => exact absurd (List.getElem?_eq_none_iff.mp hnone) (hcount ▸ hmodule.not_ge)
  · next current _ =>
    have hfound : Intact (fun m => m < count) (link.getModule heap current.bundle hash) :=
      getModule_intact hlink
    split
    · next fault hfault =>
      rw [hfault] at hfound
      exact hfound
    · next imported himported =>
      rw [himported] at hfound
      have hlt : imported < count := hfound
      split
      · next hnone => exact absurd (List.getElem?_eq_none_iff.mp hnone) (hcount ▸ hlt.not_ge)
      · next m hm =>
        split
        · exact ⟨.refl hs, (hs.module m (List.mem_of_getElem? hm)).exports⟩
        · next hfresh =>
          have hlater := hs.setInitialized imported
          refine ⟨hlater, ⟨m, hm, by simpa using hfresh, ?_⟩, fun heap' hheap' => ?_⟩
          · rw [Heap.setInitialized, List.getElem?_modify, hm]
            simp
          · dsimp only
            split
            · next m' hm' =>
              have hexports := (hheap'.sound.module m' (List.mem_of_getElem? hm')).exports
              exact ⟨.refl hheap'.sound, hexports⟩
            · next hnone =>
              have hlength := (hlater.trans hheap').grows.modules.trans hcount
              exact absurd (List.getElem?_eq_none_iff.mp hnone) (hlength ▸ hlt.not_ge)

theorem sound_getProperty (hs : heap.Sound g) {obj : ObjectRef} (hobj : obj < heap.objects.length)
    {key : PropertyKey} {next : Heap → JSValue → NativeProgram}
    (hnext : ∀ value, value.Valid heap → (next heap value).Sound g heap) :
    (NativeProgram.getProperty heap obj key next).Sound g heap := by
  have hread := objectReadProperty_intact hs hobj key
  unfold NativeProgram.getProperty
  split
  · next fault hfault =>
    rw [hfault] at hread
    exact hread
  · next value hvalue =>
    rw [hvalue] at hread
    obtain ⟨value', hsame, hvalid⟩ := hread
    obtain rfl := PropertyRead.value.inj hsame
    exact hnext value hvalid
  · next function this' hgetter =>
    rw [hgetter] at hread
    obtain ⟨value', hsame, _⟩ := hread
    cases hsame

theorem sound_instantiate (module : ModuleRef) (this : JSValue) (hs : heap.Sound g)
    (hargs : ∀ arg ∈ args, arg.Valid heap) : (instantiate heap module this args).Sound g heap := by
  unfold instantiate
  split
  · next constructor rest =>
    have hconstructor : (JSValue.func constructor).Valid heap := hargs _ List.mem_cons_self
    split
    · next hnone =>
      exact absurd (List.getElem?_eq_none_iff.mp hnone) (Nat.not_le.mpr hconstructor)
    · next base code hf =>
      have hbase := (hs.function _ (List.mem_of_getElem? hf)).base
      refine sound_getProperty hs hbase fun prototype hprototype => ?_
      dsimp only
      split
      · next prototype =>
        obtain ⟨hnew, hlt, _⟩ := hs.createObject (Nat.le_of_lt hprototype)
        refine ⟨hnew, JSValue.Valid.grows (v := .func constructor) hconstructor hnew.grows, hlt,
          fun arg harg => (hargs arg (List.mem_cons_of_mem _ harg)).grows hnew.grows,
          fun heap' value hheap' hvalue => ?_⟩
        dsimp only
        split
        · exact ⟨.refl hheap'.sound, hvalue⟩
        · exact ⟨.refl hheap'.sound, Nat.lt_of_lt_of_le hlt hheap'.grows.objects⟩
      · exact ⟨.refl hs, trivial⟩
  · exact ⟨.refl hs, trivial⟩

theorem sound_create (module : ModuleRef) (this : JSValue) (hs : heap.Sound g)
    (hargs : ∀ arg ∈ args, arg.Valid heap) : (create heap module this args).Sound g heap := by
  unfold create
  split
  · next prototype rest =>
    have hprototype : (JSValue.object prototype).Valid heap := hargs _ List.mem_cons_self
    obtain ⟨hnew, hlt, _⟩ := hs.createObject (Nat.le_of_lt hprototype)
    exact ⟨hnew, hlt⟩
  · obtain ⟨hnew, hlt, _⟩ := (objectGetObjectPrototype_provides hs).createObject
    exact ⟨hnew, hlt⟩

theorem sound_setPrototypeOf (module : ModuleRef) (this : JSValue) (hs : heap.Sound g)
    (hargs : ∀ arg ∈ args, arg.Valid heap) : (setPrototypeOf heap module this args).Sound g heap := by
  unfold setPrototypeOf
  split
  · next first second rest =>
    have hfirst := objectOf_intact hs (hargs first List.mem_cons_self)
    have hsecond := objectOf_intact hs (hargs second (List.mem_cons_of_mem _ List.mem_cons_self))
    split
    · split
      · next target prototype htarget hprototype =>
        rw [htarget] at hfirst
        rw [hprototype] at hsecond
        split
        · exact ⟨hs.setPrototype target hsecond, trivial⟩
        · next hge => exact absurd hfirst hge
      · next hfault =>
        rw [hfault] at hfirst
        exact hfirst
      · next hfault =>
        rw [hfault] at hsecond
        exact hsecond
    · exact ⟨.refl hs, trivial⟩
  · exact ⟨.refl hs, trivial⟩

theorem prototypeWalk_intact {objects : List JSObject} {root array : ObjectRef}
    (hprototype : ∀ o ∈ objects, ∃ p < objects.length, o.prototype = some p) {bound : ℕ}
    {prototype : ObjectRef} (hlt : prototype < objects.length) :
    Intact (fun _ => True) (prototypeWalk objects root array bound (some prototype)) := by
  induction bound generalizing prototype with
  | zero => exact rfl
  | succ bound ih =>
    refine .ite (fun _ => trivial) fun _ => .ite (fun _ => trivial) fun _ => ?_
    split
    · next o ho =>
      obtain ⟨p, hp, hlink⟩ := hprototype o (List.mem_of_getElem? ho)
      rw [hlink]
      exact ih hp
    · next hnone => exact absurd (List.getElem?_eq_none_iff.mp hnone) (Nat.not_le.mpr hlt)

theorem valueIsArray_intact (hs : heap.Sound g) {value : JSValue} (hvalue : value.Valid heap) :
    Intact (fun result => heap.Later g result.1) (valueIsArray heap value) := by
  cases value with
  | object obj =>
    obtain ⟨hroot, _⟩ := objectGetObjectPrototype_provides hs
    obtain ⟨harray, _⟩ := objectGetArrayPrototype_provides hroot.sound
    have hlater := hroot.trans harray
    have hobj := Nat.lt_of_lt_of_le hvalue hlater.grows.objects
    simp only [valueIsArray]
    split
    · next o ho =>
      obtain ⟨p, hp, hlink⟩ := hlater.sound.prototype o (List.mem_of_getElem? ho)
      rw [hlink]
      exact (prototypeWalk_intact hlater.sound.prototype hp).bind fun _ _ => hlater
    · next hnone => exact absurd (List.getElem?_eq_none_iff.mp hnone) (Nat.not_le.mpr hobj)
  | _ => exact .refl hs

theorem sound_isArray (module : ModuleRef) (this : JSValue) (hs : heap.Sound g)
    (hargs : ∀ arg ∈ args, arg.Valid heap) : (isArray heap module this args).Sound g heap := by
  unfold isArray
  split
  · exact ⟨.refl hs, trivial⟩
  · next value rest =>
    have hvalue := valueIsArray_intact hs (hargs value List.mem_cons_self)
    split
    · next heap' state hstate =>
      rw [hstate] at hvalue
      exact ⟨hvalue, trivial⟩
    · next fault hfault =>
      rw [hfault] at hvalue
      exact hvalue

theorem putElements_later (hs : heap.Sound g) {arr : ObjectRef} (harr : arr < heap.objects.length)
    {elements : List JSValue} (helements : ∀ v ∈ elements, v.Valid heap) :
    heap.Later g (putElements heap arr elements) := by
  unfold putElements
  generalize hpairs : elements.zipIdx = pairs
  have hvalid : ∀ pair ∈ pairs, pair.1.Valid heap := by
    intro pair hpair
    rw [← hpairs] at hpair
    exact helements pair.1 (List.fst_mem_of_mem_zipIdx hpair)
  clear hpairs helements
  induction pairs generalizing heap with
  | nil => exact .refl hs
  | cons pair pairs ih =>
    have hput := hs.putProperty harr (.string (intToString (BitVec.ofNat 32 pair.2)))
      (hvalid pair List.mem_cons_self)
    refine hput.trans (ih hput.sound (Nat.lt_of_lt_of_le harr hput.grows.objects) fun p hp => ?_)
    exact (hvalid p (List.mem_cons_of_mem _ hp)).grows hput.grows

theorem sound_array (module : ModuleRef) (this : JSValue) (hs : heap.Sound g)
    (hargs : ∀ arg ∈ args, arg.Valid heap) : (array heap module this args).Sound g heap := by
  have hnew := (objectGetArrayPrototype_provides hs).createObject
  unfold array
  dsimp only
  generalize objectCreateObject (objectGetArrayPrototype heap).1
    (some (objectGetArrayPrototype heap).2) = result at hnew ⊢
  obtain ⟨heap', arr⟩ := result
  obtain ⟨hnew, hlt, _⟩ := hnew
  have hfilled : ∀ length elements, length.Valid heap' → (∀ v ∈ elements, v.Valid heap') →
      (NativeProgram.ret (putElements (heap'.putProperty arr (.string (cString "length")) length)
        arr elements) (.object arr)).Sound g heap := by
    intro length elements hlength helements
    have hput := hnew.sound.putProperty hlt (.string (cString "length")) hlength
    have helems := putElements_later hput.sound (Nat.lt_of_lt_of_le hlt hput.grows.objects)
      fun v hv => (helements v hv).grows hput.grows
    refine ⟨(hnew.trans hput).trans helems, ?_⟩
    exact Nat.lt_of_lt_of_le hlt (hput.trans helems).grows.objects
  split
  · exact ⟨hnew, trivial⟩
  · refine hfilled _ _ trivial fun v hv => ?_
    rw [List.eq_of_mem_replicate hv]
    trivial
  · exact hfilled _ _ trivial fun v hv => (hargs v hv).grows hnew.grows

theorem sound_symbol (module : ModuleRef) (this : JSValue) (hs : heap.Sound g)
    (hargs : ∀ arg ∈ args, arg.Valid heap) : (symbol heap module this args).Sound g heap := by
  obtain ⟨hnew, hlt, _⟩ := (objectGetSymbolPrototype_provides hs).createObject
  unfold symbol
  dsimp only
  split
  · exact ⟨hnew, hlt⟩
  · next value rest =>
    have hvalue := valueToString_intact (hargs value List.mem_cons_self)
    split
    · next description _ =>
      have hput := hnew.sound.putProperty hlt (.string (cString "description"))
        (v := .string description) trivial
      exact ⟨hnew.trans hput, Nat.lt_of_lt_of_le hlt hput.grows.objects⟩
    · next fault hfault =>
      rw [hfault] at hvalue
      exact hvalue

theorem sound_call (module : ModuleRef) (hs : heap.Sound g) (hthis : this.Valid heap)
    (hargs : ∀ arg ∈ args, arg.Valid heap) : (call heap module this args).Sound g heap := by
  have hret : ∀ heap' value, heap.Later g heap' → value.Valid heap' →
      (NativeProgram.ret heap' value).Sound g heap' :=
    fun heap' value hheap' hvalue => ⟨.refl hheap'.sound, hvalue⟩
  unfold call
  split
  · next function =>
    split
    · exact ⟨.refl hs, hthis, trivial, fun arg harg => absurd harg List.not_mem_nil, hret⟩
    · next first rest =>
      exact ⟨.refl hs, hthis, hargs first List.mem_cons_self,
        fun arg harg => hargs arg (List.mem_cons_of_mem _ harg), hret⟩
  · exact ⟨.refl hs, trivial⟩

/-- The native functions of `core_init`. -/
theorem sound_sourceHost (hlink : link.Sound count) (address : JSValue → CInt)
    (indexFirst : Bool) : (sourceHost link address indexFirst).Sound g count := by
  intro pointer heap module this args hpointer hs hcount hmodule hthis hargs
  have hundefined : (returnUndefined heap module this args).Sound g heap := ⟨.refl hs, trivial⟩
  have hexports : (moduleGetExportObj heap module this args).Sound g heap := by
    unfold moduleGetExportObj
    split
    · next m hm => exact ⟨.refl hs, (hs.module m (List.mem_of_getElem? hm)).exports⟩
    · next hnone => exact absurd (List.getElem?_eq_none_iff.mp hnone) (hcount ▸ hmodule.not_ge)
  have himport : (moduleImportModule link heap module this args).Sound g heap := by
    unfold moduleImportModule
    split
    · exact sound_import hlink hs hcount hmodule
    · exact ⟨.refl hs, trivial⟩
  unfold nativeCount at hpointer
  show (coreFunction link pointer heap module this args).Sound g heap
  interval_cases pointer
  · exact hundefined
  · exact hexports
  · exact himport
  · exact hundefined
  · exact sound_instantiate module this hs hargs
  · exact sound_create module this hs hargs
  · exact sound_setPrototypeOf module this hs hargs
  · exact sound_array module this hs hargs
  · exact sound_isArray module this hs hargs
  · exact hundefined
  · exact sound_call module hs hthis hargs
  · exact sound_symbol module this hs hargs

end Natives

end AtomixJS
