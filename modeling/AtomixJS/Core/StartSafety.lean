import AtomixJS.Core.NativeSafety
import AtomixJS.Core.Startup

/-!
# A sound start

Loading makes a heap with a scope and an object for each module, and nothing in them.  With the
global scope and the core module the heap is sound, so that `main` starts the machine in a sound
configuration.
-/

namespace AtomixJS

/-! ## Loading -/

/-- The heap while modules are loaded: nothing is in the scopes and objects. -/
structure Heap.Fresh (h : Heap) : Prop where
  parent : ∀ (s : ScopeRef) node, h.scopes[s]? = some node → node.parent = none
  binding : ∀ s key, h.binding s key = none
  prototype : ∀ o ∈ h.objects, ∃ p < h.objects.length, o.prototype = some p
  own : ∀ obj key, h.own obj key = none
  functions : h.functions = []
  root : ∀ r, some r ∈ h.roots → r < h.objects.length

/-- A module that has been loaded and not been executed. -/
structure JSModule.Loaded (h : Heap) (m : JSModule) : Prop where
  exports : m.exports < h.objects.length
  scope : ∃ s < h.scopes.length, m.scope = some s
  fresh : m.initialized = false

theorem Heap.Fresh.empty : Heap.empty.Fresh where
  parent := by simp [Heap.empty]
  binding := by simp [Heap.empty, Heap.binding]
  prototype := by simp [Heap.empty]
  own := by simp [Heap.empty, Heap.own]
  functions := rfl
  root := by simp [Heap.empty, Heap.roots]

variable {h h' : Heap} {module : JSModule} {buff : List UInt8}

theorem Heap.Fresh.createScope (hfresh : h.Fresh) : (scopeCreateScope h none).1.Fresh where
  parent := by
    intro s node hnode
    rcases List.mem_append.mp (List.mem_of_getElem? hnode) with hold | hnew
    · obtain ⟨i, hi⟩ := List.mem_iff_getElem?.mp hold
      exact hfresh.parent i node hi
    · rw [List.mem_singleton.mp hnew]
  binding := by
    rw [binding_createScope]
    exact hfresh.binding
  prototype := hfresh.prototype
  own := hfresh.own
  functions := hfresh.functions
  root := hfresh.root

/-- A new object, and perhaps one of the prototypes. -/
theorem Heap.Fresh.createObject (hfresh : h.Fresh) {prototype : ObjectRef}
    (hle : prototype ≤ h.objects.length) : (objectCreateObject h (some prototype)).1.Fresh where
  parent := hfresh.parent
  binding := hfresh.binding
  prototype := by
    intro o ho
    rw [objectCreateObject_length]
    rcases List.mem_append.mp ho with ho | ho
    · obtain ⟨p, hp, hprototype⟩ := hfresh.prototype o ho
      exact ⟨p, Nat.lt_succ_of_lt hp, hprototype⟩
    · rw [List.mem_singleton.mp ho]
      exact ⟨prototype, Nat.lt_succ_of_le hle, rfl⟩
  own := by
    rw [own_createObject]
    exact hfresh.own
  functions := hfresh.functions
  root := by
    intro r hr
    rw [objectCreateObject_length]
    exact Nat.lt_succ_of_lt (hfresh.root r hr)

theorem Heap.Fresh.objectPrototype (hfresh : h.Fresh) :
    (objectGetObjectPrototype h).1.Fresh ∧
      (objectGetObjectPrototype h).2 < (objectGetObjectPrototype h).1.objects.length ∧
      h.objects.length ≤ (objectGetObjectPrototype h).1.objects.length ∧
      (objectGetObjectPrototype h).1.scopes = h.scopes := by
  unfold objectGetObjectPrototype
  split
  · next ref href =>
    exact ⟨hfresh, hfresh.root ref (by simp [Heap.roots, href]), Nat.le_refl _, rfl⟩
  · have hnew := hfresh.createObject (Nat.le_refl h.objects.length)
    have hlength := objectCreateObject_length (h := h) (some h.objects.length)
    refine ⟨⟨hnew.parent, hnew.binding, hnew.prototype, hnew.own, hnew.functions, fun r hr => ?_⟩,
      hlength ▸ Nat.lt_succ_self _, hlength ▸ Nat.le_succ _, rfl⟩
    rcases List.mem_cons.mp hr with hr | hr
    · rw [Option.some.inj hr]
      exact hlength ▸ Nat.lt_succ_self _
    · exact hnew.root r (List.mem_cons_of_mem _ hr)

theorem JSModule.Loaded.of_le (hmodule : module.Loaded h)
    (hobjects : h.objects.length ≤ h'.objects.length)
    (hscopes : h.scopes.length ≤ h'.scopes.length) : module.Loaded h' := by
  obtain ⟨s, hs, hscope⟩ := hmodule.scope
  exact ⟨Nat.lt_of_lt_of_le hmodule.exports hobjects, ⟨s, Nat.lt_of_lt_of_le hs hscopes, hscope⟩,
    hmodule.fresh⟩

/-- A module gets an object for its exports and a scope. -/
theorem moduleLoad_fresh {state : Heap × ℕ} {result : JSModule × Heap × ℕ} (hfresh : state.1.Fresh)
    (hload : moduleLoadFromBufferOffset buff state = .ok result) :
    result.2.1.Fresh ∧ result.1.Loaded result.2.1 ∧
      ∀ m : JSModule, m.Loaded state.1 → m.Loaded result.2.1 := by
  simp only [moduleLoadFromBufferOffset, Fallible.bind_eq_ok, Fallible.pure_eq_ok,
    Prod.exists] at hload
  obtain ⟨header, position, _, stringTable, _, dataSection, _, rfl⟩ := hload
  obtain ⟨hroot, hlt, hle, hscopes⟩ := hfresh.objectPrototype
  have hlength := objectCreateObject_length (h := (objectGetObjectPrototype state.1).1)
    (some (objectGetObjectPrototype state.1).2)
  have hscope : ((objectGetObjectPrototype state.1).1.scopes ++
      [Scope.mk none (dictCreateDict scopeBucketSize scopeBucketSize_pos)]).length =
        state.1.scopes.length + 1 := by
    rw [List.length_append, hscopes, List.length_singleton]
  have hlast : state.1.scopes.length < state.1.scopes.length + 1 := Nat.lt_succ_self _
  refine ⟨(hroot.createObject (Nat.le_of_lt hlt)).createScope, ⟨?_, ⟨_, ?_, rfl⟩, rfl⟩,
    fun m hm => hm.of_le ?_ ?_⟩
  · exact hlength ▸ Nat.lt_succ_self _
  · exact hscope.symm ▸ hscopes ▸ hlast
  · exact hlength ▸ Nat.le_succ_of_le hle
  · exact hscope.symm ▸ Nat.le_succ _

theorem unknownLoad_fresh {result : LoadResult} {bundle : BundleRef} (hfresh : h.Fresh)
    (hload : unknownLoadFromBuffer buff bundle h = .ok (result, h')) :
    h'.Fresh ∧ (∀ m, result = .module m → m.Loaded h') ∧
      ∀ b, result = .bundle b → ∀ m ∈ b.modules, m.Loaded h' := by
  unfold unknownLoadFromBuffer at hload
  split at hload
  · simp only [moduleLoadFromBuffer, Fallible.bind_eq_ok, Fallible.pure_eq_ok, Prod.exists,
      Prod.mk.injEq] at hload
    obtain ⟨module, h₁, ⟨_, _, _, hmodule, rfl, rfl⟩, rfl, rfl⟩ := hload
    have hstart : (h, (0 : ℕ)).1.Fresh := hfresh
    obtain ⟨hfresh', hloaded, _⟩ := moduleLoad_fresh hstart hmodule
    refine ⟨hfresh', fun m hm => ?_, fun b hb => ?_⟩
    · exact LoadResult.module.inj hm ▸ hloaded
    · cases hb
  · simp only [bundleLoadFromBuffer, Fallible.bind_eq_ok, Fallible.pure_eq_ok,
      Fallible.guard_eq_ok, Prod.exists, Prod.mk.injEq] at hload
    obtain ⟨b, h₁, ⟨magic, _, _, version, position, _, _, entryPoint, position', _, moduleCount,
      position'', _, modules, h₂, position''', htimes, rfl, rfl⟩, rfl, rfl⟩ := hload
    obtain ⟨hfresh', hloaded, _⟩ := Fallible.times_invariant (I := fun state => state.1.Fresh)
      (P := fun m state => JSModule.Loaded state.1 m)
      (fun state m state' hstate hstep => moduleLoad_fresh hstate hstep) hfresh htimes
    refine ⟨hfresh', fun m hm => ?_, fun b hb m hm => ?_⟩
    · cases hm
    · obtain rfl := LoadResult.bundle.inj hb
      obtain ⟨m', hm', rfl⟩ := List.mem_map.mp hm
      exact ⟨(hloaded m' hm').exports, (hloaded m' hm').scope, (hloaded m' hm').fresh⟩

/-- With the global scope, the heap is sound. -/
theorem Heap.Fresh.sound {modules : List JSModule} (hfresh : h.Fresh)
    (hmodules : ∀ m ∈ modules, m.Loaded h) :
    Heap.Sound h.scopes.length (scopeCreateScope { h with modules } none).1 := by
  have hnew := hfresh.createScope
  have hglobal : (scopeCreateScope { h with modules } none).1.scopes[h.scopes.length]? =
      some ⟨none, dictCreateDict scopeBucketSize scopeBucketSize_pos⟩ := List.getElem?_concat_length
  refine ⟨.last hglobal rfl, fun s key v hv => ?_, hnew.prototype, fun obj key v hv => ?_,
    fun f hf => ?_, fun m hm => ?_, hnew.root⟩
  · exact absurd ((hnew.binding s key).symm.trans hv) (Option.some_ne_none v).symm
  · exact absurd ((hnew.own obj key).symm.trans hv) (Option.some_ne_none v).symm
  · have hnone : f ∈ ([] : List JSFunction) := hfresh.functions ▸ hf
    exact absurd hnone List.not_mem_nil
  · obtain ⟨hexports, ⟨s, hs, hscope⟩, hinit⟩ := hmodules m hm
    refine ⟨hexports, fun s' hs' => ?_, fun _ => ?_⟩
    · obtain rfl := Option.some.inj (hscope.symm.trans hs')
      have hnode : h.scopes[s]? = some h.scopes[s] := List.getElem?_eq_getElem hs
      have hold : (scopeCreateScope { h with modules } none).1.scopes[s]? = some h.scopes[s] := by
        rw [scopeCreateScope, List.getElem?_append_left hs, hnode]
      exact ⟨Nat.ne_of_lt hs, _, hold, .inl (hfresh.parent s _ hnode)⟩
    · rw [hscope]
      rfl

section CoreInit

variable {g : ScopeRef} {obj : ObjectRef} {function : FunctionRef} {pointer : ℕ}

/-- The name is bound then. -/
theorem Heap.Sound.declareGlobal (hs : h.Sound g) {v : JSValue} (hv : v.Valid h)
    (key : CString) : Intact (fun h' => h.Later g h' ∧ (h'.binding g key).isSome)
      (scopeDeclare h g key v) := by
  refine .ite (fun hlt => ⟨hs.putBinding hlt key hv, ?_⟩) fun hge => absurd hs.global.lt hge
  rw [binding_putBinding hlt, if_pos ⟨rfl, rfl⟩]
  rfl

theorem Heap.Sound.defineMethod (hs : h.Sound g) (hobj : obj < h.objects.length) (name : CString)
    (hpointer : pointer < nativeCount) : h.Later g (defineMethod h obj name pointer) := by
  obtain ⟨hnew, hlt⟩ := functionCreateNativeFunction_provides hs hpointer
  have hobj' := Nat.lt_of_lt_of_le hobj hnew.grows.objects
  exact hnew.trans (hnew.sound.putProperty hobj' (.string name) (v := .func _) hlt)

theorem Heap.Sound.defineConstructor (hs : h.Sound g) (hpointer : pointer < nativeCount)
    {getPrototype : Heap → Heap × ObjectRef}
    (hprototype : ∀ h : Heap, h.Sound g → h.Provides g (getPrototype h)) :
    Intact (fun result => h.Later g result.1 ∧ result.2.1 < result.1.functions.length ∧
        result.2.2.1 < result.1.objects.length ∧ result.2.2.2 < result.1.objects.length)
      (defineConstructor h pointer getPrototype) := by
  obtain ⟨hnew, hlt⟩ := functionCreateNativeFunction_provides hs hpointer
  refine (objectOf_intact hnew.sound (v := .func _) hlt).bind fun base hbase => ?_
  obtain ⟨hroot, hrootlt, _⟩ := hprototype _ hnew.sound
  have hset := hroot.sound.setPrototype base hrootlt
  refine ⟨(hnew.trans hroot).trans hset, ?_, ?_, ?_⟩
  · exact Nat.lt_of_lt_of_le hlt (hroot.trans hset).grows.functions_le
  · exact Nat.lt_of_lt_of_le hbase (hroot.trans hset).grows.objects
  · exact Nat.lt_of_lt_of_le hrootlt hset.grows.objects

theorem symbolToPrimitive_later (hs : h.Sound g) :
    h.Later g (symbolToPrimitive h).1 ∧ (symbolToPrimitive h).2.Valid (symbolToPrimitive h).1 := by
  obtain ⟨hnew, hlt, _⟩ := (objectGetSymbolPrototype_provides hs).createObject
  have hput := hnew.sound.putProperty hlt (.string (cString "description"))
    (v := .string (cString "Symbol.toPrimitive")) trivial
  exact ⟨hnew.trans hput, Nat.lt_of_lt_of_le hlt hput.grows.objects⟩

/-- The names that `core_init` declares. -/
def coreNames : List CString :=
  ["print", "Module", "Object", "Array", "Function", "Symbol"].map cString

/-- They are declared one after the other. -/
theorem coreInit_intact (hs : h.Sound g) :
    Intact (fun h' => h.Later g h' ∧ ∀ name ∈ coreNames, (h'.binding g name).isSome)
      (coreInit h g) := by
  have hcount : ∀ {p}, p ≤ 11 → p < nativeCount := Nat.lt_succ_of_le
  have hkeep : ∀ {h h' : Heap} {obj}, h.Later g h' → obj < h.objects.length →
      obj < h'.objects.length := fun hlater hlt => Nat.lt_of_lt_of_le hlt hlater.grows.objects
  unfold coreInit
  -- `print`
  obtain ⟨hprint, hprintlt⟩ := functionCreateNativeFunction_provides hs (hcount (p := 0) (by omega))
  refine (hprint.sound.declareGlobal (v := .func _) hprintlt _).bind fun h₁ hfirst => ?_
  obtain ⟨hlater₁, hbound₁⟩ := hfirst
  -- `Module`
  obtain ⟨hmodule, hmodulelt, _⟩ := (objectGetObjectPrototype_provides hlater₁.sound).createObject
  have hget := hmodule.sound.defineMethod hmodulelt (cString "getExportObj")
    (hcount (p := 1) (by omega))
  have himport := hget.sound.defineMethod (hkeep hget hmodulelt) (cString "importModule")
    (hcount (p := 2) (by omega))
  have hmethods := hget.trans himport
  refine (himport.sound.declareGlobal (v := .object _) (hkeep hmethods hmodulelt)
    _).bind fun h₂ hsecond => ?_
  obtain ⟨hlater₂, hbound₂⟩ := hsecond
  -- `Object`
  obtain ⟨hobject, hobjectlt⟩ := functionCreateNativeFunction_provides hlater₂.sound
    (hcount (p := 3) (by omega))
  refine (objectOf_intact hobject.sound (v := .func _) hobjectlt).bind fun base hbase => ?_
  have hinstantiate := hobject.sound.defineMethod hbase (cString "instantiate")
    (hcount (p := 4) (by omega))
  have hcreate := hinstantiate.sound.defineMethod (hkeep hinstantiate hbase) (cString "create")
    (hcount (p := 5) (by omega))
  have hset := hcreate.sound.defineMethod (hkeep (hinstantiate.trans hcreate) hbase)
    (cString "setPrototypeOf") (hcount (p := 6) (by omega))
  have hmethods' := (hinstantiate.trans hcreate).trans hset
  refine (hset.sound.declareGlobal (v := .func _)
    (Nat.lt_of_lt_of_le hobjectlt hmethods'.grows.functions_le) _).bind fun h₃ hthird => ?_
  obtain ⟨hlater₃, hbound₃⟩ := hthird
  -- `Array`
  refine (hlater₃.sound.defineConstructor (hcount (p := 7) (by omega))
    fun _ => objectGetArrayPrototype_provides).bind fun result hresult => ?_
  obtain ⟨h₄, array, base', prototype⟩ := result
  obtain ⟨hlater₄, harray, hbase', _⟩ := hresult
  have hisArray := hlater₄.sound.defineMethod hbase' (cString "isArray") (hcount (p := 8) (by omega))
  refine (hisArray.sound.declareGlobal (v := .func _)
    (Nat.lt_of_lt_of_le harray hisArray.grows.functions_le) _).bind fun h₅ hfourth => ?_
  obtain ⟨hlater₅, hbound₅⟩ := hfourth
  -- `Function`
  refine (hlater₅.sound.defineConstructor (hcount (p := 9) (by omega))
    fun _ => objectGetFunctionPrototype_provides).bind fun result hresult => ?_
  obtain ⟨h₆, function, base'', prototype'⟩ := result
  obtain ⟨hlater₆, hfunction, _, hprototype'⟩ := hresult
  refine (hlater₆.sound.declareGlobal (v := .func _) hfunction _).bind fun h₇ hfifth => ?_
  obtain ⟨hlater₇, hbound₇⟩ := hfifth
  have hcall := hlater₇.sound.defineMethod (hkeep hlater₇ hprototype') (cString "call")
    (hcount (p := 10) (by omega))
  -- `Symbol`
  refine (hcall.sound.defineConstructor (hcount (p := 11) (by omega))
    fun _ => objectGetSymbolPrototype_provides).bind fun result hresult => ?_
  obtain ⟨h₈, symbol, base₃, prototype₃⟩ := result
  obtain ⟨hlater₈, hsymbol, hbase₃, _⟩ := hresult
  obtain ⟨hprimitive, hvalid⟩ := symbolToPrimitive_later hlater₈.sound
  have hput := hprimitive.sound.putProperty (hkeep hprimitive hbase₃)
    (.string (cString "toPrimitive")) hvalid
  have hsymbol' := Nat.lt_of_lt_of_le hsymbol (hprimitive.trans hput).grows.functions_le
  refine (hput.sound.declareGlobal (v := .func _) hsymbol' _).mono fun h₉ hlast => ?_
  obtain ⟨hlater₉, hbound₉⟩ := hlast
  -- from each declaration on, the heap has only grown
  have hfrom₇ := (hcall.trans hlater₈).trans (hprimitive.trans (hput.trans hlater₉))
  have hfrom₅ := (hlater₆.trans hlater₇).trans hfrom₇
  have hfrom₃ := ((hlater₄.trans hisArray).trans hlater₅).trans hfrom₅
  have hfrom₂ := ((hobject.trans hmethods').trans hlater₃).trans hfrom₃
  have hfrom₁ := ((hmodule.trans hmethods).trans hlater₂).trans hfrom₂
  refine ⟨(hprint.trans hlater₁).trans hfrom₁, ?_⟩
  simp only [coreNames, List.map_cons, List.map_nil, List.forall_mem_cons]
  exact ⟨hfrom₁.grows.bound _ _ hbound₁, hfrom₂.grows.bound _ _ hbound₂,
    hfrom₃.grows.bound _ _ hbound₃, hfrom₅.grows.bound _ _ hbound₅, hfrom₇.grows.bound _ _ hbound₇,
    hbound₉, fun name hname => absurd hname List.not_mem_nil⟩

end CoreInit

/-! ## Programs -/

/-- What `main` executes is sound. -/
structure Program.Sound (program : Program) : Prop where
  heap : program.vm.heap.Sound program.vm.globalScope
  names : ∀ name ∈ coreNames, (program.vm.heap.binding program.vm.globalScope name).isSome
  entry : ∃ m s, program.vm.heap.modules[program.entry]? = some m ∧ m.scope = some s
  link : program.link.Sound program.vm.heap.modules.length
  alone : program.link.nativeModules = []

/-- What `vm_init` makes of a heap with freshly loaded modules. -/
structure Started (modules : List JSModule) (vm : VM) : Prop where
  heap : vm.heap.Sound vm.globalScope
  names : ∀ name ∈ coreNames, (vm.heap.binding vm.globalScope name).isSome
  count : vm.heap.modules.length = modules.length
  scope : ∀ i < modules.length, ∃ m s, vm.heap.modules[i]? = some m ∧ m.scope = some s

theorem vmInit_started {modules : List JSModule} (hfresh : h.Fresh)
    (hmodules : ∀ m ∈ modules, m.Loaded h) {entry : ModuleRef} {scope : ScopeRef}
    {stack : ℕ → JSValue} {vm : VM} (hinit : vmInit { h with modules } entry scope stack = .ok vm) :
    Started modules vm := by
  have hs := hfresh.sound hmodules
  have hcore := coreInit_intact hs
  simp only [vmInit, Fallible.bind_eq_ok, Fallible.pure_eq_ok] at hinit
  obtain ⟨heap, hheap, rfl⟩ := hinit
  have hheap' : coreInit (scopeCreateScope { h with modules } none).1 h.scopes.length = .ok heap :=
    hheap
  rw [hheap'] at hcore
  obtain ⟨⟨hsound, hgrows⟩, hnames⟩ := hcore
  refine ⟨hsound, hnames, hgrows.modules, fun i hi => ?_⟩
  have hm : modules[i]? = some modules[i] := List.getElem?_eq_getElem hi
  obtain ⟨initialized, hm', _⟩ := hgrows.module i modules[i] hm
  obtain ⟨s, _, hscope⟩ := (hmodules _ (List.mem_of_getElem? hm)).scope
  exact ⟨_, s, hm', hscope⟩

variable {scope : ScopeRef} {stack : ℕ → JSValue} {program : Program}

theorem main_sound (hmain : main buff scope stack = .ok (some program)) : program.Sound := by
  simp only [main, Fallible.bind_eq_ok, Prod.exists] at hmain
  obtain ⟨result, heap, hload, hmain⟩ := hmain
  obtain ⟨hfresh, hmodule, hbundle⟩ := unknownLoad_fresh .empty hload
  cases result with
  | module m =>
    simp only [Fallible.bind_eq_ok, Fallible.pure_eq_ok, Option.some.injEq] at hmain
    obtain ⟨vm, hinit, rfl⟩ := hmain
    have hloaded : ∀ m' ∈ [m], m'.Loaded heap := by
      intro m' hm'
      rw [List.mem_singleton.mp hm']
      exact hmodule m rfl
    obtain ⟨hsound, hnames, _, hscope⟩ := vmInit_started hfresh hloaded hinit
    refine ⟨hsound, hnames, hscope 0 Nat.one_pos, ⟨fun b refs hb => ?_, fun m hm => ?_⟩, rfl⟩
    · exact absurd hb List.not_mem_nil
    · exact absurd hm List.not_mem_nil
  | bundle b =>
    dsimp only at hmain
    split at hmain
    · cases hmain
    · simp only [Fallible.bind_eq_ok, Fallible.pure_eq_ok, Option.some.injEq] at hmain
      obtain ⟨entry, hentry, vm, hinit, rfl⟩ := hmain
      obtain ⟨hsound, hnames, hcount, hscope⟩ := vmInit_started hfresh (hbundle b rfl) hinit
      have hlink : Linkage.Sound ⟨[(b, List.range b.modules.length)], []⟩ b.modules.length := by
        refine ⟨fun b' refs hb => ?_, fun m hm => absurd hm List.not_mem_nil⟩
        obtain ⟨rfl, rfl⟩ := Prod.mk.inj (List.mem_singleton.mp hb)
        exact ⟨List.length_range, fun m hm => List.mem_range.mp hm⟩
      exact ⟨hsound, hnames, hscope entry (getModule_lt hlink hentry), hcount.symm ▸ hlink, rfl⟩

end AtomixJS
