import AtomixJS.Core.Quiet
import AtomixJS.Core.StartSafety

/-!
# A start that succeeds

A heap with freshly loaded modules is all that `vm_init` needs: `core_init` never fails in it, and
declares its names in the global scope only.
-/

namespace AtomixJS

/-! ## Outside the global scope -/

/-- Modules and other scopes stay as they are. -/
structure Heap.Outside (g : ScopeRef) (h h' : Heap) : Prop where
  modules : h'.modules = h.modules
  binding : ∀ s ≠ g, ∀ key, h'.binding s key = h.binding s key

/-- No failure but for a pointer that leads nowhere. -/
abbrev Unless {α : Type} (post : α → Prop) (x : Except Fault α) : Prop :=
  Fallible.Ensures (fun fault => fault.isCorrupt = true) post x

variable {g : ScopeRef} {h h₁ h' : Heap}

namespace Heap.Outside

theorem of_keeps (hkeeps : h'.scopes = h.scopes ∧ h'.modules = h.modules) : h.Outside g h' where
  modules := hkeeps.2
  binding s _ key := by
    unfold Heap.binding
    rw [hkeeps.1]

theorem refl (g : ScopeRef) (h : Heap) : h.Outside g h := of_keeps ⟨rfl, rfl⟩

theorem trans (hfirst : h.Outside g h₁) (hsecond : h₁.Outside g h') : h.Outside g h' where
  modules := hsecond.modules.trans hfirst.modules
  binding s hs key := (hsecond.binding s hs key).trans (hfirst.binding s hs key)

end Heap.Outside

theorem Heap.Outside.declare (hbefore : h.Outside g h₁) (key : CString) (v : JSValue) :
    Unless (h.Outside g) (scopeDeclare h₁ g key v) := by
  refine .ite (fun hlt => hbefore.trans ⟨rfl, fun s hs key' => ?_⟩) fun _ => rfl
  rw [binding_putBinding hlt, if_neg fun hsame => hs hsame.1]

theorem Heap.Outside.putProperty (hbefore : h.Outside g h₁) (obj : ObjectRef) (key : PropertyKey)
    (v : JSValue) : h.Outside g (h₁.putProperty obj key v) := hbefore.trans (.of_keeps ⟨rfl, rfl⟩)

theorem Heap.Outside.createObject (hbefore : h.Outside g h₁) (prototype : Option ObjectRef) :
    h.Outside g (objectCreateObject h₁ prototype).1 := hbefore.trans (.of_keeps ⟨rfl, rfl⟩)

theorem objectOf_function (h : Heap) (f : FunctionRef) :
    Unless (fun _ => True) (objectOf h (.func f)) := by
  unfold objectOf
  dsimp only
  split
  · trivial
  · rfl

theorem objectGetSymbolPrototype_keeps (heap : Heap) :
    (objectGetSymbolPrototype heap).1.scopes = heap.scopes ∧
      (objectGetSymbolPrototype heap).1.modules = heap.modules := by
  unfold objectGetSymbolPrototype
  split
  · exact ⟨rfl, rfl⟩
  · exact objectGetObjectPrototype_keeps heap

theorem nativeFunction_outside (h : Heap) (pointer : Option ℕ) :
    h.Outside g (functionCreateNativeFunction h pointer).1 := by
  have hroot : h.Outside g (objectGetObjectPrototype h).1 :=
    .of_keeps (objectGetObjectPrototype_keeps h)
  unfold functionCreateNativeFunction
  exact hroot.trans (.of_keeps (functionCreatePrototype_keeps _ _ _))

theorem Heap.Outside.defineMethod (hbefore : h.Outside g h₁) (obj : ObjectRef) (name : CString)
    (pointer : ℕ) : h.Outside g (defineMethod h₁ obj name pointer) :=
  (hbefore.trans (nativeFunction_outside h₁ (some pointer))).putProperty _ _ _

theorem symbolToPrimitive_outside (h : Heap) : h.Outside g (symbolToPrimitive h).1 := by
  have hroot : h.Outside g (objectGetSymbolPrototype h).1 :=
    .of_keeps (objectGetSymbolPrototype_keeps h)
  exact (hroot.createObject _).putProperty _ _ _

theorem Heap.Outside.defineConstructor (hbefore : h.Outside g h₁) (pointer : ℕ)
    {getPrototype : Heap → Heap × ObjectRef}
    (hkeeps : ∀ h, (getPrototype h).1.scopes = h.scopes ∧ (getPrototype h).1.modules = h.modules) :
    Unless (fun result => h.Outside g result.1) (defineConstructor h₁ pointer getPrototype) := by
  refine (objectOf_function _ _).bind fun base _ => hbefore.trans ?_
  exact (nativeFunction_outside h₁ (some pointer)).trans ((Heap.Outside.of_keeps (hkeeps _)).trans
    (.of_keeps ⟨rfl, rfl⟩))

/-- `core_init` fails for no other reason, and declares names in the given scope only. -/
theorem coreInit_outside (h : Heap) (g : ScopeRef) : Unless (h.Outside g) (coreInit h g) := by
  unfold coreInit
  -- `print`
  refine ((nativeFunction_outside h (some 0)).declare _ _).bind fun h₁ hprint => ?_
  -- `Module`
  have hroot : h.Outside g (objectGetObjectPrototype h₁).1 :=
    hprint.trans (.of_keeps (objectGetObjectPrototype_keeps h₁))
  have hobject := hroot.createObject (some (objectGetObjectPrototype h₁).2)
  refine (((hobject.defineMethod _ _ _).defineMethod _ _ _).declare _ _).bind fun h₂ hmodule => ?_
  -- `Object`
  refine (objectOf_function _ _).bind fun base _ => ?_
  have hobject := hmodule.trans (nativeFunction_outside h₂ (some 3))
  refine ((((hobject.defineMethod _ _ _).defineMethod _ _ _).defineMethod _ _ _).declare _ _).bind
    fun h₃ hobject => ?_
  -- `Array`
  refine (hobject.defineConstructor 7 objectGetArrayPrototype_keeps).bind fun result harray => ?_
  obtain ⟨h₄, array, base', prototype⟩ := result
  refine ((harray.defineMethod _ _ _).declare _ _).bind fun h₅ harray => ?_
  -- `Function`
  refine (harray.defineConstructor 9 objectGetFunctionPrototype_keeps).bind
    fun result hfunction => ?_
  obtain ⟨h₆, function, base'', prototype'⟩ := result
  refine (hfunction.declare _ _).bind fun h₇ hfunction => ?_
  -- `Symbol`
  refine ((hfunction.defineMethod _ _ _).defineConstructor 11 objectGetSymbolPrototype_keeps).bind
    fun result hsymbol => ?_
  obtain ⟨h₈, symbol, base₃, prototype₃⟩ := result
  exact ((hsymbol.trans (symbolToPrimitive_outside h₈)).putProperty _ _ _).declare _ _

/-! ## The machine -/

theorem ok_of_unless {α : Type} {post post' : α → Prop} {x : Except Fault α}
    (hintact : Intact post x) (hunless : Unless post' x) : ∃ a, x = .ok a ∧ post a ∧ post' a := by
  cases x with
  | ok a => exact ⟨a, rfl, hintact, hunless⟩
  | error fault => exact absurd (hintact.symm.trans hunless) Bool.false_ne_true

/-- Freshly loaded modules and their scopes are as they were when the machine is made. -/
theorem vmInit_outside {modules : List JSModule} (hfresh : h.Fresh)
    (hmodules : ∀ m ∈ modules, m.Loaded h) (entry : ModuleRef) (scope : ScopeRef)
    (stack : ℕ → JSValue) :
    ∃ vm, vmInit { h with modules } entry scope stack = .ok vm ∧ vm.globalScope = h.scopes.length ∧
      vm.heap.modules = modules ∧ ∀ s < h.scopes.length, ∀ key, vm.heap.binding s key = none := by
  obtain ⟨heap, hcore, _, houtside⟩ :=
    ok_of_unless (coreInit_intact (hfresh.sound hmodules)) (coreInit_outside _ _)
  refine ⟨⟨entry, h.scopes.length, scope, ⟨0, 0, 0, stack⟩, heap⟩, ?_, rfl, houtside.modules,
    fun s hs key => ?_⟩
  · show (coreInit (scopeCreateScope { h with modules } none).1 h.scopes.length >>= _) = _
    rw [hcore]
    rfl
  · rw [houtside.binding s (Nat.ne_of_lt hs) key, binding_createScope]
    exact hfresh.binding s key

end AtomixJS
