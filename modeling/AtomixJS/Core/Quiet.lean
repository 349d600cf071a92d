import AtomixJS.Core.Resumption

/-!
# Instructions that leave the scopes alone

Most instructions neither declare nor assign a name.  `VM.Keeps` is what the handler of
such an instruction does to the state as long as it runs no getter or setter;
`execInst_quiet` says it of all of them at once.  A function declaration without a name
only adds the scope of the function (`instFuncDecl_keeps`).
-/

namespace AtomixJS

/-- The instruction declares and assigns no name, calls no function, and the next one
follows. -/
def InstOf.isQuiet {u i : Type} : InstOf u i → Bool
  | .nop | .ldInt _ | .ldDouble _ | .ldString _ | .ldUndf | .ldNull | .ldTrue | .ldFalse
  | .ldThis | .binary _ | .unary _ | .pop | .dup | .swap | .loadLocal _ | .loadArg _
  | .arrAlloc | .objAlloc | .objStore _ | .objLoad _ | .objCload | .objCstore
  | .exportAs _ => true
  | _ => false

@[simp] theorem InstOf.isQuiet_map {u i u' i' : Type} (f : u → u') (g : i → i')
    (inst : InstOf u i) : (inst.map f g).isQuiet = inst.isQuiet := by
  cases inst <;> rfl

theorem InstOf.opcode_ne_ret_of_isQuiet {u i : Type} {inst : InstOf u i} (h : inst.isQuiet = true) :
    inst.opcode ≠ .ret := by
  intro hret
  obtain rfl : inst = .ret := by
    cases inst <;> first | rfl | cases hret
  cases h

/-! ## Bindings of a chain -/

/-- From a scope upwards the bindings are the same. -/
def Heap.SameBindings (h h' : Heap) (scope : ScopeRef) : Prop :=
  ∀ refs, h.ScopeChain scope refs →
    h'.ScopeChain scope refs ∧ ∀ ref ∈ refs, h'.binding ref = h.binding ref

namespace Heap.SameBindings

variable {h h' h'' : Heap} {scope : ScopeRef}

theorem refl (h : Heap) (scope : ScopeRef) : h.SameBindings h scope :=
  fun _ hchain => ⟨hchain, fun _ _ => rfl⟩

theorem trans (hfirst : h.SameBindings h' scope) (hsecond : h'.SameBindings h'' scope) :
    h.SameBindings h'' scope := by
  intro refs hchain
  obtain ⟨hchain', hsame⟩ := hfirst refs hchain
  obtain ⟨hchain'', hsame'⟩ := hsecond refs hchain'
  exact ⟨hchain'', fun ref href => (hsame' ref href).trans (hsame ref href)⟩

/-- New scopes change nothing in the old ones. -/
theorem of_extended (hextends : h.scopes <+: h'.scopes) : h.SameBindings h' scope := by
  obtain ⟨new, hnew⟩ := hextends
  have hold : ∀ ref < h.scopes.length, h'.scopes[ref]? = h.scopes[ref]? := by
    intro ref hlt
    rw [← hnew, List.getElem?_append_left hlt]
  intro refs hchain
  refine ⟨Chain.Linked.congr hchain fun s hs node hnode => ⟨node, ?_, rfl⟩, fun ref href => ?_⟩
  · rw [hold s (Chain.Linked.lt_length hchain hs)]
    exact hnode
  · funext key
    unfold Heap.binding
    rw [hold ref (Chain.Linked.lt_length hchain href)]

end Heap.SameBindings

/-! ## Handlers -/

/-- The handler stays in its place and keeps the scopes and the modules. -/
structure VM.Keeps (vm vm' : VM) : Prop where
  place : vm.SamePlace vm'
  scopes : vm'.heap.scopes = vm.heap.scopes
  modules : vm'.heap.modules = vm.heap.modules

variable {host : Host} {vm vm' vm'' : VM} {v : JSValue}

namespace VM.Keeps

theorem refl (vm : VM) : vm.Keeps vm := ⟨.refl vm, rfl, rfl⟩

theorem trans (h : vm.Keeps vm') (h' : vm'.Keeps vm'') : vm.Keeps vm'' :=
  ⟨h.place.trans h'.place, h'.scopes.trans h.scopes, h'.modules.trans h.modules⟩

theorem drop (n : ℕ) : vm.Keeps (vm.drop n) := ⟨⟨rfl, rfl, rfl⟩, rfl, rfl⟩

theorem setSlot {i : ℕ} (h : vm.setSlot i v = .ok vm') : vm.Keeps vm' := by
  simp only [VM.setSlot, Fallible.require_eq_ok, Except.ok.injEq] at h
  obtain ⟨_, rfl⟩ := h
  exact ⟨⟨rfl, rfl, rfl⟩, rfl, rfl⟩

theorem append (h : vm.append v = .ok vm') : vm.Keeps vm' := by
  simp only [VM.append, Fallible.bind_eq_ok, Fallible.pure_eq_ok] at h
  obtain ⟨mid, hslot, rfl⟩ := h
  exact (setSlot hslot).trans ⟨⟨rfl, rfl, rfl⟩, rfl, rfl⟩

theorem push (h : vm.push v = .ok vm') : vm.Keeps vm' := by
  simp only [VM.push, Fallible.bind_eq_ok] at h
  obtain ⟨_, _, happend⟩ := h
  exact append happend

theorem heap {heap : Heap} (hscopes : heap.scopes = vm.heap.scopes)
    (hmodules : heap.modules = vm.heap.modules) : vm.Keeps { vm with heap } :=
  ⟨⟨rfl, rfl, rfl⟩, hscopes, hmodules⟩

/-- A push after work on the objects of the heap. -/
theorem appendIn {heap : Heap} (hscopes : heap.scopes = vm.heap.scopes)
    (hmodules : heap.modules = vm.heap.modules)
    (h : VM.append { vm with heap } v = .ok vm') : vm.Keeps vm' :=
  (VM.Keeps.heap hscopes hmodules).trans (append h)

theorem sameBindings (h : vm.Keeps vm') (scope : ScopeRef) :
    vm.heap.SameBindings vm'.heap scope := .of_extended (h.scopes ▸ List.prefix_rfl)

end VM.Keeps

theorem binaryHandler_keeps {shortcut : JSValue → JSValue → Option JSValue}
    {value : JSValue → JSValue → Except Fault JSValue}
    (h : binaryHandler shortcut value vm = .ok vm') : vm.Keeps vm' := by
  simp only [binaryHandler, Fallible.bind_eq_ok] at h
  obtain ⟨_, _, left, _, right, _, h⟩ := h
  split at h
  · exact .setSlot h
  · obtain ⟨result, _, hset⟩ := Fallible.bind_eq_ok.mp h
    exact (VM.Keeps.drop 1).trans (.setSlot hset)

theorem unaryHandler_keeps {value : JSValue → Except Fault JSValue}
    (h : unaryHandler value vm = .ok vm') : vm.Keeps vm' := by
  simp only [unaryHandler, Fallible.bind_eq_ok] at h
  obtain ⟨_, _, right, _, result, _, hset⟩ := h
  exact .setSlot hset

theorem instSwap_keeps (h : instSwap vm = .ok vm') : vm.Keeps vm' := by
  simp only [instSwap, Fallible.bind_eq_ok] at h
  obtain ⟨_, _, left, _, right, _, mid, hfirst, hsecond⟩ := h
  exact (VM.Keeps.setSlot hfirst).trans (.setSlot hsecond)

theorem instLoadLocal_keeps {operand : UInt16} (h : instLoadLocal operand vm = .ok vm') :
    vm.Keeps vm' := by
  simp only [instLoadLocal, Fallible.bind_eq_ok, Fallible.guard_eq_ok] at h
  obtain ⟨_, _, key, _, found, _, _, value, _, happend⟩ := h
  exact .append happend

theorem instLoadArg_keeps {operand : UInt16} (h : instLoadArg operand vm = .ok vm') :
    vm.Keeps vm' := by
  unfold instLoadArg at h
  split at h
  · exact .append h
  · obtain ⟨value, _, happend⟩ := Fallible.bind_eq_ok.mp h
    exact .append happend

/-! ## Objects -/

theorem objectGetObjectPrototype_keeps (heap : Heap) :
    (objectGetObjectPrototype heap).1.scopes = heap.scopes ∧
      (objectGetObjectPrototype heap).1.modules = heap.modules := by
  unfold objectGetObjectPrototype
  split <;> exact ⟨rfl, rfl⟩

theorem objectGetArrayPrototype_keeps (heap : Heap) :
    (objectGetArrayPrototype heap).1.scopes = heap.scopes ∧
      (objectGetArrayPrototype heap).1.modules = heap.modules := by
  unfold objectGetArrayPrototype
  split
  · exact ⟨rfl, rfl⟩
  · exact objectGetObjectPrototype_keeps heap

theorem objectGetFunctionPrototype_keeps (heap : Heap) :
    (objectGetFunctionPrototype heap).1.scopes = heap.scopes ∧
      (objectGetFunctionPrototype heap).1.modules = heap.modules := by
  unfold objectGetFunctionPrototype
  split
  · exact ⟨rfl, rfl⟩
  · exact objectGetObjectPrototype_keeps heap

theorem instObjAlloc_keeps (h : instObjAlloc vm = .ok vm') : vm.Keeps vm' := by
  simp only [instObjAlloc, Fallible.bind_eq_ok] at h
  obtain ⟨_, _, happend⟩ := h
  obtain ⟨hscopes, hmodules⟩ := objectGetObjectPrototype_keeps vm.heap
  refine .appendIn ?_ ?_ happend
  · exact hscopes
  · exact hmodules

theorem instArrAlloc_keeps (h : instArrAlloc vm = .ok vm') : vm.Keeps vm' := by
  simp only [instArrAlloc, Fallible.bind_eq_ok] at h
  obtain ⟨_, _, happend⟩ := h
  obtain ⟨hscopes, hmodules⟩ := objectGetArrayPrototype_keeps vm.heap
  refine .appendIn ?_ ?_ happend
  · exact hscopes
  · exact hmodules

theorem objectWriteProperty_keeps {heap heap' : Heap} {obj : ObjectRef} {key : PropertyKey}
    (h : objectWriteProperty heap obj key v = .ok (.stored heap')) :
    heap'.scopes = heap.scopes ∧ heap'.modules = heap.modules := by
  unfold objectWriteProperty at h
  split at h
  · cases h
  · split at h
    · cases h
    · cases h
    · cases h
      exact ⟨rfl, rfl⟩

/-! ## Quiet handlers -/

/-- The C code keeps scopes and modules if it ends at once, and ends in the same place if
it runs a getter or setter before. -/
def Prog.Quiet (vm : VM) : Prog → Prop
  | .done vm' => vm.Keeps vm'
  | prog => prog.Ends vm.SamePlace

namespace Prog.Quiet

theorem ends {prog : Prog} (h : prog.Quiet vm) : prog.Ends vm.SamePlace := by
  cases prog with
  | done vm' => exact h.place
  | _ => exact h

theorem after {α : Type} {result : Except Fault α} {next : α → Prog}
    (h : ∀ a, result = .ok a → (next a).Quiet vm) : (Prog.after result next).Quiet vm := by
  cases hresult : result with
  | error fault => trivial
  | ok a => exact h a hresult

theorem ofExcept {result : Except Fault VM} (h : ∀ vm', result = .ok vm' → vm.Keeps vm') :
    (Prog.ofExcept result).Quiet vm := after h

/-- A call does not end at once. -/
theorem apiCallFunction {function : FunctionRef} {this : JSValue} {args : List JSValue}
    {next : VM → JSValue → Prog}
    (h : ∀ vm'' value, vm'.SamePlace vm'' → (next vm'' value).Ends vm.SamePlace) :
    (apiCallFunction host vm' function this args next).Quiet vm := by
  have hends : (AtomixJS.apiCallFunction host vm' function this args next).Ends vm.SamePlace :=
    ends_apiCallFunction h
  unfold AtomixJS.apiCallFunction at hends ⊢
  split
  · trivial
  · trivial
  · next hfunction =>
      rw [hfunction] at hends
      exact hends
  · next hfunction =>
      simp only [hfunction] at hends
      cases hpushed : (do (← pushArgs vm' args).append this) with
      | error fault => trivial
      | ok pushed =>
          rw [hpushed] at hends
          exact hends

theorem objectGetProperty {obj : ObjectRef} {key : PropertyKey} {next : VM → JSValue → Prog}
    (hvalue : ∀ value, (next vm' value).Quiet vm)
    (hgetter : ∀ vm'' value, vm'.SamePlace vm'' → (next vm'' value).Ends vm.SamePlace) :
    (objectGetProperty host vm' obj key next).Quiet vm := by
  refine after fun read _ => ?_
  cases read with
  | value value => exact hvalue value
  | getter function this => exact apiCallFunction hgetter

theorem objectSetProperty {obj : ObjectRef} {key : PropertyKey} (h : vm.Keeps vm') :
    (objectSetProperty host vm' obj key v .done).Quiet vm := by
  refine after fun write hwrite => ?_
  cases write with
  | stored heap =>
      obtain ⟨hscopes, hmodules⟩ := objectWriteProperty_keeps hwrite
      exact h.trans (.heap hscopes hmodules)
  | setter function this =>
      exact apiCallFunction fun vm'' _ hsame => h.place.trans hsame

theorem loadIntoTop {obj : ObjectRef} {key : PropertyKey} (h : vm.Keeps vm') :
    (loadIntoTop host vm' obj key).Quiet vm := by
  unfold AtomixJS.loadIntoTop
  refine objectGetProperty (fun value => ?_) fun vm'' value hsame => ?_
  · exact ofExcept fun _ hset => h.trans (.setSlot hset)
  · exact .after fun _ hset => (h.place.trans hsame).trans (.setSlot hset)

end Prog.Quiet

/-- What a quiet instruction does. -/
theorem execInst_quiet {inst : Inst} (h : inst.isQuiet = true) :
    (execInst host inst vm).Quiet vm := by
  cases inst with
  | nop => exact .refl vm
  | ldInt | ldDouble | ldUndf | ldNull | ldTrue | ldFalse =>
      exact .ofExcept fun _ hpush => .push hpush
  | ldString operand =>
      refine .ofExcept fun vm' hrun => ?_
      simp only [instLdString, Fallible.bind_eq_ok] at hrun
      obtain ⟨_, _, key, _, happend⟩ := hrun
      exact .append happend
  | ldThis =>
      refine .ofExcept fun vm' hrun => ?_
      simp only [instLdThis, Fallible.bind_eq_ok] at hrun
      obtain ⟨_, _, this, _, happend⟩ := hrun
      exact .append happend
  | binary op => exact .ofExcept fun _ hrun => binaryHandler_keeps hrun
  | unary op => exact .ofExcept fun _ hrun => unaryHandler_keeps hrun
  | pop =>
      refine .ofExcept fun vm' hrun => ?_
      simp only [instPop, Fallible.bind_eq_ok, Fallible.pure_eq_ok] at hrun
      obtain ⟨_, _, rfl⟩ := hrun
      exact .drop 1
  | dup =>
      refine .ofExcept fun vm' hrun => ?_
      simp only [instDup, Fallible.bind_eq_ok] at hrun
      obtain ⟨_, _, _, _, value, _, happend⟩ := hrun
      exact .append happend
  | swap => exact .ofExcept fun _ hrun => instSwap_keeps hrun
  | loadLocal operand => exact .ofExcept fun _ hrun => instLoadLocal_keeps hrun
  | loadArg operand => exact .ofExcept fun _ hrun => instLoadArg_keeps hrun
  | arrAlloc => exact .ofExcept fun _ hrun => instArrAlloc_keeps hrun
  | objAlloc => exact .ofExcept fun _ hrun => instObjAlloc_keeps hrun
  | objStore operand =>
      refine .after fun loaded hrun => ?_
      obtain ⟨vm', obj, key, value⟩ := loaded
      simp only [Fallible.bind_eq_ok, Fallible.pure_eq_ok, Prod.mk.injEq] at hrun
      obtain ⟨_, _, _, _, _, _, _, _, _, _, rfl, _⟩ := hrun
      exact .objectSetProperty (.drop 2)
  | objLoad operand => exact .after fun _ _ => .loadIntoTop (.refl vm)
  | objCload =>
      refine .after fun loaded hrun => ?_
      obtain ⟨vm', obj, key⟩ := loaded
      simp only [Fallible.bind_eq_ok, Fallible.pure_eq_ok, Prod.mk.injEq] at hrun
      obtain ⟨_, _, _, _, _, _, _, _, _, _, rfl, _⟩ := hrun
      exact .loadIntoTop (.drop 1)
  | objCstore =>
      refine .after fun loaded hrun => ?_
      obtain ⟨vm', obj, key, value⟩ := loaded
      simp only [Fallible.bind_eq_ok, Fallible.pure_eq_ok, Prod.mk.injEq] at hrun
      obtain ⟨_, _, _, _, _, _, _, _, _, _, _, _, rfl, _⟩ := hrun
      exact .objectSetProperty (.drop 3)
  | exportAs operand =>
      refine .after fun loaded hrun => ?_
      obtain ⟨vm', obj, key, value⟩ := loaded
      simp only [Fallible.bind_eq_ok, Fallible.pure_eq_ok, Prod.mk.injEq] at hrun
      obtain ⟨_, _, _, _, _, _, _, _, rfl, _⟩ := hrun
      exact .objectSetProperty (.drop 1)
  | _ => cases h

/-! ## Function declarations -/

theorem functionCreatePrototype_keeps (heap : Heap) (base : ObjectRef) (function : FunctionRef) :
    (functionCreatePrototype heap base function).scopes = heap.scopes ∧
      (functionCreatePrototype heap base function).modules = heap.modules :=
  objectGetObjectPrototype_keeps heap

/-- A new function comes with a new scope. -/
theorem functionCreateFunction_keeps (heap : Heap) (parentScope : ScopeRef) (module : ModuleRef)
    (start stop : ℕ) :
    (functionCreateFunction heap parentScope module start stop).1.scopes =
        (scopeCreateScope heap (some parentScope)).1.scopes ∧
      (functionCreateFunction heap parentScope module start stop).1.modules = heap.modules := by
  obtain ⟨hscopes, hmodules⟩ :=
    objectGetFunctionPrototype_keeps (scopeCreateScope heap (some parentScope)).1
  unfold functionCreateFunction
  constructor
  · exact (functionCreatePrototype_keeps _ _ _).1.trans hscopes
  · exact (functionCreatePrototype_keeps _ _ _).2.trans hmodules

/-- A function declaration without a name adds a scope and goes on behind the function. -/
theorem instFuncDecl_keeps {size : UInt16} (h : instFuncDecl none size vm = .ok vm') :
    vm'.module = vm.module ∧ vm'.scope = vm.scope ∧
      vm'.stats.instructionCounter = vm.stats.instructionCounter + size.toNat ∧
      vm.heap.scopes <+: vm'.heap.scopes ∧ vm'.heap.modules = vm.heap.modules := by
  simp only [instFuncDecl, Fallible.bind_eq_ok, Fallible.pure_eq_ok] at h
  obtain ⟨_, _, heap, rfl, mid, happend, rfl⟩ := h
  have hkeeps := VM.Keeps.append happend
  obtain ⟨hscopes, hmodules⟩ := functionCreateFunction_keeps vm.heap vm.scope vm.module
    vm.stats.instructionCounter (vm.stats.instructionCounter + size.toNat)
  refine ⟨hkeeps.place.module, hkeeps.place.scope, rfl, ?_, hkeeps.modules.trans hmodules⟩
  show vm.heap.scopes <+: mid.heap.scopes
  rw [hkeeps.scopes]
  exact hscopes ▸ List.prefix_append _ _

/-- A function declaration with a name: the function is declared and pushed. -/
theorem instFuncDecl_named {name : UInt16} (size : UInt16) {key : CString}
    (hroom : vm.stats.stackCounter < stackSize) (hscope : vm.scope < vm.heap.scopes.length)
    (hkey : vm.loadStr name = .ok key) :
    ∃ vm' function, instFuncDecl (some name) size vm = .ok vm' ∧
      vm'.module = vm.module ∧ vm'.scope = vm.scope ∧
      vm'.stats.instructionCounter = vm.stats.instructionCounter + size.toNat ∧
      vm'.operands = .func function :: vm.operands ∧
      vm'.heap = (functionCreateFunction vm.heap vm.scope vm.module vm.stats.instructionCounter
        (vm.stats.instructionCounter + size.toNat)).1.putBinding vm.scope key (.func function) := by
  set created := functionCreateFunction vm.heap vm.scope vm.module vm.stats.instructionCounter
    (vm.stats.instructionCounter + size.toNat) with hcreated
  have hscopes := (functionCreateFunction_keeps vm.heap vm.scope vm.module
    vm.stats.instructionCounter (vm.stats.instructionCounter + size.toNat)).1
  rw [← hcreated] at hscopes
  have hlt : vm.scope < created.1.scopes.length := by
    rw [hscopes]
    simp only [scopeCreateScope, List.length_append, List.length_singleton]
    exact Nat.lt_succ_of_lt hscope
  have hdeclare : scopeDeclare created.1 vm.scope key (.func created.2) =
      .ok (created.1.putBinding vm.scope key (.func created.2)) := if_pos hlt
  have hroom' : (VM.stats { vm with
      heap := created.1.putBinding vm.scope key (.func created.2) }).stackCounter < stackSize := hroom
  obtain ⟨mid, happend, hrestacked⟩ := VM.append_restacked hroom' (.func created.2)
  have hfree : vm.room = .ok () := if_neg (by omega)
  refine ⟨mid.setCounter (vm.stats.instructionCounter + size.toNat), created.2, ?_, ?_, ?_, rfl,
    hrestacked.operands, ?_⟩
  · rw [instFuncDecl, hfree]
    simp only [Fallible.ok_bind, hkey, ← hcreated, hdeclare, happend]
    rfl
  · show mid.module = vm.module
    rw [hrestacked.rest]
  · show mid.scope = vm.scope
    rw [hrestacked.rest]
  · show mid.heap = _
    rw [hrestacked.rest]

/-- A function declaration with a name declares it. -/
theorem instFuncDecl_declares {name : UInt16} (size : UInt16) {key : CString}
    (hroom : vm.stats.stackCounter < stackSize) (hscope : vm.scope < vm.heap.scopes.length)
    (hkey : vm.loadStr name = .ok key) :
    ∃ vm' function, instFuncDecl (some name) size vm = .ok vm' ∧
      vm'.stats.instructionCounter = vm.stats.instructionCounter + size.toNat ∧
      vm'.heap.binding vm.scope key = some (.func function) := by
  obtain ⟨vm', function, hrun, _, _, hcounter, _, hheap⟩ :=
    instFuncDecl_named size hroom hscope hkey
  refine ⟨vm', function, hrun, hcounter, ?_⟩
  have hlt := (functionCreateFunction_keeps vm.heap vm.scope vm.module
    vm.stats.instructionCounter (vm.stats.instructionCounter + size.toNat)).1
  rw [hheap, binding_putBinding ?_, if_pos ⟨rfl, rfl⟩]
  rw [hlt]
  simp only [scopeCreateScope, List.length_append, List.length_singleton]
  exact Nat.lt_succ_of_lt hscope

/-! ## New objects -/

variable {objects : List JSObject} {heap : Heap}

/-- The objects are in the heap as they were, and others may be behind them. -/
theorem putProperty_objects {obj : ObjectRef} {key : PropertyKey} (h : objects <+: heap.objects)
    (hle : objects.length ≤ obj) : objects <+: (heap.putProperty obj key v).objects := by
  rw [List.prefix_iff_getElem?] at h ⊢
  intro i hi
  have hne : obj ≠ i := Nat.ne_of_gt (Nat.lt_of_lt_of_le hi hle)
  simp only [Heap.putProperty, List.getElem?_modify, if_neg hne, h i hi, Option.map_eq_map,
    Option.map_some]

theorem objectGetObjectPrototype_objects (heap : Heap) :
    heap.objects <+: (objectGetObjectPrototype heap).1.objects := by
  unfold objectGetObjectPrototype
  split
  · exact List.prefix_rfl
  · exact List.prefix_append _ _

theorem objectGetFunctionPrototype_objects (heap : Heap) :
    heap.objects <+: (objectGetFunctionPrototype heap).1.objects := by
  unfold objectGetFunctionPrototype
  split
  · exact List.prefix_rfl
  · exact (objectGetObjectPrototype_objects heap).trans (List.prefix_append _ _)

theorem functionCreatePrototype_objects {base : ObjectRef} (h : objects <+: heap.objects)
    (hle : objects.length ≤ base) (function : FunctionRef) :
    objects <+: (functionCreatePrototype heap base function).objects := by
  have hroot := h.trans (objectGetObjectPrototype_objects heap)
  refine putProperty_objects (putProperty_objects (hroot.trans (List.prefix_append _ _)) ?_) hle
  exact hroot.length_le

theorem functionCreateFunction_objects (heap : Heap) (parentScope : ScopeRef) (module : ModuleRef)
    (start stop : ℕ) :
    heap.objects <+:
      (functionCreateFunction heap parentScope module start stop).1.objects := by
  have hroot := objectGetFunctionPrototype_objects (scopeCreateScope heap (some parentScope)).1
  unfold functionCreateFunction
  exact functionCreatePrototype_objects (hroot.trans (List.prefix_append _ _)) hroot.length_le _

end AtomixJS
