import AtomixJS.Compiler.Codec
import AtomixJS.Compiler.Emission
import AtomixJS.Compiler.Reference
import AtomixJS.Core.Effects
import AtomixJS.Core.Machine

/-!
# Executing generated code

`Stands` relates the machine to the reference semantics between two
instructions: where the counter is, what the operands are, and that the scope
chain holds the bindings of the environment.  `Holds` leaves the bindings out.  For each instruction that the core
needs, one lemma says how `Stands` changes.

A `Target` is the code of a program in a module of the machine.  A region of it
is followed through all later contexts by `Placed`.
-/

namespace AtomixJS.Compiler

open Simulation (Simulates Outcome)

/-! ## Bindings -/

/-- A scope of the heap has the bindings of a scope of the environment. -/
def Binds (heap : Heap) (ref : ScopeRef) (scope : JSString → Option JSValue) : Prop :=
  ∀ key : CString, heap.binding ref key = scope (key.map (·.toUInt16))

/-- A scope chain has the bindings of an environment. -/
def Matches (heap : Heap) (refs : List ScopeRef) (env : Env) : Prop :=
  List.Forall₂ (Binds heap) refs env

variable {heap : Heap} {ref : ScopeRef} {refs : List ScopeRef} {env env' : Env} {key : CString}
  {name : JSString} {v : JSValue} {scope : JSString → Option JSValue}

theorem Matches.lookup (h : Matches heap refs env) (hkey : key.map (·.toUInt16) = name) :
    refs.findSome? (heap.binding · key) = env.lookup name := by
  subst hkey
  induction h with
  | nil => rfl
  | @cons ref scope refs env hbinds _ ih =>
    unfold Env.lookup
    rw [List.findSome?_cons, List.findSome?_cons, hbinds key]
    cases scope (key.map (·.toUInt16)) with
    | none => exact ih
    | some v => rfl

theorem toUInt16_inj {key key' : CString}
    (h : key.map (·.toUInt16) = key'.map (·.toUInt16)) : key = key' := by
  refine List.map_injective_iff.mpr (fun a b hab => ?_) h
  rw [← UInt8.toNat_inj]
  have hnat := congrArg UInt16.toNat hab
  simpa using hnat

/-- Writing the binding of a key is updating the name. -/
theorem Binds.put (h : Binds heap ref scope) (hlt : ref < heap.scopes.length)
    (hkey : key.map (·.toUInt16) = name) :
    Binds (heap.putBinding ref key v) ref (Function.update scope name (some v)) := by
  intro key'
  rw [binding_putBinding hlt]
  by_cases hsame : key' = key
  · subst hsame
    rw [if_pos ⟨rfl, rfl⟩, hkey, Function.update_self]
  · rw [if_neg fun h => hsame h.2, h key']
    rw [Function.update_of_ne]
    rw [← hkey]
    exact fun heq => hsame (toUInt16_inj heq)

theorem Binds.put_ne {ref' : ScopeRef} (h : Binds heap ref scope) (hlt : ref' < heap.scopes.length)
    (hne : ref ≠ ref') : Binds (heap.putBinding ref' key v) ref scope := by
  intro key'
  rw [binding_putBinding hlt, if_neg fun h => hne h.1]
  exact h key'

theorem Matches.put_not_mem {ref' : ScopeRef} (h : Matches heap refs env)
    (hlt : ref' < heap.scopes.length) (hnot : ref' ∉ refs) :
    Matches (heap.putBinding ref' key v) refs env := by
  induction h with
  | nil => exact .nil
  | cons hbinds _ ih =>
    rw [List.mem_cons, not_or] at hnot
    exact .cons (hbinds.put_ne hlt (Ne.symm hnot.1)) (ih hnot.2)

theorem Matches.declare (h : Matches heap (ref :: refs) env) (hnodup : (ref :: refs).Nodup)
    (hlt : ref < heap.scopes.length) (hkey : key.map (·.toUInt16) = name)
    (hdeclare : env.declare name v = some env') :
    Matches (heap.putBinding ref key v) (ref :: refs) env' := by
  cases h with
  | cons hbinds hrest =>
    obtain rfl := Option.some.inj hdeclare
    exact .cons (hbinds.put hlt hkey) (Matches.put_not_mem hrest hlt (List.nodup_cons.mp hnodup).1)

theorem Matches.assign (h : Matches heap refs env) (hnodup : refs.Nodup)
    (hlt : ∀ r ∈ refs, r < heap.scopes.length) (hkey : key.map (·.toUInt16) = name)
    (hassign : env.assign name v = some env') :
    ∃ r, refs.find? (fun r => (heap.binding r key).isSome) = some r ∧
      Matches (heap.putBinding r key v) refs env' := by
  induction h generalizing env' with
  | nil => exact nomatch hassign
  | @cons ref scope refs env hbinds hrest ih =>
    obtain ⟨hnot, hnodup'⟩ := List.nodup_cons.mp hnodup
    have hbinding : heap.binding ref key = scope name := hkey ▸ hbinds key
    have hreflt := hlt ref List.mem_cons_self
    unfold Env.assign at hassign
    by_cases hsome : (scope name).isSome = true
    · rw [if_pos hsome] at hassign
      obtain rfl := Option.some.inj hassign
      refine ⟨ref, ?_, ?_⟩
      · rw [List.find?_cons, hbinding, hsome]
      · exact .cons (hbinds.put hreflt hkey) (Matches.put_not_mem hrest hreflt hnot)
    · rw [if_neg hsome, Option.map_eq_some_iff] at hassign
      obtain ⟨env'', hassign, rfl⟩ := hassign
      obtain ⟨r, hfind, hmatches⟩ :=
        ih hnodup' (fun r hr => hlt r (List.mem_cons_of_mem _ hr)) hassign
      have hr := List.mem_of_find?_eq_some hfind
      refine ⟨r, ?_, ?_⟩
      · rw [List.find?_cons, hbinding, Bool.eq_false_iff.mpr hsome]
        exact hfind
      · refine .cons (hbinds.put_ne (hlt r (List.mem_cons_of_mem _ hr)) ?_) hmatches
        rintro rfl
        exact hnot hr

/-- A new scope has no bindings, and the others keep theirs. -/
theorem Matches.create {parent : Option ScopeRef} (h : Matches heap refs env)
    (hlt : ∀ r ∈ refs, r < heap.scopes.length) :
    Matches (scopeCreateScope heap parent).1 (heap.scopes.length :: refs) env.enter := by
  have hold : ∀ r, r < heap.scopes.length → ∀ key,
      (scopeCreateScope heap parent).1.binding r key = heap.binding r key := by
    intro r hr key
    simp only [Heap.binding, scopeCreateScope, List.getElem?_append_left hr]
  refine .cons (fun key => ?_) ?_
  · simp [Heap.binding, scopeCreateScope]
  · induction h with
    | nil => exact .nil
    | @cons ref scope refs env hbinds _ ih =>
      refine .cons (fun key => ?_) (ih fun r hr => hlt r (List.mem_cons_of_mem _ hr))
      rw [hold ref (hlt ref List.mem_cons_self)]
      exact hbinds key

theorem scopeCreateScope_chain {scope : ScopeRef} (h : heap.ScopeChain scope refs) :
    (scopeCreateScope heap (some scope)).1.ScopeChain heap.scopes.length
      (heap.scopes.length :: refs) := by
  have hnew : (scopeCreateScope heap (some scope)).1.scopes[heap.scopes.length]? =
      some ⟨some scope, dictCreateDict scopeBucketSize scopeBucketSize_pos⟩ := by
    simp [scopeCreateScope]
  refine .next hnew rfl (Chain.Linked.congr h fun s hs node hnode => ⟨node, ?_, rfl⟩)
  simp only [scopeCreateScope]
  rw [List.getElem?_append_left (h.lt_length hs)]
  exact hnode

/-! ## Generated code in a module -/

/-- The code of a program as a module of the machine holds it. -/
structure Target where
  module : JSModule
  strings : List JSString
  code : List Instruction
  instructions_eq : module.dataSection.instructions = code.map Instruction.loaded

/-- Operands reach every instruction and every string, and the strings were loaded
as they are. -/
structure Target.Loads (target : Target) : Prop where
  code_lt : target.code.length < 2 ^ 16
  strings_lt : target.strings.length < 2 ^ 16
  strings_eq : ∀ (i : ℕ) (s : JSString), target.strings[i]? = some s →
    ∃ loaded, stringTableLoadStr target.module.stringTable (UInt32.ofNat i) = .ok loaded ∧
      loaded.map (·.toUInt16) = s

/-- The name behind an operand.  Of the module only the string table matters. -/
theorem Target.Loads.loadName {target : Target} (h : target.Loads) {vm : VM} {module : JSModule}
    (hmodule : vm.heap.modules[vm.module]? = some module)
    (hstrings : module.stringTable = target.module.stringTable) {idx : ℕ} {name : JSString}
    (hname : target.strings[idx]? = some name) :
    ∃ key, vm.loadStr (UInt16.ofNat idx) = .ok key ∧ key.map (·.toUInt16) = name := by
  obtain ⟨key, hload, hkey⟩ := h.strings_eq idx name hname
  have hidx : idx < 2 ^ 16 :=
    Nat.lt_trans (List.getElem?_eq_some_iff.mp hname).1 h.strings_lt
  have hword : (UInt16.ofNat idx).toUInt32 = UInt32.ofNat idx := by
    rw [← UInt32.toNat_inj]
    simp only [UInt16.toNat_toUInt32, UInt16.toNat_ofNat', UInt32.toNat_ofNat']
    rw [Nat.mod_eq_of_lt hidx, Nat.mod_eq_of_lt (Nat.lt_trans hidx (by decide))]
  refine ⟨key, ?_, hkey⟩
  have hcurrent : vm.currentModule = .ok module := by
    rw [VM.currentModule, hmodule]
  rw [VM.loadStr, hcurrent, Fallible.ok_bind, hword, hstrings]
  exact hload

theorem Target.Loads.loadStr {target : Target} (h : target.Loads) {vm : VM}
    (hmodule : vm.heap.modules[vm.module]? = some target.module) {idx : ℕ} {name : JSString}
    (hname : target.strings[idx]? = some name) :
    ∃ key, vm.loadStr (UInt16.ofNat idx) = .ok key ∧ key.map (·.toUInt16) = name :=
  h.loadName hmodule rfl hname

/-- The machine executes the code of a program: where it is, and what its operands
are. -/
structure Holds (target : Target) (vm : VM) (pc : ℕ) (ops : List JSValue) : Prop where
  code : ∃ module, vm.heap.modules[vm.module]? = some module ∧
    module.dataSection.instructions = target.code.map Instruction.loaded
  counter : vm.stats.instructionCounter = pc
  operands : vm.operands = ops
  size : ops.length ≤ stackSize

/-- The same, with what is bound in the scope chain. -/
structure Stands (target : Target) (vm : VM) (pc : ℕ) (ops : List JSValue)
    (refs : List ScopeRef) (env : Env) : Prop where
  loads : target.Loads
  module_eq : vm.heap.modules[vm.module]? = some target.module
  counter : vm.stats.instructionCounter = pc
  operands : vm.operands = ops
  size : ops.length ≤ stackSize
  chain : vm.heap.ScopeChain vm.scope refs
  bindings : Matches vm.heap refs env

variable {target : Target} {vm vm' : VM} {pc : ℕ} {ops ops' : List JSValue}

namespace Stands

theorem holds (h : Stands target vm pc ops refs env) : Holds target vm pc ops :=
  ⟨⟨target.module, h.module_eq, target.instructions_eq⟩, h.counter, h.operands, h.size⟩

theorem setCounter (h : Stands target vm pc ops refs env) (pc' : ℕ) :
    Stands target (vm.setCounter pc') pc' ops refs env := { h with counter := rfl }

theorem restack (h : Stands target vm pc ops refs env) (hrestacked : VM.Restacked vm vm' ops')
    (hsize : ops'.length ≤ stackSize) : Stands target vm' pc ops' refs env := by
  obtain ⟨hoperands, hrest, hcounter, _⟩ := hrestacked
  have hheap : vm'.heap = vm.heap := by rw [hrest]
  refine ⟨h.loads, ?_, hcounter.trans h.counter, hoperands, hsize, ?_, hheap ▸ h.bindings⟩
  · rw [hrest]
    exact h.module_eq
  · rw [hrest]
    exact h.chain

/-- The heap may change in its scopes. -/
theorem setHeap {heap : Heap} (h : Stands target vm pc ops refs env)
    (hmodules : heap.modules = vm.heap.modules) (hchain : heap.ScopeChain vm.scope refs)
    (hbindings : Matches heap refs env') : Stands target { vm with heap } pc ops refs env' :=
  { h with
    module_eq := by
      show heap.modules[vm.module]? = _
      rw [hmodules]
      exact h.module_eq
    chain := hchain
    bindings := hbindings }

theorem stackCounter (h : Stands target vm pc ops refs env) :
    vm.stats.stackCounter = ops.length := VM.counter_of_operands h.operands

theorem counter_le (h : Stands target vm pc ops refs env) : vm.stats.stackCounter ≤ stackSize :=
  h.stackCounter ▸ h.size

theorem loadStr {idx : ℕ} (h : Stands target vm pc ops refs env)
    (hname : target.strings[idx]? = some name) :
    ∃ key, vm.loadStr (UInt16.ofNat idx) = .ok key ∧ key.map (·.toUInt16) = name :=
  h.loads.loadStr h.module_eq hname

/-- What `push` and `append` do. -/
theorem append_heap (h : Stands target vm pc ops refs env) (hroom : ops.length < stackSize)
    (v : JSValue) : ∃ vm', vm.append v = .ok vm' ∧ vm'.heap = vm.heap ∧
      Stands target vm' pc (v :: ops) refs env := by
  obtain ⟨vm', hrun, hrestacked⟩ := VM.append_restacked (h.stackCounter ▸ hroom) v
  rw [h.operands] at hrestacked
  refine ⟨vm', hrun, ?_, h.restack hrestacked hroom⟩
  rw [hrestacked.rest]

theorem append (h : Stands target vm pc ops refs env) (hroom : ops.length < stackSize)
    (v : JSValue) : ∃ vm', vm.append v = .ok vm' ∧ Stands target vm' pc (v :: ops) refs env := by
  obtain ⟨vm', hrun, _, hstands⟩ := h.append_heap hroom v
  exact ⟨vm', hrun, hstands⟩

theorem push (h : Stands target vm pc ops refs env) (hroom : ops.length < stackSize)
    (v : JSValue) : ∃ vm', vm.push v = .ok vm' ∧ Stands target vm' pc (v :: ops) refs env := by
  obtain ⟨vm', hrun, hstands⟩ := h.append hroom v
  refine ⟨vm', ?_, hstands⟩
  have hfree : vm.room = .ok () := if_neg (by rw [h.stackCounter]; omega)
  rw [VM.push, hfree]
  exact hrun

/-- The operand stack without its top. -/
theorem drop (h : Stands target vm pc (v :: ops) refs env) :
    Stands target (vm.drop 1) pc ops refs env :=
  h.restack (VM.drop_restacked [v] h.operands) (Nat.le_of_succ_le h.size)

theorem dup (h : Stands target vm pc (v :: ops) refs env) (hroom : ops.length + 1 < stackSize) :
    ∃ vm', instDup vm = .ok vm' ∧ Stands target vm' pc (v :: v :: ops) refs env := by
  obtain ⟨vm', hrun, hrestacked⟩ := instDup_restacked h.operands (h.stackCounter ▸ hroom)
  exact ⟨vm', hrun, h.restack hrestacked hroom⟩

theorem binary {operator : BinaryOpcode} {address : JSValue → CInt} {l r : JSValue}
    (h : Stands target vm pc (r :: l :: ops) refs env) (happlicable : applicable operator l r = true)
    (hvalue : binaryValue address operator l r = .ok v) :
    ∃ vm', instBinary address operator vm = .ok vm' ∧ Stands target vm' pc (v :: ops) refs env := by
  obtain ⟨vm', hrun, hrestacked⟩ := binaryHandler_restacked h.operands h.counter_le
    (binaryShortcut_of_applicable happlicable) hvalue
  exact ⟨vm', hrun, h.restack hrestacked (Nat.le_of_succ_le h.size)⟩

theorem unary {operator : UnaryOpcode} {address : JSValue → CInt} {r : JSValue}
    (h : Stands target vm pc (r :: ops) refs env) (hvalue : unaryValue address operator r = .ok v) :
    ∃ vm', instUnary address operator vm = .ok vm' ∧ Stands target vm' pc (v :: ops) refs env := by
  obtain ⟨vm', hrun, hrestacked⟩ := unaryHandler_restacked h.operands h.counter_le hvalue
  exact ⟨vm', hrun, h.restack hrestacked h.size⟩

theorem loadLocal {idx : ℕ} (h : Stands target vm pc ops refs env)
    (hname : target.strings[idx]? = some name) (hroom : ops.length < stackSize)
    (hlookup : env.lookup name = some v) :
    ∃ vm', instLoadLocal (UInt16.ofNat idx) vm = .ok vm' ∧
      Stands target vm' pc (v :: ops) refs env := by
  obtain ⟨key, hload, hkey⟩ := h.loadStr hname
  obtain ⟨vm', hrun, hstands⟩ := h.append hroom v
  refine ⟨vm', ?_, hstands⟩
  have hfound := h.bindings.lookup hkey
  rw [hlookup] at hfound
  rw [instLoadLocal_eq (h.stackCounter ▸ hroom), hload, Fallible.ok_bind,
    scopeContains_of_chain h.chain, scopeGet_of_chain h.chain, hfound]
  exact hrun

theorem storeLocal {idx : ℕ} (h : Stands target vm pc (v :: ops) refs env)
    (hname : target.strings[idx]? = some name) (hassign : env.assign name v = some env') :
    ∃ vm', instStoreLocal (UInt16.ofNat idx) vm = .ok vm' ∧
      Stands target vm' pc ops refs env' := by
  obtain ⟨key, hload, hkey⟩ := h.loadStr hname
  obtain ⟨r, hfind, hmatches⟩ := h.bindings.assign h.chain.nodup (fun r hr => h.chain.lt_length hr)
    hkey hassign
  refine ⟨{ vm.drop 1 with heap := vm.heap.putBinding r key v }, ?_, ?_⟩
  · rw [instStoreLocal_eq h.operands h.counter_le, hload, Fallible.ok_bind,
      scopeSet_of_chain h.chain, hfind]
    rfl
  · exact h.drop.setHeap rfl (putBinding_chain r h.drop.chain) hmatches

theorem allocLocal {idx : ℕ} (h : Stands target vm pc (v :: ops) refs env)
    (hname : target.strings[idx]? = some name) (hdeclare : env.declare name v = some env') :
    ∃ vm', instAllocLocal (UInt16.ofNat idx) vm = .ok vm' ∧
      Stands target vm' pc ops refs env' := by
  obtain ⟨key, hload, hkey⟩ := h.loadStr hname
  obtain ⟨rest, hrefs⟩ : ∃ rest, refs = vm.scope :: rest := by
    cases h.chain with
    | last => exact ⟨[], rfl⟩
    | next => exact ⟨_, rfl⟩
  have hlt : vm.scope < vm.heap.scopes.length :=
    h.chain.lt_length (hrefs ▸ List.mem_cons_self)
  refine ⟨{ vm.drop 1 with heap := vm.heap.putBinding vm.scope key v }, ?_, ?_⟩
  · rw [instAllocLocal_eq h.operands h.counter_le, hload, Fallible.ok_bind, scopeDeclare,
      if_pos hlt]
    rfl
  · have hnodup := h.chain.nodup
    have hbindings := h.bindings
    subst hrefs
    exact h.drop.setHeap rfl (putBinding_chain _ h.drop.chain)
      (hbindings.declare hnodup hlt hkey hdeclare)

theorem pushScope (h : Stands target vm pc ops refs env) :
    Stands target (instPushScope vm) pc ops (vm.heap.scopes.length :: refs) env.enter :=
  { h with
    chain := scopeCreateScope_chain h.chain
    bindings := h.bindings.create fun _ hr => h.chain.lt_length hr }

theorem popScope {ref : ScopeRef} (h : Stands target vm pc ops (ref :: refs) env)
    (hrefs : refs ≠ []) :
    ∃ vm', instPopScope vm = .ok vm' ∧ Stands target vm' pc ops refs env.tail := by
  have hbindings := h.bindings
  cases hbindings with
  | cons _ hrest =>
    cases h.chain with
    | last => exact absurd rfl hrefs
    | @next _ parent node _ hnode hlink hchain =>
      refine ⟨{ vm with scope := parent }, ?_, { h with chain := hchain, bindings := hrest }⟩
      have hparent : node.parent = some parent := hlink
      rw [instPopScope, hnode]
      simp only [hparent]

theorem jmpF {target' : ℕ} {falsy : Bool} (h : Stands target vm pc (v :: ops) refs env)
    (hfalsy : valueIsFalsy v = .ok falsy) (hlt : target' < 2 ^ 16) :
    ∃ vm', instJmpIf valueIsFalsy (UInt16.ofNat target') vm = .ok vm' ∧
      Stands target vm' (if falsy then target' else pc) ops refs env := by
  have hword : (UInt16.ofNat target').toNat = target' := by
    rw [UInt16.toNat_ofNat', Nat.mod_eq_of_lt hlt]
  rw [instJmpIf_eq h.operands h.counter_le, hfalsy, Fallible.ok_bind, hword]
  cases falsy with
  | true => exact ⟨_, rfl, h.drop.setCounter target'⟩
  | false => exact ⟨_, rfl, h.drop⟩

end Stands

/-! ## Activations -/

/-- The innermost loop of the machine executes a region of the code. -/
structure Activation where
  host : Host
  target : Target
  frame : Frame
  frames : List Frame
  lower : ℕ
  upper : ℕ
  upper_le : upper ≤ target.code.length
  inLoop : ∀ stop, frame.kind = .function stop → upper ≤ stop

namespace Activation

variable (act : Activation)

def config (vm : VM) : Config := ⟨.done vm, act.frame :: act.frames⟩

/-- The machine is at a point of the code. -/
def On (pc : ℕ) (ops : List JSValue) (config : Config) : Prop :=
  ∃ vm, config = act.config vm ∧ Holds act.target vm pc ops

/-- The machine stands at a point of the code, with bindings. -/
def At (pc : ℕ) (ops : List JSValue) (refs : List ScopeRef) (env : Env) (config : Config) : Prop :=
  ∃ vm, config = act.config vm ∧ Stands act.target vm pc ops refs env

/-- The machine is in the region. -/
def InCode (config : Config) : Prop :=
  ∃ vm, config = act.config vm ∧ act.lower ≤ vm.stats.instructionCounter ∧
    vm.stats.instructionCounter < act.upper

/-- The machine is in a part of the code. -/
def InPart (lower upper : ℕ) (config : Config) : Prop :=
  ∃ vm, config = act.config vm ∧ lower ≤ vm.stats.instructionCounter ∧
    vm.stats.instructionCounter < upper

/-- A part of the region. -/
def restrict (lower upper : ℕ) (h : upper ≤ act.upper) : Activation :=
  { act with
    lower
    upper
    upper_le := Nat.le_trans h act.upper_le
    inLoop := fun stop hstop => Nat.le_trans h (act.inLoop stop hstop) }

/-- An instruction of the region. -/
structure Has (pc : ℕ) (instruction : Instruction) : Prop where
  lower : act.lower ≤ pc
  upper : pc < act.upper
  get : act.target.code[pc]? = some instruction

/-- One step leads to a point of the code. -/
def Goes (config : Config) (pc : ℕ) (ops : List JSValue) (refs : List ScopeRef) (env : Env) :
    Prop :=
  ∃ config', Run.Through (step act.host) act.InCode 1 config config' ∧
    act.At pc ops refs env config'

variable {act} {config : Config} {instruction : Instruction} {pc' : ℕ} {refs' : List ScopeRef}

theorem executes_of_code (hhas : act.Has pc instruction) (hret : instruction.opcode ≠ .ret)
    (hcode : ∃ module, vm.heap.modules[vm.module]? = some module ∧
      module.dataSection.instructions = act.target.code.map Instruction.loaded)
    (hcounter : vm.stats.instructionCounter = pc) :
    act.frame.kind.Executes vm instruction.loaded := by
  obtain ⟨module, hmodule, hinstructions⟩ := hcode
  refine ⟨⟨module, hmodule, ?_⟩, fun stop hstop => ⟨?_, ?_⟩⟩
  · rw [hinstructions, List.getElem?_map, hcounter, hhas.get]
    rfl
  · rw [hcounter]
    exact Nat.lt_of_lt_of_le hhas.upper (act.inLoop stop hstop)
  · unfold Instruction.loaded
    split
    · exact fun h => nomatch h
    · rw [Option.map_some, InstOf.opcode_map]
      exact hret

theorem executes (hhas : act.Has pc instruction) (hret : instruction.opcode ≠ .ret)
    (h : Holds act.target vm pc ops) : act.frame.kind.Executes vm instruction.loaded :=
  executes_of_code hhas hret h.code h.counter

theorem At.loads (h : act.At pc ops refs env config) : act.target.Loads := by
  obtain ⟨_, _, hstands⟩ := h
  exact hstands.loads

theorem At.inCode (h : act.At pc ops refs env config) (hhas : act.Has pc instruction) :
    act.InCode config := by
  obtain ⟨vm, rfl, hstands⟩ := h
  exact ⟨vm, rfl, hstands.counter.symm ▸ hhas.lower, hstands.counter.symm ▸ hhas.upper⟩

theorem At.step {Q : VM → Prop} (h : act.At pc ops refs env config)
    (hhas : act.Has pc instruction) (hret : instruction.opcode ≠ .ret)
    (hexec : ∀ vm, Stands act.target vm (pc + 1) ops refs env →
      ∃ vm', execSlot act.host instruction.loaded vm = .done vm' ∧ Q vm') :
    ∃ vm', Run.Through (AtomixJS.step act.host) act.InCode 1 config (act.config vm') ∧ Q vm' := by
  have hin := h.inCode hhas
  obtain ⟨vm, rfl, hstands⟩ := h
  have hexecutes := executes hhas hret hstands.holds
  obtain ⟨vm', hrun, hQ⟩ := hexec _ (hstands.setCounter (pc + 1))
  have hstep := step_of_executes act.host hexecutes act.frames
  rw [hstands.counter, hrun] at hstep
  exact ⟨vm', .single hin hstep, hQ⟩

/-! ### The instructions -/

theorem At.exec (h : act.At pc ops refs env config) (hhas : act.Has pc instruction)
    (hret : instruction.opcode ≠ .ret)
    (hexec : ∀ vm, Stands act.target vm (pc + 1) ops refs env →
      ∃ vm', execSlot act.host instruction.loaded vm = .done vm' ∧
        Stands act.target vm' pc' ops' refs' env') :
    act.Goes config pc' ops' refs' env' := by
  obtain ⟨vm', hrun, hstands⟩ := h.step hhas hret hexec
  exact ⟨_, hrun, vm', rfl, hstands⟩

/-- An instruction whose handler succeeds and goes on. -/
theorem At.handler {handler : VM → Except Fault VM} {inst : Inst}
    (h : act.At pc ops refs env config) (hhas : act.Has pc instruction)
    (hret : instruction.opcode ≠ .ret) (hloaded : instruction.loaded = some inst)
    (hinst : ∀ vm, execInst act.host inst vm = Prog.ofExcept (handler vm))
    (hexec : ∀ vm, Stands act.target vm (pc + 1) ops refs env →
      ∃ vm', handler vm = .ok vm' ∧ Stands act.target vm' pc' ops' refs' env') :
    act.Goes config pc' ops' refs' env' := by
  apply h.exec hhas hret
  intro vm hstands
  obtain ⟨vm', hrun, hstands'⟩ := hexec vm hstands
  refine ⟨vm', ?_, hstands'⟩
  rw [hloaded, execSlot, hinst, hrun]
  rfl

theorem At.push {inst : Inst} (h : act.At pc ops refs env config)
    (hhas : act.Has pc instruction) (hret : instruction.opcode ≠ .ret)
    (hloaded : instruction.loaded = some inst)
    (hinst : ∀ vm, execInst act.host inst vm = Prog.ofExcept (vm.push v))
    (hroom : ops.length < stackSize) : act.Goes config (pc + 1) (v :: ops) refs env :=
  h.handler hhas hret hloaded hinst fun _ hstands => hstands.push hroom v

theorem At.pop (h : act.At pc (v :: ops) refs env config) (hhas : act.Has pc .pop) :
    act.Goes config (pc + 1) ops refs env :=
  h.handler hhas (by decide) rfl (fun _ => rfl) fun vm hstands =>
    ⟨vm.drop 1, (instPop_restacked hstands.operands).1, hstands.drop⟩

theorem At.dup (h : act.At pc (v :: ops) refs env config) (hhas : act.Has pc .dup)
    (hroom : ops.length + 1 < stackSize) : act.Goes config (pc + 1) (v :: v :: ops) refs env :=
  h.handler hhas (by decide) rfl (fun _ => rfl) fun _ hstands => hstands.dup hroom

theorem At.binary {operator : BinaryOpcode} {l r : JSValue}
    (h : act.At pc (r :: l :: ops) refs env config) (hhas : act.Has pc (.binary operator))
    (happlicable : applicable operator l r = true)
    (hvalue : binaryValue act.host.address operator l r = .ok v) :
    act.Goes config (pc + 1) (v :: ops) refs env :=
  h.handler hhas (fun h => nomatch h) rfl (fun _ => rfl) fun _ hstands =>
    hstands.binary happlicable hvalue

theorem At.unary {operator : UnaryOpcode} {r : JSValue}
    (h : act.At pc (r :: ops) refs env config) (hhas : act.Has pc (.unary operator))
    (hvalue : unaryValue act.host.address operator r = .ok v) :
    act.Goes config (pc + 1) (v :: ops) refs env :=
  h.handler hhas (fun h => nomatch h) rfl (fun _ => rfl) fun _ hstands => hstands.unary hvalue

theorem At.loadLocal {idx : ℕ} (h : act.At pc ops refs env config)
    (hhas : act.Has pc (.loadLocal idx)) (hname : act.target.strings[idx]? = some name)
    (hroom : ops.length < stackSize) (hlookup : env.lookup name = some v) :
    act.Goes config (pc + 1) (v :: ops) refs env :=
  h.handler hhas (fun h => nomatch h) rfl (fun _ => rfl) fun _ hstands =>
    hstands.loadLocal hname hroom hlookup

theorem At.storeLocal {idx : ℕ} (h : act.At pc (v :: ops) refs env config)
    (hhas : act.Has pc (.storeLocal idx)) (hname : act.target.strings[idx]? = some name)
    (hassign : env.assign name v = some env') : act.Goes config (pc + 1) ops refs env' :=
  h.handler hhas (fun h => nomatch h) rfl (fun _ => rfl) fun _ hstands =>
    hstands.storeLocal hname hassign

theorem At.allocLocal {idx : ℕ} (h : act.At pc (v :: ops) refs env config)
    (hhas : act.Has pc (.allocLocal idx)) (hname : act.target.strings[idx]? = some name)
    (hdeclare : env.declare name v = some env') : act.Goes config (pc + 1) ops refs env' :=
  h.handler hhas (fun h => nomatch h) rfl (fun _ => rfl) fun _ hstands =>
    hstands.allocLocal hname hdeclare

theorem At.pushScope (h : act.At pc ops refs env config) (hhas : act.Has pc .pushScope) :
    ∃ ref, act.Goes config (pc + 1) ops (ref :: refs) env.enter := by
  obtain ⟨vm', hrun, ref, hstands⟩ := h.step hhas (by decide) (Q := fun vm' =>
    ∃ ref, Stands act.target vm' (pc + 1) ops (ref :: refs) env.enter) fun vm hstands =>
      ⟨_, rfl, _, hstands.pushScope⟩
  exact ⟨ref, _, hrun, vm', rfl, hstands⟩

theorem At.popScope {ref : ScopeRef} (h : act.At pc ops (ref :: refs) env config)
    (hhas : act.Has pc .popScope) (hrefs : refs ≠ []) :
    act.Goes config (pc + 1) ops refs env.tail :=
  h.handler hhas (by decide) rfl (fun _ => rfl) fun _ hstands => hstands.popScope hrefs

theorem At.jmp {target : ℕ} (h : act.At pc ops refs env config) (hhas : act.Has pc (.jmp target))
    (hlt : target < 2 ^ 16) : act.Goes config target ops refs env := by
  apply h.exec hhas (fun h => nomatch h)
  intro vm hstands
  refine ⟨vm.setCounter target, ?_, hstands.setCounter target⟩
  show Prog.done (vm.setCounter (UInt16.ofNat target).toNat) = _
  rw [UInt16.toNat_ofNat', Nat.mod_eq_of_lt hlt]

theorem At.jmpF {target : ℕ} {falsy : Bool} (h : act.At pc (v :: ops) refs env config)
    (hhas : act.Has pc (.jmpF target)) (hfalsy : valueIsFalsy v = .ok falsy)
    (hlt : target < 2 ^ 16) :
    act.Goes config (if falsy then target else pc + 1) ops refs env :=
  h.handler hhas (fun h => nomatch h) rfl (fun _ => rfl) fun _ hstands =>
    hstands.jmpF hfalsy hlt

end Activation

/-! ## Whole modules -/

/-- The machine executes a module, with native functions that return `undefined`. -/
def activationOf (target : Target) : Activation where
  host := ⟨fun _ heap _ _ _ => .ret heap .undefined, fun _ => 0, true⟩
  target
  frame := ⟨0, ⟨0, 0, 0, fun _ => .undefined⟩, 0, .module, fun vm _ => .done vm⟩
  frames := []
  lower := 0
  upper := target.code.length
  upper_le := Nat.le_refl _
  inLoop := fun _ h => nomatch h

/-- The machine `n` steps behind the given instruction, where it has no operands
and executes the one module of the heap. -/
def configOf (target : Target) (heap : Heap) (pc n : ℕ) : Config :=
  let start := (activationOf target).config
    { module := 0
      globalScope := 0
      scope := 0
      stats :=
        { instructionCounter := pc, stackCounter := 0, stackStart := 0
          stack := fun _ => .undefined }
      heap := { heap with modules := [target.module] } }
  (Run.iterate (step (activationOf target).host) n start).getD start

/-- As long as the machine goes on, its steps can be counted. -/
theorem configOf_run {target : Target} {heap : Heap} {pc m n k : ℕ}
    (h : (Run.iterate (step (activationOf target).host) k (configOf target heap pc 0)).isSome)
    (hle : m + n ≤ k) :
    Run.iterate (step (activationOf target).host) n (configOf target heap pc m) =
      some (configOf target heap pc (m + n)) := by
  obtain ⟨last, hlast⟩ := Option.isSome_iff_exists.mp h
  obtain ⟨next, hnext⟩ := Run.iterate_of_le hlast hle
  have hcount : ∀ {i : ℕ} {config : Config},
      Run.iterate (step (activationOf target).host) i (configOf target heap pc 0) = some config →
      configOf target heap pc i = config := by
    intro i config hi
    exact congrArg (Option.getD · (configOf target heap pc 0)) hi
  obtain ⟨first, hfirst⟩ := Run.iterate_of_le hnext (Nat.le_add_right m n)
  have hrest := Run.iterate_split hfirst hnext (Nat.le_add_right m n)
  rwa [Nat.add_sub_cancel_left, ← hcount hfirst, ← hcount hnext] at hrest

/-- A scope without a parent. -/
def rootScope (bindings : List (CString × JSValue)) : Scope where
  parent := none
  symbols := bindings.foldl (fun symbols binding => dictPut symbols binding.1 binding.2)
    (dictCreateDict scopeBucketSize scopeBucketSize_pos)

/-! ## Regions of the final code -/

variable {act : Activation} {ctx ctx' ctx₁ ctx₂ : PipeContext} {instruction : Instruction}

/-- What was added between two contexts stands in the code that is executed. -/
structure Activation.Placed (act : Activation) (ctx ctx' : PipeContext) : Prop where
  agree : Agree ctx.code.length ctx'.code.length ctx'.code act.target.code
  strings : ctx'.stable.strings <+: act.target.strings
  lower : act.lower ≤ ctx.code.length
  upper : ctx'.code.length ≤ act.upper

namespace Activation.Placed

theorem first (h : act.Placed ctx ctx') (hrest : Extends ctx₁ ctx') : act.Placed ctx ctx₁ where
  agree := (agree_extended hrest.code (Nat.le_refl _)).trans (h.agree.mono (Nat.le_refl _) hrest.le)
  strings := hrest.strings.trans h.strings
  lower := h.lower
  upper := Nat.le_trans hrest.le h.upper

theorem second (h : act.Placed ctx ctx') (hfirst : Extends ctx ctx₁) : act.Placed ctx₁ ctx' where
  agree := h.agree.mono hfirst.le (Nat.le_refl _)
  strings := h.strings
  lower := Nat.le_trans h.lower hfirst.le
  upper := h.upper

/-- A part of the code that later contexts keep. -/
theorem inner (h : act.Placed ctx ctx')
    (hagree : Agree ctx₁.code.length ctx₂.code.length ctx₂.code ctx'.code)
    (hstrings : ctx₂.stable.strings <+: ctx'.stable.strings)
    (hlower : ctx.code.length ≤ ctx₁.code.length) (hupper : ctx₂.code.length ≤ ctx'.code.length) :
    act.Placed ctx₁ ctx₂ where
  agree := hagree.trans (h.agree.mono hlower hupper)
  strings := hstrings.trans h.strings
  lower := Nat.le_trans h.lower hlower
  upper := Nat.le_trans hupper h.upper

/-- What was added stands in its own part of the region. -/
theorem restrict (h : act.Placed ctx ctx') :
    (act.restrict ctx.code.length ctx'.code.length h.upper).Placed ctx ctx' :=
  { h with
    lower := Nat.le_refl _
    upper := Nat.le_refl _ }

theorem lt (h : act.Placed ctx ctx') (hloads : act.target.Loads) : ctx'.code.length < 2 ^ 16 :=
  Nat.lt_of_le_of_lt (Nat.le_trans h.upper act.upper_le) hloads.code_lt

/-- An instruction of the final code. -/
theorem get (h : act.Placed ctx ctx') {pc : ℕ} (hlower : ctx.code.length ≤ pc)
    (hget : ctx'.code[pc]? = some instruction) : act.Has pc instruction := by
  have hupper := (List.getElem?_eq_some_iff.mp hget).1
  refine ⟨Nat.le_trans h.lower hlower, Nat.lt_of_lt_of_le hupper h.upper, ?_⟩
  rw [← h.agree pc hlower hupper, hget]

theorem added (h : act.Placed ctx (ctx.addInstruction instruction)) :
    act.Has ctx.code.length instruction := by
  refine h.get (Nat.le_refl _) ?_
  rw [PipeContext.addInstruction_code]
  exact List.getElem?_concat_length

/-- A string of the final table. -/
theorem string (h : act.Placed ctx ctx') {idx : ℕ} {name : JSString}
    (hname : ctx'.stable.strings[idx]? = some name) : act.target.strings[idx]? = some name := by
  obtain ⟨rest, hstrings⟩ := h.strings
  rw [← hstrings, List.getElem?_append_left (List.getElem?_eq_some_iff.mp hname).1]
  exact hname

theorem named {named : ℕ → Instruction} {name : JSString}
    (h : act.Placed ctx (ctx.addNamed named name)) :
    act.Has ctx.code.length (named (ctx.registerString name).1) ∧
      act.target.strings[(ctx.registerString name).1]? = some name :=
  ⟨(h.second (Extends.register ctx name)).added,
    h.string (ctx.stable.registerString_getElem? name)⟩

end Activation.Placed

end AtomixJS.Compiler
