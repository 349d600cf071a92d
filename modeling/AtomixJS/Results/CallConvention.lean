import AtomixJS.Compiler.Calls

/-!
# The calling convention

A compiled call leaves the arguments on the stack for the callee, native code
hands them over as an array, and a native callee gets them as an array again.
The three index computations agree: whatever lies on the stack in front of
`CALL` is what the callee sees, in the same order on all three paths
(`delivers_of_on`).

What lies there is another matter.  `pipe` reverses the array of the arguments
in place, and the transformation of `a.b += c` puts the node `a` into the tree
twice, so a call in `a` is emitted a second time with its arguments in source
order.  The callee then gets them backwards.
-/

namespace AtomixJS.Compiler

variable {act : Activation} {ctx ctx' ctxEnd : PipeContext} {config config' : Config}
  {ops args args' : List JSValue} {receiver : JSValue} {function : FunctionRef}

/-- A function that can be called: a native function, or a bytecode function
whose scope is in the heap. -/
inductive Callable (heap : Heap) (function : FunctionRef) : Prop
  | native {objectBase pointer : ℕ}
      (h : heap.functions[function]? = some ⟨objectBase, .native (some pointer)⟩)
  | bytecode {objectBase scope module start stop : ℕ}
      (h : heap.functions[function]? = some ⟨objectBase, .bytecode scope module start stop⟩)
      (hscope : scope < heap.scopes.length)

/-- The three paths to a function deliver the receiver and the arguments: a native
function and a bytecode function that the next instruction calls, and a bytecode
function that native code calls. -/
structure Delivers (host : Host) (config : Config) (function : FunctionRef) (receiver : JSValue)
    (args : List JSValue) : Prop where
  native : ∀ vm, config.vm? = some vm → ∀ objectBase pointer,
    vm.heap.functions[function]? = some ⟨objectBase, .native (some pointer)⟩ →
    Receives config pointer receiver args
  bytecode : ∀ vm, config.vm? = some vm → ∀ objectBase scope module start stop,
    vm.heap.functions[function]? = some ⟨objectBase, .bytecode scope module start stop⟩ →
    scope < vm.heap.scopes.length → Enters host 2 config start receiver args
  api : ∀ vm objectBase scope module start stop next frames,
    vm.heap.functions[function]? = some ⟨objectBase, .bytecode scope module start stop⟩ →
    scope < vm.heap.scopes.length → vm.stats.stackCounter + args.length + 1 < stackSize →
    Enters host 1 ⟨apiCallFunction host vm function receiver args next, frames⟩ start receiver args

theorem Delivers.unique {host : Host} {vm : VM}
    (h : Delivers host config function receiver args)
    (h' : Delivers host config function receiver args') (hvm : config.vm? = some vm)
    (hcallable : Callable vm.heap function) (hlength : args.length = args'.length) :
    args = args' := by
  cases hcallable with
  | native hfunction =>
    exact (h.native vm hvm _ _ hfunction).unique (h'.native vm hvm _ _ hfunction)
  | bytecode hfunction hscope =>
    exact (h.bytecode vm hvm _ _ _ _ _ hfunction hscope).unique
      (h'.bytecode vm hvm _ _ _ _ _ hfunction hscope) hlength

/-! ## The three paths -/

/-- Native code calls a bytecode function. -/
theorem enters_api {host : Host} {vm : VM} {objectBase scope module start stop : ℕ}
    {next : VM → JSValue → Prog} (frames : List Frame)
    (hfunction : vm.heap.functions[function]? =
      some ⟨objectBase, .bytecode scope module start stop⟩)
    (hscope : scope < vm.heap.scopes.length)
    (hroom : vm.stats.stackCounter + args.length + 1 < stackSize) :
    Enters host 1 ⟨apiCallFunction host vm function receiver args next, frames⟩ start receiver
      args := by
  obtain ⟨vm', hrestacked, hcall⟩ :=
    apiCallFunction_bytecode host receiver next (Nat.lt_of_succ_lt hroom) hfunction
  have hheap : vm'.heap = vm.heap := by rw [hrestacked.rest]
  have hcounter := VM.counter_of_operands hrestacked.operands
  rw [List.length_cons, List.length_append, VM.operands_length] at hcounter
  rw [hcall]
  exact enters_call host _ frames hrestacked.operands (by omega) (hheap.symm ▸ hfunction)
    (hheap.symm ▸ hscope)

/-- `CALL` delivers what lies on the stack. -/
theorem delivers_of_on {pc : ℕ} (hhas : act.Has pc (.call args.length))
    (hon : act.On pc (.func function :: receiver :: (args ++ ops)) config) :
    Delivers act.host config function receiver args := by
  obtain ⟨vm, rfl, hholds⟩ := hon
  have hsize := hholds.size
  simp only [List.length_cons, List.length_append] at hsize
  have hoperand : (UInt16.ofNat args.length).toNat = args.length := by
    rw [UInt16.toNat_ofNat', Nat.mod_eq_of_lt]
    unfold stackSize at hsize
    omega
  have hexecutes := Activation.executes hhas (fun h => nomatch h) hholds
  have hstep : ∀ host : Host, step host (act.config vm) =
      some ⟨instCall host (UInt16.ofNat args.length)
        (vm.setCounter (vm.stats.instructionCounter + 1)), act.frame :: act.frames⟩ :=
    fun host => step_of_executes host hexecutes act.frames
  have hops : (vm.setCounter (vm.stats.instructionCounter + 1)).operands =
      .func function :: receiver :: (args ++ ops) := hholds.operands
  have hcounter := VM.counter_of_operands hops
  simp only [List.length_cons, List.length_append] at hcounter
  have hfull : (vm.setCounter (vm.stats.instructionCounter + 1)).stats.stackCounter ≤ stackSize := by
    omega
  refine ⟨fun vm' hvm objectBase pointer hfunction => ?_,
    fun vm' hvm objectBase scope module start stop hfunction hscope => ?_,
    fun vm' objectBase scope module start stop next frames hfunction hscope hroom =>
      enters_api frames hfunction hscope hroom⟩
  · obtain rfl := Option.some.inj hvm
    intro host
    have hcall := hstep host
    rw [instCall_native hops hoperand.symm hfull hfunction] at hcall
    exact ⟨_, _, _, hcall⟩
  · obtain rfl := Option.some.inj hvm
    have hcall := hstep act.host
    rw [instCall_bytecode hops hfull hfunction] at hcall
    have hdrop : VM.Restacked _ ((vm.setCounter (vm.stats.instructionCounter + 1)).drop 1)
        (receiver :: (args ++ ops)) := VM.drop_restacked [.func function] hops
    have hcounter' := VM.counter_of_operands hdrop.operands
    simp only [List.length_cons, List.length_append] at hcounter'
    refine .head hcall (enters_call act.host _ _ hdrop.operands ?_ hfunction hscope)
    omega

/-! ## Compiled calls -/

/-- **The calling convention.**  In a run of a compiled call whose arguments,
receiver and callee each push their one value, `CALL` and native code deliver the
receiver and the same arguments if and only if the array of the arguments was not
reversed before, or the arguments read the same backwards. -/
theorem call_delivers_iff {callee : Expression} {id : ℕ} {arguments : List (Expression × JSValue)}
    (hemit : pipeExpression (.callExpression callee id (arguments.map Prod.fst)) ctx = .ok ctxEnd)
    (hplaced : act.Placed ctx ctxEnd) (hon : act.On ctx.code.length ops config)
    (hruns : act.CallRuns callee id arguments receiver function ctx ctx' config config')
    (hcallable : ∀ vm, config'.vm? = some vm → Callable vm.heap function) :
    Delivers act.host config' function receiver (arguments.map Prod.snd) ↔
      id ∉ ctx.reversed ∨ (arguments.map Prod.snd).reverse = arguments.map Prod.snd := by
  obtain rfl := Except.ok.inj (hruns.emits.symm.trans hemit)
  have hhas := (hplaced.second hruns.extends_ctx).added
  have hfront := hruns.on hon
  generalize hvalues : arguments.map Prod.snd = values at hfront ⊢
  have hlength : arguments.length = values.length := by rw [← hvalues, List.length_map]
  by_cases hreversed : id ∈ ctx.reversed
  · rw [argumentOrder, if_pos hreversed] at hfront
    rw [hlength, ← values.length_reverse] at hhas
    have hbackwards := delivers_of_on hhas hfront
    simp only [hreversed, not_true_eq_false, false_or]
    constructor
    · intro hdelivers
      obtain ⟨vm, rfl, _⟩ := hfront
      exact hbackwards.unique hdelivers rfl (hcallable vm rfl) (List.length_reverse)
    · intro hsame
      rwa [hsame] at hbackwards
  · rw [argumentOrder, if_neg hreversed, List.reverse_reverse] at hfront
    simp only [hreversed, not_false_eq_true, true_or, iff_true]
    rw [hlength] at hhas
    exact delivers_of_on hhas hfront

/-! ## A call that is emitted twice -/

/-- `this(null, true)` -/
def callThis : Expression := .callExpression .thisExpression 0 [.nullLiteral, .booleanLiteral true]

/-- The code of `this(null, true)`, emitted twice. -/
def callThisTarget : Target where
  module := JSModule.ofCode []
    [some .ldTrue, some .ldNull, some .ldUndf, some .ldThis, some (.call 2),
      some .ldNull, some .ldTrue, some .ldUndf, some .ldThis, some (.call 2)] no_strings_lt (by decide)
  strings := []
  code := [.ldTrue, .ldNull, .ldUndf, .ldThis, .call 2, .ldNull, .ldTrue, .ldUndf, .ldThis, .call 2]
  instructions_eq := rfl

def callThisActivation : Activation := activationOf callThisTarget

/-- The machine `n` steps behind the given instruction; `this` is a native
function. -/
def callThisConfig : ℕ → ℕ → Config :=
  configOf callThisTarget
    { Heap.empty with
      scopes := [rootScope [(cString "this", .func 0)]]
      functions := [⟨0, .native (some 0)⟩] }

/-- The operands, as long as the machine pushes. -/
def callThisOperands (args : List JSValue) (n : ℕ) : List JSValue :=
  ((args.reverse ++ [JSValue.undefined, JSValue.func 0]).take n).reverse

theorem callThis_on (n : ℕ) (hn : n ≤ 4) :
    callThisActivation.On n (callThisOperands [.null, .boolean true] n) (callThisConfig 0 n) ∧
    callThisActivation.On (5 + n) (callThisOperands [.boolean true, .null] n)
      (callThisConfig 5 n) := by
  have h : n = 0 ∨ n = 1 ∨ n = 2 ∨ n = 3 ∨ n = 4 := by omega
  rcases h with rfl | rfl | rfl | rfl | rfl <;>
    exact ⟨⟨_, rfl, ⟨_, rfl, rfl⟩, rfl, rfl, by decide⟩, ⟨_, rfl, ⟨_, rfl, rfl⟩, rfl, rfl, by decide⟩⟩

/-- The contexts behind the first emission and behind the second one. -/
def callThisFirst : PipeContext := (pipeExpression callThis PipeContext.empty).toOption.getD .empty
def callThisSecond : PipeContext := (pipeExpression callThis callThisFirst).toOption.getD .empty

def callThisArguments : List (Expression × JSValue) :=
  [(.nullLiteral, .null), (.booleanLiteral true, .boolean true)]

/-- The machine runs through the parts of the first call. -/
theorem callThis_first : ∃ ctx', callThisActivation.CallRuns .thisExpression 0 callThisArguments
    .undefined 0 PipeContext.empty ctx' (callThisConfig 0 0) (callThisConfig 0 4) := by
  have hon := fun n hn => (callThis_on n hn).1
  have harguments : callThisActivation.Evaluates (argumentOrder .empty 0 callThisArguments)
      (PipeContext.empty.reverseArguments 0).2
      (((PipeContext.empty.reverseArguments 0).2.addInstruction .ldTrue).addInstruction .ldNull)
      (callThisConfig 0 0) (callThisConfig 0 2) :=
    .cons rfl (.of_on ⟨1, rfl⟩ (hon 0 (by decide)) (hon 1 (by decide)))
      (.cons rfl (.of_on ⟨1, rfl⟩ (hon 1 (by decide)) (hon 2 (by decide))) (.nil _ _))
  exact ⟨_, harguments, .mk rfl (.of_on ⟨1, rfl⟩ (hon 2 (by decide)) (hon 3 (by decide))) rfl
    (.of_on ⟨1, rfl⟩ (hon 3 (by decide)) (hon 4 (by decide)))⟩

/-- The machine runs through the parts of the second call. -/
theorem callThis_second : ∃ ctx', callThisActivation.CallRuns .thisExpression 0 callThisArguments
    .undefined 0 callThisFirst ctx' (callThisConfig 5 0) (callThisConfig 5 4) := by
  have hon := fun n hn => (callThis_on n hn).2
  have harguments : callThisActivation.Evaluates (argumentOrder callThisFirst 0 callThisArguments)
      (callThisFirst.reverseArguments 0).2
      (((callThisFirst.reverseArguments 0).2.addInstruction .ldNull).addInstruction .ldTrue)
      (callThisConfig 5 0) (callThisConfig 5 2) :=
    .cons rfl (.of_on ⟨1, rfl⟩ (hon 0 (by decide)) (hon 1 (by decide)))
      (.cons rfl (.of_on ⟨1, rfl⟩ (hon 1 (by decide)) (hon 2 (by decide))) (.nil _ _))
  exact ⟨_, harguments, .mk rfl (.of_on ⟨1, rfl⟩ (hon 2 (by decide)) (hon 3 (by decide))) rfl
    (.of_on ⟨1, rfl⟩ (hon 3 (by decide)) (hon 4 (by decide)))⟩

/-- The emitted code stands in the module. -/
theorem callThis_placed : callThisActivation.Placed PipeContext.empty callThisFirst ∧
    callThisActivation.Placed callThisFirst callThisSecond := by
  refine ⟨⟨agree_extended ?_ (Nat.le_refl _), List.prefix_rfl, Nat.le_refl _, by decide⟩,
    ⟨agree_extended ?_ (Nat.le_refl _), List.prefix_rfl, by decide, by decide⟩⟩
  · exact ⟨[.ldNull, .ldTrue, .ldUndf, .ldThis, .call 2], rfl⟩
  · exact ⟨[], rfl⟩

theorem callThis_callable (pc : ℕ) (vm : VM) (hpc : pc = 0 ∨ pc = 5)
    (hvm : (callThisConfig pc 4).vm? = some vm) : Callable vm.heap 0 := by
  rcases hpc with rfl | rfl <;>
    · obtain rfl := Option.some.inj hvm
      exact .native rfl

theorem call_delivers_iff_callThis :
    Delivers callThisActivation.host (callThisConfig 0 4) 0 .undefined [.null, .boolean true] ↔
      0 ∉ PipeContext.empty.reversed ∨
        [JSValue.null, .boolean true].reverse = [.null, .boolean true] := by
  obtain ⟨ctx', hruns⟩ := callThis_first
  have hemit : pipeExpression (.callExpression .thisExpression 0
      (callThisArguments.map Prod.fst)) PipeContext.empty = .ok callThisFirst := rfl
  exact call_delivers_iff hemit callThis_placed.1 (callThis_on 0 (Nat.zero_le 4)).1 hruns
    fun vm => callThis_callable 0 vm (.inl rfl)

/-- The call is emitted a second time, as for `this(null, true).x += 1`: the native
function receives its arguments backwards. -/
theorem call_delivers_backwards :
    ¬ ∀ (act : Activation) (callee : Expression) (id : ℕ) (arguments : List (Expression × JSValue))
        (receiver : JSValue) (function : FunctionRef) (ctx ctx' ctxEnd : PipeContext)
        (ops : List JSValue) (config config' : Config),
      pipeExpression (.callExpression callee id (arguments.map Prod.fst)) ctx = .ok ctxEnd →
      act.Placed ctx ctxEnd → act.On ctx.code.length ops config →
      act.CallRuns callee id arguments receiver function ctx ctx' config config' →
      (∀ vm, config'.vm? = some vm → Callable vm.heap function) →
      Delivers act.host config' function receiver (arguments.map Prod.snd) := by
  intro hclaim
  obtain ⟨ctx', hruns⟩ := callThis_second
  have hdelivers := hclaim callThisActivation .thisExpression 0 callThisArguments .undefined 0
    callThisFirst ctx' callThisSecond [] _ _ rfl callThis_placed.2
    (callThis_on 0 (Nat.zero_le 4)).2 hruns fun vm => callThis_callable 5 vm (.inr rfl)
  -- the stack holds them in the order in which they were pushed
  have hhas : callThisActivation.Has 9 (.call [JSValue.boolean true, .null].length) :=
    ⟨by decide, by decide, rfl⟩
  have hon : callThisActivation.On 9 (.func 0 :: .undefined :: ([.boolean true, .null] ++ []))
      (callThisConfig 5 4) := (callThis_on 4 (Nat.le_refl 4)).2
  have hbackwards := delivers_of_on hhas hon
  have hreceives := hdelivers.native _ rfl 0 0 rfl
  exact absurd (hreceives.unique (hbackwards.native _ rfl 0 0 rfl)) (by simp [callThisArguments])

end AtomixJS.Compiler
