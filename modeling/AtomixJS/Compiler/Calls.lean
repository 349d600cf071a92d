import AtomixJS.Compiler.Execution
import AtomixJS.Core.Calls

/-!
# Generated calls

What `pipe` emits for a call consists of the arguments, the receiver, the callee
and `CALL`, in that order.  The arguments are emitted from the last one to the
first, unless `reverse` has turned their array around before.

`Pushes` says of a part of the code that its run leaves exactly one value on the
stack, whatever it does besides; `CallRuns` is a run of all parts of a call.  It
ends in front of `CALL`, with the values of the parts on the stack.
-/

namespace AtomixJS.Compiler

variable {ctx ctx' ctx₁ ctx₂ : PipeContext}

/-! ## The parts of a call -/

/-- The order in which the arguments are emitted. -/
def argumentOrder {α : Type} (ctx : PipeContext) (id : ℕ) (arguments : List α) : List α :=
  if id ∈ ctx.reversed then arguments else arguments.reverse

theorem argumentOrder_map {α β : Type} (f : α → β) (ctx : PipeContext) (id : ℕ)
    (arguments : List α) :
    argumentOrder ctx id (arguments.map f) = (argumentOrder ctx id arguments).map f := by
  unfold argumentOrder
  split
  · rfl
  · rw [List.map_reverse]

theorem pipeArguments_append (arguments arguments' : List Expression) (ctx : PipeContext) :
    pipeArguments (arguments ++ arguments') ctx =
      pipeArguments arguments ctx >>= pipeArguments arguments' := by
  induction arguments generalizing ctx with
  | nil => rfl
  | cons argument arguments ih =>
    simp only [List.cons_append, pipeArguments, bind_assoc]
    congr 1
    funext ctx₁
    exact ih ctx₁

theorem pipeReversed_eq (arguments : List Expression) (ctx : PipeContext) :
    pipeReversed arguments ctx = pipeArguments arguments.reverse ctx := by
  induction arguments with
  | nil => rfl
  | cons argument arguments ih =>
    rw [pipeReversed, ih, List.reverse_cons, pipeArguments_append]
    congr 1
    funext ctx₁
    simp only [pipeArguments]
    exact (bind_pure _).symm

/-- The receiver of a call. -/
def pipeReceiver (callee : Expression) (ctx : PipeContext) : Except String PipeContext :=
  match callee with
  | .memberExpression object _ _ =>
    if object.isSuper then .ok (ctx.addInstruction .ldThis) else pipeExpression object ctx
  | _ => .ok (ctx.addInstruction .ldUndf)

/-- The callee of a call, behind the receiver. -/
def pipeCalled (callee : Expression) (ctx : PipeContext) : Except String PipeContext :=
  match callee with
  | .memberExpression object property computed =>
    if object.isSuper then
      pipeMemberExpression object property (pipeExpression object) (pipeExpression property)
        computed false ctx
    else pipeMemberProperty property (pipeExpression property) computed (ctx.addInstruction .dup)
  | callee => pipeExpression callee ctx

theorem pipeCallee_eq (callee : Expression) (ctx : PipeContext) :
    pipeCallee callee ctx = pipeReceiver callee ctx >>= pipeCalled callee := by
  cases callee with
  | memberExpression object property computed =>
    by_cases hsuper : object.isSuper = true
    · obtain ⟨extra, rfl⟩ : ∃ extra, object = .super extra := by
        cases object <;> first | exact ⟨_, rfl⟩ | cases hsuper
      cases extra <;> rfl
    · have hplain := Bool.eq_false_iff.mpr hsuper
      have hcalled : pipeCalled (.memberExpression object property computed) = fun ctx =>
          pipeMemberProperty property (pipeExpression property) computed
            (ctx.addInstruction .dup) := by
        funext ctx
        simp only [pipeCalled, hplain]
        rfl
      simp only [pipeCallee, pipeMemberExpression, pipeMemberObject_of_not_super hplain,
        pipeReceiver, hplain, hcalled, bind_assoc, pure_bind]
      rfl
  | _ => rfl

/-- The emission of a call, part by part. -/
theorem pipeExpression_call (callee : Expression) (id : ℕ) (arguments : List Expression)
    (ctx : PipeContext) :
    pipeExpression (.callExpression callee id arguments) ctx = (do
      let ctx₁ ← pipeArguments (argumentOrder ctx id arguments) (ctx.reverseArguments id).2
      let ctx₂ ← pipeCallee callee ctx₁
      pure (ctx₂.addInstruction (.call arguments.length))) := by
  have harguments : (if (ctx.reverseArguments id).1 = true then
      pipeArguments arguments (ctx.reverseArguments id).2
      else pipeReversed arguments (ctx.reverseArguments id).2) =
      pipeArguments (argumentOrder ctx id arguments) (ctx.reverseArguments id).2 := by
    rw [pipeReversed_eq]
    unfold argumentOrder PipeContext.reverseArguments
    split <;> rfl
  rw [← harguments, pipeExpression]
  rfl

/-! ## Runs of the parts -/

variable {act : Activation} {config config' config₁ config₂ : Config} {pc pc' : ℕ}
  {ops ops' : List JSValue} {v : JSValue}

theorem Activation.On.unique (h : act.On pc ops config) (h' : act.On pc' ops' config) :
    pc = pc' ∧ ops = ops' := by
  obtain ⟨vm, rfl, hholds⟩ := h
  obtain ⟨vm', hconfig, hholds'⟩ := h'
  obtain rfl := Prog.done.inj (congrArg Config.prog hconfig)
  exact ⟨hholds.counter.symm.trans hholds'.counter, hholds.operands.symm.trans hholds'.operands⟩

/-- An instruction that pushes a value. -/
theorem Activation.On.push {instruction : Instruction} {inst : Inst} (hon : act.On pc ops config)
    (hhas : act.Has pc instruction) (hret : instruction.opcode ≠ .ret)
    (hloaded : instruction.loaded = some inst)
    (hinst : ∀ vm, execInst act.host inst vm = Prog.ofExcept (vm.push v))
    (hroom : ops.length < stackSize) :
    ∃ config', step act.host config = some config' ∧ act.On (pc + 1) (v :: ops) config' := by
  obtain ⟨vm, rfl, hholds⟩ := hon
  have hstep := step_of_executes act.host (Activation.executes hhas hret hholds) act.frames
  have hcounter := VM.counter_of_operands hholds.operands
  obtain ⟨vm', hpush, hrestacked⟩ := VM.push_restacked
    (show (vm.setCounter (vm.stats.instructionCounter + 1)).stats.stackCounter < stackSize from
      hcounter.symm ▸ hroom) v
  rw [hloaded, execSlot, hinst, hpush] at hstep
  refine ⟨_, hstep, vm', rfl, ?_, ?_, ?_, hroom⟩
  · rw [hrestacked.rest]
    exact hholds.code
  · rw [hrestacked.instructionCounter, ← hholds.counter]
    rfl
  · rw [hrestacked.operands, ← hholds.operands]
    rfl

/-- The machine runs through what was added between two contexts, and this pushes
exactly one value. -/
structure Activation.Pushes (act : Activation) (ctx ctx' : PipeContext) (v : JSValue)
    (config config' : Config) : Prop where
  run : Run.Reaches (step act.host) config config'
  value : ∀ ops, act.On ctx.code.length ops config → act.On ctx'.code.length (v :: ops) config'

theorem Activation.Pushes.of_on (hrun : Run.Reaches (step act.host) config config')
    (hon : act.On ctx.code.length ops config) (hon' : act.On ctx'.code.length (v :: ops) config') :
    act.Pushes ctx ctx' v config config' where
  run := hrun
  value ops' hops' := by
    obtain ⟨_, rfl⟩ := hon.unique hops'
    exact hon'

/-- The machine runs through some expressions, each of which pushes its value. -/
inductive Activation.Evaluates (act : Activation) :
    List (Expression × JSValue) → PipeContext → PipeContext → Config → Config → Prop
  | nil (ctx : PipeContext) (config : Config) : Evaluates act [] ctx ctx config config
  | cons {e : Expression} {v : JSValue} {rest : List (Expression × JSValue)}
      {ctx ctx₁ ctx' : PipeContext} {config config₁ config' : Config} :
      pipeExpression e ctx = .ok ctx₁ → act.Pushes ctx ctx₁ v config config₁ →
      Evaluates act rest ctx₁ ctx' config₁ config' →
      Evaluates act ((e, v) :: rest) ctx ctx' config config'

namespace Activation.Evaluates

variable {arguments : List (Expression × JSValue)}

theorem emits (h : act.Evaluates arguments ctx ctx' config config') :
    pipeArguments (arguments.map Prod.fst) ctx = .ok ctx' := by
  induction h with
  | nil => rfl
  | cons hemit _ _ ih =>
    rw [List.map_cons, pipeArguments, hemit]
    exact ih

theorem run (h : act.Evaluates arguments ctx ctx' config config') :
    Run.Reaches (step act.host) config config' := by
  induction h with
  | nil => exact .refl _
  | cons _ hpushes _ ih => exact hpushes.run.trans ih

/-- The value of the last expression is uppermost. -/
theorem on (h : act.Evaluates arguments ctx ctx' config config') :
    ∀ ops, act.On ctx.code.length ops config →
      act.On ctx'.code.length ((arguments.map Prod.snd).reverse ++ ops) config' := by
  induction h with
  | nil => exact fun ops hon => hon
  | cons _ hpushes _ ih =>
    intro ops hon
    rw [List.map_cons, List.reverse_cons, List.append_assoc]
    exact ih _ (hpushes.value ops hon)

end Activation.Evaluates

/-- The machine runs through the receiver and the callee of a call, each of which
pushes its value. -/
inductive Activation.CalleeRuns (act : Activation) (callee : Expression) (receiver : JSValue)
    (function : FunctionRef) (ctx ctx' : PipeContext) (config config' : Config) : Prop
  | mk {ctx₁ : PipeContext} {config₁ : Config} (hreceiver : pipeReceiver callee ctx = .ok ctx₁)
      (hthis : act.Pushes ctx ctx₁ receiver config config₁)
      (hcalled : pipeCalled callee ctx₁ = .ok ctx')
      (hvalue : act.Pushes ctx₁ ctx' (.func function) config₁ config')

namespace Activation.CalleeRuns

variable {callee : Expression} {receiver : JSValue} {function : FunctionRef}

theorem emits (h : act.CalleeRuns callee receiver function ctx ctx' config config') :
    pipeCallee callee ctx = .ok ctx' := by
  obtain ⟨hreceiver, _, hcalled, _⟩ := h
  rw [pipeCallee_eq, hreceiver]
  exact hcalled

theorem on (h : act.CalleeRuns callee receiver function ctx ctx' config config')
    (hon : act.On ctx.code.length ops config) :
    act.On ctx'.code.length (.func function :: receiver :: ops) config' := by
  obtain ⟨_, hthis, _, hvalue⟩ := h
  exact hvalue.value _ (hthis.value _ hon)

end Activation.CalleeRuns

/-- The machine runs through the parts of a call, up to `CALL`: the arguments, the
receiver and the callee each push their one value. -/
inductive Activation.CallRuns (act : Activation) (callee : Expression) (id : ℕ)
    (arguments : List (Expression × JSValue)) (receiver : JSValue) (function : FunctionRef)
    (ctx ctx' : PipeContext) (config config' : Config) : Prop
  | mk {ctx₁ : PipeContext} {config₁ : Config}
      (harguments : act.Evaluates (argumentOrder ctx id arguments) (ctx.reverseArguments id).2 ctx₁
        config config₁)
      (hcallee : act.CalleeRuns callee receiver function ctx₁ ctx' config₁ config')

namespace Activation.CallRuns

variable {callee : Expression} {id : ℕ} {arguments : List (Expression × JSValue)}
  {receiver : JSValue} {function : FunctionRef}

theorem emits (h : act.CallRuns callee id arguments receiver function ctx ctx' config config') :
    pipeExpression (.callExpression callee id (arguments.map Prod.fst)) ctx =
      .ok (ctx'.addInstruction (.call arguments.length)) := by
  obtain ⟨harguments, hcallee⟩ := h
  rw [pipeExpression_call, argumentOrder_map, harguments.emits, Fallible.ok_bind, hcallee.emits,
    Fallible.ok_bind, List.length_map]
  rfl

theorem extends_ctx (h : act.CallRuns callee id arguments receiver function ctx ctx' config config') :
    Extends ctx ctx' := by
  obtain ⟨harguments, hcallee⟩ := h
  obtain ⟨visits, hemission, _⟩ := visits_arguments harguments.emits
  obtain ⟨visits', hemission', _⟩ := visits_callee hcallee.emits
  exact ((Extends.reverse ctx id).trans hemission.extends).trans hemission'.extends

/-- In front of `CALL` the callee is on top of the receiver and of the arguments,
the last one that was emitted uppermost. -/
theorem on (h : act.CallRuns callee id arguments receiver function ctx ctx' config config')
    (hon : act.On ctx.code.length ops config) :
    act.On ctx'.code.length (.func function :: receiver ::
      ((argumentOrder ctx id (arguments.map Prod.snd)).reverse ++ ops)) config' := by
  obtain ⟨harguments, hcallee⟩ := h
  rw [argumentOrder_map]
  have hstart : act.On (ctx.reverseArguments id).2.code.length ops config := by
    rw [PipeContext.reverseArguments_code]
    exact hon
  exact hcallee.on (harguments.on _ hstart)

end Activation.CallRuns

end AtomixJS.Compiler
