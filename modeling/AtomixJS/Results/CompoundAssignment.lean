import AtomixJS.Results.EvaluationOrder
import AtomixJS.Compiler.Transform

/-!
# Compound assignment

The transform turns `left operator= right` into `left = left operator right`, so
the object and the key of a member are evaluated once to read it and, behind the
right-hand side, once more to write it.  `CompoundRun` is a run of the compiled
code up to the instruction that writes; `Config.accesses` is the location that an
instruction works on, as its handler finds it.
-/

namespace AtomixJS

/-! ## Locations -/

/-- What an assignment reads and writes. -/
inductive Location
  | binding (scope : ScopeRef) (name : CString)
  | property (object : ObjectRef) (key : PropertyKey)

namespace VM

/-- The binding that a name denotes. -/
def binding (vm : VM) (name : CString) : Option Location :=
  match scopeFind vm.heap vm.scope name with
  | .at ref _ => some (.binding ref name)
  | _ => none

def property (vm : VM) (object : JSValue) (key : Except Fault PropertyKey) : Option Location := do
  let ref ← (objectOf vm.heap object).toOption
  let key ← key.toOption
  pure (.property ref key)

/-- The location that an instruction works on. -/
def accesses (vm : VM) : Inst → Option Location
  | .loadLocal operand | .storeLocal operand => do vm.binding (← (vm.loadStr operand).toOption)
  | .objLoad operand => do
    vm.property (← vm.operands[0]?) ((vm.loadStr operand).map .string)
  | .objStore operand => do
    vm.property (← vm.operands[1]?) ((vm.loadStr operand).map .string)
  | .objCload | .objCstore => do vm.property (← vm.operands[1]?) (propertyKey (← vm.operands[0]?))
  | _ => none

end VM

/-- The location that the next instruction works on. -/
def Config.accesses (config : Config) : Option Location := do
  let vm ← config.vm?
  let module ← vm.heap.modules[vm.module]?
  match module.dataSection.instructions[vm.stats.instructionCounter]? with
  | some (some inst) => vm.accesses inst
  | _ => none

namespace Compiler

/-! ## The parts of a compound assignment -/

/-- The operators of the compound assignments with an arithmetic, bitwise or shift
operator. -/
def compoundOperators : List BinaryOperator :=
  [.plus, .minus, .times, .divide, .percent, .and, .or, .xor, .lshift, .rshift, .urshift]

namespace AssignmentTarget

/-- The object and the key. -/
def expressions : AssignmentTarget → List Expression
  | .memberExpression object property computed =>
    match staticName property computed with
    | some _ => [object]
    | none => [object, property]
  | .identifier _ | .pattern => []

/-- The instruction that reads, behind the object and the key. -/
def pipeRead (ctx : PipeContext) : AssignmentTarget → Except String PipeContext
  | .identifier name => .ok (pipeIdentifier name ctx)
  | .memberExpression _ property computed =>
    pipeMemberProperty property .ok computed ctx
  | .pattern => .error (notDeclared "Pattern")

/-- The instructions that write, behind the object and the key. -/
def pipeWrite (ctx : PipeContext) : AssignmentTarget → PipeContext
  | .identifier name => ctx.addNamed .storeLocal name
  | .memberExpression _ property computed =>
    match staticName property computed with
    | some name => (ctx.addInstruction .swap).addNamed .objStore name
    | none => ctx.addInstruction .objCstore
  | .pattern => ctx

/-- The number of instructions in front of the one that writes. -/
def swaps : AssignmentTarget → ℕ
  | .memberExpression _ property computed => (staticName property computed).toList.length
  | .identifier _ | .pattern => 0

/-- The location that the target denotes when its object and its key have the given
values. -/
def denotes (vm : VM) (values : List JSValue) : AssignmentTarget → Option Location
  | .identifier name =>
    if name = jsString "undefined" then none else vm.binding (name.map (·.toUInt8))
  | .memberExpression _ property computed =>
    match staticName property computed, values with
    | some name, [object] => vm.property object (.ok (.string (name.map (·.toUInt8))))
    | none, [object, key] => vm.property object (propertyKey key)
    | _, _ => none
  | .pattern => none

end AssignmentTarget

/-- The right-hand side, the operator, and the value twice. -/
def pipeOperation (operator : BinaryOperator) (right : Expression) (ctx : PipeContext) :
    Except String PipeContext := do
  let ctx ← pipeExpression right ctx
  let opcode ← binaryOpcode operator
  pure ((ctx.addInstruction (.binary opcode)).addInstruction .dup)

variable {target : AssignmentTarget} {operator : BinaryOperator} {right : Expression}
  {ctx ctx' ctx₁ ctx₂ ctx₃ ctx₄ : PipeContext}

/-- The emission of the object and the key, if there is one. -/
theorem pipeArguments_member {object property : Expression} {computed : Bool} :
    pipeArguments (AssignmentTarget.memberExpression object property computed).expressions ctx =
        .ok ctx' ↔
      ∃ ctx₁, pipeExpression object ctx = .ok ctx₁ ∧
        if (staticName property computed).isSome then ctx₁ = ctx'
        else pipeExpression property ctx₁ = .ok ctx' := by
  simp only [AssignmentTarget.expressions]
  cases staticName property computed <;> simp [pipeArguments]

/-- The target as it is read. -/
theorem pipeExpression_read (hparts : pipeArguments target.expressions ctx = .ok ctx₁)
    (hread : target.pipeRead ctx₁ = .ok ctx₂) :
    pipeExpression target.toExpression ctx = .ok ctx₂ := by
  cases target with
  | pattern => cases hread
  | identifier name =>
    obtain rfl := Except.ok.inj hparts
    exact hread
  | memberExpression object property computed =>
    obtain ⟨ctx₃, hobject, hkey⟩ := pipeArguments_member.mp hparts
    have hsuper : object.isSuper = false := by
      cases object with
      | super extra => cases hobject
      | _ => rfl
    simp only [AssignmentTarget.toExpression, pipeExpression, pipeMemberExpression,
      pipeMemberObject_of_not_super hsuper, hobject, Fallible.ok_bind, Bool.false_eq_true, if_false,
      pure_bind]
    cases computed with
    | false =>
      cases property with
      | identifier name =>
        obtain rfl := hkey
        exact hread
      | _ => cases hread
    | true =>
      have hproperty : pipeExpression property ctx₃ = .ok ctx₁ := hkey
      unfold pipeMemberProperty
      rw [if_pos rfl, hproperty]
      exact hread

/-- The target as it is written. -/
theorem pipeExpression_write {value : Expression}
    (hvalue : pipeAssigned value ctx = .ok ctx₁)
    (hparts : pipeArguments target.expressions ctx₁ = .ok ctx₂) (hpattern : target ≠ .pattern) :
    pipeExpression (.assignmentExpression true target value) ctx = .ok (target.pipeWrite ctx₂) := by
  cases target with
  | pattern => exact absurd rfl hpattern
  | identifier name =>
    obtain rfl := Except.ok.inj hparts
    simp only [pipeAssigned, Fallible.bind_eq_ok, Fallible.pure_eq_ok] at hvalue
    obtain ⟨ctx₃, hrun, rfl⟩ := hvalue
    simp only [pipeExpression, hrun]
    rfl
  | memberExpression object property computed =>
    have hemission := (Sequenced.assignment object property computed value).expression_emission ctx
    refine hemission.trans ?_
    obtain ⟨ctx₃, hobject, hkey⟩ := pipeArguments_member.mp hparts
    simp only [Sequenced.parts, Sequenced.entry, Sequenced.finish, AssignmentTarget.pipeWrite,
      pipeParts]
    cases hname : staticName property computed with
    | some name =>
      rw [hname] at hkey
      obtain rfl := hkey
      simp [hvalue, hobject]
    | none =>
      rw [hname] at hkey
      have hproperty : pipeExpression property ctx₃ = .ok ctx₂ := hkey
      simp [hvalue, hobject, hproperty]

/-- The emission of a compound assignment. -/
theorem pipeExpression_compound (hfirst : pipeArguments target.expressions ctx = .ok ctx₁)
    (hread : target.pipeRead ctx₁ = .ok ctx₂)
    (hvalue : pipeOperation operator right ctx₂ = .ok ctx₃)
    (hsecond : pipeArguments target.expressions ctx₃ = .ok ctx₄) :
    pipeExpression (.assignmentExpression true target
      (.binaryExpression operator target.toExpression right)) ctx = .ok (target.pipeWrite ctx₄) := by
  have hassigned : pipeAssigned (.binaryExpression operator target.toExpression right) ctx =
      .ok ctx₃ := by
    simp only [pipeOperation, Fallible.bind_eq_ok, Fallible.pure_eq_ok] at hvalue
    obtain ⟨ctx₅, hright, opcode, hopcode, rfl⟩ := hvalue
    rw [pipeAssigned, pipeExpression, pipeExpression_read hfirst hread, Fallible.ok_bind, hright,
      Fallible.ok_bind, hopcode]
    rfl
  refine pipeExpression_write hassigned hsecond ?_
  rintro rfl
  cases hread

/-! ## Runs -/

variable {act : Activation} {config config' : Config} {pc : ℕ} {ops : List JSValue}
  {instruction : Instruction}

/-- The module that the machine executes. -/
def executed (config : Config) : Option JSModule := do
  let vm ← config.vm?
  vm.heap.modules[vm.module]?

/-- A run of the code of a compound assignment: the object and the key, the rest up
to the value, which lies on the stack twice, and the object and the key again. -/
structure CompoundRun (act : Activation) (target : AssignmentTarget) (operator : BinaryOperator)
    (right : Expression) (ctx : PipeContext) where
  ctx₁ : PipeContext
  ctx₂ : PipeContext
  ctx₃ : PipeContext
  ctx₄ : PipeContext
  start : Config
  atRead : Config
  atValue : Config
  atEnd : Config
  steps : ℕ
  valueSteps : ℕ
  againSteps : ℕ
  first : List (Expression × JSValue)
  second : List (Expression × JSValue)
  ops : List JSValue
  value : JSValue
  first_nodes : first.map Prod.fst = target.expressions
  second_nodes : second.map Prod.fst = target.expressions
  evaluates : act.Evaluates first ctx ctx₁ start atRead
  run : Run.iterate (step act.host) steps start = some atRead
  emitsRead : target.pipeRead ctx₁ = .ok ctx₂
  emitsValue : pipeOperation operator right ctx₂ = .ok ctx₃
  valueRun : Run.iterate (step act.host) valueSteps atRead = some atValue
  evaluatesAgain : act.Evaluates second ctx₃ ctx₄ atValue atEnd
  againRun : Run.iterate (step act.host) againSteps atValue = some atEnd
  on : act.On ctx.code.length ops start
  onValue : act.On ctx₃.code.length (value :: value :: ops) atValue
  placed : act.Placed ctx (target.pipeWrite ctx₄)
  loads : act.target.Loads
  executed_read : executed atRead = some act.target.module
  executed_end : executed atEnd = some act.target.module

/-- The location that a target denotes in a state of the machine. -/
def AssignmentTarget.denoted (target : AssignmentTarget) (config : Config)
    (values : List (Expression × JSValue)) : Option Location := do
  target.denotes (← config.vm?) (values.map Prod.snd)

/-! ### The location of an instruction -/

theorem accesses_of_on (hon : act.On pc ops config) (hhas : act.Has pc instruction) :
    ∃ vm, config.vm? = some vm ∧ vm.operands = ops ∧
      config.accesses = instruction.loaded.bind vm.accesses := by
  obtain ⟨vm, rfl, hholds⟩ := hon
  obtain ⟨module, hmodule, hinstructions⟩ := hholds.code
  refine ⟨vm, rfl, hholds.operands, ?_⟩
  have hget : module.dataSection.instructions[vm.stats.instructionCounter]? =
      some instruction.loaded := by
    rw [hinstructions, List.getElem?_map, hholds.counter, hhas.get]
    rfl
  show (do
    let module ← vm.heap.modules[vm.module]?
    match module.dataSection.instructions[vm.stats.instructionCounter]? with
    | some (some inst) => vm.accesses inst
    | _ => none) = _
  rw [hmodule, Option.bind_eq_bind, Option.bind_some, hget]
  cases instruction.loaded <;> rfl

theorem loadStr_of_executed {vm : VM} (hloads : act.target.Loads) (hvm : config.vm? = some vm)
    (hexecuted : executed config = some act.target.module) {idx : ℕ} {name : JSString}
    (hname : act.target.strings[idx]? = some name) :
    vm.loadStr (UInt16.ofNat idx) = .ok (name.map (·.toUInt8)) := by
  rw [executed, hvm] at hexecuted
  obtain ⟨key, hload, rfl⟩ := hloads.loadStr hexecuted hname
  rw [hload, List.map_map]
  congr 1
  conv_lhs => rw [← List.map_id key]
  refine List.map_congr_left fun c _ => ?_
  simp

theorem On.swap {v w : JSValue} (hon : act.On pc (v :: w :: ops) config)
    (hhas : act.Has pc .swap) : ∃ vm vm', config.vm? = some vm ∧
      Run.iterate (step act.host) 1 config = some (act.config vm') ∧
      act.On (pc + 1) (w :: v :: ops) (act.config vm') ∧
      vm'.module = vm.module ∧ vm'.scope = vm.scope ∧ vm'.heap = vm.heap := by
  obtain ⟨vm, rfl, hholds⟩ := hon
  have hstep := step_of_executes act.host (Activation.executes hhas (by decide) hholds) act.frames
  have hsize : vm.stats.stackCounter ≤ stackSize :=
    VM.counter_of_operands hholds.operands ▸ hholds.size
  obtain ⟨vm', hswap, hrestacked⟩ := instSwap_restacked
    (show (vm.setCounter (vm.stats.instructionCounter + 1)).operands = _ from hholds.operands) hsize
  have hrest := hrestacked.rest
  refine ⟨vm, vm', rfl, ?_, ⟨vm', rfl, ?_, ?_, hrestacked.operands, hholds.size⟩, ?_, ?_, ?_⟩
  · refine (Run.iterate_succ_of_step hstep 0).trans ?_
    show some (Config.mk (Prog.ofExcept (instSwap _)) _) = _
    rw [hswap]
    rfl
  · rw [hrest]
    exact hholds.code
  · rw [hrestacked.instructionCounter, ← hholds.counter]
    rfl
  all_goals
    rw [hrest]
    rfl

/-- What the instruction that reads works on. -/
theorem accesses_read {values : List (Expression × JSValue)}
    (hnodes : values.map Prod.fst = target.expressions)
    (hread : target.pipeRead ctx₁ = .ok ctx₂) (hplaced : act.Placed ctx₁ ctx₂)
    (hloads : act.target.Loads) (hexecuted : executed config = some act.target.module)
    (hon : act.On ctx₁.code.length ((values.map Prod.snd).reverse ++ ops) config)
    (hname : target ≠ .identifier (jsString "undefined")) :
    config.accesses = target.denoted config values := by
  cases target with
  | pattern => cases hread
  | identifier name =>
    have hundefined : name ≠ jsString "undefined" := fun h => hname (by rw [h])
    obtain rfl := List.map_eq_nil_iff.mp hnodes
    obtain rfl : ctx₁.addNamed .loadLocal name = ctx₂ := by
      have hread := Except.ok.inj hread
      rwa [pipeIdentifier, if_neg hundefined] at hread
    obtain ⟨hhas, hstring⟩ := hplaced.named
    obtain ⟨vm, hvm, _, haccesses⟩ := accesses_of_on hon hhas
    have hload := loadStr_of_executed hloads hvm hexecuted hstring
    rw [haccesses, AssignmentTarget.denoted, hvm]
    show (do vm.binding (← (vm.loadStr _).toOption)) = (if _ then none else _)
    rw [hload, if_neg hundefined]
    rfl
  | memberExpression object property computed =>
    cases hstatic : staticName property computed with
    | some name =>
      obtain ⟨rfl, rfl⟩ := staticName_eq_some.mp hstatic
      obtain ⟨⟨_, o⟩, rfl, rfl⟩ := List.map_eq_singleton_iff.mp hnodes
      obtain rfl : ctx₁.addNamed .objLoad name = ctx₂ := Except.ok.inj hread
      obtain ⟨hhas, hstring⟩ := hplaced.named
      obtain ⟨vm, hvm, hoperands, haccesses⟩ := accesses_of_on hon hhas
      have hload := loadStr_of_executed hloads hvm hexecuted hstring
      rw [haccesses, AssignmentTarget.denoted, hvm]
      show (do vm.property (← vm.operands[0]?) ((vm.loadStr _).map .string)) = _
      rw [hoperands, hload]
      rfl
    | none =>
      have hcomputed : computed = true := by
        cases computed with
        | true => rfl
        | false =>
          cases property with
          | identifier name => cases hstatic
          | _ => cases hread
      subst hcomputed
      rw [AssignmentTarget.expressions, hstatic] at hnodes
      obtain ⟨⟨_, o⟩, rest, rfl, rfl, hrest⟩ := List.map_eq_cons_iff.mp hnodes
      obtain ⟨⟨_, k⟩, rfl, rfl⟩ := List.map_eq_singleton_iff.mp hrest
      obtain rfl : ctx₁.addInstruction .objCload = ctx₂ := Except.ok.inj hread
      obtain ⟨vm, hvm, hoperands, haccesses⟩ := accesses_of_on hon hplaced.added
      rw [haccesses, AssignmentTarget.denoted, hvm]
      show (do vm.property (← vm.operands[1]?) (propertyKey (← vm.operands[0]?))) = _
      rw [hoperands]
      rfl

/-- What the instruction that writes works on, behind a `SWAP` if there is one. -/
theorem accesses_write {values : List (Expression × JSValue)} {v : JSValue}
    (hnodes : values.map Prod.fst = target.expressions)
    (hplaced : act.Placed ctx₁ (target.pipeWrite ctx₁))
    (hloads : act.target.Loads) (hexecuted : executed config = some act.target.module)
    (hon : act.On ctx₁.code.length ((values.map Prod.snd).reverse ++ v :: ops) config)
    (hname : target ≠ .identifier (jsString "undefined")) (hpattern : target ≠ .pattern) :
    ((Run.iterate (step act.host) target.swaps config).getD config).accesses =
      target.denoted config values := by
  cases target with
  | pattern => exact absurd rfl hpattern
  | identifier name =>
    have hundefined : name ≠ jsString "undefined" := fun h => hname (by rw [h])
    obtain rfl := List.map_eq_nil_iff.mp hnodes
    obtain ⟨hhas, hstring⟩ := hplaced.named
    obtain ⟨vm, hvm, _, haccesses⟩ := accesses_of_on hon hhas
    have hload := loadStr_of_executed hloads hvm hexecuted hstring
    show config.accesses = _
    rw [haccesses, AssignmentTarget.denoted, hvm]
    show (do vm.binding (← (vm.loadStr _).toOption)) = (if _ then none else _)
    rw [hload, if_neg hundefined]
    rfl
  | memberExpression object property computed =>
    cases hstatic : staticName property computed with
    | some name =>
      obtain ⟨rfl, rfl⟩ := staticName_eq_some.mp hstatic
      obtain ⟨⟨_, o⟩, rfl, rfl⟩ := List.map_eq_singleton_iff.mp hnodes
      have hswap : act.Placed ctx₁ (ctx₁.addInstruction .swap) :=
        hplaced.first (Extends.addNamed _ _ _)
      obtain ⟨vm, vm', hvm, hstep, hon', hmodule, hscope, hheap⟩ := On.swap hon hswap.added
      have hstore := hplaced.second (Extends.add ctx₁ .swap)
      obtain ⟨hhas, hstring⟩ := hstore.named
      rw [addInstruction_length] at hhas
      obtain ⟨_, hvm', hoperands, haccesses⟩ := accesses_of_on hon' hhas
      obtain rfl := Option.some.inj hvm'
      have hexecuted' : executed (act.config vm') = some act.target.module := by
        rw [executed, hvm] at hexecuted
        show vm'.heap.modules[vm'.module]? = _
        rw [hheap, hmodule]
        exact hexecuted
      have hload := loadStr_of_executed hloads rfl hexecuted' hstring
      show ((Run.iterate (step act.host) 1 config).getD config).accesses = _
      rw [hstep, Option.getD_some, haccesses, AssignmentTarget.denoted, hvm]
      show (do vm'.property (← vm'.operands[1]?) ((vm'.loadStr _).map .string)) = _
      rw [hoperands, hload]
      show (do
        let ref ← (objectOf vm'.heap o).toOption
        _) = _
      rw [hheap]
      rfl
    | none =>
      have hswaps : (AssignmentTarget.memberExpression object property computed).swaps = 0 := by
        rw [AssignmentTarget.swaps, hstatic]
        rfl
      rw [hswaps]
      rw [AssignmentTarget.expressions, hstatic] at hnodes
      obtain ⟨⟨_, o⟩, rest, rfl, rfl, hrest⟩ := List.map_eq_cons_iff.mp hnodes
      obtain ⟨⟨_, k⟩, rfl, rfl⟩ := List.map_eq_singleton_iff.mp hrest
      have hplaced : act.Placed ctx₁ (ctx₁.addInstruction .objCstore) := by
        simpa only [AssignmentTarget.pipeWrite, hstatic] using hplaced
      obtain ⟨vm, hvm, hoperands, haccesses⟩ := accesses_of_on hon hplaced.added
      show config.accesses = _
      rw [haccesses, AssignmentTarget.denoted, hvm, Option.bind_eq_bind, Option.bind_some]
      simp only [AssignmentTarget.denotes, hstatic]
      show (do vm.property (← vm.operands[1]?) (propertyKey (← vm.operands[0]?))) = _
      rw [hoperands]
      rfl

namespace CompoundRun

variable {act : Activation} (run : CompoundRun act target operator right ctx) {ε : Type*}
  (effect : Config → Option ε)

/-- The effects in the whole run that the object and the key have. -/
def targetEffects : List ε :=
  ((Run.labelled (step act.host) effect
    [(true, run.steps), (false, run.valueSteps), (true, run.againSteps)] run.start).filter
      Prod.fst).map Prod.snd

/-- The state in front of the instruction that writes. -/
def atWrite : Config :=
  (Run.iterate (step act.host) target.swaps run.atEnd).getD run.atEnd

/-- The object and the key have the effects of one evaluation, and what is written
is what was read. -/
def Once : Prop :=
  run.targetEffects effect = Run.observed (step act.host) effect run.steps run.start ∧
    ∃ location, run.atRead.accesses = some location ∧ run.atWrite.accesses = some location

/-- Behind the right-hand side, the object and the key have no effects and denote
the same location as before. -/
def Stable : Prop :=
  Run.observed (step act.host) effect run.againSteps run.atValue = [] ∧
    ∃ location, target.denoted run.atRead run.first = some location ∧
      target.denoted run.atEnd run.second = some location

theorem targetEffects_eq : run.targetEffects effect =
    Run.observed (step act.host) effect run.steps run.start ++
      Run.observed (step act.host) effect run.againSteps run.atValue := by
  have hagain : Run.labelled (step act.host) effect [(true, run.againSteps)] run.atValue =
      (Run.observed (step act.host) effect run.againSteps run.atValue).map (Prod.mk true) := by
    rw [Run.labelled_cons run.againRun]
    exact List.append_nil _
  rw [targetEffects, Run.labelled_cons run.run, Run.labelled_cons run.valueRun, hagain]
  simp [List.filter_map, Function.comp_def]

/-- The emission of the code, and where its parts stand. -/
theorem emits : pipeExpression (.assignmentExpression true target
    (.binaryExpression operator target.toExpression right)) ctx =
      .ok (target.pipeWrite run.ctx₄) := by
  have hfirst := run.evaluates.emits
  have hsecond := run.evaluatesAgain.emits
  rw [run.first_nodes] at hfirst
  rw [run.second_nodes] at hsecond
  exact pipeExpression_compound hfirst run.emitsRead run.emitsValue hsecond

theorem extends_read : Extends run.ctx₁ run.ctx₂ := by
  have hread := run.emitsRead
  cases target with
  | pattern => cases hread
  | identifier name =>
    obtain ⟨visits, hemission, _⟩ := visits_identifier name run.ctx₁
    exact Except.ok.inj hread ▸ hemission.extends
  | memberExpression object property computed =>
    cases computed with
    | true => exact Except.ok.inj hread ▸ Extends.add run.ctx₁ .objCload
    | false =>
      cases property with
      | identifier name => exact Except.ok.inj hread ▸ Extends.addNamed run.ctx₁ .objLoad name
      | _ => cases hread

theorem extends_value : Extends run.ctx₂ run.ctx₃ := by
  have hoperation := run.emitsValue
  simp only [pipeOperation, Fallible.bind_eq_ok, Fallible.pure_eq_ok] at hoperation
  obtain ⟨ctx₅, hright, opcode, _, hctx⟩ := hoperation
  have hright : Extends run.ctx₂ ctx₅ := extends_node (n := .expression right) hright
  rw [← hctx]
  exact (hright.trans (Extends.add _ _)).trans (Extends.add _ _)

theorem placed_write : act.Placed run.ctx₄ (target.pipeWrite run.ctx₄) := by
  obtain ⟨_, hfirst, _⟩ := visits_arguments run.evaluates.emits
  obtain ⟨_, hsecond, _⟩ := visits_arguments run.evaluatesAgain.emits
  exact run.placed.second (hfirst.extends.trans (run.extends_read.trans
    (run.extends_value.trans hsecond.extends)))

theorem placed_read : act.Placed run.ctx₁ run.ctx₂ := by
  obtain ⟨_, hfirst, _⟩ := visits_arguments run.evaluates.emits
  obtain ⟨_, hsecond, _⟩ := visits_arguments run.evaluatesAgain.emits
  have hwrite : Extends run.ctx₄ (target.pipeWrite run.ctx₄) := by
    unfold AssignmentTarget.pipeWrite
    split
    · exact .addNamed _ _ _
    · split
      · exact (Extends.add _ _).trans (.addNamed _ _ _)
      · exact .add _ _
    · exact .refl _
  exact (run.placed.second hfirst.extends).first
    ((run.extends_value.trans hsecond.extends).trans hwrite)

/-- For every run. -/
theorem once_iff : run.Once effect ↔ run.Stable effect := by
  have hpattern : target ≠ .pattern := by
    rintro rfl
    cases run.emitsRead
  have heffects : run.targetEffects effect =
        Run.observed (step act.host) effect run.steps run.start ↔
      Run.observed (step act.host) effect run.againSteps run.atValue = [] := by
    rw [run.targetEffects_eq]
    exact List.append_right_eq_self
  have honRead := run.evaluates.on run.ops run.on
  have honEnd := run.evaluatesAgain.on _ run.onValue
  by_cases hname : target = .identifier (jsString "undefined")
  · -- `undefined` is no variable: `LD_UNDF` reads nothing
    subst hname
    have hldUndf : run.ctx₁.addInstruction .ldUndf = run.ctx₂ := by
      have hread := Except.ok.inj run.emitsRead
      rwa [pipeIdentifier, if_pos rfl] at hread
    obtain ⟨vm, hvm, _, haccesses⟩ := accesses_of_on honRead (hldUndf ▸ run.placed_read).added
    have hreads : run.atRead.accesses = none := haccesses
    have hdenoted : AssignmentTarget.denoted (.identifier (jsString "undefined")) run.atRead
        run.first = none := by
      rw [AssignmentTarget.denoted, hvm, Option.bind_eq_bind, Option.bind_some,
        AssignmentTarget.denotes, if_pos rfl]
    simp [Once, Stable, hreads, hdenoted]
  · have hread := accesses_read run.first_nodes run.emitsRead run.placed_read run.loads
      run.executed_read honRead hname
    have hwrite := accesses_write run.second_nodes run.placed_write run.loads run.executed_end honEnd
      hname hpattern
    rw [Once, Stable, heffects, hread, atWrite, hwrite]

end CompoundRun

theorem assignmentExpression_compound (hoperator : operator ∈ compoundOperators) :
    assignmentExpression (operator.text ++ "=") target right =
      .assignmentExpression true target
        (.binaryExpression operator target.toExpression right) := by
  have hknown : operator ∈ binaryOperators := by
    simp only [compoundOperators, List.mem_cons, List.not_mem_nil, or_false] at hoperator
    rcases hoperator with rfl | rfl | rfl | rfl | rfl | rfl | rfl | rfl | rfl | rfl | rfl <;> decide
  have hother : operator.text ++ "=" ≠ "=" := by
    simp only [compoundOperators, List.mem_cons, List.not_mem_nil, or_false] at hoperator
    rcases hoperator with rfl | rfl | rfl | rfl | rfl | rfl | rfl | rfl | rfl | rfl | rfl <;> decide
  rw [assignmentExpression, if_neg hother, withoutLast_append, ofText_text hknown]

/-- `({}).x` -/
def newMember : AssignmentTarget :=
  .memberExpression (.objectExpression []) (.identifier (jsString "x")) false

/-- Code of `({}).x |= null`. -/
def newMemberTarget : Target where
  module := JSModule.ofCode [cString "x"]
    [some .objAlloc, some (.objLoad 0), some .ldNull, some (.binary .binaryOr), some .dup,
      some .objAlloc, some .swap, some (.objStore 0)] (by decide) (by decide)
  strings := [jsString "x"]
  code := [.objAlloc, .objLoad 0, .ldNull, .binary .binaryOr, .dup, .objAlloc, .swap, .objStore 0]
  instructions_eq := rfl

def newMemberConfig : ℕ → Config := configOf newMemberTarget Heap.empty 0

theorem newMember_run {m n : ℕ} (h : m + n ≤ 7) :
    Run.iterate (step (activationOf newMemberTarget).host) n (newMemberConfig m) =
      some (newMemberConfig (m + n)) :=
  configOf_run (k := 7) rfl h

theorem newMember_loads : newMemberTarget.Loads := by
  refine ⟨by decide, by decide, fun i s hs => ?_⟩
  cases i with
  | zero =>
    obtain rfl := Option.some.inj hs
    exact ⟨cString "x", by decide, by decide⟩
  | succ i => cases hs

/-- The operands in front of the two evaluations of the object and behind them. -/
theorem newMember_on :
    (activationOf newMemberTarget).On 0 [] (newMemberConfig 0) ∧
    (activationOf newMemberTarget).On 1 [.object 1] (newMemberConfig 1) ∧
    (activationOf newMemberTarget).On 5 [.integer 0, .integer 0] (newMemberConfig 5) ∧
    (activationOf newMemberTarget).On 6 [.object 2, .integer 0, .integer 0] (newMemberConfig 6) := by
  refine ⟨?_, ?_, ?_, ?_⟩ <;> exact ⟨_, rfl, ⟨_, rfl, rfl⟩, rfl, rfl, by decide⟩

def newMemberRun : CompoundRun (activationOf newMemberTarget) newMember .or .nullLiteral .empty where
  ctx₁ := PipeContext.empty.addInstruction .objAlloc
  ctx₂ := (PipeContext.empty.addInstruction .objAlloc).addNamed .objLoad (jsString "x")
  ctx₃ := ((((PipeContext.empty.addInstruction .objAlloc).addNamed .objLoad
    (jsString "x")).addInstruction .ldNull).addInstruction (.binary .binaryOr)).addInstruction .dup
  ctx₄ := (((((PipeContext.empty.addInstruction .objAlloc).addNamed .objLoad
    (jsString "x")).addInstruction .ldNull).addInstruction (.binary .binaryOr)).addInstruction
      .dup).addInstruction .objAlloc
  start := newMemberConfig 0
  atRead := newMemberConfig 1
  atValue := newMemberConfig 5
  atEnd := newMemberConfig 6
  steps := 1
  valueSteps := 4
  againSteps := 1
  first := [(.objectExpression [], .object 1)]
  second := [(.objectExpression [], .object 2)]
  ops := []
  value := .integer 0
  first_nodes := rfl
  second_nodes := rfl
  evaluates := .cons rfl (.of_on ⟨1, newMember_run (by decide)⟩ newMember_on.1 newMember_on.2.1)
    (.nil _ _)
  run := newMember_run (by decide)
  emitsRead := rfl
  emitsValue := rfl
  valueRun := newMember_run (by decide)
  evaluatesAgain := .cons rfl
    (.of_on ⟨1, newMember_run (by decide)⟩ newMember_on.2.2.1 newMember_on.2.2.2) (.nil _ _)
  againRun := newMember_run (by decide)
  on := newMember_on.1
  onValue := newMember_on.2.2.1
  placed := ⟨agree_extended ⟨[], rfl⟩ (Nat.le_refl _), List.prefix_rfl, Nat.le_refl _,
    Nat.le_refl _⟩
  loads := newMember_loads
  executed_read := rfl
  executed_end := rfl

end Compiler

end AtomixJS
