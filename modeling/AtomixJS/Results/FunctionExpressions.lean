import AtomixJS.Compiler.Occurrence
import AtomixJS.Compiler.Quiet

/-!
# Function expressions

`pipe` emits a function expression like a function declaration, and `FUNC_DECL` declares
the name in the current scope, where the code around the function can see it.  Apart from
that, the evaluation of an expression without calls and assignments leaves all bindings as
they were.
-/

namespace AtomixJS.Compiler

open SyntaxNode (Within)

/-! ## Runs of a region -/

namespace Activation

/-- The machine executes the code of the target. -/
def InModule (act : Activation) (vm : VM) : Prop :=
  ∃ module, vm.heap.modules[vm.module]? = some module ∧
    module.dataSection.instructions = act.target.code.map Instruction.loaded

/-- The machine runs through a region of the code: by the instructions of the region, and
by getters and setters that leave the bindings and the code as they were. -/
inductive RunsIn (act : Activation) (s t : ℕ) : VM → VM → Prop
  | refl (vm : VM) : RunsIn act s t vm vm
  | instruction {vm vm₁ vm' : VM} : s ≤ vm.stats.instructionCounter →
      vm.stats.instructionCounter < t → step act.host (act.config vm) = some (act.config vm₁) →
      RunsIn act s t vm₁ vm' → RunsIn act s t vm vm'
  | accessor {vm vm₁ vm' : VM} {config : Config} {n : ℕ} : s ≤ vm.stats.instructionCounter →
      vm.stats.instructionCounter < t → step act.host (act.config vm) = some config →
      Run.Through (step act.host) (fun config => ∀ vm, config ≠ act.config vm) n config
        (act.config vm₁) →
      vm.heap.SameBindings vm₁.heap vm.scope → act.InModule vm₁ →
      RunsIn act s t vm₁ vm' → RunsIn act s t vm vm'

/-- Whenever the machine has run through what was emitted between two contexts, the
current scope and the bindings from there upwards are as they were. -/
def LeavesBindings (act : Activation) (ctx ctx' : PipeContext) : Prop :=
  ∀ vm vm', act.InModule vm → vm.stats.instructionCounter = ctx.code.length →
    act.RunsIn ctx.code.length ctx'.code.length vm vm' →
    vm'.stats.instructionCounter = ctx'.code.length →
    vm'.scope = vm.scope ∧ vm.heap.SameBindings vm'.heap vm.scope

end Activation

/-- One instruction on a straight way: where it leads, and that it keeps the old scopes. -/
theorem Straight.step {code : List Instruction} {pc t : ℕ} (h : Straight code pc t) (hlt : pc < t)
    (ht : t < 2 ^ 16) :
    ∃ instruction next, code[pc]? = some instruction ∧ instruction.opcode ≠ .ret ∧
      Straight code next t ∧ ∀ (host : Host) (vm : VM), vm.stats.instructionCounter = pc + 1 →
        (execSlot host instruction.loaded vm).Ends (fun vm' => vm'.module = vm.module ∧
          vm'.scope = vm.scope ∧ vm'.stats.instructionCounter = next) ∧
        ∀ vm', execSlot host instruction.loaded vm = .done vm' →
          vm.heap.scopes <+: vm'.heap.scopes ∧ vm'.heap.modules = vm.heap.modules := by
  cases h with
  | refl => exact absurd hlt (Nat.lt_irrefl _)
  | @quiet _ _ instruction hget hquiet hrest =>
    refine ⟨instruction, pc + 1, hget, InstOf.opcode_ne_ret_of_isQuiet hquiet, hrest,
      fun host vm hcounter => ⟨?_, fun vm' hdone => ?_⟩⟩
    · exact (execSlot_quiet hquiet).ends.mono fun vm' hplace =>
        ⟨hplace.module, hplace.scope, hplace.counter.trans hcounter⟩
    · have hkeeps : (execSlot host instruction.loaded vm).Quiet vm := execSlot_quiet hquiet
      rw [hdone] at hkeeps
      exact ⟨hkeeps.scopes ▸ List.prefix_rfl, hkeeps.modules⟩
  | @function _ _ size hget hrest =>
    have hle := hrest.le
    have hsize : (UInt16.ofNat size).toNat = size := by
      rw [UInt16.toNat_ofNat', Nat.mod_eq_of_lt (by omega)]
    refine ⟨.funcDeclE size, pc + 1 + size, hget, (fun h => nomatch h), hrest,
      fun host vm hcounter => ⟨.after fun vm' hrun => ?_, fun vm' hdone => ?_⟩⟩
    · obtain ⟨hmodule, hscope, hnext, _⟩ := instFuncDecl_keeps hrun
      exact ⟨hmodule, hscope, by rw [hnext, hcounter, hsize]⟩
    · cases hrun : instFuncDecl none (UInt16.ofNat size) vm with
      | error fault =>
        have hfault : execSlot host (Instruction.loaded (.funcDeclE size)) vm = .fault fault :=
          congrArg Prog.ofExcept hrun
        rw [hfault] at hdone
        cases hdone
      | ok vm₁ =>
        have hok : execSlot host (Instruction.loaded (.funcDeclE size)) vm = .done vm₁ :=
          congrArg Prog.ofExcept hrun
        rw [hok] at hdone
        obtain rfl := Prog.done.inj hdone
        exact (instFuncDecl_keeps hrun).2.2.2

variable {act : Activation} {ctx ctx' : PipeContext}

/-- The run lemma: on a straight way the machine keeps its scope and the bindings. -/
theorem Activation.RunsIn.keeps {s t : ℕ} {vm vm' : VM} (hrun : act.RunsIn s t vm vm')
    (hlower : act.lower ≤ s) (hupper : t ≤ act.upper) (ht : t < 2 ^ 16)
    (hmodule : act.InModule vm)
    (hstraight : Straight act.target.code vm.stats.instructionCounter t) :
    vm'.scope = vm.scope ∧ vm.heap.SameBindings vm'.heap vm.scope := by
  -- what one instruction does, in front of the getter or setter that it may run
  have hstep : ∀ {vm : VM} {config : Config}, act.InModule vm →
      Straight act.target.code vm.stats.instructionCounter t → s ≤ vm.stats.instructionCounter →
      vm.stats.instructionCounter < t → AtomixJS.step act.host (act.config vm) = some config →
      config.Suspended (fun vm' => vm'.module = vm.module ∧ vm'.scope = vm.scope ∧
        Straight act.target.code vm'.stats.instructionCounter t) (act.frame :: act.frames) ∧
      ∀ vm', config = act.config vm' →
        vm.heap.scopes <+: vm'.heap.scopes ∧ vm'.heap.modules = vm.heap.modules := by
    intro vm config hmodule hstraight hs hlt hconfig
    obtain ⟨instruction, next, hget, hret, hnext, hexec⟩ := hstraight.step hlt ht
    have hhas : act.Has vm.stats.instructionCounter instruction :=
      ⟨Nat.le_trans hlower hs, Nat.lt_of_lt_of_le hlt hupper, hget⟩
    have hexecutes := step_of_executes act.host
      (Activation.executes_of_code hhas hret hmodule rfl) act.frames
    obtain rfl := Option.some.inj (hexecutes.symm.trans hconfig)
    obtain ⟨hends, hdone⟩ :=
      hexec act.host (vm.setCounter (vm.stats.instructionCounter + 1)) rfl
    refine ⟨.top (hends.mono ?_), fun vm' heq => hdone vm' (congrArg Config.prog heq)⟩
    rintro vm' ⟨hm, hscope, rfl⟩
    exact ⟨hm, hscope, hnext⟩
  induction hrun with
  | refl vm => exact ⟨rfl, .refl _ _⟩
  | @instruction vm vm₁ vm' hs hlt hconfig _ ih =>
    obtain ⟨hsuspended, hheap⟩ := hstep hmodule hstraight hs hlt hconfig
    obtain ⟨hm, hscope, hstraight₁⟩ := hsuspended.ended
    obtain ⟨hscopes, hmodules⟩ := hheap vm₁ rfl
    have hmodule₁ : act.InModule vm₁ := by
      unfold Activation.InModule
      rw [hm, hmodules]
      exact hmodule
    obtain ⟨hscope', hsame⟩ := ih hmodule₁ hstraight₁
    rw [hscope] at hscope' hsame
    exact ⟨hscope', .trans (.of_extended hscopes) hsame⟩
  | @accessor vm vm₁ vm' config n hs hlt hconfig hthrough hbindings hmodule₁ _ ih =>
    obtain ⟨hsuspended, -⟩ := hstep hmodule hstraight hs hlt hconfig
    obtain ⟨hm, hscope, hstraight₁⟩ := hsuspended.run hthrough
    obtain ⟨hscope', hsame⟩ := ih hmodule₁ hstraight₁
    rw [hscope] at hscope' hsame
    exact ⟨hscope', hbindings.trans hsame⟩

theorem Quietly.leavesBindings (h : Quietly ctx ctx') (hplaced : act.Placed ctx ctx')
    (hloads : act.target.Loads) : act.LeavesBindings ctx ctx' := by
  intro vm vm' hmodule hstart hrun _
  refine hrun.keeps hplaced.lower hplaced.upper (hplaced.lt hloads) hmodule ?_
  rw [hstart]
  exact h.straight.agree hplaced.agree

/-! ## Functions with a name -/

/-- A machine with one scope, which is empty. -/
private def machineAt (target : Target) (pc : ℕ) : VM where
  module := 0
  globalScope := 0
  scope := 0
  stats :=
    { instructionCounter := pc, stackCounter := 0, stackStart := 0, stack := fun _ => .undefined }
  heap := { Heap.empty with scopes := [rootScope []], modules := [target.module] }

theorem not_leavesBindings {name : JSString} {params : List (Option JSString)} {body : Block}
    (hrun : pipeFunction (.mk (some name) params body) ctx = .ok ctx')
    (hplaced : act.Placed ctx ctx') (hloads : act.target.Loads) : ¬ act.LeavesBindings ctx ctx' := by
  intro hleaves
  obtain ⟨idx, hlt, hget, hstring⟩ := funcDecl_emitted hrun
  have hsize : (UInt16.ofNat (ctx'.code.length - ctx.code.length - 1)).toNat =
      ctx'.code.length - ctx.code.length - 1 := by
    have hbound := hplaced.lt hloads
    rw [UInt16.toNat_ofNat', Nat.mod_eq_of_lt (by omega)]
  have hmodule : act.InModule (machineAt act.target ctx.code.length) :=
    ⟨act.target.module, rfl, act.target.instructions_eq⟩
  have hcurrent : ((machineAt act.target ctx.code.length).setCounter
      (ctx.code.length + 1)).heap.modules[0]? = some act.target.module := rfl
  obtain ⟨key, hkey, -⟩ := hloads.loadStr hcurrent (hplaced.string hstring)
  obtain ⟨vm', function, hdeclare, hcounter, hbinding⟩ := instFuncDecl_declares
    (UInt16.ofNat (ctx'.code.length - ctx.code.length - 1))
    (show 0 < stackSize by decide) (show 0 < 1 by decide) hkey
  have hstep : step act.host (act.config (machineAt act.target ctx.code.length)) =
      some (act.config vm') := by
    have hexecutes := step_of_executes act.host (Activation.executes_of_code
      (hplaced.get (Nat.le_refl _) hget) (fun h => nomatch h) hmodule rfl) act.frames
    exact hexecutes.trans (congrArg (fun result =>
      some (Config.mk (Prog.ofExcept result) (act.frame :: act.frames))) hdeclare)
  have hend : vm'.stats.instructionCounter = ctx'.code.length := by
    rw [hcounter, hsize]
    show ctx.code.length + 1 + _ = _
    omega
  obtain ⟨-, hsame⟩ := hleaves _ vm' hmodule rfl
    (.instruction (Nat.le_refl _) hlt hstep (.refl vm')) hend
  have hchain : (machineAt act.target ctx.code.length).heap.ScopeChain 0 [0] := .last rfl rfl
  have hold := congrFun ((hsame [0] hchain).2 0 (List.mem_singleton_self 0)) key
  have hempty : (machineAt act.target ctx.code.length).heap.binding 0 key = none :=
    dictGet_create scopeBucketSize scopeBucketSize_pos key
  rw [hempty] at hold
  exact nomatch hold.symm.trans hbinding

/-! ## Function expressions bind nothing -/

/-- The evaluation of an expression leaves the bindings as they were, and so does that of
every function expression in it, which therefore cannot be seen by its name. -/
structure BindsNothing (act : Activation) (v : Visit) : Prop where
  leaves : act.LeavesBindings v.before v.after
  isHidden : ∀ u f, v.Under u → u.node = .expression (.functionExpression f) →
    act.LeavesBindings u.before u.after

/-- An expression that calls and assigns nothing binds nothing exactly when no function
expression in it, at any depth, has a name. -/
theorem binds_nothing_iff {v : Visit} {e : Expression} (he : v.node = .expression e)
    (hacts : ∀ m, Evaluated e m → m.acts = false) (hplaced : act.Placed v.before v.after)
    (hloads : act.target.Loads) :
    BindsNothing act v ↔ ∀ m, Within (.expression e) (.expression m) → m.functionName? = none := by
  constructor
  · intro h m hwithin
    obtain ⟨u, hunder, hnode⟩ := Visit.exists_under (he ▸ hwithin)
    cases m with
    | functionExpression f =>
      obtain ⟨id, params, body⟩ := f
      cases id with
      | none => rfl
      | some name =>
        have hrun : pipeNode u.node u.before = .ok u.after := u.accepts
        rw [hnode] at hrun
        exact absurd (h.isHidden u _ hunder hnode)
          (not_leavesBindings hrun (hunder.placed hplaced) hloads)
    | _ => rfl
  · intro h
    refine ⟨?_, fun u f hunder hnode => ?_⟩
    · have hrun : pipeNode v.node v.before = .ok v.after := v.accepts
      rw [he] at hrun
      have hquiet := quiets_expression (fun m hm => ⟨hacts m hm, h m hm.within⟩) hrun
      exact hquiet.leavesBindings hplaced hloads
    · obtain ⟨id, params, body⟩ := f
      have hwithin := hunder.within
      rw [he, hnode] at hwithin
      obtain rfl : id = none := h _ hwithin
      have hrun : pipeNode u.node u.before = .ok u.after := u.accepts
      rw [hnode] at hrun
      exact (quiets_function hrun).leavesBindings (hunder.placed hplaced) hloads

/-! ## Two functions -/

/-- The only string of a module. -/
private theorem loads_a {target : Target} (hcode : target.code.length < 2 ^ 16)
    (hstrings : target.strings = [jsString "a"])
    (hload : stringTableLoadStr target.module.stringTable 0 = .ok (cString "a")) :
    target.Loads := by
  refine ⟨hcode, by rw [hstrings]; decide, fun i s hs => ?_⟩
  rw [hstrings] at hs
  cases i with
  | zero =>
    obtain rfl := Option.some.inj hs
    exact ⟨cString "a", hload, by decide⟩
  | succ i => cases hs

private def emptyBody : Block := .mk false []

/-- `({ a: function () {} })` -/
private def memberFunction : Expression :=
  .objectExpression [.objectProperty (jsString "a") (.functionExpression (.mk none [] emptyBody))]

/-- `(function a() {})` -/
private def namedFunction : Expression := .functionExpression (.mk (jsString "a") [] emptyBody)

private def visitOf (e : Expression) (h : ∃ ctx, pipeExpression e .empty = .ok ctx) : Visit where
  node := .expression e
  before := .empty
  after := (pipeExpression e .empty).toOption.getD .empty
  accepts := by
    obtain ⟨ctx, hctx⟩ := h
    show pipeExpression e .empty = _
    rw [hctx]
    rfl

private def memberTarget : Target where
  module := JSModule.ofCode [cString "a"] [some .objAlloc, some .dup, some (.funcDeclE 2),
    some .pushScope, some .popScope, some (.objStore 0)] one_string_lt (by decide)
  strings := [jsString "a"]
  code := [.objAlloc, .dup, .funcDeclE 2, .pushScope, .popScope, .objStore 0]
  instructions_eq := rfl

private def namedTarget : Target where
  module := JSModule.ofCode [cString "a"] [some (.funcDecl 0 2), some .pushScope, some .popScope]
    one_string_lt (by decide)
  strings := [jsString "a"]
  code := [.funcDecl 0 2, .pushScope, .popScope]
  instructions_eq := rfl

/-- The value of a member is a function without a name. -/
theorem binds_nothing_member :
    BindsNothing (activationOf memberTarget) (visitOf memberFunction ⟨_, rfl⟩) := by
  have hfunction : ∀ m, Within (.expression memberFunction) (.expression m) →
      m = memberFunction ∨ m = .functionExpression (.mk none [] emptyBody) := by
    intro m hm
    cases hm with
    | self => exact .inl rfl
    | child hc hm =>
      obtain rfl := List.mem_singleton.mp hc
      cases hm with
      | self => exact .inr rfl
      | child hc hm =>
        obtain rfl := List.mem_singleton.mp hc
        cases hm with
        | child hc hm =>
          obtain rfl := List.mem_singleton.mp hc
          cases hm with
          | child hc => exact absurd hc List.not_mem_nil
  refine (binds_nothing_iff (e := memberFunction) rfl (fun m hm => ?_) ⟨agree_extended ⟨[], rfl⟩
    (Nat.le_refl _), List.prefix_rfl, Nat.le_refl _, Nat.le_refl _⟩
    (loads_a (by decide) rfl (by decide))).mpr fun m hm => ?_
  · rcases hfunction m hm.within with rfl | rfl
    · rfl
    · rfl
  · rcases hfunction m hm with rfl | rfl
    · rfl
    · rfl

/-- The name of the function is declared around it. -/
theorem binds_nothing_named :
    ¬ BindsNothing (activationOf namedTarget) (visitOf namedFunction ⟨_, rfl⟩) := by
  intro h
  refine not_leavesBindings (visitOf namedFunction ⟨_, rfl⟩).accepts ⟨agree_extended ⟨[], rfl⟩
    (Nat.le_refl _), List.prefix_rfl, Nat.le_refl _, Nat.le_refl _⟩
    (loads_a (by decide) rfl (by decide)) h.leaves

end AtomixJS.Compiler
