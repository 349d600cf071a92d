import AtomixJS.Core.Launch
import AtomixJS.Results.BundleCodec
import AtomixJS.Results.CompiledModules
import AtomixJS.Results.CoreCompilation
import AtomixJS.Results.MemorySafety
import AtomixJS.Results.ModuleLookup

/-!
# From the source to the end of the run

A program of the core is compiled and written, as a module or as a bundle of it alone.  `main` loads
the file, makes the machine and executes the module in a scope below the global one.  The run ends
as the reference semantics says, or goes on for ever with it.
-/

namespace AtomixJS

open Segment Compiler

/-! ## Files -/

/-- `main` is about to execute the module, in an empty scope. -/
structure Program.Enters (program : Program) (module : JSModule) (s : ScopeRef) : Prop where
  entry : program.vm.heap.modules[program.entry]? = some module
  scope : module.scope = some s
  empty : ∀ key, program.vm.heap.binding s key = none

variable {m : ModuleFormat} {scope : ScopeRef} {stack : ℕ → JSValue}

namespace Compiler.ModuleFormat

/-- The file of a module, and the file of the bundle that it is the entry of. -/
def files (m : ModuleFormat) : List (Except String (List UInt8)) :=
  [m.writeTo, (buildBundle m.header.hash [m]).writeTo]

theorem main_of_module (hwell : m.WellFormed) :
    ∃ program module s, main m.bytes scope stack = .ok (some program) ∧
      module.Carries m.header.hash m.stableSection.strings m.dataSection.instructions ∧
      program.Enters module s := by
  obtain ⟨exports, s, heap, hload⟩ :=
    moduleLoadFromBufferOffset_of_at hwell (by simpa using at_of_append [] m.bytes []) Heap.empty
  have hmagic : m.bytes.take 4 = [0x2E, 0x41, 0x78, 0x4D] := rfl
  have hunknown : unknownLoadFromBuffer m.bytes 0 Heap.empty =
      .ok (.module (m.loaded hwell exports s), heap) := by
    unfold unknownLoadFromBuffer moduleLoadFromBuffer
    rw [if_pos hmagic, hload]
    rfl
  obtain ⟨hfresh, hmodule, _⟩ := unknownLoad_fresh .empty hunknown
  have hloaded : ∀ m' ∈ [m.loaded hwell exports s], m'.Loaded heap := fun m' hm' =>
    List.mem_singleton.mp hm' ▸ hmodule _ rfl
  obtain ⟨s', hs', hscope⟩ := (hmodule _ rfl).scope
  obtain ⟨vm, hvm, _, hmodules, hempty⟩ := vmInit_outside hfresh hloaded 0 scope stack
  refine ⟨⟨⟨[], []⟩, vm, 0⟩, _, s', ?_, loaded_carries hwell exports s, ?_, hscope, hempty s' hs'⟩
  · unfold main
    simp only [hunknown, Fallible.ok_bind, hvm]
    rfl
  · rw [hmodules]
    rfl

/-- The entry of a bundle of one module is this module. -/
theorem getModule_of_one {bundle : JSBundle} {module : JSModule} {hash : UInt64} (heap : Heap)
    (hmodules : bundle.modules = [module]) (hhash : module.header.hash = hash) :
    Linkage.getModule ⟨[(bundle, List.range bundle.modules.length)], []⟩ heap (some 0) hash =
      .ok 0 := by
  have hhashes : bundle.hashes = [hash] := by
    rw [JSBundle.hashes, hmodules, List.map_singleton, hhash]
  have hfound : bundleGetModule (some bundle) [] hash = .ok (.bundle 0) := by
    rw [bundleGetModule_of_spans [] (hhashes ▸ List.pairwise_singleton _ _)
      ⟨hash, hash, by rw [hhashes]; rfl, by rw [hhashes]; rfl, le_refl _, le_refl _⟩]
    unfold lookupModule
    rw [JSBundle.findIdx?_of_hash (hhashes ▸ List.pairwise_singleton _ _) (i := 0)
      (by rw [hhashes]; rfl)]
  unfold Linkage.getModule
  simp only [List.filterMap_nil, Option.bind_some, List.getElem?_cons_zero, Option.map_some, hfound,
    Fallible.ok_bind, hmodules]
  rfl

theorem main_of_bundle (hwell : m.WellFormed) (hhash : m.header.hash ≠ (0, 0)) :
    ∃ program module s, main (bundleBytes m.header.hash [m]) scope stack = .ok (some program) ∧
      module.Carries m.header.hash m.stableSection.strings m.dataSection.instructions ∧
      program.Enters module s := by
  have hall : ∀ m' ∈ [m], m'.WellFormed := fun m' hm' => List.mem_singleton.mp hm' ▸ hwell
  obtain ⟨loaded, state, hsteps, hcarries⟩ :=
    steps_of_le_one hall (Nat.le_refl 1) (at_bundleBytes m.header.hash [m]) Heap.empty
  obtain ⟨module, rest, hmodule, hrest, rfl⟩ := List.forall₂_cons_right_iff.mp hcarries
  obtain rfl := List.forall₂_nil_right_iff.mp hrest
  -- the bundle holds this module, with a pointer to the bundle
  obtain ⟨bundle, heap, hload, hmodules, hentry⟩ : ∃ bundle heap,
      bundleLoadFromBuffer (bundleBytes m.header.hash [m]) 0 Heap.empty = .ok (bundle, heap) ∧
        bundle.modules = [{ module with bundle := some 0 }] ∧ bundle.entryPoint =
          UInt64.ofNat (m.header.hash.2.toNat * 2 ^ 32 + m.header.hash.1.toNat) := by
    have hone : [m].length < 2 ^ 16 := (by decide : 1 < 2 ^ 16)
    have hload := @bundleLoadFromBuffer_bundleBytes [m] m.header.hash hone 0 Heap.empty
    have hcount : [module].length = (UInt16.ofNat [m].length).toNat := rfl
    rw [Fallible.times_of_steps hsteps hcount, Fallible.ok_bind] at hload
    exact ⟨_, _, hload, rfl, rfl⟩
  have hword : bundle.entryPoint.toNat = m.header.hash.2.toNat * 2 ^ 32 + m.header.hash.1.toNat := by
    rw [hentry, toNat_words]
  have hsame : module.header.hash = bundle.entryPoint :=
    UInt64.toNat_inj.mp (hmodule.hash_eq.trans hword.symm)
  have hne : bundle.entryPoint ≠ 0 := by
    intro hzero
    rw [hzero, UInt64.toNat_zero] at hword
    apply hhash
    apply Prod.ext
    · exact UInt32.toNat_inj.mp (by rw [UInt32.toNat_zero]; omega)
    · exact UInt32.toNat_inj.mp (by rw [UInt32.toNat_zero]; omega)
  have hmagic : (bundleBytes m.header.hash [m]).take 4 ≠ [0x2E, 0x41, 0x78, 0x4D] := by
    have htake : (bundleBytes m.header.hash [m]).take 4 = [46, 65, 120, 66] := rfl
    rw [htake]
    decide
  have hunknown : unknownLoadFromBuffer (bundleBytes m.header.hash [m]) 0 Heap.empty =
      .ok (.bundle bundle, heap) := by
    unfold unknownLoadFromBuffer
    rw [if_neg hmagic, hload]
    rfl
  obtain ⟨hfresh, _, hbundle⟩ := unknownLoad_fresh .empty hunknown
  have hloaded := hbundle bundle rfl
  obtain ⟨s', hs', hscope⟩ := (hloaded _ (hmodules ▸ List.mem_singleton_self _)).scope
  obtain ⟨vm, hvm, _, hkept, hempty⟩ := vmInit_outside hfresh hloaded 0 scope stack
  refine ⟨⟨⟨[(bundle, List.range bundle.modules.length)], []⟩, vm, 0⟩, _, s', ?_, ?_, ?_, hscope,
    hempty s' hs'⟩
  · unfold main
    simp only [hunknown, Fallible.ok_bind, if_neg hne]
    rw [getModule_of_one _ hmodules hsame, Fallible.ok_bind, hvm]
    rfl
  · exact ⟨hmodule.hash_eq, hmodule.instructions_eq, hmodule.operands_eq, hmodule.count_eq,
      hmodule.strings_eq⟩
  · rw [hkept, hmodules]
    rfl

/-- Either file is written, loaded and executed. -/
theorem main_of_file (hwell : m.WellFormed) (hhash : m.header.hash ≠ (0, 0))
    {written : Except String (List UInt8)} (hwritten : written ∈ m.files) :
    ∃ file program module s, written = .ok file ∧ main file scope stack = .ok (some program) ∧
      module.Carries m.header.hash m.stableSection.strings m.dataSection.instructions ∧
      program.Enters module s := by
  rcases List.mem_pair.mp hwritten with rfl | rfl
  · exact ⟨_, (main_of_module hwell).imp fun _ h => h.imp fun _ h => h.imp fun _ h =>
      ⟨writeTo_eq hwell, h⟩⟩
  · have hall : ∀ m' ∈ [m], m'.WellFormed := fun m' hm' => List.mem_singleton.mp hm' ▸ hwell
    have hone : [m].length < 2 ^ 16 := (by decide : 1 < 2 ^ 16)
    have hsorted : sortModules [m] = [m] := sortModules_of_le_one (Nat.le_refl 1)
    have hbundle := @buildBundle_writeTo [m] m.header.hash hall
    rw [if_pos hone, hsorted] at hbundle
    exact ⟨_, (main_of_bundle hwell hhash).imp fun _ h => h.imp fun _ h => h.imp fun _ h =>
      ⟨hbundle, h⟩⟩

end Compiler.ModuleFormat

namespace Compiler

/-! ## Programs of the core -/

/-- The only numbers of the core are literals of 31 bits. -/
theorem CoreExpression.small (e : CoreExpression) :
    ∀ n, (SyntaxNode.expression e.node).Within n → n.Small := by
  induction e with
  | int k =>
    refine SyntaxNode.forall_within (fun n hn => ?_) fun c hc => absurd hc List.not_mem_nil
    obtain rfl := Option.some.inj ((whole?_literal k).symm.trans hn)
    have hlt := k.isLt
    omega
  | bool value => exact SyntaxNode.forall_within trivial fun c hc => absurd hc List.not_mem_nil
  | null => exact SyntaxNode.forall_within trivial fun c hc => absurd hc List.not_mem_nil
  | identifier name =>
    exact SyntaxNode.forall_within trivial fun c hc => absurd hc List.not_mem_nil
  | binary operator left right ihl ihr =>
    refine SyntaxNode.forall_within trivial fun c hc => ?_
    rcases List.mem_pair.mp hc with rfl | rfl
    · exact ihl
    · exact ihr
  | unary operator argument ih =>
    refine SyntaxNode.forall_within trivial fun c hc => ?_
    obtain rfl := List.mem_singleton.mp hc
    exact ih
  | void argument ih =>
    refine SyntaxNode.forall_within trivial fun c hc => ?_
    obtain rfl := List.mem_singleton.mp hc
    exact ih
  | assign name value ih =>
    refine SyntaxNode.forall_within trivial fun c hc => ?_
    obtain rfl := List.mem_singleton.mp hc
    exact ih

theorem declarator_small (declarator : JSString × Option CoreExpression) :
    ∀ n, (SyntaxNode.declarator (declaratorNode declarator)).Within n → n.Small := by
  obtain ⟨name, init⟩ := declarator
  refine SyntaxNode.forall_within trivial fun c hc => ?_
  cases init with
  | none => exact absurd hc List.not_mem_nil
  | some e =>
    obtain rfl := List.mem_singleton.mp hc
    exact e.small

mutual

theorem statement_small (s : CoreStatement) :
    ∀ n, (SyntaxNode.statement s.node).Within n → n.Small := by
  match s with
  | .expression e =>
    refine SyntaxNode.forall_within trivial fun c hc => ?_
    obtain rfl := List.mem_singleton.mp hc
    exact e.small
  | .declare declarators =>
    refine SyntaxNode.forall_within trivial fun c hc => ?_
    obtain rfl := List.mem_singleton.mp hc
    refine SyntaxNode.forall_within trivial fun c hc => ?_
    obtain ⟨_, hd, rfl⟩ := List.mem_map.mp hc
    obtain ⟨declarator, _, rfl⟩ := List.mem_map.mp hd
    exact declarator_small declarator
  | .block body =>
    refine SyntaxNode.forall_within trivial fun c hc => ?_
    obtain rfl := List.mem_singleton.mp hc
    exact SyntaxNode.forall_within trivial (items_small body)
  | .ifThen test consequent =>
    refine SyntaxNode.forall_within trivial fun c hc => ?_
    rcases List.mem_pair.mp hc with rfl | rfl
    · exact test.small
    · exact statement_small consequent
  | .ifElse test consequent alternate =>
    refine SyntaxNode.forall_within trivial fun c hc => ?_
    rcases List.mem_cons.mp hc with rfl | hc
    · exact test.small
    · rcases List.mem_pair.mp hc with rfl | rfl
      · exact statement_small consequent
      · exact statement_small alternate
  | .while test body =>
    refine SyntaxNode.forall_within trivial fun c hc => ?_
    rcases List.mem_pair.mp hc with rfl | rfl
    · exact test.small
    · exact statement_small body

theorem items_small (body : List CoreStatement) :
    ∀ c ∈ (nodes body).map SyntaxNode.item, ∀ n, c.Within n → n.Small := by
  match body with
  | [] => exact fun c hc => absurd hc List.not_mem_nil
  | s :: rest =>
    intro c hc
    rcases List.mem_cons.mp hc with rfl | hc
    · refine SyntaxNode.forall_within trivial fun c hc => ?_
      obtain rfl := List.mem_singleton.mp hc
      exact statement_small s
    · exact items_small rest c hc

end

theorem program_small (program : List CoreStatement) :
    ∀ n, (SyntaxNode.program (nodes program)).Within n → n.Small :=
  SyntaxNode.forall_within trivial (items_small program)

end Compiler

/-! ## Entering and leaving the module -/

variable {program : Program} {target : Target} {s : ScopeRef} {address : JSValue → CInt}
  {indexFirst : Bool}

theorem module_ne_function (stop : ℕ) : FrameKind.module ≠ .function stop := by
  simp

/-- The machine that executes the module of a program. -/
def Program.activation (program : Program) (address : JSValue → CInt) (indexFirst : Bool)
    (target : Target) : Activation :=
  { activationOf target with
    host := sourceHost program.link address indexFirst
    frame := ⟨program.vm.module, program.vm.stats, program.vm.scope, .module, fun vm _ => .done vm⟩
    inLoop := fun stop h => absurd h (module_ne_function stop) }

theorem stepExecModule_of_scope {vm : VM} {entry : ModuleRef} {module : JSModule} {next : VM → Prog}
    {frames : List Frame} (hmodule : vm.heap.modules[entry]? = some module)
    (hscope : module.scope = some s) (hlt : s < vm.heap.scopes.length) :
    stepExecModule vm entry next frames = ⟨.done (enterModule vm entry s),
      ⟨vm.module, vm.stats, vm.scope, .module, fun vm _ => next vm⟩ :: frames⟩ := by
  obtain ⟨bundle, header, stringTable, dataSection, initialized, exports, scope⟩ := module
  obtain rfl : scope = some s := hscope
  unfold stepExecModule
  rw [hmodule]
  exact if_pos hlt

/-- The first step enters the module, below the global scope. -/
theorem Program.Enters.first {globals : JSString → Option JSValue}
    (henters : program.Enters target.module s) (hsound : program.Sound) (hloads : target.Loads)
    (hglobals : Binds program.vm.heap program.vm.globalScope globals) :
    ∃ config, program.Reaches address indexFirst 1 config ∧
      (program.activation address indexFirst target).At 0 [] [s, program.vm.globalScope]
        [fun _ => none, globals] config := by
  obtain ⟨_, hscope, _⟩ := hsound.heap.module _ (List.mem_of_getElem? henters.entry)
  obtain ⟨hne, node, hnode, _⟩ := hscope s henters.scope
  obtain ⟨root, hroot, hlast⟩ := hsound.heap.global.last_node
  have hlt : s < program.vm.heap.scopes.length := (List.getElem?_eq_some_iff.mp hnode).1
  have hbinding := binding_setParent program.vm.heap s program.vm.globalScope
  refine ⟨(program.activation address indexFirst target).config (enterModule program.vm program.entry s),
    ?_, _, rfl, hloads, henters.entry, rfl, rfl, Nat.zero_le _, ?_, ?_⟩
  · have hstep : step (sourceHost program.link address indexFirst)
        (mainConfig program.vm program.entry) =
        some (stepExecModule program.vm program.entry .done []) := rfl
    rw [stepExecModule_of_scope henters.entry henters.scope hlt] at hstep
    exact Run.iterate_succ_of_step hstep 0
  · have hentered : (enterModule program.vm program.entry s).heap.scopes[s]? =
        some { node with parent := some program.vm.globalScope } := by
      simp [enterModule, hnode]
    have hglobal : (enterModule program.vm program.entry s).heap.scopes[program.vm.globalScope]? =
        some root := by
      simp [enterModule, hroot, hne]
    exact .next hentered rfl (.last hglobal hlast)
  · refine .cons (fun key => ?_) (.cons (fun key => ?_) .nil)
    · exact (congrFun (congrFun hbinding s) key).trans (henters.empty key)
    · exact (congrFun (congrFun hbinding _) key).trans (hglobals key)

/-- Behind the last instruction the module is left, and the run has ended. -/
theorem Program.Enters.last {n : ℕ} {config : Config} {refs : List ScopeRef} {env : Env}
    (hrun : program.Reaches address indexFirst n config)
    (hat : (program.activation address indexFirst target).At target.code.length [] refs env config) :
    ∃ vm, program.Reaches address indexFirst (n + 1) ⟨.done vm, []⟩ ∧ Matches vm.heap refs env := by
  obtain ⟨vm, rfl, hstands⟩ := hat
  refine ⟨(program.activation address indexFirst target).frame.restore vm, ?_, hstands.bindings⟩
  have hcurrent : vm.currentModule = .ok target.module := by
    rw [VM.currentModule, hstands.module_eq]
    rfl
  have hcount : target.module.dataSection.count.toNat = target.code.length := by
    rw [← target.module.dataSection.count_eq, target.instructions_eq, List.length_map]
  have hcontinues : FrameKind.module.continues vm = .ok false := by
    simp [FrameKind.continues, hcurrent, hcount, hstands.counter]
  have hstep : step (sourceHost program.link address indexFirst)
      ((program.activation address indexFirst target).config vm) =
        some ⟨.done ((program.activation address indexFirst target).frame.restore vm), []⟩ := by
    have hkind : (program.activation address indexFirst target).frame.kind.continues vm =
        .ok false := hcontinues
    have hresult : (program.activation address indexFirst target).frame.kind.result vm =
        .ok .undefined := rfl
    simp only [step, Activation.config, stepLoop, hkind, hresult]
    rfl
  unfold Program.Reaches at hrun ⊢
  rw [Run.iterate_add, hrun, Option.bind_some]
  exact Run.iterate_succ_of_step hstep 0

/-! ## Runs -/

/-- **Compiled programs run.**  A program of the core within the limits of the format is written, as
a module and as a bundle of it alone, and either file is loaded and executed by `main`.  Where the
reference semantics ends, the run ends, and the module's scope and the global one then hold what it
says; where it never ends, the run goes on for ever. -/
theorem core_runs (source : List CoreStatement) (hash : UInt32 × UInt32) (hhash : hash ≠ (0, 0))
    {ctx : PipeContext} (hrun : beginPipe (nodes source) PipeContext.empty = .ok ctx)
    (hlimited : ctx.Limited) (scope : ScopeRef) (stack : ℕ → JSValue) :
    ∀ written ∈ (buildModule hash ctx.stable ctx.data).files,
      ∃ file program module s, written = .ok file ∧ main file scope stack = .ok (some program) ∧
        program.Enters module s ∧
        ∀ globals, Binds program.vm.heap program.vm.globalScope globals →
          ∀ address indexFirst,
            (∀ fuel env, execAll address hasRoom fuel source 0 [fun _ => none, globals] = .ok env →
              ∃ n vm, program.Reaches address indexFirst n ⟨.done vm, []⟩ ∧
                Matches vm.heap [s, program.vm.globalScope] env) ∧
            ((∀ fuel, execAll address hasRoom fuel source 0 [fun _ => none, globals] = .timeout) →
              ∀ n, ∃ config, program.Reaches address indexFirst n config) := by
  intro written hwritten
  have hwell := wellFormed_of_beginPipe hash hrun hlimited (program_small source)
  obtain ⟨file, program, module, s, hfile, hmain, hcarries, henters⟩ :=
    ModuleFormat.main_of_file hwell hhash hwritten
  refine ⟨file, program, module, s, hfile, hmain, henters, fun globals hglobals address indexFirst => ?_⟩
  -- the module holds the code that was generated
  obtain ⟨target, rfl, hstrings, hcode⟩ : ∃ target : Target, target.module = module ∧
      target.strings = ctx.stable.strings ∧ target.code = ctx.code :=
    ⟨⟨module, _, _, hcarries.instructions_eq⟩, rfl, rfl, rfl⟩
  have hloads : target.Loads :=
    ⟨hcode ▸ hlimited.code_lt, hstrings ▸ hlimited.strings_lt, hstrings ▸ hcarries.strings_eq⟩
  obtain ⟨config, hfirst, hat⟩ : ∃ config, program.Reaches address indexFirst 1 config ∧
      (program.activation address indexFirst target).At 0 [] [s, program.vm.globalScope]
        [fun _ => none, globals] config :=
    henters.first (main_sound hmain) hloads hglobals
  have hplaced : (program.activation address indexFirst target).Placed PipeContext.empty ctx := by
    refine ⟨?_, ?_, Nat.le_refl _, ?_⟩
    · exact fun _ _ _ => congrArg (·[_]?) hcode.symm
    · exact hstrings ▸ List.prefix_rfl
    · exact Nat.le_of_eq (congrArg List.length hcode.symm)
  have hsimulates : ∀ fuel, (program.activation address indexFirst target).Simulates fuel config
      (execAll address hasRoom fuel source 0 [fun _ => none, globals])
      ((program.activation address indexFirst target).At ctx.code.length []
        [s, program.vm.globalScope]) := fun _ => simulates_statements source hrun hplaced hat
  constructor
  · intro fuel env hends
    have hsimulated := hsimulates fuel
    rw [hends] at hsimulated
    obtain ⟨n, config', hthrough, hat'⟩ := hsimulated
    have hreaches : program.Reaches address indexFirst (1 + n) config' := by
      unfold Program.Reaches at hfirst ⊢
      rw [Run.iterate_add, hfirst]
      exact hthrough.iterate
    rw [← hcode] at hat'
    obtain ⟨vm, hlast, hmatches⟩ := Program.Enters.last hreaches hat'
    exact ⟨_, vm, hlast, hmatches⟩
  · intro hdiverges n
    cases n with
    | zero => exact ⟨_, rfl⟩
    | succ n =>
      obtain ⟨config', hgoes, _⟩ := Simulation.Simulates.runs_on hsimulates hdiverges n
      refine ⟨config', ?_⟩
      unfold Program.Reaches at hfirst ⊢
      rw [Nat.add_comm, Run.iterate_add, hfirst]
      exact hgoes

/-- `let a; while (a) {}` in its own file. -/
theorem core_runs_emptyLoop : ∃ (file : List UInt8) (program : Program) (s : ScopeRef)
    (globals : JSString → Option JSValue) (n : ℕ) (vm : VM),
    main file 0 (fun _ => .undefined) = .ok (some program) ∧
      program.Reaches (fun _ => 0) true n ⟨.done vm, []⟩ ∧
      Matches vm.heap [s, program.vm.globalScope]
        [Function.update (fun _ => none) [97] (some .undefined), globals] := by
  have hlimited : ∀ ctx, beginPipe (nodes emptyLoop) PipeContext.empty = .ok ctx → ctx.Limited := by
    intro ctx hrun
    have hstrings : ctx.stable.strings = [[97]] := by
      obtain rfl := Except.ok.inj hrun
      rfl
    obtain ⟨hcode, hlength⟩ : ctx.code.length = 7 ∧ ctx.stable.length = 13 := by
      obtain rfl := Except.ok.inj hrun
      exact ⟨rfl, rfl⟩
    refine ⟨by omega, ?_, ?_, by omega⟩
    · rw [hstrings]
      decide
    · rw [hstrings]
      simp
  obtain ⟨file, program, module, s, _, hmain, _, hruns⟩ := core_runs emptyLoop (7, 9) (by decide) rfl
    (hlimited _ rfl) 0 (fun _ => .undefined) _ List.mem_cons_self
  obtain ⟨globals, hglobals⟩ : ∃ globals,
      Binds program.vm.heap program.vm.globalScope globals :=
    ⟨_, (List.forall₂_cons.mp (matches_envOf program.vm.heap [program.vm.globalScope])).1⟩
  obtain ⟨n, vm, hreaches, hmatches⟩ := (hruns globals hglobals (fun _ => 0) true).1 1 _ rfl
  exact ⟨file, program, s, globals, n, vm, hmain, hreaches, hmatches⟩

end AtomixJS
