import AtomixJS.Core.StartSafety
import AtomixJS.Results.StackBounds

/-!
# No pointer leads nowhere

Whatever file `main` loads, no step of the machine follows a pointer that leads nowhere, the heap
only grows, and every name is found in the nearest scope that binds it.  The file need not come from
the compiler.  What can still go wrong are an operand, a slot or a counter out of bounds, an
arithmetic overflow, a prototype chain that is a cycle, and the panics for wrong operand types.
-/

namespace AtomixJS

/-- The machine after `n` steps. -/
def Program.Reaches (program : Program) (address : JSValue → CInt) (indexFirst : Bool) (n : ℕ)
    (config : Config) : Prop :=
  Run.iterate (step (sourceHost program.link address indexFirst)) n
    (mainConfig program.vm program.entry) = some config

variable {program : Program} {address : JSValue → CInt} {indexFirst : Bool} {m n : ℕ}
  {config config' : Config}

namespace Program.Sound

/-- The machine before the first step. -/
theorem start (hprogram : program.Sound) :
    (mainConfig program.vm program.entry).Sound program.vm.globalScope program.vm.heap :=
  ⟨⟨.refl hprogram.heap, rfl, hprogram.entry, fun _ hheap => ⟨.refl _ _, hheap.sound⟩⟩, trivial⟩

theorem host (hprogram : program.Sound) {h : Heap}
    (hgrows : program.vm.heap.Grows program.vm.globalScope h) :
    (sourceHost program.link address indexFirst).Sound program.vm.globalScope h.modules.length :=
  sound_sourceHost (hgrows.modules.symm ▸ hprogram.link) address indexFirst

theorem run (hprogram : program.Sound) (hrun : program.Reaches address indexFirst n config) :
    ∃ h, program.vm.heap.Grows program.vm.globalScope h ∧
      config.Sound program.vm.globalScope h :=
  hprogram.start.run (hprogram.host (.refl _ _)) hrun

/-- From one state of a run to a later one. -/
theorem between (hprogram : program.Sound) (hfirst : program.Reaches address indexFirst m config)
    (hsecond : program.Reaches address indexFirst n config') (hle : m ≤ n) {h : Heap}
    (hheap : config.prog.heap? = some h) :
    program.vm.heap.Grows program.vm.globalScope h ∧
      ∃ h', h.Grows program.vm.globalScope h' ∧ config'.Sound program.vm.globalScope h' := by
  obtain ⟨h₀, hgrows, hconfig⟩ := hprogram.run hfirst
  obtain ⟨hgrows', hconfig⟩ := hconfig.rebase hheap
  have hlater := hgrows.trans hgrows'
  exact ⟨hlater, hconfig.run (hprogram.host hlater) (Run.iterate_split hfirst hsecond hle)⟩

end Program.Sound

/-- The heap of a sound state is sound. -/
theorem Config.Sound.heap {g : ScopeRef} {h heap : Heap} (hconfig : config.Sound g h)
    (hheap : config.prog.heap? = some heap) : heap.Sound g := by
  obtain ⟨prog, frames⟩ := config
  have hprog := hconfig.prog
  cases prog with
  | fault f => cases hheap
  | done vm =>
    obtain rfl := Option.some.inj hheap
    cases frames with
    | nil => exact hprog.2
    | cons frame frames => exact hprog.2.heap
  | native vm program next =>
    obtain rfl := Option.some.inj hheap
    exact hprog.1.sound.heap
  | call vm function this next =>
    obtain rfl := Option.some.inj hheap
    exact hprog.1.sound.heap
  | execModule vm module next =>
    obtain rfl := Option.some.inj hheap
    exact hprog.1.sound

/-! ## A run -/

/-- A bundle of one module, which is the program `null;`. -/
def smallBundle : List UInt8 :=
  [0x2E, 0x41, 0x78, 0x42, 1, 0, 1, 0, 0, 0, 0, 0, 0, 0, 1, 0,
    0x2E, 0x41, 0x78, 0x4D, 2, 0, 1, 0, 0, 0, 0, 0, 0, 0, 22, 0, 0, 0, 30, 0, 0, 0,
    8, 0, 0, 0, 0, 0, 0, 0, 10, 0, 0, 0, 2, 0, 0, 0, 5, 30]

/-- The state between two instructions. -/
def Config.loop? : Config → Option (VM × Frame × List Frame)
  | ⟨.done vm, frame :: frames⟩ => some (vm, frame, frames)
  | _ => none

theorem Config.loop?_eq_some {vm : VM} {frame : Frame} {frames : List Frame}
    (h : config.loop? = some (vm, frame, frames)) : config = ⟨.done vm, frame :: frames⟩ := by
  unfold Config.loop? at h
  split at h
  · cases h
    rfl
  · cases h

/-- Its module is entered, and `LD_NULL` executed. -/
theorem smallBundle_runs : ∃ (program : Program) (vm : VM) (frame : Frame)
    (frames : List Frame),
    main smallBundle 0 (fun _ => .undefined) = .ok (some program) ∧
      program.Reaches (fun _ => 0) true 2 ⟨.done vm, frame :: frames⟩ ∧
      frame.kind.continues vm = .ok true ∧
      vm.instructionAt vm.stats.instructionCounter = .ok (some .pop) := by
  have hloaded : ((main smallBundle 0 fun _ => .undefined).toOption.join.any fun program =>
      ((Run.iterate (step (sourceHost program.link (fun _ => 0) true)) 2
          (mainConfig program.vm program.entry)).bind Config.loop?).any fun loop =>
        (loop.2.1.kind.continues loop.1).toOption = some true &&
          (loop.1.instructionAt loop.1.stats.instructionCounter).toOption = some (some .pop)) =
      true := by
    decide +kernel
  obtain ⟨program, hprogram, hrest⟩ := (Option.any_eq_true _ _).mp hloaded
  obtain ⟨⟨vm, frame, frames⟩, hloop, hnext⟩ := (Option.any_eq_true _ _).mp hrest
  obtain ⟨config, hrun, hloop⟩ := Option.bind_eq_some_iff.mp hloop
  rw [Config.loop?_eq_some hloop] at hrun
  obtain ⟨hcontinues, hinst⟩ := Bool.and_eq_true_iff.mp hnext
  exact ⟨program, vm, frame, frames,
    Fallible.eq_ok_of_toOption (Option.join_eq_some_iff.mp hprogram), hrun,
    Fallible.eq_ok_of_toOption (of_decide_eq_true hcontinues),
    Fallible.eq_ok_of_toOption (of_decide_eq_true hinst)⟩

/-! ## Results -/

section Results

variable {buff : List UInt8} {scope : ScopeRef} {stack : ℕ → JSValue} {vm : VM} {frame : Frame}
  {frames : List Frame}

/-- **Memory safety.**  A step fails for no pointer that leads nowhere.  Until then all pointers in
the heap lead somewhere, and between two instructions so do those of the machine. -/
theorem run_intact (hmain : main buff scope stack = .ok (some program))
    (hrun : program.Reaches address indexFirst n config) :
    (∀ fault, config.prog = .fault fault → fault.isCorrupt = false) ∧
      (∀ heap, config.prog.heap? = some heap → heap.Sound program.vm.globalScope) ∧
      ∀ vm frame frames, config = ⟨.done vm, frame :: frames⟩ →
        vm.Sound program.vm.globalScope := by
  obtain ⟨h, _, hconfig⟩ := (main_sound hmain).run hrun
  refine ⟨fun fault hfault => ?_, fun heap hheap => hconfig.heap hheap, ?_⟩
  · have hprog := hconfig.prog
    rwa [hfault] at hprog
  · rintro vm frame frames rfl
    exact hconfig.prog.2

/-- `LD_NULL` has been executed. -/
theorem run_intact_smallBundle : ∃ (program : Program) (config : Config),
    program.Reaches (fun _ => 0) true 2 config ∧
      (∀ fault, config.prog = .fault fault → fault.isCorrupt = false) ∧
        (∀ heap, config.prog.heap? = some heap → heap.Sound program.vm.globalScope) ∧
        ∀ vm frame frames, config = ⟨.done vm, frame :: frames⟩ →
          vm.Sound program.vm.globalScope := by
  obtain ⟨program, vm, frame, frames, hmain, hrun, _⟩ := smallBundle_runs
  exact ⟨program, _, hrun, run_intact hmain hrun⟩

/-- **Growth.**  The heap only grows in a run, and its functions and modules stay what they are. -/
theorem run_grows (hmain : main buff scope stack = .ok (some program))
    (hfirst : program.Reaches address indexFirst m config)
    (hsecond : program.Reaches address indexFirst n config') (hle : m ≤ n) {heap heap' : Heap}
    (hheap : config.prog.heap? = some heap) (hheap' : config'.prog.heap? = some heap') :
    heap.Grows program.vm.globalScope heap' := by
  obtain ⟨_, h, hgrows, hconfig⟩ := (main_sound hmain).between hfirst hsecond hle hheap
  exact hgrows.trans (hconfig.rebase hheap').1

/-- From the first state to the one after `LD_NULL`. -/
theorem run_grows_smallBundle : ∃ (program : Program) (vm : VM) (frame : Frame)
    (frames : List Frame),
    program.Reaches (fun _ => 0) true 2 ⟨.done vm, frame :: frames⟩ ∧
      program.vm.heap.Grows program.vm.globalScope vm.heap := by
  obtain ⟨program, vm, frame, frames, hmain, hrun, _⟩ := smallBundle_runs
  exact ⟨program, vm, frame, frames, hrun,
    run_grows (m := 0) hmain rfl hrun (Nat.zero_le 2) rfl rfl⟩

/-- **Names.**  Between two instructions the scopes lead to the global one, a name stands for what
the nearest scope binds it to, and the names of the core module always stand for something. -/
theorem run_resolves (hmain : main buff scope stack = .ok (some program))
    (hrun : program.Reaches address indexFirst n ⟨.done vm, frame :: frames⟩) :
    ∃ refs : List ScopeRef, vm.heap.ScopeChain vm.scope refs ∧ refs.Nodup ∧
      refs.getLast? = some program.vm.globalScope ∧
      (∀ key, scopeGet vm.heap vm.scope key =
        .ok ((refs.findSome? (vm.heap.binding · key)).getD .undefined)) ∧
      ∀ name ∈ coreNames, scopeContains vm.heap vm.scope name = .ok true := by
  have hprogram := main_sound hmain
  obtain ⟨h, hgrows, hconfig⟩ := hprogram.run hrun
  obtain ⟨hgrows', hconfig⟩ := hconfig.rebase rfl
  obtain ⟨refs, hchain, hlast⟩ := Chain.EndsAt.linked hconfig.prog.2.scope
  refine ⟨refs, hchain, hchain.nodup, hlast, scopeGet_of_chain hchain, fun name hname => ?_⟩
  have hbound := (hgrows.trans hgrows').bound _ _ (hprogram.names name hname)
  have hfound : (refs.findSome? (vm.heap.binding · name)).isSome :=
    List.findSome?_isSome_iff.mpr ⟨_, List.mem_of_getLast? hlast, hbound⟩
  rw [scopeContains_of_chain hchain, hfound]

/-- The scope of the only module lies below the global one. -/
theorem run_resolves_smallBundle : ∃ (program : Program) (vm : VM) (refs : List ScopeRef),
    vm.heap.ScopeChain vm.scope refs ∧ refs.Nodup ∧
      refs.getLast? = some program.vm.globalScope ∧
      (∀ key, scopeGet vm.heap vm.scope key =
        .ok ((refs.findSome? (vm.heap.binding · key)).getD .undefined)) ∧
      ∀ name ∈ coreNames, scopeContains vm.heap vm.scope name = .ok true := by
  obtain ⟨program, vm, frame, frames, hmain, hrun, _⟩ := smallBundle_runs
  exact ⟨program, vm, run_resolves hmain hrun⟩

/-- **No accessors.**  Only `CALL` runs other code: with any other instruction the machine comes to
the next one, or to a fault, in one step and in the same frame. -/
theorem run_settles (hmain : main buff scope stack = .ok (some program))
    (hrun : program.Reaches address indexFirst n ⟨.done vm, frame :: frames⟩)
    (hcontinues : frame.kind.continues vm = .ok true) {inst : Option Inst}
    (hinst : vm.instructionAt vm.stats.instructionCounter = .ok inst)
    (hcall : inst.map InstOf.opcode ≠ some .call) :
    ∃ prog, step (sourceHost program.link address indexFirst) ⟨.done vm, frame :: frames⟩ =
        some ⟨prog, frame :: frames⟩ ∧
      ((∃ vm', prog = .done vm') ∨ ∃ fault, prog = .fault fault) := by
  obtain ⟨h, _, hconfig⟩ := (main_sound hmain).run hrun
  have hvm : vm.Sound program.vm.globalScope := hconfig.prog.2
  refine ⟨vmExec (sourceHost program.link address indexFirst) vm, ?_, ?_⟩
  · simp only [step, stepLoop, hcontinues]
  · have hsettled : (vmExec (sourceHost program.link address indexFirst) vm).Settled
        program.vm.globalScope vm.heap := settled_vmExec hvm hinst hcall
    generalize vmExec (sourceHost program.link address indexFirst) vm = prog at hsettled ⊢
    cases prog with
    | done vm' => exact .inl ⟨vm', rfl⟩
    | fault fault => exact .inr ⟨fault, rfl⟩
    | _ => exact absurd hsettled id

/-- `POP` is the next instruction. -/
theorem run_settles_smallBundle : ∃ (program : Program) (vm : VM) (frame : Frame)
    (frames : List Frame) (prog : Prog),
    step (sourceHost program.link (fun _ => 0) true) ⟨.done vm, frame :: frames⟩ =
        some ⟨prog, frame :: frames⟩ ∧
      ((∃ vm', prog = .done vm') ∨ ∃ fault, prog = .fault fault) := by
  obtain ⟨program, vm, frame, frames, hmain, hrun, hcontinues, hinst⟩ := smallBundle_runs
  exact ⟨program, vm, frame, frames, run_settles hmain hrun hcontinues hinst (by decide)⟩

end Results

end AtomixJS
