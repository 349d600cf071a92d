import AtomixJS.Results.MemorySafety

/-!
# Modules are executed once

`importModule` sets a flag before it executes a module, and returns the exports of a module whose
flag is set.  `main` executes the entry module without looking at its flag.  Hence in a run of any
program no module is executed twice but for the entry module, which can be executed once more.
-/

namespace AtomixJS

variable {buff : List UInt8} {scope : ScopeRef} {stack : ℕ → JSValue} {program : Program}
  {address : JSValue → CInt} {indexFirst : Bool} {i j n : ℕ} {vm vm' : VM}
  {module imported importer : ModuleRef} {next next' : VM → Prog} {frames frames' : List Frame}
  {config : Config}

/-- A module that is executed later than at the start has had its flag unset until then. -/
theorem Program.Sound.executed (hprogram : program.Sound)
    (hrun : program.Reaches address indexFirst (n + 1) ⟨.execModule vm module next, frames⟩) :
    ∃ config heap m, program.Reaches address indexFirst n config ∧
      config.prog.heap? = some heap ∧ heap.modules[module]? = some m ∧ m.initialized = false ∧
      vm.heap.modules[module]? = some { m with initialized := true } := by
  obtain ⟨config, hconfig⟩ := Run.iterate_of_le hrun (Nat.le_succ n)
  obtain ⟨h, hgrows, hsound⟩ := hprogram.run hconfig
  have hrest := Run.iterate_split hconfig hrun (Nat.le_succ n)
  rw [Nat.add_sub_cancel_left] at hrest
  have hstep : step (sourceHost program.link address indexFirst) config =
      some ⟨.execModule vm module next, frames⟩ := by
    rw [Run.iterate_succ] at hrest
    obtain ⟨config', hstep, hlast⟩ := Option.bind_eq_some_iff.mp hrest
    rwa [← Option.some.inj hlast]
  obtain ⟨heap, m, hheap, hm, hfresh, hset⟩ := hsound.executes (hprogram.host hgrows) hstep
  exact ⟨config, heap, m, hconfig, hheap, hm, hfresh, hset⟩

/-! ## A module that imports itself -/

/-- A bundle of one module, which calls `Module.importModule` with its own hash. -/
def selfBundle : List UInt8 :=
  [0x2E, 0x41, 0x78, 0x42, 1, 0, 1, 0, 0, 0, 0, 0, 0, 0, 1, 0,
    0x2E, 0x41, 0x78, 0x4D, 2, 0, 1, 0, 0, 0, 0, 0, 0, 0, 22, 0, 0, 0, 58, 0, 0, 0,
    36, 0, 0, 0, 2, 0, 0, 0, 0, 0, 0, 0, 7, 0, 0, 0, 77, 111, 100, 117, 108, 101, 0,
    105, 109, 112, 111, 114, 116, 77, 111, 100, 117, 108, 101, 0,
    33, 0, 0, 0, 7, 0, 0, 0, 1, 1, 0, 0, 0, 1, 0, 0, 0, 0, 35, 0, 0, 31, 43, 1, 0, 39, 2, 0, 30]

/-- The state before a module is entered. -/
def Config.start? : Config → Option (VM × ModuleRef × (VM → Prog) × List Frame)
  | ⟨.execModule vm module next, frames⟩ => some (vm, module, next, frames)
  | _ => none

theorem Config.start?_eq_some (h : config.start? = some (vm, module, next, frames)) :
    config = ⟨.execModule vm module next, frames⟩ := by
  unfold Config.start? at h
  split at h
  · cases h
    rfl
  · cases h

/-- It is executed a second time, and finds its exports then. -/
theorem selfBundle_runs : ∃ (program : Program) (vm : VM) (next : VM → Prog)
    (frames : List Frame) (current : JSModule),
    main selfBundle 0 (fun _ => .undefined) = .ok (some program) ∧
      program.Reaches (fun _ => 0) true 8 ⟨.execModule vm program.entry next, frames⟩ ∧
      vm.heap.modules[program.entry]? = some current ∧
      program.link.getModule program.vm.heap current.bundle 1 = .ok program.entry := by
  have hloaded : ((main selfBundle 0 fun _ => .undefined).toOption.join.any fun program =>
      ((Run.iterate (step (sourceHost program.link (fun _ => 0) true)) 8
          (mainConfig program.vm program.entry)).bind Config.start?).any fun start =>
        start.2.1 = program.entry && start.1.heap.modules[program.entry]?.any fun current =>
          (program.link.getModule program.vm.heap current.bundle 1).toOption =
            some program.entry) = true := by
    decide +kernel
  obtain ⟨program, hprogram, hrest⟩ := (Option.any_eq_true _ _).mp hloaded
  obtain ⟨⟨vm, module, next, frames⟩, hstart, hnext⟩ := (Option.any_eq_true _ _).mp hrest
  obtain ⟨hentry, hnext⟩ := Bool.and_eq_true_iff.mp hnext
  obtain rfl : module = program.entry := of_decide_eq_true hentry
  obtain ⟨current, hcurrent, hfound⟩ := (Option.any_eq_true _ _).mp hnext
  obtain ⟨config, hrun, hstart⟩ := Option.bind_eq_some_iff.mp hstart
  rw [Config.start?_eq_some hstart] at hrun
  exact ⟨program, vm, next, frames, current,
    Fallible.eq_ok_of_toOption (Option.join_eq_some_iff.mp hprogram), hrun, hcurrent,
    Fallible.eq_ok_of_toOption (of_decide_eq_true hfound)⟩

/-! ## Results -/

/-- **Started once.**  If a module is executed a second time in a run, it is the entry module and
the first time was the start. -/
theorem started_once (hmain : main buff scope stack = .ok (some program))
    (hfirst : program.Reaches address indexFirst i ⟨.execModule vm module next, frames⟩)
    (hsecond : program.Reaches address indexFirst j ⟨.execModule vm' module next', frames'⟩)
    (hlt : i < j) : i = 0 ∧ module = program.entry := by
  have hprogram := main_sound hmain
  cases i with
  | zero =>
    have hstart := Option.some.inj hfirst
    exact ⟨rfl, (Prog.execModule.inj (congrArg Config.prog hstart)).2.1.symm⟩
  | succ i =>
    -- the flag is set from the first time on, and has to be unset before the second
    obtain ⟨_, _, m, _, _, _, _, hset⟩ := hprogram.executed hfirst
    obtain ⟨k, rfl⟩ : ∃ k, j = k + 1 := ⟨j - 1, by omega⟩
    obtain ⟨config, heap, m', hconfig, hheap, hm', hfresh, _⟩ := hprogram.executed hsecond
    have hgrows := run_grows hmain hfirst hconfig (by omega) rfl hheap
    obtain ⟨initialized, hlater, hkept⟩ := hgrows.module module _ hset
    obtain rfl := Option.some.inj (hm'.symm.trans hlater)
    rw [hkept rfl] at hfresh
    cases hfresh

/-- The entry module starts a second time where it imports itself. -/
theorem started_once_selfBundle : ∃ (program : Program) (vm : VM) (next : VM → Prog)
    (frames : List Frame),
    program.Reaches (fun _ => 0) true 8 ⟨.execModule vm program.entry next, frames⟩ ∧
      0 = 0 ∧ program.entry = program.entry := by
  obtain ⟨program, vm, next, frames, _, hmain, hrun, _⟩ := selfBundle_runs
  exact ⟨program, vm, next, frames, hrun,
    started_once (i := 0) (j := 8) hmain rfl hrun (Nat.succ_pos 7)⟩

/-- Without native modules, what the search finds does not depend on the heap. -/
theorem getModule_congr {link : Linkage} (halone : link.nativeModules = []) (h h' : Heap)
    (bundle : Option BundleRef) (hash : UInt64) :
    link.getModule h bundle hash = link.getModule h' bundle hash := by
  unfold Linkage.getModule
  rw [halone, List.filterMap_nil, List.filterMap_nil]

/-- **The exports of a module.**  Whichever module imports it, and whenever it does in a run, the
call returns the object that was made for its exports when the module was loaded.  The module is
executed before that if its flag is unset. -/
theorem import_exports (hmain : main buff scope stack = .ok (some program))
    (hrun : program.Reaches address indexFirst n config) {heap : Heap}
    (hheap : config.prog.heap? = some heap) {current : JSModule}
    (hcurrent : heap.modules[importer]? = some current) {hash : UInt64}
    (hfound : program.link.getModule program.vm.heap current.bundle hash = .ok imported) :
    ∃ m flag, program.vm.heap.modules[imported]? = some m ∧
      heap.modules[imported]? = some { m with initialized := flag } ∧
      if flag then importByKey program.link heap importer hash = .ret heap (.object m.exports)
      else ∃ rest, importByKey program.link heap importer hash =
          .execModule (heap.setInitialized imported) imported rest ∧
        ∀ heap', heap.Grows program.vm.globalScope heap' →
          rest heap' = .ret heap' (.object m.exports) := by
  have hprogram := main_sound hmain
  have hgrows : program.vm.heap.Grows program.vm.globalScope heap := by
    obtain ⟨h, hgrows, hconfig⟩ := hprogram.run hrun
    exact hgrows.trans (hconfig.rebase hheap).1
  have hlt : imported < program.vm.heap.modules.length := getModule_lt hprogram.link hfound
  have hm : program.vm.heap.modules[imported]? = some program.vm.heap.modules[imported] :=
    List.getElem?_eq_getElem hlt
  obtain ⟨flag, hflag, _⟩ := hgrows.module imported _ hm
  rw [getModule_congr hprogram.alone program.vm.heap heap] at hfound
  refine ⟨_, flag, hm, hflag, ?_⟩
  unfold importByKey
  simp only [hcurrent, hfound, hflag]
  cases flag with
  | true => rfl
  | false =>
    refine ⟨_, rfl, fun heap' hheap' => ?_⟩
    obtain ⟨flag', hflag', _⟩ := hheap'.module imported _ hflag
    simp only [hflag']

/-- In the state in which the module starts again. -/
theorem import_exports_selfBundle : ∃ (program : Program) (heap : Heap),
    ∃ m flag, program.vm.heap.modules[program.entry]? = some m ∧
      heap.modules[program.entry]? = some { m with initialized := flag } ∧
      if flag then importByKey program.link heap program.entry 1 = .ret heap (.object m.exports)
      else ∃ rest, importByKey program.link heap program.entry 1 =
          .execModule (heap.setInitialized program.entry) program.entry rest ∧
        ∀ heap', heap.Grows program.vm.globalScope heap' →
          rest heap' = .ret heap' (.object m.exports) := by
  obtain ⟨program, vm, next, frames, current, hmain, hrun, hcurrent, hfound⟩ := selfBundle_runs
  exact ⟨program, vm.heap, import_exports hmain hrun rfl hcurrent hfound⟩

end AtomixJS
