import AtomixJS.Compiler.Quiet
import AtomixJS.Results.JumpContainment
import AtomixJS.Results.MemorySafety

/-!
# The machine in generated code

The machine stays in the code of a node from its start on, and where it leaves the code, at the end,
the scope is current that was current at the start.  Whatever is called in between runs in frames of
its own, and gives the place back.
-/

namespace AtomixJS

/-! ## Scopes under a scope -/

/-- The scope is `d` scopes below `base`. -/
inductive Heap.Below (h : Heap) (base : ScopeRef) : ℕ → ScopeRef → Prop
  | base : h.Below base 0 base
  | next {d : ℕ} {scope parent : ScopeRef} {node : Scope} : h.scopes[scope]? = some node →
      node.parent = some parent → h.Below base d parent → h.Below base (d + 1) scope

variable {g base scope parent : ScopeRef} {h h' : Heap} {d : ℕ}

theorem Heap.Below.eq_base (hbelow : h.Below base 0 scope) : scope = base := by
  cases hbelow with
  | base => rfl

theorem Heap.Below.up {node : Scope} (hbelow : h.Below base (d + 1) scope)
    (hnode : h.scopes[scope]? = some node) (hparent : node.parent = some parent) :
    h.Below base d parent := by
  cases hbelow with
  | next hnode' hparent' hrest =>
    obtain rfl := Option.some.inj (hnode.symm.trans hnode')
    obtain rfl := Option.some.inj (hparent.symm.trans hparent')
    exact hrest

/-- A parent never changes. -/
theorem Heap.Below.grows (hbelow : h.Below base d scope) (hgrows : h.Grows g h') :
    h'.Below base d scope := by
  induction hbelow with
  | base => exact .base
  | @next d scope parent node hnode hparent _ ih =>
    obtain ⟨node', hnode', hsame⟩ := hgrows.scope scope node hnode
    rcases hsame with hsame | ⟨_, hnone, _⟩
    · exact .next hnode' (hsame.trans hparent) ih
    · rw [hparent] at hnone
      cases hnone

theorem Config.Suspended.mono {S T : VM → Prop} {config : Config} {frames : List Frame}
    (hconfig : config.Suspended S frames)
    (hle : ∀ vm, S vm → T vm) : config.Suspended T frames := by
  cases hconfig with
  | top hends => exact .top (hends.mono hle)
  | inside above hends => exact .inside above fun vm value => (hends vm value).mono hle

/-- C code at its end. -/
def Prog.done? : Prog → Option VM
  | .done vm => some vm
  | _ => none

theorem Prog.done?_eq_some {prog : Prog} {vm : VM} (hdone : prog.done? = some vm) :
    prog = .done vm := by
  cases prog with
  | done vm' => exact congrArg Prog.done (Option.some.inj hdone)
  | _ => cases hdone

namespace Compiler

/-! ## One instruction of a region -/

/-- The machine is at a point of the region that a path from the start leads to, as many scopes
below `base` as the path has pushed. -/
structure Follows (code : List Instruction) (s t : ℕ) (module : ModuleRef) (base : ScopeRef) (h : Heap)
    (vm : VM) : Prop where
  module_eq : vm.module = module
  path : ∃ d, Flow.Path (scopeGraph code) s t (s, 0) (vm.stats.instructionCounter, d) ∧
    h.Below base d vm.scope

variable {code : List Instruction} {s t : ℕ} {module : ModuleRef} {vm vm' : VM} {i : Instruction}
  {host : Host}

theorem Follows.grows (hvm : Follows code s t module base h vm) (hgrows : h.Grows g h') :
    Follows code s t module base h' vm := by
  obtain ⟨hmodule, d, hpath, hbelow⟩ := hvm
  exact ⟨hmodule, d, hpath, hbelow.grows hgrows⟩

theorem Follows.samePlace (hvm : Follows code s t module base h vm) (hsame : vm.SamePlace vm') :
    Follows code s t module base h vm' := by
  obtain ⟨hmodule, d, hpath, hbelow⟩ := hvm
  refine ⟨hsame.module.trans hmodule, d, ?_, ?_⟩
  · rw [hsame.counter]
    exact hpath
  · rw [hsame.scope]
    exact hbelow

/-- The next instruction keeps the scope, and control goes on to one of its successors. -/
theorem Follows.next (hvm : Follows code s t module base h vm)
    (hs : s ≤ vm.stats.instructionCounter) (ht : vm.stats.instructionCounter < t)
    (hi : code[vm.stats.instructionCounter]? = some i) {successors : List ℕ}
    (hnode : i.scopeNode vm.stats.instructionCounter = ⟨0, 0, successors⟩) {pc : ℕ}
    (hpc : pc ∈ successors) : Follows code s t module base h (vm.setCounter pc) := by
  obtain ⟨hmodule, d, hpath, hbelow⟩ := hvm
  have hget := scopeGraph_of_get hi
  rw [hnode] at hget
  exact ⟨hmodule, d, hpath.tail (.mk hs ht hget (Nat.zero_le d) hpc), hbelow⟩

theorem ends_instCall {operand : UInt16} : (instCall host operand vm).Ends vm.SamePlace := by
  have hdrop : vm.SamePlace (vm.drop 1) := ⟨rfl, rfl, rfl⟩
  have hreturn : ∀ vm' value, (vm.drop 1).SamePlace vm' →
      (callReturn operand vm' value).Ends vm.SamePlace := by
    intro vm' value hsame
    refine .after fun vm'' happend => ?_
    have hpopped : vm'.SamePlace (vm'.drop (operand.toNat + 1)) := ⟨rfl, rfl, rfl⟩
    exact (hdrop.trans hsame).trans (hpopped.trans (.append happend))
  refine .after fun callee _ => ?_
  dsimp only
  split
  · split
    · trivial
    · trivial
    · exact .after fun args _ => hreturn
    · exact .after fun this _ => hreturn
  · trivial

theorem samePlace_instAllocLocal {operand : UInt16} (hrun : instAllocLocal operand vm = .ok vm') :
    vm.SamePlace vm' := by
  simp only [instAllocLocal, Fallible.bind_eq_ok, Fallible.pure_eq_ok] at hrun
  obtain ⟨_, _, _, _, _, _, _, _, rfl⟩ := hrun
  exact ⟨rfl, rfl, rfl⟩

theorem samePlace_instStoreLocal {operand : UInt16} (hrun : instStoreLocal operand vm = .ok vm') :
    vm.SamePlace vm' := by
  simp only [instStoreLocal, Fallible.bind_eq_ok] at hrun
  obtain ⟨_, _, _, _, _, _, heap?, _, hresult⟩ := hrun
  cases heap? with
  | none => cases hresult
  | some heap =>
    obtain rfl := Except.ok.inj hresult
    exact ⟨rfl, rfl, rfl⟩

/-- Behind a function declaration, control is behind the body. -/
theorem samePlace_instFuncDecl {name : Option UInt16} {size : UInt16}
    (hrun : instFuncDecl name size vm = .ok vm') :
    (vm.setCounter (vm.stats.instructionCounter + size.toNat)).SamePlace vm' := by
  have hdone : ∀ (heap : Heap) (value : JSValue),
      (do let vm' ← { vm with heap }.append value
          return vm'.setCounter (vm.stats.instructionCounter + size.toNat)) = .ok vm' →
      (vm.setCounter (vm.stats.instructionCounter + size.toNat)).SamePlace vm' := by
    intro heap value hlast
    simp only [Fallible.bind_eq_ok, Fallible.pure_eq_ok] at hlast
    obtain ⟨pushed, happend, rfl⟩ := hlast
    have hsame := VM.SamePlace.append happend
    exact ⟨hsame.module, hsame.scope, rfl⟩
  unfold instFuncDecl at hrun
  obtain ⟨_, _, hrun⟩ := Fallible.bind_eq_ok.mp hrun
  cases name with
  | none => exact hdone _ _ hrun
  | some idx =>
    simp only [Fallible.bind_eq_ok] at hrun
    obtain ⟨key, _, heap, _, hlast⟩ := hrun
    exact hdone heap _ (Fallible.bind_eq_ok.mpr hlast)

theorem instJmpIf_cases {test : JSValue → Except Fault Bool} {operand : UInt16}
    (hrun : instJmpIf test operand vm = .ok vm') :
    vm.SamePlace vm' ∨ (vm.setCounter operand.toNat).SamePlace vm' := by
  simp only [instJmpIf, Fallible.bind_eq_ok, Fallible.pure_eq_ok] at hrun
  obtain ⟨_, _, jumps, _, rfl⟩ := hrun
  cases jumps with
  | true => exact .inr ⟨rfl, rfl, rfl⟩
  | false => exact .inl ⟨rfl, rfl, rfl⟩

/-- `POP_SCOPE` goes up by one scope. -/
theorem Follows.pop (hvm : Follows code s t module base h vm)
    (hs : s ≤ vm.stats.instructionCounter) (ht : vm.stats.instructionCounter < t)
    (hi : code[vm.stats.instructionCounter]? = some .popScope)
    (hbalanced : Flow.Balanced (scopeGraph code) s t 0 0) {node : Scope}
    (hnode : h.scopes[vm.scope]? = some node) (hparent : node.parent = some parent) :
    Follows code s t module base h
      { vm.setCounter (vm.stats.instructionCounter + 1) with scope := parent } := by
  obtain ⟨hmodule, d, hpath, hbelow⟩ := hvm
  have hget := scopeGraph_of_get hi
  -- the path has pushed what is popped
  have hpops : 1 ≤ d := by
    rcases hbalanced.safe _ d hpath with ⟨hend, _⟩ | ⟨_, _, popped, hpopped, hle⟩
    · omega
    · obtain rfl := Option.some.inj (hget.symm.trans hpopped)
      exact hle
  obtain ⟨d, rfl⟩ : ∃ k, d = k + 1 := ⟨d - 1, by omega⟩
  refine ⟨hmodule, d, ?_, hbelow.up hnode hparent⟩
  exact hpath.tail (.mk hs ht hget (Nat.succ_le_succ (Nat.zero_le d)) (List.mem_singleton_self _))

/-- `PUSH_SCOPE` goes down by one scope, which is new. -/
theorem Follows.push (hvm : Follows code s t module base vm.heap vm)
    (hs : s ≤ vm.stats.instructionCounter) (ht : vm.stats.instructionCounter < t)
    (hi : code[vm.stats.instructionCounter]? = some .pushScope) (hheap : vm.heap.Sound g) :
    Follows code s t module base
      (instPushScope (vm.setCounter (vm.stats.instructionCounter + 1))).heap
      (instPushScope (vm.setCounter (vm.stats.instructionCounter + 1))) := by
  obtain ⟨hmodule, d, hpath, hbelow⟩ := hvm
  refine ⟨hmodule, d + 1, ?_, ?_⟩
  · exact hpath.tail (.mk hs ht (scopeGraph_of_get hi) (Nat.zero_le d) (List.mem_singleton_self _))
  · exact .next List.getElem?_concat_length rfl
      (hbelow.grows (hheap.createScope (some vm.scope)).grows)

/-- What an instruction of the region does, with all calls that it makes, when it neither pushes a
scope nor returns. -/
theorem Follows.exec (hcontained : Contained code s t) (hlength : code.length < 2 ^ 16)
    (hvm : Follows code s t module base vm.heap vm) (hs : s ≤ vm.stats.instructionCounter)
    (ht : vm.stats.instructionCounter < t) (hi : code[vm.stats.instructionCounter]? = some i)
    (hret : i ≠ .ret) (hpush : i ≠ .pushScope) :
    (execSlot host i.loaded (vm.setCounter (vm.stats.instructionCounter + 1))).Ends
      (Follows code s t module base vm.heap) := by
  obtain ⟨i', hi', hstays⟩ := hcontained.point _ hs ht
  obtain rfl := Option.some.inj (hi.symm.trans hi')
  have hword : ∀ {n : ℕ}, n ≤ t → (UInt16.ofNat n).toNat = n := by
    intro n hn
    have hend : t ≤ code.length := by
      obtain ⟨j, hj, _⟩ := hcontained.point (t - 1) (by omega) (by omega)
      have hlt := (List.getElem?_eq_some_iff.mp hj).1
      omega
    exact UInt16.toNat_ofNat_of_lt' (Nat.lt_of_le_of_lt (Nat.le_trans hn hend) hlength)
  by_cases hquiet : i.isQuiet = true
  · have hnode : i.scopeNode vm.stats.instructionCounter =
        ⟨0, 0, [vm.stats.instructionCounter + 1]⟩ := by
      cases i <;> first | rfl | cases hquiet
    have hnext := hvm.next hs ht hi hnode (List.mem_singleton_self _)
    exact (execSlot_quiet hquiet).ends.mono fun vm' hsame => hnext.samePlace hsame
  · have hloaded : i.loaded = some (i.map (fun n => UInt16.ofNat n) (BitVec.ofInt 32)) :=
      if_neg hstays.filled
    have hplain : ∀ successors, i.scopeNode vm.stats.instructionCounter = ⟨0, 0, successors⟩ →
        ∀ {pc}, pc ∈ successors → Follows code s t module base vm.heap (vm.setCounter pc) :=
      fun successors hnode pc hpc => hvm.next hs ht hi hnode hpc
    rw [hloaded]
    cases i with
    | ret => exact absurd rfl hret
    | pushScope => exact absurd rfl hpush
    | allocLocal operand =>
      have hnext := hplain _ rfl (List.mem_singleton_self _)
      exact .after fun vm' hrun => hnext.samePlace (samePlace_instAllocLocal hrun)
    | storeLocal operand =>
      have hnext := hplain _ rfl (List.mem_singleton_self _)
      exact .after fun vm' hrun => hnext.samePlace (samePlace_instStoreLocal hrun)
    | call operand =>
      have hnext := hplain _ rfl (List.mem_singleton_self _)
      exact ends_instCall.mono fun vm' hsame => hnext.samePlace hsame
    | funcDecl name size =>
      have hsize := hstays.skip size rfl
      refine .after fun vm' hrun => ?_
      have hsame := samePlace_instFuncDecl hrun
      rw [hword (by omega)] at hsame
      exact (hplain _ rfl (List.mem_singleton_self _)).samePlace hsame
    | funcDeclE size =>
      have hsize := hstays.skip size rfl
      refine .after fun vm' hrun => ?_
      have hsame := samePlace_instFuncDecl hrun
      rw [hword (by omega)] at hsame
      exact (hplain _ rfl (List.mem_singleton_self _)).samePlace hsame
    | jmp target =>
      have hnext := hplain _ rfl (List.mem_singleton_self _)
      rw [← hword (hstays.jump target rfl).2] at hnext
      exact hnext
    | jmpF target | jmpT target =>
      refine .after fun vm' hrun => ?_
      rcases instJmpIf_cases hrun with hsame | hsame
      · exact (hplain _ rfl List.mem_cons_self).samePlace hsame
      · rw [hword (hstays.jump target rfl).2] at hsame
        exact (hplain _ rfl (List.mem_cons_of_mem _ (List.mem_singleton_self _))).samePlace hsame
    | popScope =>
      refine .after fun vm' hrun => ?_
      simp only [instPopScope] at hrun
      split at hrun
      · cases hrun
      · next node hnode =>
        split at hrun
        · cases hrun
        · next parent hparent =>
          obtain rfl := Except.ok.inj hrun
          exact hvm.pop hs ht hi hcontained.scopes hnode hparent
    | _ => exact absurd rfl hquiet

/-! ## A run through a region -/

/-- The module holds the code. -/
def Carries (h : Heap) (module : ModuleRef) (code : List Instruction) : Prop :=
  ∃ m, h.modules[module]? = some m ∧ m.dataSection.instructions = code.map Instruction.loaded

theorem Carries.grows (hcarries : Carries h module code) (hgrows : h.Grows g h') :
    Carries h' module code := by
  obtain ⟨m, hm, hcode⟩ := hcarries
  obtain ⟨initialized, hm', _⟩ := hgrows.module module m hm
  exact ⟨_, hm', hcode⟩

/-- The machine runs in the frame on top of `frames`, or in what is called from there.  The
instruction that the frame executes next is in front of `t` and no `RETURN`. -/
structure Inside (code : List Instruction) (t : ℕ) (frames : List Frame) (config : Config) : Prop where
  above : ∃ above, config.frames = above ++ frames
  next : ∀ vm, config = ⟨.done vm, frames⟩ →
    vm.stats.instructionCounter ≠ t ∧ code[vm.stats.instructionCounter]? ≠ some .ret

/-- The invariant of the run, until the frame is left. -/
def Stays (g : ScopeRef) (count : ℕ) (code : List Instruction) (s t : ℕ) (module : ModuleRef)
    (base : ScopeRef) (frames : List Frame) (config : Config) : Prop :=
  (∃ h, h.modules.length = count ∧ config.Sound g h ∧ Carries h module code ∧
    config.Suspended (Follows code s t module base h) frames) ∨
  ¬ ∃ above, config.frames = above ++ frames

variable {frame : Frame} {frames : List Frame} {config config' : Config} {count n : ℕ}

theorem vmExec_of_carries (host : Host) (hcarries : Carries vm.heap vm.module code)
    (hi : code[vm.stats.instructionCounter]? = some i) :
    vmExec host vm = execSlot host i.loaded (vm.setCounter (vm.stats.instructionCounter + 1)) := by
  obtain ⟨m, hm, hcode⟩ := hcarries
  have hinst : m.dataSection.instructions[vm.stats.instructionCounter]? = some i.loaded := by
    rw [hcode, List.getElem?_map, hi]
    rfl
  have hcurrent : vm.currentModule = .ok m := by rw [VM.currentModule, hm]
  have hcount : vm.stats.instructionCounter < m.dataSection.count.toNat := by
    rw [← m.dataSection.count_eq]
    exact (List.getElem?_eq_some_iff.mp hinst).1
  have hfetch : vm.instructionAt vm.stats.instructionCounter = .ok i.loaded := by
    rw [VM.instructionAt, hcurrent, Fallible.ok_bind, hinst]
    rfl
  rw [vmExec, hcurrent]
  simp only [Prog.after, if_neg (Nat.not_le.mpr hcount), hfetch]
  cases i.loaded <;> rfl

/-- One round of the loop of the frame. -/
theorem Stays.round (hcontained : Contained code s t) (hlength : code.length < 2 ^ 16)
    (hhost : host.Sound g count) (hcount : vm.heap.modules.length = count)
    (hconfig : Config.Sound g vm.heap ⟨.done vm, frame :: frames⟩)
    (hcarries : Carries vm.heap module code) (hvm : Follows code s t module base vm.heap vm)
    (hend : vm.stats.instructionCounter ≠ t)
    (hret : code[vm.stats.instructionCounter]? ≠ some .ret)
    (hloop : stepLoop host vm frame frames = config') :
    Stays g count code s t module base (frame :: frames) config' := by
  obtain ⟨hsound, hframes⟩ := sound_stepLoop (hcount ▸ hhost) hconfig.prog.2 hconfig.frames hloop
  have hconfig' : config'.Sound g vm.heap := ⟨hsound.runs, hframes⟩
  -- the counter is in the region
  obtain ⟨d, hpath, _⟩ := hvm.path
  obtain ⟨hs, ht⟩ : s ≤ vm.stats.instructionCounter ∧ vm.stats.instructionCounter < t := by
    rcases hcontained.scopes.safe _ d hpath with ⟨heq, _⟩ | ⟨hs, ht, _⟩
    · exact absurd heq hend
    · exact ⟨hs, ht⟩
  obtain ⟨i, hi, _⟩ := hcontained.point _ hs ht
  have hexec := vmExec_of_carries host (hvm.module_eq.symm ▸ hcarries) hi
  subst hloop
  unfold stepLoop at hconfig' ⊢
  split
  · next fault hfault =>
    simp only [hfault] at hconfig'
    exact .inl ⟨vm.heap, hcount, hconfig', hcarries, .top trivial⟩
  · next hcontinues =>
    simp only [hcontinues] at hconfig'
    by_cases hpush : i = .pushScope
    · subst hpush
      have hdone : vmExec host vm =
          .done (instPushScope (vm.setCounter (vm.stats.instructionCounter + 1))) := hexec
      rw [hdone] at hconfig' ⊢
      obtain ⟨hgrows, hlater⟩ := hconfig'.rebase rfl
      exact .inl ⟨_, hgrows.modules.trans hcount, hlater, hcarries.grows hgrows,
        .top (hvm.push hs ht hi hconfig.prog.2.heap)⟩
    · refine .inl ⟨vm.heap, hcount, hconfig', hcarries, .top ?_⟩
      rw [hexec]
      exact hvm.exec hcontained hlength hs ht hi (fun heq => hret (heq ▸ hi)) hpush
  · next hstops =>
    simp only [hstops] at hconfig'
    split
    · next fault hfault =>
      simp only [hfault] at hconfig'
      exact .inl ⟨vm.heap, hcount, hconfig', hcarries, .top trivial⟩
    · -- the frame is left
      refine .inr ?_
      rintro ⟨above, habove⟩
      have hlengths := congrArg List.length habove
      simp only [List.length_append, List.length_cons] at hlengths
      omega

/-- One step. -/
theorem Stays.step (hcontained : Contained code s t) (hlength : code.length < 2 ^ 16)
    (hhost : host.Sound g count) (hinside : Inside code t (frame :: frames) config)
    (hstays : Stays g count code s t module base (frame :: frames) config)
    (hstep : AtomixJS.step host config = some config') :
    Stays g count code s t module base (frame :: frames) config' := by
  rcases hstays with ⟨h, hcount, hconfig, hcarries, hsuspended⟩ | hleft
  · rcases hsuspended.step hstep with ⟨vm, rfl, hvm⟩ | hsuspended'
    · obtain ⟨hgrows, hconfig⟩ := hconfig.rebase rfl
      obtain ⟨hend, hret⟩ := hinside.next vm rfl
      exact Stays.round hcontained hlength hhost (hgrows.modules.trans hcount) hconfig
        (hcarries.grows hgrows) (hvm.grows hgrows) hend hret (Option.some.inj hstep)
    · obtain ⟨h', hgrows, hconfig'⟩ := hconfig.step (hcount ▸ hhost) hstep
      exact .inl ⟨h', hgrows.modules.trans hcount, hconfig', hcarries.grows hgrows,
        hsuspended'.mono fun vm hvm => hvm.grows hgrows⟩
  · exact absurd hinside.above hleft

end Compiler

/-! ## Results -/

namespace Compiler

variable {buff : List UInt8} {scope : ScopeRef} {stack : ℕ → JSValue} {program : Program}
  {address : JSValue → CInt} {indexFirst : Bool} {m : ℕ} {v u : Visit}

/-- **Control flow.**  In a run of `main`, let the machine be at the start of the code of a node, in
a module with the code of an accepted program.  As long as it stays in the frame, or in what is
called from there, and no `RETURN` comes up, it is at points of this code, the scopes that it has
entered are counted by a path through the code, and where it reaches the end it is in the scope in
which it started. -/
theorem run_follows (hmain : main buff scope stack = .ok (some program)) (hunder : v.Under u)
    (hlength : v.after.code.length < 2 ^ 16)
    (hstart : program.Reaches address indexFirst m ⟨.done vm, frame :: frames⟩)
    (hcarries : Carries vm.heap vm.module v.after.code)
    (hcounter : vm.stats.instructionCounter = u.before.code.length)
    (hrun : Run.Through (AtomixJS.step (sourceHost program.link address indexFirst))
      (Inside v.after.code u.after.code.length (frame :: frames)) n ⟨.done vm, frame :: frames⟩
      ⟨.done vm', frame :: frames⟩) :
    vm'.module = vm.module ∧ (∃ d,
      Flow.Path (scopeGraph v.after.code) u.before.code.length u.after.code.length
        (u.before.code.length, 0) (vm'.stats.instructionCounter, d) ∧
      vm'.heap.Below vm.scope d vm'.scope) ∧
      u.before.code.length ≤ vm'.stats.instructionCounter ∧
      vm'.stats.instructionCounter ≤ u.after.code.length ∧
      (vm'.stats.instructionCounter = u.after.code.length → vm'.scope = vm.scope) := by
  have hcontained := (emitted_structured hunder).1.contained
  have hprogram := main_sound hmain
  obtain ⟨h, hgrows, hconfig⟩ := hprogram.run hstart
  obtain ⟨hgrows', hconfig⟩ := hconfig.rebase rfl
  have hhost : (sourceHost program.link address indexFirst).Sound program.vm.globalScope
      vm.heap.modules.length := hprogram.host (hgrows.trans hgrows')
  have hfirst : Follows v.after.code u.before.code.length u.after.code.length vm.module vm.scope
      vm.heap vm := ⟨rfl, 0, by rw [hcounter], .base⟩
  have hstays : Stays program.vm.globalScope vm.heap.modules.length v.after.code
      u.before.code.length u.after.code.length vm.module vm.scope (frame :: frames)
      ⟨.done vm, frame :: frames⟩ := .inl ⟨vm.heap, rfl, hconfig, hcarries, .top hfirst⟩
  have hlast := hrun.invariant (fun config config' hinside hstays hstep =>
    Stays.step hcontained hlength hhost hinside hstays hstep) hstays
  rcases hlast with ⟨h', _, hconfig', _, hsuspended⟩ | hleft
  · obtain ⟨hmodule, d, hpath, hbelow⟩ := hsuspended.ended
    have hbelow' := hbelow.grows (hconfig'.rebase rfl).1
    refine ⟨hmodule, ⟨d, hpath, hbelow'⟩, ?_⟩
    rcases hcontained.scopes.safe _ d hpath with ⟨heq, rfl⟩ | ⟨hs, ht, _⟩
    · have hle : u.before.code.length ≤ u.after.code.length := (extends_node u.accepts).le
      exact ⟨heq ▸ hle, Nat.le_of_eq heq, fun _ => hbelow'.eq_base⟩
    · exact ⟨hs, ht.le, fun heq => absurd heq ht.ne⟩
  · exact absurd ⟨[], rfl⟩ hleft

/-- `null;` -/
def nullProgram : Visit where
  node := .program [.expressionStatement .nullLiteral]
  before := PipeContext.empty
  after := _
  accepts := rfl

/-- The first instruction of the program, `LD_NULL`, is executed. -/
theorem smallBundle_enters : ∃ (program : Program) (vm vm' : VM) (frame : Frame)
    (frames : List Frame),
    main smallBundle 0 (fun _ => .undefined) = .ok (some program) ∧
      program.Reaches (fun _ => 0) true 1 ⟨.done vm, frame :: frames⟩ ∧
      step (sourceHost program.link (fun _ => 0) true) ⟨.done vm, frame :: frames⟩ =
        some ⟨.done vm', frame :: frames⟩ ∧
      vm.stats.instructionCounter = 0 ∧ Carries vm.heap vm.module nullProgram.after.code := by
  have hloaded : ((main smallBundle 0 fun _ => .undefined).toOption.join.any fun program =>
      ((Run.iterate (step (sourceHost program.link (fun _ => 0) true)) 1
          (mainConfig program.vm program.entry)).bind Config.loop?).any fun loop =>
        (loop.2.1.kind.continues loop.1).toOption = some true &&
          ((vmExec (sourceHost program.link (fun _ => 0) true) loop.1).done?.isSome &&
            (loop.1.stats.instructionCounter = 0 &&
              loop.1.heap.modules[loop.1.module]?.any fun m =>
                m.dataSection.instructions = nullProgram.after.code.map Instruction.loaded))) =
      true := by
    decide +kernel
  obtain ⟨program, hprogram, hrest⟩ := (Option.any_eq_true _ _).mp hloaded
  obtain ⟨⟨vm, frame, frames⟩, hloop, hnext⟩ := (Option.any_eq_true _ _).mp hrest
  obtain ⟨config, hrun, hloop⟩ := Option.bind_eq_some_iff.mp hloop
  rw [Config.loop?_eq_some hloop] at hrun
  obtain ⟨hcontinues, hnext⟩ := Bool.and_eq_true_iff.mp hnext
  obtain ⟨hdone, hnext⟩ := Bool.and_eq_true_iff.mp hnext
  obtain ⟨hcounter, hcode⟩ := Bool.and_eq_true_iff.mp hnext
  obtain ⟨m, hm, hinstructions⟩ := (Option.any_eq_true _ _).mp hcode
  obtain ⟨vm', hvm'⟩ := Option.isSome_iff_exists.mp hdone
  refine ⟨program, vm, vm', frame, frames,
    Fallible.eq_ok_of_toOption (Option.join_eq_some_iff.mp hprogram), hrun, ?_,
    of_decide_eq_true hcounter, m, hm, of_decide_eq_true hinstructions⟩
  have hround := Fallible.eq_ok_of_toOption (of_decide_eq_true hcontinues)
  simp only [step, stepLoop, hround, Prog.done?_eq_some hvm']

theorem run_follows_smallBundle : ∃ (vm vm' : VM),
    vm'.module = vm.module ∧ (∃ d,
      Flow.Path (scopeGraph nullProgram.after.code) 0 2 (0, 0) (vm'.stats.instructionCounter, d) ∧
      vm'.heap.Below vm.scope d vm'.scope) ∧
      0 ≤ vm'.stats.instructionCounter ∧ vm'.stats.instructionCounter ≤ 2 ∧
      (vm'.stats.instructionCounter = 2 → vm'.scope = vm.scope) := by
  obtain ⟨program, vm, vm', frame, frames, hmain, hrun, hstep, hcounter, hcarries⟩ :=
    smallBundle_enters
  have hinside : Inside nullProgram.after.code nullProgram.after.code.length (frame :: frames)
      ⟨.done vm, frame :: frames⟩ := by
    refine ⟨⟨[], rfl⟩, fun vm₁ hvm₁ => ?_⟩
    obtain rfl := Prog.done.inj (congrArg Config.prog hvm₁)
    rw [hcounter]
    decide
  exact ⟨vm, vm', run_follows hmain (.self nullProgram) (by decide) hrun hcarries hcounter
    (.single hinside hstep)⟩

end Compiler

end AtomixJS
