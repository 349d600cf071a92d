import AtomixJS.Core.Machine
import AtomixJS.Lib.Fallible

/-!
# Coming back from a call

While a handler waits for a function, the frame that was opened holds the place of the
caller: the module, the scope and the counters.  Whatever the function does, the handler
goes on in this place; only the heap and the slots of the operand stack may be others.

`Prog.Ends` says of C code how it ends when nothing but that is known about the calls it
waits for, and `Config.Suspended` carries this through the steps of the functions that run
in between.
-/

namespace AtomixJS

/-- Two states are in the same place of the code. -/
structure VM.SamePlace (vm vm' : VM) : Prop where
  module : vm'.module = vm.module
  scope : vm'.scope = vm.scope
  counter : vm'.stats.instructionCounter = vm.stats.instructionCounter

variable {host : Host} {S : VM → Prop} {vm vm' vm'' : VM} {frame : Frame} {below : List Frame}

theorem VM.SamePlace.refl (vm : VM) : vm.SamePlace vm := ⟨rfl, rfl, rfl⟩

theorem VM.SamePlace.trans (h : vm.SamePlace vm') (h' : vm'.SamePlace vm'') :
    vm.SamePlace vm'' where
  module := h'.module.trans h.module
  scope := h'.scope.trans h.scope
  counter := h'.counter.trans h.counter

theorem VM.SamePlace.setSlot {i : ℕ} {v : JSValue} (h : vm.setSlot i v = .ok vm') :
    vm.SamePlace vm' := by
  unfold VM.setSlot at h
  split at h
  · obtain rfl := Except.ok.inj h
    exact ⟨rfl, rfl, rfl⟩
  · cases h

theorem VM.SamePlace.append {v : JSValue} (h : vm.append v = .ok vm') : vm.SamePlace vm' := by
  simp only [VM.append, Fallible.bind_eq_ok, Fallible.pure_eq_ok] at h
  obtain ⟨mid, hslot, rfl⟩ := h
  exact (VM.SamePlace.setSlot hslot).trans ⟨rfl, rfl, rfl⟩

/-! ## C code that waits -/

/-- However the calls go that C code waits for, it ends in a state of `S` or fails. -/
def Prog.Ends (S : VM → Prop) : Prog → Prop
  | .done vm => S vm
  | .fault _ => True
  | .native vm _ next => ∀ vm' value, vm.SamePlace vm' → (next vm' value).Ends S
  | .call vm _ _ next => ∀ vm' value, vm.SamePlace vm' → (next vm' value).Ends S
  | .execModule vm _ next => ∀ vm', vm.SamePlace vm' → (next vm').Ends S

theorem Prog.Ends.after {α : Type} {result : Except Fault α} {next : α → Prog}
    (h : ∀ a, result = .ok a → (next a).Ends S) : (Prog.after result next).Ends S := by
  cases hresult : result with
  | error fault => trivial
  | ok a => exact h a hresult

theorem Prog.Ends.mono {T : VM → Prop} {prog : Prog} (h : prog.Ends S) (hle : ∀ vm, S vm → T vm) :
    prog.Ends T := by
  induction prog with
  | done vm => exact hle vm h
  | fault fault => trivial
  | native vm program next ih => exact fun vm' value hsame => ih vm' value (h vm' value hsame)
  | call vm function this next ih => exact fun vm' value hsame => ih vm' value (h vm' value hsame)
  | execModule vm module next ih => exact fun vm' hsame => ih vm' (h vm' hsame)

theorem samePlace_pushArgs {args : List JSValue} (h : pushArgs vm args = .ok vm') :
    vm.SamePlace vm' := by
  unfold pushArgs at h
  generalize args.reverse = values at h
  induction values generalizing vm with
  | nil =>
      obtain rfl := Except.ok.inj h
      exact .refl vm
  | cons v values ih =>
      simp only [List.foldlM_cons, Fallible.bind_eq_ok] at h
      obtain ⟨mid, happend, hrest⟩ := h
      exact (VM.SamePlace.append happend).trans (ih hrest)

theorem ends_apiCallFunction {function : FunctionRef} {this : JSValue} {args : List JSValue}
    {next : VM → JSValue → Prog} (h : ∀ vm' value, vm.SamePlace vm' → (next vm' value).Ends S) :
    (apiCallFunction host vm function this args next).Ends S := by
  unfold apiCallFunction
  split
  · trivial
  · trivial
  · exact h
  · refine .after fun pushed hpushed => ?_
    intro vm' value hsame
    obtain ⟨mid, hargs, happend⟩ := Fallible.bind_eq_ok.mp hpushed
    have hcalled := ((samePlace_pushArgs hargs).trans (VM.SamePlace.append happend)).trans hsame
    exact h _ value (hcalled.trans ⟨rfl, rfl, rfl⟩)

theorem ends_stepNative {program : NativeProgram} {next : VM → JSValue → Prog}
    (h : ∀ vm' value, vm.SamePlace vm' → (next vm' value).Ends S) :
    (stepNative host vm next program).Ends S := by
  cases program with
  | ret heap value => exact h _ value ⟨rfl, rfl, rfl⟩
  | fault fault => trivial
  | apiCallFunction heap function this args rest =>
      refine ends_apiCallFunction fun vm' value hsame => ?_
      have hplace : vm.SamePlace vm' := ⟨hsame.module, hsame.scope, hsame.counter⟩
      exact fun vm'' value' hsame' => h vm'' value' (hplace.trans hsame')
  | execModule heap module rest =>
      intro vm' hsame
      have hplace : vm.SamePlace vm' := ⟨hsame.module, hsame.scope, hsame.counter⟩
      exact fun vm'' value hsame' => h vm'' value (hplace.trans hsame')

/-! ## The functions in between -/

/-- C code with the given frames below ends in `S`: it is on top, or it goes on when the
frame that was opened for it is left. -/
inductive Config.Suspended (S : VM → Prop) (below : List Frame) : Config → Prop
  | top {prog : Prog} : prog.Ends S → Suspended S below ⟨prog, below⟩
  | inside {prog : Prog} (above : List Frame) {frame : Frame} :
      (∀ vm value, (frame.next (frame.restore vm) value).Ends S) →
      Suspended S below ⟨prog, above ++ frame :: below⟩

/-- A step keeps this, until the C code has ended. -/
theorem Config.Suspended.step {config config' : Config} (h : config.Suspended S below)
    (hstep : AtomixJS.step host config = some config') :
    (∃ vm, config = ⟨.done vm, below⟩ ∧ S vm) ∨ config'.Suspended S below := by
  cases h with
  | @top prog hends =>
      cases prog with
      | fault fault => cases hstep
      | done vm => exact .inl ⟨vm, rfl, hends⟩
      | native vm program next =>
          obtain rfl := Option.some.inj hstep
          exact .inr (.top (ends_stepNative hends))
      | call vm function this next =>
          obtain rfl := Option.some.inj hstep
          refine .inr ?_
          rcases stepCall_cases vm function this next below with
            ⟨fault, hcall⟩ | ⟨_, _, _, _, _, _, _, _, hcall⟩
          · rw [hcall]
            exact .top trivial
          · rw [hcall]
            exact .inside [] fun vm' value => hends _ value ⟨rfl, rfl, rfl⟩
      | execModule vm module next =>
          obtain rfl := Option.some.inj hstep
          refine .inr ?_
          rcases stepExecModule_cases vm module next below with
            ⟨fault, hexec⟩ | ⟨_, _, _, _, _, hexec⟩
          · rw [hexec]
            exact .top trivial
          · rw [hexec]
            exact .inside [] fun vm' value => hends _ ⟨rfl, rfl, rfl⟩
  | @inside prog above frame hends =>
      refine .inr ?_
      cases prog with
      | fault fault => cases hstep
      | done vm =>
          cases above with
          | nil =>
              obtain rfl := Option.some.inj hstep
              rcases stepLoop_cases host vm frame below with ⟨prog, hloop⟩ | ⟨value, hloop⟩
              · rw [hloop]
                exact .inside [] hends
              · rw [hloop]
                exact .top (hends vm value)
          | cons inner above =>
              obtain rfl := Option.some.inj hstep
              show Suspended S below (stepLoop host vm inner (above ++ frame :: below))
              rcases stepLoop_cases host vm inner (above ++ frame :: below) with
                ⟨prog, hloop⟩ | ⟨value, hloop⟩
              · rw [hloop]
                exact .inside (inner :: above) hends
              · rw [hloop]
                exact .inside _ hends
      | native vm program next =>
          obtain rfl := Option.some.inj hstep
          exact .inside _ hends
      | call vm function this next =>
          obtain rfl := Option.some.inj hstep
          rcases stepCall_cases vm function this next (above ++ frame :: below) with
            ⟨fault, hcall⟩ | ⟨_, _, _, _, _, _, _, _, hcall⟩
          · rw [hcall]
            exact .inside _ hends
          · rw [hcall]
            exact .inside (_ :: above) hends
      | execModule vm module next =>
          obtain rfl := Option.some.inj hstep
          rcases stepExecModule_cases vm module next (above ++ frame :: below) with
            ⟨fault, hexec⟩ | ⟨_, _, _, _, _, hexec⟩
          · rw [hexec]
            exact .inside _ hends
          · rw [hexec]
            exact .inside (_ :: above) hends

/-- When the C code has ended, it is in `S`. -/
theorem Config.Suspended.ended (h : Config.Suspended S below ⟨.done vm, below⟩) : S vm := by
  generalize hconfig : Config.mk (.done vm) below = config at h
  cases h with
  | top hends =>
      obtain rfl := congrArg Config.prog hconfig
      exact hends
  | inside _ _ =>
      have hlength := congrArg (fun config => config.frames.length) hconfig
      simp only [List.length_append, List.length_cons] at hlength
      omega

/-- A run to the end of the C code, which does not end before. -/
theorem Config.Suspended.run {config : Config} {n : ℕ} (h : config.Suspended S below)
    (hrun : Run.Through (AtomixJS.step host) (fun config => ∀ vm, config ≠ ⟨.done vm, below⟩) n
      config ⟨.done vm, below⟩) : S vm := by
  generalize hlast : Config.mk (.done vm) below = last at hrun
  induction hrun with
  | refl config =>
      subst hlast
      exact h.ended
  | @head n config mid last hnot hstep _ ih =>
      rcases h.step hstep with ⟨vm', hconfig, _⟩ | hmid
      · exact absurd hconfig (hnot vm')
      · exact ih hmid hlast

end AtomixJS
