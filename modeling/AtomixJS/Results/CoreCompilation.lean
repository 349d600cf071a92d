import AtomixJS.Compiler.CoreSimulation

/-!
# Compiling the structured core

A program of the core is executed as the reference semantics says, wherever its
code starts, on every scope chain and above every operands that leave room for
what it pushes.  A program that loops for ever keeps the machine inside its code.

The loops of the reference semantics are bounded by fuel.  More fuel never
changes a result (`exec_mono`), so a program has one meaning: it ends in an
environment, it gets stuck, or it runs out of every amount of fuel.
-/

namespace AtomixJS.Compiler

open Simulation (Outcome)

/-! ## Fuel -/

section

variable {address : JSValue → CInt} {fits : ℕ → Bool} {depth k k' : ℕ} {env : Env}

mutual

theorem exec_mono (hle : k ≤ k') (s : CoreStatement) (env : Env) :
    (exec address fits k s depth env).Below (exec address fits k' s depth env) := by
  match s with
  | .expression e =>
    unfold exec
    exact .refl _
  | .declare declarators =>
    unfold exec
    exact .refl _
  | .block body =>
    unfold exec
    exact (execAll_mono hle body env.enter).bind fun _ => .refl _
  | .ifThen test consequent =>
    unfold exec
    apply (Outcome.Below.refl _).bind
    rintro ⟨holds, env⟩
    cases holds with
    | true => exact exec_mono hle consequent env
    | false => exact .refl _
  | .ifElse test consequent alternate =>
    unfold exec
    apply (Outcome.Below.refl _).bind
    rintro ⟨holds, env⟩
    cases holds with
    | true => exact exec_mono hle consequent env
    | false => exact exec_mono hle alternate env
  | .while test body =>
    unfold exec
    exact Outcome.loop_mono (fun env => exec_mono hle body env) hle env

theorem execAll_mono (hle : k ≤ k') (body : List CoreStatement) (env : Env) :
    (execAll address fits k body depth env).Below (execAll address fits k' body depth env) := by
  match body with
  | [] => exact .refl _
  | statement :: rest =>
    unfold execAll
    exact (exec_mono hle statement env).bind fun env => execAll_mono hle rest env

end

/-- A program ends in one environment, however much fuel there is. -/
theorem execAll_unique {program : List CoreStatement} {env₁ env₂ : Env}
    (h₁ : execAll address fits k program depth env = .ok env₁)
    (h₂ : execAll address fits k' program depth env = .ok env₂) : env₁ = env₂ := by
  wlog hle : k ≤ k' generalizing k k' env₁ env₂
  · exact (this h₂ h₁ (Nat.le_of_not_le hle)).symm
  rcases execAll_mono hle program env with htimeout | hsame
  · rw [h₁] at htimeout
    cases htimeout
  · rw [h₁, h₂] at hsame
    exact Outcome.ok.inj hsame

end

/-! ## Every scope chain has an environment -/

/-- What is bound in the scopes of a chain.  A name with a wide unit is no key. -/
def envOf (heap : Heap) (refs : List ScopeRef) : Env :=
  refs.map fun ref name =>
    if name.all (·.toNat < 256) then heap.binding ref (name.map (·.toUInt8)) else none

theorem matches_envOf (heap : Heap) (refs : List ScopeRef) :
    Matches heap refs (envOf heap refs) := by
  unfold Matches envOf
  rw [List.forall₂_map_right_iff, List.forall₂_same]
  intro ref _ key
  have hbytes : (key.map (·.toUInt16)).all (·.toNat < 256) = true := by
    simp only [List.all_map, List.all_eq_true, Function.comp_apply, UInt8.toNat_toUInt16,
      decide_eq_true_eq]
    exact fun c _ => c.toNat_lt
  have hback : (key.map (·.toUInt16)).map (·.toUInt8) = key := by
    rw [List.map_map]
    exact (List.map_congr_left fun c _ => UInt8.toUInt8_toUInt16 c).trans (List.map_id key)
  beta_reduce
  rw [if_pos hbytes, hback]

/-! ## Correctness -/

/-- **Compiler correctness.**  Every program of the core is accepted.  Where its
code stands in a module, the machine goes from the first instruction to behind
the last one with the same scopes and operands, and then the scopes hold what
the program ends with; for a program that does not end the machine stays in the
code for ever. -/
theorem beginPipe_core (program : List CoreStatement) (ctx : PipeContext) :
    ∃ ctx', beginPipe (nodes program) ctx = .ok ctx' ∧
      ∀ act : Activation, act.target.code = ctx'.code → act.target.strings = ctx'.stable.strings →
        act.lower = ctx.code.length → act.upper = ctx'.code.length →
        ∀ ops refs env config, act.At ctx.code.length ops refs env config →
          (∀ fuel env', execAll act.host.address hasRoom fuel program ops.length env = .ok env' →
            ∃ n config', Run.Through (step act.host) act.InCode n config config' ∧
              act.At ctx'.code.length ops refs env' config') ∧
          ((∀ fuel, execAll act.host.address hasRoom fuel program ops.length env = .timeout) →
            ∀ n, ∃ config', Run.iterate (step act.host) n config = some config' ∧
              act.InCode config') := by
  obtain ⟨ctx', hrun, hextends⟩ := pipeItems_nodes program ctx
  refine ⟨ctx', hrun, fun act hcode hstrings hlower hupper ops refs env config hat => ?_⟩
  have hplaced : act.Placed ctx ctx' := by
    refine ⟨?_, ?_, Nat.le_of_eq hlower, Nat.le_of_eq hupper.symm⟩
    · rw [hcode]
      exact fun _ _ _ => rfl
    · exact hstrings ▸ List.prefix_rfl
  have hsimulates : ∀ fuel, act.Simulates fuel config
      (execAll act.host.address hasRoom fuel program ops.length env)
      (act.At ctx'.code.length ops refs) := fun _ =>
    simulates_statements program hrun hplaced hat
  constructor
  · intro fuel env' hends
    have hsimulated := hsimulates fuel
    rw [hends] at hsimulated
    exact hsimulated
  · intro hdiverges
    exact Simulation.Simulates.runs_on hsimulates hdiverges

/-! ## A program that ends -/

/-- `let a; while (a) {}` -/
def emptyLoop : List CoreStatement :=
  [.declare [([97], none)], .while (.identifier [97]) (.block [])]

/-- Its code, as the machine holds it. -/
def emptyLoopTarget : Target where
  module := JSModule.ofCode [[97]]
    [some .ldUndf, some (.allocLocal 0), some (.loadLocal 0), some (.jmpF 7), some .pushScope,
      some .popScope, some (.jmp 2)] (by decide) (by decide)
  strings := [[97]]
  code := [.ldUndf, .allocLocal 0, .loadLocal 0, .jmpF 7, .pushScope, .popScope, .jmp 2]
  instructions_eq := rfl

theorem emptyLoop_loads : emptyLoopTarget.Loads := by
  refine ⟨by decide, by decide, fun i s hs => ?_⟩
  cases i with
  | zero =>
    obtain rfl := Option.some.inj hs
    exact ⟨[97], by decide, by decide⟩
  | succ i => cases hs

/-- A machine with one scope, at the start of the code. -/
def machineOf (target : Target) (operands : ℕ) : VM where
  module := 0
  globalScope := 0
  scope := 0
  stats :=
    { instructionCounter := 0, stackCounter := operands, stackStart := 0
      stack := fun _ => .undefined }
  heap :=
    { Heap.empty with
      scopes := [⟨none, dictCreateDict scopeBucketSize scopeBucketSize_pos⟩], modules := [target.module] }

theorem machineOf_at {target : Target} (hloads : target.Loads) {operands : ℕ}
    (h : operands ≤ stackSize) :
    (activationOf target).At 0 (machineOf target operands).operands [0] [fun _ => none]
      ((activationOf target).config (machineOf target operands)) := by
  refine ⟨_, rfl, hloads, rfl, rfl, rfl, ?_, .last rfl rfl, .cons (fun key => ?_) .nil⟩
  · rw [VM.operands_length]
    exact h
  · exact dictGet_create scopeBucketSize scopeBucketSize_pos key

theorem beginPipe_core_emptyLoop :
    ∃ n config', Run.Through (step (activationOf emptyLoopTarget).host)
        (activationOf emptyLoopTarget).InCode n
        ((activationOf emptyLoopTarget).config (machineOf emptyLoopTarget 0)) config' ∧
      (activationOf emptyLoopTarget).At 7 [] [0]
        [Function.update (fun _ => none) [97] (some .undefined)] config' := by
  obtain ⟨ctx', hrun, hcorrect⟩ := beginPipe_core emptyLoop PipeContext.empty
  obtain rfl := Except.ok.inj hrun
  exact (hcorrect (activationOf emptyLoopTarget) rfl rfl rfl rfl [] [0] [fun _ => none] _
    (machineOf_at emptyLoop_loads (Nat.zero_le stackSize))).1 1 _ rfl

/-! ## A full operand stack -/

/-- `null;` -/
def nullTarget : Target where
  module := JSModule.ofCode [] [some .ldNull, some .pop] no_strings_lt (by decide)
  strings := []
  code := [.ldNull, .pop]
  instructions_eq := rfl

theorem null_loads : nullTarget.Loads := ⟨by decide, by decide, fun _ _ hs => nomatch hs⟩

/-- The reference semantics knows no limit, the machine stops at its own. -/
theorem beginPipe_core_overflow :
    ¬ ∀ (program : List CoreStatement) (act : Activation) (ctx' : PipeContext),
      beginPipe (nodes program) PipeContext.empty = .ok ctx' →
      act.target.code = ctx'.code → act.target.strings = ctx'.stable.strings →
      act.lower = 0 → act.upper = ctx'.code.length →
      ∀ ops refs env config, act.At 0 ops refs env config →
        ∀ fuel env', execAll act.host.address (fun _ => true) fuel program ops.length env = .ok env' →
          ∃ n config', Run.iterate (step act.host) n config = some config' ∧
            act.At ctx'.code.length ops refs env' config' := by
  intro hclaim
  obtain ⟨n, config', hrun, vm, rfl, hstands⟩ := hclaim [.expression .null] (activationOf nullTarget)
    _ rfl rfl rfl rfl rfl _ [0] [fun _ => none] _ (machineOf_at null_loads (Nat.le_refl _)) 0 _ rfl
  -- the first instruction finds no room, and then the machine has stopped
  have hstep : step (activationOf nullTarget).host
      ((activationOf nullTarget).config (machineOf nullTarget stackSize)) =
        some ⟨.fault (.panic "Stack overflow"), [(activationOf nullTarget).frame]⟩ := rfl
  match n with
  | 0 =>
    obtain rfl : machineOf nullTarget stackSize = vm :=
      Prog.done.inj (Config.mk.inj (Option.some.inj hrun)).1
    exact absurd hstands.counter (by decide)
  | 1 =>
    rw [Run.iterate_succ_of_step hstep, Run.iterate_zero, Option.some.injEq] at hrun
    exact nomatch (Config.mk.inj hrun).1
  | n + 2 =>
    rw [Run.iterate_succ_of_step hstep, Run.iterate_succ] at hrun
    exact nomatch hrun

end AtomixJS.Compiler
