import AtomixJS.Compiler.Emission
import AtomixJS.Compiler.Codec
import AtomixJS.Core.Numbers

/-!
# Numeric literals

A literal without a fraction becomes an `LD_INT`, whatever its size.  Its operand is cut to 32
bits when it is written, and read back as a signed number.
-/

namespace AtomixJS

open Compiler
open Binary64 (Extended)
open Segment (At at_self)

/-- Written to a file and loaded from it, the instruction pushes a value with a property. -/
def PushesWhenLoaded (instruction : Instruction) (P : JSValue → Prop) : Prop :=
  ∃ bytes, DataSection.writeInstruction instruction = .ok bytes ∧
    ∀ (buff : List UInt8) (position : ℕ), At buff position bytes →
      ∃ inst, loadInstruction buff position = .ok (some inst, position + bytes.length) ∧
        ∀ (host : Host) (vm : VM), vm.stats.stackCounter < stackSize →
          ∃ vm' v, execInst host inst vm = .done vm' ∧
            VM.Restacked vm vm' (v :: vm.operands) ∧ P v

/-- Wherever a literal is compiled, what is emitted pushes its number. -/
def LiteralKept (literal : Binary64) : Prop :=
  ∀ ctx : PipeContext, ∃ instruction,
    pipeExpression (.numericLiteral literal) ctx = .ok (ctx.addInstruction instruction) ∧
      PushesWhenLoaded instruction fun v => v.number? = some literal.value

/-- An integer arrives as its lowest 32 bits. -/
theorem pushesWhenLoaded_ldInt {x : ℤ} {P : JSValue → Prop} :
    PushesWhenLoaded (.ldInt x) P ↔ P (.integer (BitVec.ofInt 32 x)) := by
  have hfits : Fits (.ldInt x) := by
    intro y hy
    cases List.mem_singleton.mp hy
  have hwritten := writeInstruction_eq hfits
  constructor
  · rintro ⟨bytes, hbytes, hloads⟩
    obtain rfl := Except.ok.inj (hwritten.symm.trans hbytes)
    obtain ⟨inst, hload, hpushes⟩ := hloads _ 0 (at_self _)
    have hloaded := Except.ok.inj (hload.symm.trans (loadInstruction_of_at hfits (at_self _)))
    obtain rfl := Option.some.inj (congrArg Prod.fst hloaded)
    let host : Host := ⟨fun _ heap _ _ _ => .ret heap .undefined, fun _ => 0, true⟩
    have hroom : (machineWith []).stats.stackCounter < stackSize := show 0 < 254 by decide
    obtain ⟨vm', v, hrun, hrestacked, hP⟩ := hpushes host (machineWith []) hroom
    obtain ⟨vm'', hpush, hrestacked'⟩ := VM.push_restacked hroom (.integer (BitVec.ofInt 32 x))
    have hsame : Prog.done vm'' = Prog.done vm' := by
      rw [← hrun]
      show _ = Prog.ofExcept ((machineWith []).push (.integer (BitVec.ofInt 32 x)))
      rw [hpush]
      rfl
    obtain rfl := Prog.done.inj hsame
    have hv := hrestacked.operands.symm.trans hrestacked'.operands
    rwa [(List.cons.inj hv).1] at hP
  · intro hP
    refine ⟨_, hwritten, fun buff position hat => ⟨_, loadInstruction_of_at hfits hat, ?_⟩⟩
    intro host vm hroom
    obtain ⟨vm', hpush, hrestacked⟩ := VM.push_restacked hroom (.integer (BitVec.ofInt 32 x))
    refine ⟨vm', _, ?_, hrestacked, hP⟩
    show Prog.ofExcept (vm.push (.integer (BitVec.ofInt 32 x))) = _
    rw [hpush]
    rfl

/-- **Numeric literals.**  A non-negative integer literal is pushed as the number it is if and
only if it is below `2 ^ 31`. -/
theorem literalKept_iff (literal : Binary64) (n : ℤ) (hwhole : literal.whole? = some n)
    (hn : 0 ≤ n) : LiteralKept literal ↔ n < 2 ^ 31 := by
  have hpipe : ∀ ctx : PipeContext,
      pipeExpression (.numericLiteral literal) ctx = .ok (ctx.addInstruction (.ldInt n)) :=
    fun ctx => congrArg Except.ok (pipeNumericLiteral_of_whole hwhole ctx)
  have hnumber : ∀ i : CInt, (JSValue.integer i).number? = some literal.value ↔ i.toInt = n := by
    intro i
    rw [Binary64.value_of_whole? hwhole]
    exact number?_eq_ofInt
  constructor
  · intro hkept
    obtain ⟨instruction, hrun, hpushes⟩ := hkept PipeContext.empty
    have hadded := Except.ok.inj ((hpipe _).symm.trans hrun)
    have hcode := congrArg PipeContext.code hadded
    rw [PipeContext.addInstruction_code, PipeContext.addInstruction_code] at hcode
    obtain rfl := List.singleton_inj.mp (List.append_cancel_left hcode)
    have hvalue := (hnumber _).mp (pushesWhenLoaded_ldInt.mp hpushes)
    rw [← hvalue]
    exact (fitsInt_toInt _).2
  · intro hlt ctx
    refine ⟨_, hpipe ctx, pushesWhenLoaded_ldInt.mpr ((hnumber _).mpr ?_)⟩
    exact toInt_ofInt_of_fits ⟨by omega, hlt⟩

theorem literalKept_iff_seven : (Binary64.ofInt 7).whole? = some 7 ∧ (0 : ℤ) ≤ 7 ∧
    (LiteralKept (Binary64.ofInt 7) ↔ (7 : ℤ) < 2 ^ 31) :=
  ⟨Binary64.whole?_ofInt (n := 7) (by decide), by decide,
    literalKept_iff _ 7 (Binary64.whole?_ofInt (n := 7) (by decide)) (by decide)⟩

/-- `4294967296` is pushed as 0. -/
theorem literal_cut : ¬ ∀ (literal : Binary64) (n : ℤ), literal.whole? = some n → 0 ≤ n →
    LiteralKept literal := by
  intro hclaim
  have hwhole : (Binary64.ofInt 4294967296).whole? = some 4294967296 :=
    Binary64.whole?_ofInt (n := 4294967296) (by decide)
  obtain ⟨instruction, hrun, hpushes⟩ := hclaim _ _ hwhole (by decide) PipeContext.empty
  have hadded := Except.ok.inj (hrun.symm.trans
    (congrArg Except.ok (pipeNumericLiteral_of_whole hwhole PipeContext.empty)))
  have hcode := congrArg PipeContext.code hadded
  obtain rfl := List.singleton_inj.mp hcode
  have hnumber := pushesWhenLoaded_ldInt.mp hpushes
  rw [Binary64.value_of_whole? hwhole, number?_eq_ofInt] at hnumber
  exact absurd hnumber (by decide)

end AtomixJS
