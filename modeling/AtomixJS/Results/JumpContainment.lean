import AtomixJS.Compiler.Occurrence
import AtomixJS.Compiler.Structure

/-!
# Jumps and scopes of generated code

Wherever a node occurs in a program, its instructions are a region of the finished code that control
leaves at its end only, with the scope that was current at its start.  A function declares exactly
the instructions behind it as its body.
-/

namespace AtomixJS.Compiler

theorem Visit.Inside.trans {v u : Visit} {ctx ctx' : PipeContext}
    (h : u.Inside v.before v.after) (h' : v.Inside ctx ctx') : u.Inside ctx ctx' where
  lower := Nat.le_trans h'.lower h.lower
  upper := Nat.le_trans h.upper h'.upper
  agree := h.agree.trans (h'.agree.mono h.lower h.upper)

/-- The code of an emission stands in the code of the one around it, at any depth. -/
theorem Visit.Under.inside {v u : Visit} (h : v.Under u) : u.Inside v.before v.after := by
  induction h with
  | self v => exact .self v
  | @child v w u visits hemission _ hw _ ih =>
    have hinside := ih.trans (hemission.inside w hw)
    exact hinside.earlier (by rw [v.node.entered_code])

/-- The size of a function is the number of instructions behind its declaration. -/
theorem pipeFunction_size {f : FunctionNode} {ctx ctx' : PipeContext}
    (hrun : pipeFunction f ctx = .ok ctx') : ∃ i, ctx'.code[ctx.code.length]? = some i ∧
      i.functionSize? = some (ctx'.code.length - ctx.code.length - 1) := by
  have hset : ∀ {ctx₁ : PipeContext} {new : Instruction},
      ctx₁.replaceInstruction ctx.code.length new = .ok ctx' →
      new.functionSize? = some (ctx₁.code.length - ctx.code.length - 1) →
      ∃ i, ctx'.code[ctx.code.length]? = some i ∧
        i.functionSize? = some (ctx'.code.length - ctx.code.length - 1) := by
    intro ctx₁ new hreplace hsize
    obtain ⟨hlt, hcode, _⟩ := PipeContext.replaceInstruction_ok hreplace
    refine ⟨new, ?_, ?_⟩
    · rw [hcode]
      exact List.getElem?_set_self hlt
    · rw [hsize, hcode, List.length_set]
  obtain ⟨id, params, body⟩ := f
  unfold pipeFunction at hrun
  cases id with
  | none =>
    simp only [Fallible.bind_eq_ok, PipeContext.getCount_eq] at hrun
    obtain ⟨ctx₁, _, ctx₂, _, hreplace⟩ := hrun
    exact hset hreplace rfl
  | some name =>
    simp only [Fallible.bind_eq_ok, PipeContext.getCount_eq] at hrun
    obtain ⟨ctx₁, _, ctx₂, _, hreplace⟩ := hrun
    exact hset hreplace rfl

/-- **Jump containment.**  Every node that is emitted with an accepted one, at any depth, has its
instructions in a region of the finished code that is structured: every jump in it leads to a point
of it, no placeholder is left, the functions in it end in it, and on every path through it the
scopes are balanced, in the bodies of its functions too.  For a function, the region is the
declaration and its body. -/
theorem emitted_structured {v u : Visit} (h : v.Under u) :
    Structured v.after.code u.before.code.length u.after.code.length ∧
      ∀ f, u.node = .function f → ∃ i, v.after.code[u.before.code.length]? = some i ∧
        i.functionSize? = some (u.after.code.length - u.before.code.length - 1) := by
  have hinside := h.inside
  have hstructures := structures_node u.accepts
  refine ⟨hstructures.structured.congr hinside.agree, fun f hf => ?_⟩
  have hrun := u.accepts
  rw [hf] at hrun
  obtain ⟨i, hi, hsize⟩ := pipeFunction_size hrun
  have hlt := (List.getElem?_eq_some_iff.mp hi).1
  exact ⟨i, (hinside.agree _ (Nat.le_refl _) hlt).symm.trans hi, hsize⟩

/-- `while (a) { function f() { return this; } }` -/
def loopedFunction : Visit where
  node := .program [.whileStatement (.identifier [97]) (.blockStatement (.mk false
    [.declaration (.functionDeclaration (.mk (some [102]) []
      (.mk false [.returnStatement (some .thisExpression)])))]))]
  before := PipeContext.empty
  after := _
  accepts := rfl

/-- Its code: the loop ends behind the jump at 10, and the body of the function is from 4 to 7. -/
example : loopedFunction.after.code =
    [.loadLocal 0, .jmpF 11, .pushScope, .funcDecl 1 4, .pushScope, .ldThis, .ret, .popScope, .pop,
      .popScope, .jmp 0] := by
  decide

theorem emitted_structured_loopedFunction : Structured loopedFunction.after.code 0 11 :=
  (emitted_structured (.self loopedFunction)).1

end AtomixJS.Compiler
