import AtomixJS.Compiler.Emission
import AtomixJS.Lib.Flow

/-!
# Where generated code goes

What is emitted for a node is a region that control leaves at its end only.  Its jumps lead to
points of the region, a function in it ends in it, and no placeholder is left.  On every path
through it as many scopes are popped as were pushed before, and never more.  The body of a function
is such a region as well.
-/

namespace AtomixJS

namespace Instruction

/-- Where a jump leads. -/
def target? : Instruction → Option ℕ
  | .jmp target | .jmpF target | .jmpT target => some target
  | _ => none

/-- What an instruction does to the number of scopes, and its successors.  The body of a function is
not on the path that declares it. -/
def scopeNode (pc : ℕ) : Instruction → Flow.Node
  | .pushScope => ⟨0, 1, [pc + 1]⟩
  | .popScope => ⟨1, 0, [pc + 1]⟩
  | .funcDecl _ size | .funcDeclE size => ⟨0, 0, [pc + 1 + size]⟩
  | .ret => ⟨0, 0, []⟩
  | .jmp target => ⟨0, 0, [target]⟩
  | .jmpF target | .jmpT target => ⟨0, 0, [pc + 1, target]⟩
  | _ => ⟨0, 0, [pc + 1]⟩

/-- An instruction at `pc` does not lead out of the region from `s` to `t`. -/
structure StaysIn (s t pc : ℕ) (i : Instruction) : Prop where
  filled : i ≠ .nop
  jump : ∀ target, i.target? = some target → s ≤ target ∧ target ≤ t
  skip : ∀ size, i.functionSize? = some size → pc + 1 + size ≤ t

variable {s s' t t' pc : ℕ} {i : Instruction}

theorem StaysIn.mono (h : i.StaysIn s t pc) (hs : s' ≤ s) (ht : t ≤ t') : i.StaysIn s' t' pc where
  filled := h.filled
  jump := fun target htarget => ⟨Nat.le_trans hs (h.jump target htarget).1,
    Nat.le_trans (h.jump target htarget).2 ht⟩
  skip := fun size hsize => Nat.le_trans (h.skip size hsize) ht

/-- An instruction that is neither a jump nor a declaration nor a placeholder. -/
theorem staysIn_of_none (hfilled : i ≠ .nop) (hjump : i.target? = none)
    (hsize : i.functionSize? = none) : i.StaysIn s t pc where
  filled := hfilled
  jump := fun _ htarget => absurd (hjump.symm.trans htarget) (Option.some_ne_none _).symm
  skip := fun _ hsize' => absurd (hsize.symm.trans hsize') (Option.some_ne_none _).symm

theorem staysIn_of_target {target : ℕ} (hfilled : i ≠ .nop) (hjump : i.target? = some target)
    (hsize : i.functionSize? = none) (hs : s ≤ target) (ht : target ≤ t) : i.StaysIn s t pc where
  filled := hfilled
  jump := by
    intro target' htarget'
    obtain rfl := Option.some.inj (hjump.symm.trans htarget')
    exact ⟨hs, ht⟩
  skip := fun _ hsize' => absurd (hsize.symm.trans hsize') (Option.some_ne_none _).symm

/-- Control goes past an instruction that is no part of a layout, or ends there. -/
theorem scopeNode_plain (hplain : i.isPlain = true) (pc : ℕ) :
    i.scopeNode pc = ⟨0, 0, [pc + 1]⟩ ∨ i.scopeNode pc = ⟨0, 0, []⟩ := by
  cases i <;> first | exact .inl rfl | exact .inr rfl | cases hplain

theorem plain_none (hplain : i.isPlain = true) :
    i ≠ .nop ∧ i.target? = none ∧ i.functionSize? = none := by
  refine ⟨?_, ?_, ?_⟩
  · rintro rfl
    cases hplain
  · cases i <;> first | rfl | cases hplain
  · cases i <;> first | rfl | cases hplain

theorem target?_of_function {size : ℕ} (hsize : i.functionSize? = some size) :
    i.target? = none := by
  cases i <;> first | rfl | cases hsize

theorem scopeNode_function {size : ℕ} (hsize : i.functionSize? = some size) (pc : ℕ) :
    i.scopeNode pc = ⟨0, 0, [pc + 1 + size]⟩ := by
  cases i <;> first | (obtain rfl := Option.some.inj hsize; rfl) | cases hsize

end Instruction

namespace Compiler

open Flow (Balanced)

def scopeGraph (code : List Instruction) : Flow.Graph := fun pc => code[pc]?.map (·.scopeNode pc)

/-- No instruction of a region leads out of it, and the scopes are balanced. -/
structure Contained (code : List Instruction) (s t : ℕ) : Prop where
  point : ∀ pc, s ≤ pc → pc < t → ∃ i, code[pc]? = some i ∧ i.StaysIn s t pc
  scopes : Balanced (scopeGraph code) s t 0 0

/-- The same of one instruction, with the body of the function that it declares. -/
def PointIn (code : List Instruction) (s t pc : ℕ) : Prop :=
  ∃ i, code[pc]? = some i ∧ i.StaysIn s t pc ∧
    ∀ size, i.functionSize? = some size → Contained code (pc + 1) (pc + 1 + size)

/-- A region with the functions in it. -/
structure Structured (code : List Instruction) (s t : ℕ) : Prop where
  point : ∀ pc, s ≤ pc → pc < t → PointIn code s t pc
  scopes : Balanced (scopeGraph code) s t 0 0

variable {code code' : List Instruction} {s t m pc : ℕ} {i : Instruction}

theorem scopeGraph_of_get (h : code[s]? = some i) :
    scopeGraph code s = some (i.scopeNode s) := by
  unfold scopeGraph
  rw [h]
  rfl

theorem Agree.scopeGraph (h : Agree s t code code') :
    ∀ pc, s ≤ pc → pc < t → scopeGraph code pc = scopeGraph code' pc := by
  intro pc hs ht
  unfold Compiler.scopeGraph
  rw [h pc hs ht]

theorem pointIn_of_none (hi : code[pc]? = some i) (hfilled : i ≠ .nop) (hjump : i.target? = none)
    (hsize : i.functionSize? = none) : PointIn code s t pc := by
  refine ⟨i, hi, Instruction.staysIn_of_none hfilled hjump hsize, fun size hsize' => ?_⟩
  exact absurd (hsize.symm.trans hsize') (Option.some_ne_none _).symm

theorem pointIn_of_target {target : ℕ} (hi : code[pc]? = some i) (hfilled : i ≠ .nop)
    (hjump : i.target? = some target) (hsize : i.functionSize? = none) (hs : s ≤ target)
    (ht : target ≤ t) : PointIn code s t pc := by
  refine ⟨i, hi, Instruction.staysIn_of_target hfilled hjump hsize hs ht, fun size hsize' => ?_⟩
  exact absurd (hsize.symm.trans hsize') (Option.some_ne_none _).symm

theorem Structured.contained (h : Structured code s t) : Contained code s t where
  point := by
    intro pc hs ht
    obtain ⟨i, hi, hstays, _⟩ := h.point pc hs ht
    exact ⟨i, hi, hstays⟩
  scopes := h.scopes

theorem Contained.congr (h : Contained code s t) (hagree : Agree s t code code') :
    Contained code' s t where
  point := by
    intro pc hs ht
    obtain ⟨i, hi, hstays⟩ := h.point pc hs ht
    exact ⟨i, (hagree pc hs ht).symm.trans hi, hstays⟩
  scopes := h.scopes.congr hagree.scopeGraph

namespace Structured

theorem congr (h : Structured code s t) (hagree : Agree s t code code') : Structured code' s t where
  point := by
    intro pc hs ht
    obtain ⟨i, hi, hstays, hfunction⟩ := h.point pc hs ht
    refine ⟨i, (hagree pc hs ht).symm.trans hi, hstays, fun size hsize => ?_⟩
    exact (hfunction size hsize).congr (hagree.mono (by omega) (hstays.skip size hsize))
  scopes := h.scopes.congr hagree.scopeGraph

/-- The points of a region within a larger one. -/
theorem inner {u v : ℕ} (h : Structured code s t) (hu : u ≤ s) (hv : t ≤ v) (hs : s ≤ pc)
    (ht : pc < t) : PointIn code u v pc := by
  obtain ⟨i, hi, hstays, hfunction⟩ := h.point pc hs ht
  exact ⟨i, hi, hstays.mono hu hv, hfunction⟩

theorem refl (code : List Instruction) (s : ℕ) : Structured code s s where
  point := by omega
  scopes := Flow.balanced_refl

theorem seq (h : Structured code s m) (h' : Structured code m t) (hs : s ≤ m) (ht : m ≤ t) :
    Structured code s t where
  point := by
    intro pc hpc hpc'
    rcases Nat.lt_or_ge pc m with hlt | hge
    · exact h.inner (Nat.le_refl s) ht hpc hlt
    · exact h'.inner hs (Nat.le_refl t) hge hpc'
  scopes := h.scopes.seq h'.scopes hs ht

theorem plain (hi : code[s]? = some i) (hplain : i.isPlain = true) :
    Structured code s (s + 1) where
  point := by
    intro pc hpc hpc'
    obtain rfl : pc = s := by omega
    obtain ⟨hfilled, hjump, hsize⟩ := Instruction.plain_none hplain
    exact pointIn_of_none hi hfilled hjump hsize
  scopes := by
    have hnode := scopeGraph_of_get hi
    rcases Instruction.scopeNode_plain hplain s with hnext | hstop
    · rw [hnext] at hnode
      exact Flow.balanced_single hnode (Nat.lt_succ_self s) (Nat.le_refl 0) (by simp)
    · rw [hstop] at hnode
      exact Flow.balanced_stop hnode (Nat.lt_succ_self s) (Nat.le_refl 0) rfl

/-- A block with its own scope. -/
theorem scope (hpush : code[s]? = some .pushScope) (hbody : Structured code (s + 1) t)
    (hpop : code[t]? = some .popScope) (hst : s + 1 ≤ t) : Structured code s (t + 1) where
  point := by
    intro pc hpc hpc'
    rcases Nat.lt_trichotomy pc t with hlt | rfl | hgt
    · rcases Nat.lt_or_ge s pc with hlt' | hge
      · exact hbody.inner (Nat.le_succ s) (Nat.le_succ t) hlt' hlt
      · obtain rfl : pc = s := by omega
        exact pointIn_of_none hpush (by simp) rfl rfl
    · exact pointIn_of_none hpop (by simp) rfl rfl
    · omega
  scopes := by
    have hfirst : Balanced (scopeGraph code) s (s + 1) 0 1 :=
      Flow.balanced_single (scopeGraph_of_get hpush) (Nat.lt_succ_self s) (Nat.zero_le _)
        (by simp [Instruction.scopeNode])
    have hlast : Balanced (scopeGraph code) t (t + 1) 1 0 :=
      Flow.balanced_single (scopeGraph_of_get hpop) (Nat.lt_succ_self t) (Nat.le_refl 1)
        (by simp [Instruction.scopeNode])
    exact (hfirst.seq (hbody.scopes.lift 1) (Nat.le_succ s) hst).seq hlast (by omega)
      (Nat.le_succ t)

/-- A function and its body. -/
theorem function (hi : code[s]? = some i) (hsize : i.functionSize? = some (t - s - 1))
    (hbody : Structured code (s + 1) t) (hst : s + 1 ≤ t) : Structured code s t where
  point := by
    intro pc hpc hpc'
    rcases Nat.lt_or_ge s pc with hlt | hge
    · exact hbody.inner (Nat.le_succ s) (Nat.le_refl t) hlt hpc'
    · obtain rfl : pc = s := by omega
      have hend : pc + 1 + (t - pc - 1) = t := by omega
      refine ⟨i, hi, ⟨?_, fun target htarget => ?_, fun size hsize' => ?_⟩, fun size hsize' => ?_⟩
      · rintro rfl
        cases hsize
      · rw [Instruction.target?_of_function hsize] at htarget
        cases htarget
      · obtain rfl := Option.some.inj (hsize.symm.trans hsize')
        exact Nat.le_of_eq hend
      · obtain rfl := Option.some.inj (hsize.symm.trans hsize')
        rw [hend]
        exact hbody.contained
  scopes := by
    have hnode := scopeGraph_of_get hi
    rw [Instruction.scopeNode_function hsize] at hnode
    refine Flow.balanced_single hnode hst (Nat.le_refl 0) fun next hnext => ?_
    rw [List.mem_singleton.mp hnext]
    omega

/-- The branch of an `if` without `else`. -/
theorem skip (hjump : code[s]? = some (.jmpF t)) (hbody : Structured code (s + 1) t)
    (hst : s + 1 ≤ t) : Structured code s t where
  point := by
    intro pc hpc hpc'
    rcases Nat.lt_or_ge s pc with hlt | hge
    · exact hbody.inner (Nat.le_succ s) (Nat.le_refl t) hlt hpc'
    · obtain rfl : pc = s := by omega
      exact pointIn_of_target hjump (by simp) rfl rfl hpc'.le (Nat.le_refl t)
  scopes := Flow.balanced_skip (scopeGraph_of_get hjump) (Nat.le_refl 0) rfl rfl hbody.scopes hst

/-- The two branches of an `if`. -/
theorem branch (hjump : code[s]? = some (.jmpF (m + 1))) (hthen : Structured code (s + 1) m)
    (hend : code[m]? = some (.jmp t)) (helse : Structured code (m + 1) t) (hsm : s + 1 ≤ m)
    (hmt : m + 1 ≤ t) : Structured code s t where
  point := by
    intro pc hpc hpc'
    rcases Nat.lt_trichotomy pc m with hlt | rfl | hgt
    · rcases Nat.lt_or_ge s pc with hlt' | hge
      · exact hthen.inner (Nat.le_succ s) (by omega) hlt' hlt
      · obtain rfl : pc = s := by omega
        exact pointIn_of_target hjump (by simp) rfl rfl (by omega) hmt
    · exact pointIn_of_target hend (by simp) rfl rfl (by omega) (Nat.le_refl t)
    · exact helse.inner (by omega) (Nat.le_refl t) hgt hpc'
  scopes := Flow.balanced_diamond (scopeGraph_of_get hjump) (Nat.le_refl 0) rfl rfl hthen.scopes
    (scopeGraph_of_get hend) rfl rfl rfl helse.scopes hsm hmt

/-- The test and the body of a `while`, from `s` to `m` and from there to `t`. -/
theorem loop (htest : Structured code s m) (hjump : code[m]? = some (.jmpF (t + 1)))
    (hbody : Structured code (m + 1) t) (hback : code[t]? = some (.jmp s)) (hsm : s ≤ m)
    (hmt : m + 1 ≤ t) : Structured code s (t + 1) where
  point := by
    intro pc hpc hpc'
    rcases Nat.lt_trichotomy pc m with hlt | rfl | hgt
    · exact htest.inner (Nat.le_refl s) (by omega) hpc hlt
    · exact pointIn_of_target hjump (by simp) rfl rfl (by omega) (Nat.le_refl _)
    · rcases Nat.lt_or_ge pc t with hlt | hge
      · exact hbody.inner (by omega) (Nat.le_succ t) hgt hlt
      · obtain rfl : pc = t := by omega
        exact pointIn_of_target hback (by simp) rfl rfl (Nat.le_refl s) (by omega)
  scopes := Flow.balanced_round htest.scopes (scopeGraph_of_get hjump) rfl rfl rfl hbody.scopes
    (scopeGraph_of_get hback) rfl rfl rfl hsm hmt

end Structured

/-! ## Emissions -/

/-- What was added to a context is structured. -/
structure Structures (ctx ctx' : PipeContext) : Prop where
  extends_code : ctx.code <+: ctx'.code
  structured : Structured ctx'.code ctx.code.length ctx'.code.length

variable {ctx ctx₁ ctx' : PipeContext}

namespace Structures

theorem of_code_eq (h : ctx.code = ctx'.code) : Structures ctx ctx' :=
  ⟨h ▸ List.prefix_rfl, h ▸ .refl _ _⟩

theorem trans (h : Structures ctx ctx₁) (h' : Structures ctx₁ ctx') : Structures ctx ctx' :=
  ⟨h.1.trans h'.1, (h.2.congr (agree_extended h'.1 (Nat.le_refl _))).seq h'.2 h.1.length_le
    h'.1.length_le⟩

end Structures

theorem keeping_structures : Keeping Structures where
  refl _ := .of_code_eq rfl
  trans h h' := h.trans h'
  register _ _ := .of_code_eq rfl
  reverse ctx id := .of_code_eq (ctx.reverseArguments_code id).symm
  add ctx instruction hplain := by
    refine ⟨List.prefix_append _ _, ?_⟩
    rw [addInstruction_length]
    exact .plain List.getElem?_concat_length hplain
  scope {ctx ctx₁} h := by
    have hlast : ctx₁.code <+: (ctx₁.addInstruction .popScope).code := List.prefix_append _ _
    have hextends := h.1.trans hlast
    have hle := h.1.length_le
    have hbody := h.2.congr (agree_extended hlast (Nat.le_refl _))
    rw [addInstruction_length] at hbody hle
    have hpush := agree_extended hextends (Nat.le_refl _) ctx.code.length (Nat.zero_le _)
      (by rw [addInstruction_length]; exact Nat.lt_succ_self _)
    refine ⟨(List.prefix_append _ _).trans hextends, ?_⟩
    rw [addInstruction_length]
    exact .scope (hpush.symm.trans List.getElem?_concat_length) hbody List.getElem?_concat_length hle
  function h hsize hreplace := by
    have hlayout := Compiler.replaced h.1 List.prefix_rfl hreplace
    have hbody := h.2.congr (by rw [addInstruction_length]; exact hlayout.agree)
    rw [addInstruction_length, ← hlayout.length_eq] at hbody
    refine ⟨hlayout.extends_code, .function hlayout.new_eq ?_ hbody ?_⟩
    · rw [hsize, hlayout.length_eq]
    · rw [hlayout.length_eq]
      exact hlayout.le
  skip h hreplace := by
    have hlayout := Compiler.replaced h.1 List.prefix_rfl hreplace
    have hbody := h.2.congr (by rw [addInstruction_length]; exact hlayout.agree)
    have hnew := hlayout.new_eq
    rw [addInstruction_length, ← hlayout.length_eq] at hbody
    rw [← hlayout.length_eq] at hnew
    refine ⟨hlayout.extends_code, .skip hnew hbody ?_⟩
    rw [hlayout.length_eq]
    exact hlayout.le
  branch h hjump h' hend := by
    have hlayout := branches h.1 hjump h'.1 hend
    have hthen := h.2.congr (by rw [addInstruction_length]; exact hlayout.then_agree)
    have helse := h'.2.congr (by rw [hlayout.else_start]; exact hlayout.else_agree)
    rw [addInstruction_length] at hthen
    rw [hlayout.else_start, ← hlayout.length_eq] at helse
    exact ⟨hlayout.extends_code,
      .branch hlayout.jump_eq hthen hlayout.end_eq helse hlayout.le hlayout.else_le⟩
  loop htest hbody hreplace := by
    have hlayout := Compiler.loop hbody.1 hreplace
    have hround := hbody.2.congr (by rw [addInstruction_length]; exact hlayout.body_agree)
    have hcheck := htest.2.congr (agree_extended hlayout.extends_code (Nat.le_refl _))
    rw [addInstruction_length] at hround
    refine ⟨htest.1.trans hlayout.extends_code, ?_⟩
    rw [hlayout.length_eq]
    exact .loop hcheck hlayout.test_eq hround hlayout.jump_eq htest.1.length_le hlayout.le

theorem structures_node {n : SyntaxNode} (hrun : pipeNode n ctx = .ok ctx') : Structures ctx ctx' :=
  keeping_structures.node n hrun

end Compiler

end AtomixJS
