import AtomixJS.Compiler.Operands
import AtomixJS.Compiler.Codec
import AtomixJS.Results.JumpContainment

/-!
# What the compiler writes of a program

An operand of generated code is the index of a string, a jump target, the size of a function or a
number of the program.  The first three fit their fields whenever the program does: an index was
given out by the table, and control stays in the code.  The numbers are up to the program, and they
alone decide whether the machine loads the code that was generated.
-/

namespace AtomixJS.Compiler

open Segment

variable {i : Instruction} {ctx ctx' : PipeContext}

/-! ## Numbers -/

/-- The numbers of a node fit the fields they are written to. -/
def SyntaxNode.Small : SyntaxNode → Prop
  | .expression (.numericLiteral value) => ∀ n, value.whole? = some n → -2 ^ 31 ≤ n ∧ n < 2 ^ 31
  | .expression (.callExpression _ _ arguments) => arguments.length < 2 ^ 16
  | .expression (.arrayExpression elements) => elements.length < 2 ^ 31
  | .function (.mk _ params _) => params.length < 2 ^ 16
  | _ => True

theorem inRange_ldInt {x : ℤ} : InRange (.ldInt x) ↔ -2 ^ 31 ≤ x ∧ x < 2 ^ 31 := by
  simp [InRange, operands]

theorem inRange_loadArg {x : ℕ} : InRange (.loadArg x) ↔ x < 2 ^ 16 := by
  simp [InRange, operands]

theorem inRange_call {x : ℕ} : InRange (.call x) ↔ x < 2 ^ 16 := by
  simp [InRange, operands]

theorem small_iff (n : SyntaxNode) : n.Small ↔ ∀ i ∈ n.numbered, InRange i := by
  unfold SyntaxNode.Small SyntaxNode.numbered
  split
  · simp only [List.forall_mem_map, Option.mem_toList, inRange_ldInt]
  · rw [List.forall_mem_singleton, inRange_call]
  · rw [List.forall_mem_singleton, inRange_ldInt]
    omega
  · next params _ =>
    simp only [List.forall_mem_map, List.mem_range, inRange_loadArg]
    constructor
    · intro hsmall k hk
      omega
    · intro hall
      rcases Nat.eq_zero_or_pos params.length with hzero | hpos
      · omega
      · have hlast := hall (params.length - 1) (by omega)
        omega
  · simp

/-- A number that is loaded as it was fits its field. -/
theorem inRange_of_written (h : Inst.written i.loaded = i) (hnumbered : i.isNumbered = true) :
    InRange i := by
  have hword : ∀ x : ℕ, (UInt16.ofNat x).toNat = x → x < 2 ^ 16 := fun x hx =>
    hx ▸ (UInt16.ofNat x).toNat_lt
  cases i with
  | ldInt x =>
    have hback : (BitVec.ofInt 32 x).toInt = x := InstOf.ldInt.inj h
    rw [inRange_ldInt, ← hback]
    exact ⟨(BitVec.ofInt 32 x).le_toInt, (BitVec.ofInt 32 x).toInt_lt⟩
  | loadArg x => exact inRange_loadArg.mpr (hword x (InstOf.loadArg.inj h))
  | call x => exact inRange_call.mpr (hword x (InstOf.call.inj h))
  | _ => cases hnumbered

/-- The operands of an instruction by what they are. -/
theorem inRange_of (hname : ∀ x, i.name? = some x → x < 2 ^ 16)
    (hnumber : i.isNumbered = true → InRange i) (hjump : ∀ x, i.target? = some x → x < 2 ^ 16)
    (hsize : ∀ x, i.functionSize? = some x → x < 2 ^ 16) : InRange i := by
  cases i with
  | ldInt x | loadArg x | call x => exact hnumber rfl
  | funcDecl x size =>
    have hx := hname x rfl
    have hsize := hsize size rfl
    simpa [InRange, operands] using ⟨hx, hsize⟩
  | ldString x | allocLocal x | storeLocal x | loadLocal x | objStore x | objLoad x | exportAs x =>
    simpa [InRange, operands] using hname x rfl
  | jmp x | jmpF x | jmpT x => simpa [InRange, operands] using hjump x rfl
  | funcDeclE size => simpa [InRange, operands] using hsize size rfl
  | _ => simp [InRange, operands]

/-! ## Programs -/

/-- What was generated is within the limits of the format. -/
structure PipeContext.Limited (ctx : PipeContext) : Prop where
  code_lt : ctx.code.length < 2 ^ 16
  strings_lt : ctx.stable.strings.length < 2 ^ 16
  units : ∀ s ∈ ctx.stable.strings, ∀ c ∈ s, 1 ≤ c.toNat ∧ c.toNat ≤ 255
  length_lt : 22 + ctx.stable.length < 2 ^ 32

variable {program : List Statement}

/-- The instruction holds a number of a node within. -/
def SyntaxNode.Numbers (n : SyntaxNode) (i : Instruction) : Prop :=
  ∃ m, n.Within m ∧ i ∈ m.numbered

/-- The operands of the code of a program. -/
theorem spelled_of_beginPipe (hrun : beginPipe program PipeContext.empty = .ok ctx) :
    ∀ i ∈ ctx.code, i.Spelled (SyntaxNode.program program).Numbers ctx.stable.strings.length := by
  intro i hi
  have hadds : (SyntaxNode.program program).AddsOnly (SyntaxNode.program program).Numbers :=
    adds_node _ fun m hm i hi => ⟨m, hm, hi⟩
  exact ((hadds _ _ hrun).new i hi).resolve_left List.not_mem_nil

/-- The numbers of the nodes are in the code. -/
theorem numbered_of_beginPipe (hrun : beginPipe program PipeContext.empty = .ok ctx)
    {n : SyntaxNode} (hn : (SyntaxNode.program program).Within n) : ∀ i ∈ n.numbered, i ∈ ctx.code := by
  intro i hi
  obtain ⟨u, hunder, rfl⟩ := Visit.exists_under (v := ⟨.program program, _, ctx, hrun⟩) hn
  obtain ⟨pc, hle, hpc⟩ := added_numbered u.accepts i hi
  have hlt := (List.getElem?_eq_some_iff.mp hpc).1
  exact List.mem_of_getElem? ((hunder.inside.agree pc hle hlt).symm.trans hpc)

theorem inRange_of_beginPipe (hrun : beginPipe program PipeContext.empty = .ok ctx)
    (hlimited : ctx.Limited) (hsmall : ∀ n, (SyntaxNode.program program).Within n → n.Small) :
    ∀ i ∈ ctx.code, InRange i := by
  intro i hi
  have hspelled := spelled_of_beginPipe hrun i hi
  obtain ⟨pc, hlt, rfl⟩ := List.mem_iff_getElem.mp hi
  have hstructured := (structures_node (n := .program program) hrun).structured
  obtain ⟨i, hi, hstays, _⟩ := hstructured.point pc (Nat.zero_le pc) hlt
  rw [List.getElem?_eq_getElem hlt] at hi
  obtain rfl := Option.some.inj hi
  have hcode := hlimited.code_lt
  refine inRange_of (fun x hx => Nat.lt_trans (hspelled.name x hx) hlimited.strings_lt) ?_ ?_ ?_
  · intro hnumbered
    obtain ⟨n, hn, hmem⟩ := hspelled.number hnumbered
    exact (small_iff n).mp (hsmall n hn) _ hmem
  · exact fun target htarget => Nat.lt_of_le_of_lt (hstays.jump target htarget).2 hcode
  · intro size hsize
    have hend := hstays.skip size hsize
    omega

/-- The instructions of a program within the limits fill less than a section can hold. -/
theorem PipeContext.Limited.data_lt (h : ctx.Limited) : ctx.data.length < 2 ^ 32 := by
  have hoperands : ∀ i : Instruction, 1 + operandsLength i ≤ 5 := by
    intro i
    cases i <;> simp [operandsLength, operands, Operand.length]
  have hsum := List.sum_le_card_nsmul (ctx.code.map fun i => 1 + operandsLength i) 5
    (List.forall_mem_map.mpr fun i _ => hoperands i)
  have hlength : ctx.data.length = 8 + (ctx.code.map fun i => 1 + operandsLength i).sum :=
    ctx.data.length_eq
  have hcode := h.code_lt
  rw [List.length_map, smul_eq_mul] at hsum
  omega

theorem wellFormed_of_beginPipe (hash : UInt32 × UInt32)
    (hrun : beginPipe program PipeContext.empty = .ok ctx)
    (hlimited : ctx.Limited) (hsmall : ∀ n, (SyntaxNode.program program).Within n → n.Small) :
    (buildModule hash ctx.stable ctx.data).WellFormed where
  built := rfl
  stable := ⟨hlimited.units, Nat.lt_of_le_of_lt (Nat.le_add_left _ 22) hlimited.length_lt⟩
  data := ⟨inRange_of_beginPipe hrun hlimited hsmall, hlimited.data_lt⟩
  start_lt := hlimited.length_lt

/-- **From the program to the loaded module.**  Every operand of generated code that is the index of
a string finds a string.  A program within the limits is written and loaded with exactly its code
and its strings if and only if its literals and lengths fit the fields they are written to. -/
theorem compiled_loads_iff (hash : UInt32 × UInt32)
    (hrun : beginPipe program PipeContext.empty = .ok ctx) (hlimited : ctx.Limited) :
    (∀ i ∈ ctx.code, ∀ x, i.name? = some x → ∃ s, ctx.stable.strings[x]? = some s) ∧
      ((∀ n, (SyntaxNode.program program).Within n → n.Small) ↔
        ∃ bytes, (buildModule hash ctx.stable ctx.data).writeTo = .ok bytes ∧
          ∀ buff pos, At buff pos bytes → ∀ heap, ∃ module heap',
            moduleLoadFromBufferOffset buff (heap, pos) = .ok (module, heap', pos + 22) ∧
              module.Carries hash ctx.stable.strings ctx.code) := by
  refine ⟨fun i hi x hx => ?_, fun hsmall => ?_, ?_⟩
  · have hlt := (spelled_of_beginPipe hrun i hi).name x hx
    exact ⟨_, List.getElem?_eq_getElem hlt⟩
  · have hwell := wellFormed_of_beginPipe hash hrun hlimited hsmall
    refine ⟨_, ModuleFormat.writeTo_eq hwell, fun buff pos hat heap => ?_⟩
    obtain ⟨exports, scope, heap', hload⟩ :=
      ModuleFormat.moduleLoadFromBufferOffset_of_at hwell hat heap
    exact ⟨_, heap', hload, ModuleFormat.loaded_carries hwell exports scope⟩
  · rintro ⟨bytes, _, hloads⟩ n hn
    obtain ⟨module, _, _, hcarries⟩ :=
      hloads bytes 0 (by simpa using at_of_append [] bytes []) Heap.empty
    -- what is loaded stands for the code, so no number in it was cut
    have hmap := hcarries.operands_eq
    rw [hcarries.instructions_eq, List.map_map] at hmap
    have hback := List.map_inj_left.mp (hmap.trans (List.map_id ctx.code).symm)
    refine (small_iff n).mpr fun i hi => ?_
    exact inRange_of_written (hback i (numbered_of_beginPipe hrun hn i hi)) (isNumbered_of_mem hi)

/-- `f([null]);` -/
def callArray : List Statement :=
  [.expressionStatement (.callExpression (.identifier [102]) 0 [.arrayExpression [some .nullLiteral]])]

theorem SyntaxNode.forall_within {P : SyntaxNode → Prop} {n : SyntaxNode} (hself : P n)
    (hchildren : ∀ c ∈ n.children, ∀ m, c.Within m → P m) : ∀ m, n.Within m → P m := by
  intro m hm
  cases hm with
  | self => exact hself
  | child hc hm => exact hchildren _ hc m hm

/-- A call of one argument, and an array of one element. -/
theorem callArray_small : ∀ n, (SyntaxNode.program callArray).Within n → n.Small := by
  have hleaf : ∀ e : Expression, (SyntaxNode.expression e).Small → e.children = [] →
      ∀ n, (SyntaxNode.expression e).Within n → n.Small := by
    intro e hself hchildren
    refine SyntaxNode.forall_within hself fun c hc => ?_
    rw [SyntaxNode.children, hchildren] at hc
    exact absurd hc List.not_mem_nil
  have harray : ∀ n, (SyntaxNode.expression (.arrayExpression [some .nullLiteral])).Within n →
      n.Small := by
    refine SyntaxNode.forall_within (by simp [SyntaxNode.Small]) fun c hc => ?_
    obtain rfl := List.mem_singleton.mp hc
    exact hleaf _ trivial rfl
  refine SyntaxNode.forall_within trivial fun c hc => ?_
  obtain rfl := List.mem_singleton.mp hc
  refine SyntaxNode.forall_within trivial fun c hc => ?_
  obtain rfl := List.mem_singleton.mp hc
  refine SyntaxNode.forall_within trivial fun c hc => ?_
  obtain rfl := List.mem_singleton.mp hc
  refine SyntaxNode.forall_within (by simp [SyntaxNode.Small]) fun c hc => ?_
  rcases List.mem_cons.mp hc with rfl | hc
  · exact harray
  · obtain rfl := List.mem_singleton.mp hc
    exact hleaf _ trivial rfl

theorem compiled_loads_iff_callArray : ∃ ctx, beginPipe callArray PipeContext.empty = .ok ctx ∧
    ctx.stable.strings = [[108, 101, 110, 103, 116, 104], [48], [102]] ∧
    ctx.code = [.arrAlloc, .dup, .ldInt 1, .objStore 0, .dup, .ldNull, .objStore 1, .ldUndf,
      .loadLocal 2, .call 1, .pop] ∧
    ∃ bytes, (buildModule (7, 9) ctx.stable ctx.data).writeTo = .ok bytes ∧
      ∀ buff pos, At buff pos bytes → ∀ heap, ∃ module heap',
        moduleLoadFromBufferOffset buff (heap, pos) = .ok (module, heap', pos + 22) ∧
          module.Carries (7, 9) ctx.stable.strings ctx.code := by
  obtain ⟨ctx, hrun, hstrings, hcode, hlength⟩ : ∃ ctx : PipeContext,
      beginPipe callArray PipeContext.empty = .ok ctx ∧
        ctx.stable.strings = [[108, 101, 110, 103, 116, 104], [48], [102]] ∧
        ctx.code = [.arrAlloc, .dup, .ldInt 1, .objStore 0, .dup, .ldNull, .objStore 1, .ldUndf,
          .loadLocal 2, .call 1, .pop] ∧ ctx.stable.length = 28 :=
    ⟨_, rfl, by decide, by decide, by decide⟩
  have hlimited : ctx.Limited := by
    refine ⟨?_, ?_, ?_, ?_⟩
    · rw [hcode]
      decide
    · rw [hstrings]
      decide
    · rw [hstrings]
      simp
    · rw [hlength]
      decide
  exact ⟨ctx, hrun, hstrings, hcode, (compiled_loads_iff (7, 9) hrun hlimited).2.mp callArray_small⟩

end AtomixJS.Compiler
