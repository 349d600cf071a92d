import AtomixJS.Compiler.Pipe

/-!
# Placeholders

A jump whose target is not known yet is emitted as a placeholder and replaced
when the code behind it has been emitted.  What was emitted in between stays as
it was: the final code agrees with it on its region.  `Replaced`, `Branches` and
`Loop` are the layouts of a function or an `if`, of an `if` with `else`, and of a
`while`.
-/

namespace AtomixJS.Compiler

/-! ## Contexts -/

namespace PipeContext

variable (ctx : PipeContext)

theorem getCount_eq : ctx.getCount = ctx.code.length := ctx.data.count_eq

@[simp] theorem addInstruction_code (instruction : Instruction) :
    (ctx.addInstruction instruction).code = ctx.code ++ [instruction] := rfl

@[simp] theorem registerString_code (x : JSString) : (ctx.registerString x).2.code = ctx.code := rfl

@[simp] theorem reverseArguments_code (id : ℕ) : (ctx.reverseArguments id).2.code = ctx.code := by
  unfold reverseArguments
  split <;> rfl

theorem replaceInstruction_ok {ctx ctx' : PipeContext} {index : ℕ} {instruction : Instruction}
    (h : ctx.replaceInstruction index instruction = .ok ctx') :
    index < ctx.code.length ∧ ctx'.code = ctx.code.set index instruction ∧
      ctx'.stable = ctx.stable := by
  unfold replaceInstruction at h
  simp only [Fallible.bind_eq_ok, Fallible.pure_eq_ok] at h
  obtain ⟨data, hdata, rfl⟩ := h
  unfold DataSection.replaceInstruction at hdata
  split at hdata
  · cases hdata
  · next hget =>
    obtain rfl := Except.ok.inj hdata
    exact ⟨(List.getElem?_eq_some_iff.mp hget).1, rfl, rfl⟩

end PipeContext

/-! ## Codes that agree -/

/-- Two codes have the same instructions in a region. -/
def Agree (s t : ℕ) (code code' : List Instruction) : Prop :=
  ∀ pc, s ≤ pc → pc < t → code[pc]? = code'[pc]?

variable {s t i : ℕ} {code code' code'' : List Instruction} {instruction : Instruction}

theorem Agree.trans (h : Agree s t code code') (h' : Agree s t code' code'') :
    Agree s t code code'' := fun pc hs ht => (h pc hs ht).trans (h' pc hs ht)

theorem Agree.mono {s' t' : ℕ} (h : Agree s t code code') (hs : s ≤ s') (ht : t' ≤ t) :
    Agree s' t' code code' :=
  fun pc hs' ht' => h pc (Nat.le_trans hs hs') (Nat.lt_of_lt_of_le ht' ht)

theorem agree_extended (h : code <+: code') (ht : t ≤ code.length) : Agree s t code code' := by
  obtain ⟨rest, rfl⟩ := h
  intro pc _ hpc
  rw [List.getElem?_append_left (Nat.lt_of_lt_of_le hpc ht)]

theorem agree_set (h : i < s ∨ t ≤ i) : Agree s t code (code.set i instruction) := by
  intro pc hs ht
  rw [List.getElem?_set_ne (by omega)]

theorem prefix_set (h : code.length ≤ i) : code <+: (code' : List Instruction) →
    code <+: code'.set i instruction := by
  rintro ⟨rest, rfl⟩
  rw [List.set_append_right _ _ h]
  exact List.prefix_append _ _

/-! ## Layouts -/

variable {ctx ctx' ctx₁ : PipeContext}

/-- A placeholder, the code behind it, and the code in which it was replaced. -/
structure Replaced (ctx ctx₁ ctx₂ ctx' : PipeContext) (new : Instruction) : Prop where
  extends_code : ctx.code <+: ctx'.code
  le : ctx.code.length + 1 ≤ ctx₁.code.length
  length_eq : ctx'.code.length = ctx₂.code.length
  stable_eq : ctx'.stable = ctx₂.stable
  new_eq : ctx'.code[ctx.code.length]? = some new
  agree : Agree (ctx.code.length + 1) ctx₁.code.length ctx₁.code ctx'.code

theorem replaced {old new : Instruction} {ctx₂ : PipeContext}
    (hbody : (ctx.addInstruction old).code <+: ctx₁.code) (hextends : ctx₁.code <+: ctx₂.code)
    (hreplace : ctx₂.replaceInstruction ctx.code.length new = .ok ctx') :
    Replaced ctx ctx₁ ctx₂ ctx' new := by
  obtain ⟨hlt, hcode, hstable⟩ := PipeContext.replaceInstruction_ok hreplace
  have hle := hbody.length_le
  rw [PipeContext.addInstruction_code, List.length_append, List.length_singleton] at hle
  refine ⟨?_, hle, by rw [hcode, List.length_set], hstable, ?_, ?_⟩
  · rw [hcode]
    apply prefix_set (Nat.le_refl _)
    exact ((List.prefix_append ctx.code [old]).trans hbody).trans hextends
  · rw [hcode]
    exact List.getElem?_set_self hlt
  · rw [hcode]
    exact (agree_extended hextends (Nat.le_refl _)).trans (agree_set (.inl (Nat.lt_succ_self _)))

/-- The two branches of an `if` between the jumps that were filled in. -/
structure Branches (ctx₁ ctx₂ ctx₃ ctx₄ ctx' : PipeContext) : Prop where
  extends_code : ctx₁.code <+: ctx'.code
  le : ctx₁.code.length + 1 ≤ ctx₂.code.length
  else_start : ctx₃.code.length = ctx₂.code.length + 1
  else_le : ctx₂.code.length + 1 ≤ ctx'.code.length
  length_eq : ctx'.code.length = ctx₄.code.length
  then_stable : ctx₃.stable = ctx₂.stable
  else_stable : ctx'.stable = ctx₄.stable
  jump_eq : ctx'.code[ctx₁.code.length]? = some (.jmpF (ctx₂.code.length + 1))
  end_eq : ctx'.code[ctx₂.code.length]? = some (.jmp ctx'.code.length)
  then_agree : Agree (ctx₁.code.length + 1) ctx₂.code.length ctx₂.code ctx'.code
  else_agree : Agree (ctx₂.code.length + 1) ctx₄.code.length ctx₄.code ctx'.code

theorem branches {ctx₂ ctx₃ ctx₄ : PipeContext}
    (hthen : (ctx₁.addInstruction .nop).code <+: ctx₂.code)
    (hfirst : (ctx₂.addInstruction .nop).replaceInstruction ctx₁.code.length
      (.jmpF (ctx₂.code.length + 1)) = .ok ctx₃)
    (helse : ctx₃.code <+: ctx₄.code)
    (hsecond : ctx₄.replaceInstruction ctx₂.code.length (.jmp ctx₄.code.length) = .ok ctx') :
    Branches ctx₁ ctx₂ ctx₃ ctx₄ ctx' := by
  obtain ⟨hextends, hle, hlength, hstable, hget, hthenAgree⟩ :=
    replaced hthen (List.prefix_append _ _) hfirst
  rw [PipeContext.addInstruction_code, List.length_append, List.length_singleton] at hlength
  obtain ⟨hlt, hcode, hstable'⟩ := PipeContext.replaceInstruction_ok hsecond
  have hle' := helse.length_le
  -- the jump over the second branch stands where the first one ends
  have hagree : ∀ {s t : ℕ}, (ctx₂.code.length < s ∨ t ≤ ctx₂.code.length) →
      Agree s t ctx₄.code ctx'.code := fun h => hcode ▸ agree_set h
  have hlength' : ctx'.code.length = ctx₄.code.length := by rw [hcode, List.length_set]
  have hjump := hagree (.inr (Nat.le_refl _)) _ (Nat.zero_le _) hle
  have hkept := agree_extended (s := 0) helse (Nat.le_refl _) ctx₁.code.length (Nat.zero_le _)
    (by omega)
  refine ⟨?_, hle, hlength, by omega, hlength', hstable, hstable', ?_, ?_, ?_, ?_⟩
  · rw [hcode]
    exact prefix_set (by omega) (hextends.trans helse)
  · rw [← hjump, ← hkept, hget]
  · rw [hlength', hcode]
    exact List.getElem?_set_self hlt
  · exact (hthenAgree.trans (agree_extended helse (by omega))).trans (hagree (.inr (Nat.le_refl _)))
  · exact hagree (.inl (Nat.lt_succ_self _))

/-- The test and the body of a loop with its jumps. -/
structure Loop (ctx ctx₁ ctx₂ ctx' : PipeContext) : Prop where
  extends_code : ctx₁.code <+: ctx'.code
  le : ctx₁.code.length + 1 ≤ ctx₂.code.length
  length_eq : ctx'.code.length = ctx₂.code.length + 1
  stable_eq : ctx'.stable = ctx₂.stable
  test_eq : ctx'.code[ctx₁.code.length]? = some (.jmpF (ctx₂.code.length + 1))
  jump_eq : ctx'.code[ctx₂.code.length]? = some (.jmp ctx.code.length)
  body_agree : Agree (ctx₁.code.length + 1) ctx₂.code.length ctx₂.code ctx'.code

theorem loop {ctx₂ : PipeContext} (hbody : (ctx₁.addInstruction .pop).code <+: ctx₂.code)
    (hreplace : (ctx₂.addInstruction (.jmp ctx.code.length)).replaceInstruction ctx₁.code.length
      (.jmpF (ctx₂.addInstruction (.jmp ctx.code.length)).code.length) = .ok ctx') :
    Loop ctx ctx₁ ctx₂ ctx' := by
  obtain ⟨hextends, hle, hlength, hstable, hget, hagree⟩ :=
    replaced hbody (List.prefix_append _ _) hreplace
  obtain ⟨hlt, hcode, _⟩ := PipeContext.replaceInstruction_ok hreplace
  rw [PipeContext.addInstruction_code, List.length_append, List.length_singleton] at hlength hget
  refine ⟨hextends, hle, hlength, hstable, hget, ?_, hagree⟩
  rw [hcode, List.getElem?_set_ne (by omega), PipeContext.addInstruction_code]
  exact List.getElem?_concat_length

end AtomixJS.Compiler
