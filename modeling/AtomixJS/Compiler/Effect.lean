import AtomixJS.Compiler.Placeholder
import AtomixJS.Lib.Flow

/-!
# The documented stack effect of generated code

`documentedNode` is the table of `Opcodes.md`.  `Emits ctx ctx' a b` says of
what the compiler added between two contexts that it is balanced from height `a`
to height `b`; `Passes` says that also some path goes through.  Both compose
along the contexts, so the effect of a node is the chain of the effects of its
parts.
-/

namespace AtomixJS.Compiler

open Flow (Balanced Path)

/-- The stack effect and the successors of an instruction, as documented.
`RETURN` takes a value if there is one and ends the path. -/
def documentedNode (pc : ℕ) : Instruction → Flow.Node
  | .nop | .pushScope | .popScope => ⟨0, 0, [pc + 1]⟩
  | .ldInt _ | .ldDouble _ | .ldString _ | .ldUndf | .ldNull | .ldTrue | .ldFalse | .ldThis
  | .loadLocal _ | .loadArg _ | .arrAlloc | .objAlloc => ⟨0, 1, [pc + 1]⟩
  | .binary _ | .objCload => ⟨2, 1, [pc + 1]⟩
  | .unary _ | .objLoad _ => ⟨1, 1, [pc + 1]⟩
  | .pop | .allocLocal _ | .storeLocal _ | .exportAs _ => ⟨1, 0, [pc + 1]⟩
  | .dup => ⟨1, 2, [pc + 1]⟩
  | .swap => ⟨2, 2, [pc + 1]⟩
  | .funcDecl _ size | .funcDeclE size => ⟨0, 1, [pc + 1 + size]⟩
  | .call n => ⟨n + 2, 1, [pc + 1]⟩
  | .objStore _ => ⟨2, 0, [pc + 1]⟩
  | .objCstore => ⟨3, 0, [pc + 1]⟩
  | .ret => ⟨0, 0, []⟩
  | .jmp target => ⟨0, 0, [target]⟩
  | .jmpF target | .jmpT target => ⟨1, 0, [pc + 1, target]⟩

def graph (code : List Instruction) : Flow.Graph := fun pc => code[pc]?.map (documentedNode pc)

theorem graph_of_get {code : List Instruction} {pc : ℕ} {instruction : Instruction}
    (h : code[pc]? = some instruction) :
    graph code pc = some (documentedNode pc instruction) := by
  unfold graph
  rw [h]
  rfl

theorem Agree.graph {s t : ℕ} {code code' : List Instruction} (h : Agree s t code code') :
    ∀ pc, s ≤ pc → pc < t → graph code pc = graph code' pc := by
  intro pc hs ht
  unfold Compiler.graph
  rw [h pc hs ht]

/-! ## Effects -/

/-- What was added to a context is balanced. -/
structure Emits (ctx ctx' : PipeContext) (a b : ℕ) : Prop where
  extends_code : ctx.code <+: ctx'.code
  balanced : Balanced (graph ctx'.code) ctx.code.length ctx'.code.length a b

/-- What was added to a context is balanced and can be passed. -/
structure Passes (ctx ctx' : PipeContext) (a b : ℕ) : Prop where
  extends_code : ctx.code <+: ctx'.code
  passes : Flow.Passes (graph ctx'.code) ctx.code.length ctx'.code.length a b

variable {ctx ctx₁ ctx₂ : PipeContext} {a b c : ℕ}

theorem Passes.emits (h : Passes ctx ctx₁ a b) : Emits ctx ctx₁ a b := ⟨h.1, h.2.1⟩

theorem Emits.trans (h₁ : Emits ctx ctx₁ a b) (h₂ : Emits ctx₁ ctx₂ b c) : Emits ctx ctx₂ a c :=
  ⟨h₁.1.trans h₂.1,
    (h₁.2.congr (agree_extended h₂.1 (Nat.le_refl _)).graph).seq h₂.2 h₁.1.length_le h₂.1.length_le⟩

theorem Passes.trans (h₁ : Passes ctx ctx₁ a b) (h₂ : Passes ctx₁ ctx₂ b c) :
    Passes ctx ctx₂ a c :=
  ⟨h₁.1.trans h₂.1,
    (h₁.2.congr (agree_extended h₂.1 (Nat.le_refl _)).graph).seq h₂.2 h₁.1.length_le h₂.1.length_le⟩

theorem Passes.lift (h : Passes ctx ctx₁ a b) (c : ℕ) : Passes ctx ctx₁ (a + c) (b + c) :=
  ⟨h.1, h.2.lift c⟩

/-- A context with the same code. -/
theorem Passes.of_code_eq (h : ctx.code = ctx₁.code) : Passes ctx ctx₁ a a :=
  ⟨h ▸ List.prefix_rfl, h ▸ Flow.passes_refl⟩

theorem Passes.refl (ctx : PipeContext) (a : ℕ) : Passes ctx ctx a a := Passes.of_code_eq rfl

theorem passes_register (x : JSString) : Passes ctx (ctx.registerString x).2 a a :=
  Passes.of_code_eq rfl

variable {p q : ℕ}

theorem graph_add (ctx : PipeContext) (instruction : Instruction) :
    graph (ctx.addInstruction instruction).code ctx.code.length =
      some (documentedNode ctx.code.length instruction) := by
  simp [graph]

/-- An instruction that only takes `p` values and puts `q`. -/
theorem passes_add {instruction : Instruction}
    (h : ∀ pc, documentedNode pc instruction = ⟨p, q, [pc + 1]⟩) (hp : p ≤ a)
    (hb : a - p + q = b) : Passes ctx (ctx.addInstruction instruction) a b := by
  subst hb
  refine ⟨List.prefix_append _ _, ?_⟩
  have hnode := graph_add ctx instruction
  rw [h] at hnode
  rw [PipeContext.addInstruction_code, List.length_append, List.length_singleton]
  exact Flow.passes_single hnode (Nat.lt_succ_self _) hp rfl

theorem passes_addNamed {instruction : ℕ → Instruction} (name : JSString)
    (h : ∀ idx pc, documentedNode pc (instruction idx) = ⟨p, q, [pc + 1]⟩) (hp : p ≤ a)
    (hb : a - p + q = b) : Passes ctx (ctx.addNamed instruction name) a b :=
  (passes_register name).trans (passes_add (h _) hp hb)

/-! ## Emissions -/

/-- Whenever the emission succeeds, it can be passed from height `a` to `b`. -/
def Raises (emit : PipeContext → Except String PipeContext) (a b : ℕ) : Prop :=
  ∀ ⦃ctx ctx' : PipeContext⦄, emit ctx = .ok ctx' → Passes ctx ctx' a b

/-- Whenever the emission succeeds, it is balanced from height `a` to `b`. -/
def Keeps (emit : PipeContext → Except String PipeContext) (a b : ℕ) : Prop :=
  ∀ ⦃ctx ctx' : PipeContext⦄, emit ctx = .ok ctx' → Emits ctx ctx' a b

variable {emit : PipeContext → Except String PipeContext} {ctx' : PipeContext}

theorem Raises.keeps (h : Raises emit a b) : Keeps emit a b := fun _ _ hrun => (h hrun).emits

theorem raises_foldlM {α : Type} {f : PipeContext → α → Except String PipeContext} {xs : List α}
    (h : ∀ x ∈ xs, Raises (fun ctx => f ctx x) a a) : Raises (fun ctx => xs.foldlM f ctx) a a := by
  induction xs with
  | nil =>
    intro ctx ctx' hrun
    obtain rfl := Except.ok.inj hrun
    exact Passes.refl ctx a
  | cons x xs ih =>
    intro ctx ctx' hrun
    simp only [List.foldlM_cons, Fallible.bind_eq_ok] at hrun
    obtain ⟨ctx₁, hx, hxs⟩ := hrun
    exact (h x List.mem_cons_self hx).trans (ih (fun y hy => h y (List.mem_cons_of_mem x hy)) hxs)

theorem passes_numericLiteral (value : Binary64) (ctx : PipeContext) :
    Passes ctx (pipeNumericLiteral value ctx) 0 1 := by
  unfold pipeNumericLiteral
  cases value.whole? with
  | some n => exact passes_add (fun _ => rfl) (Nat.zero_le _) rfl
  | none => exact passes_add (fun _ => rfl) (Nat.zero_le _) rfl

theorem passes_identifier (name : JSString) (ctx : PipeContext) :
    Passes ctx (pipeIdentifier name ctx) a (a + 1) := by
  unfold pipeIdentifier
  split
  · exact passes_add (fun _ => rfl) (Nat.zero_le _) rfl
  · exact passes_addNamed name (fun _ _ => rfl) (Nat.zero_le _) rfl

theorem raises_unaryOperator (operator : UnaryOperator) :
    Raises (pipeUnaryOperator operator) 1 1 := by
  intro ctx ctx' hrun
  cases operator with
  | other text => exact nomatch hrun
  | void =>
    obtain rfl := Except.ok.inj hrun
    have hpop : Passes ctx (ctx.addInstruction .pop) 1 0 :=
      passes_add (fun _ => rfl) (Nat.le_refl 1) rfl
    exact hpop.trans (passes_add (fun _ => rfl) (Nat.zero_le _) rfl)
  | _ =>
    obtain rfl := Except.ok.inj hrun
    exact passes_add (fun _ => rfl) (Nat.le_refl 1) rfl

theorem raises_declaratorId (id : DeclaratorId) :
    Raises (pipeDeclaratorId id) 1 (match id with | .objectPattern _ => 1 | _ => 0) := by
  intro ctx ctx' hrun
  cases id with
  | identifier name =>
    obtain rfl := Except.ok.inj hrun
    exact passes_addNamed name (fun _ _ => rfl) (Nat.le_refl 1) rfl
  | objectPattern properties =>
    -- each property duplicates the object, and nothing takes the object itself off
    refine raises_foldlM (fun property _ => ?_) hrun
    intro ctx ctx' hrun
    match property with
    | .objectProperty (some key) (some value) =>
      obtain rfl := Except.ok.inj hrun
      have hdup : Passes ctx (ctx.addInstruction .dup) 1 2 :=
        passes_add (fun _ => rfl) (Nat.le_refl 1) rfl
      exact ((hdup.trans ((passes_register key).trans (passes_register value))).trans
        (passes_add (fun _ => rfl) (by decide) rfl)).trans
        (passes_add (fun _ => rfl) (by decide) rfl)
    | .objectProperty (some _) none | .objectProperty none _ | .restElement => exact nomatch hrun
  | other type => exact nomatch hrun

theorem raises_params (params : List (Option JSString)) (i : ℕ) :
    Raises (pipeParams params i) 0 0 := by
  induction params generalizing i with
  | nil =>
    intro ctx ctx' hrun
    obtain rfl := Except.ok.inj hrun
    exact Passes.refl ctx 0
  | cons param params ih =>
    intro ctx ctx' hrun
    cases param with
    | none => exact nomatch hrun
    | some name =>
      have harg : Passes ctx (ctx.addInstruction (.loadArg (i + 1))) 0 1 :=
        passes_add (fun _ => rfl) (Nat.zero_le _) rfl
      have halloc : Passes _ ((ctx.addInstruction (.loadArg (i + 1))).addNamed .allocLocal name)
          1 0 := passes_addNamed name (fun _ _ => rfl) (Nat.le_refl 1) rfl
      exact (harg.trans halloc).trans (ih (i + 1) hrun)

/-- A function declaration leaves the function, a variable declaration nothing. -/
def Declaration.height : Declaration → ℕ
  | .functionDeclaration _ => 1
  | _ => 0

theorem raises_exportDeclaration (declaration : Declaration) :
    Raises (pipeExportDeclaration declaration) declaration.height 0 := by
  intro ctx ctx' hrun
  match declaration with
  | .variableDeclaration declarations =>
    refine raises_foldlM (fun declarator _ => ?_) hrun
    intro ctx ctx' hrun
    match declarator with
    | .mk (.identifier name) _ =>
      obtain rfl := Except.ok.inj hrun
      exact (passes_identifier name ctx).trans
        (passes_addNamed name (fun _ _ => rfl) (Nat.le_refl 1) rfl)
    | .mk (.objectPattern _) _ | .mk (.other _) _ => exact nomatch hrun
  | .functionDeclaration (.mk (some name) _ _) =>
    obtain rfl := Except.ok.inj hrun
    exact passes_addNamed name (fun _ _ => rfl) (Nat.le_refl 1) rfl
  | .functionDeclaration (.mk none _ _) | .other _ => exact nomatch hrun

end AtomixJS.Compiler
