import AtomixJS.Compiler.Codec
import AtomixJS.Compiler.Emission
import AtomixJS.Core.Quiet

/-!
# The way through an expression

An expression without calls and assignments is emitted as a straight way of quiet
instructions, around the functions in it.  If one of these has a name, its `FUNC_DECL`
stands in the way and declares the name; otherwise the way is `Quietly` passed.
-/

namespace AtomixJS.Compiler

theorem execSlot_quiet {host : Host} {vm : VM} {instruction : Instruction}
    (h : instruction.isQuiet = true) : (execSlot host instruction.loaded vm).Quiet vm := by
  unfold Instruction.loaded
  split
  · exact VM.Keeps.refl vm
  · refine execInst_quiet ?_
    rw [InstOf.isQuiet_map]
    exact h

/-! ## Straight ways -/

/-- A way through the code: quiet instructions, and functions without a name that it goes
around. -/
inductive Straight (code : List Instruction) : ℕ → ℕ → Prop
  | refl (pc : ℕ) : Straight code pc pc
  | quiet {pc t : ℕ} {instruction : Instruction} : code[pc]? = some instruction →
      instruction.isQuiet = true → Straight code (pc + 1) t → Straight code pc t
  | function {pc t size : ℕ} : code[pc]? = some (.funcDeclE size) →
      Straight code (pc + 1 + size) t → Straight code pc t

namespace Straight

variable {code code' : List Instruction} {s m t : ℕ}

theorem trans (h : Straight code s m) (h' : Straight code m t) : Straight code s t := by
  induction h with
  | refl => exact h'
  | quiet hget hquiet _ ih => exact .quiet hget hquiet (ih h')
  | function hget _ ih => exact .function hget (ih h')

theorem le (h : Straight code s t) : s ≤ t := by
  induction h with
  | refl => exact Nat.le_refl _
  | quiet _ _ _ ih => omega
  | function _ _ ih => omega

theorem agree (h : Straight code s t) (hagree : Agree s t code code') : Straight code' s t := by
  induction h with
  | refl => exact .refl _
  | @quiet pc t instruction hget hquiet hrest ih =>
    have hle := hrest.le
    exact .quiet (hagree pc (Nat.le_refl _) (by omega) ▸ hget) hquiet
      (ih (hagree.mono (by omega) (Nat.le_refl _)))
  | @function pc t size hget hrest ih =>
    have hle := hrest.le
    exact .function (hagree pc (Nat.le_refl _) (by omega) ▸ hget)
      (ih (hagree.mono (by omega) (Nat.le_refl _)))

end Straight

/-- A straight way leads through what was emitted between two contexts. -/
structure Quietly (ctx ctx' : PipeContext) : Prop where
  extends_code : ctx.code <+: ctx'.code
  straight : Straight ctx'.code ctx.code.length ctx'.code.length

variable {ctx ctx' ctx₁ ctx₂ : PipeContext}

namespace Quietly

theorem of_code_eq (h : ctx.code = ctx'.code) : Quietly ctx ctx' :=
  ⟨h ▸ List.prefix_rfl, h ▸ .refl _⟩

theorem refl (ctx : PipeContext) : Quietly ctx ctx := of_code_eq rfl

theorem trans (h : Quietly ctx ctx₁) (h' : Quietly ctx₁ ctx₂) : Quietly ctx ctx₂ :=
  ⟨h.1.trans h'.1, (h.2.agree (agree_extended h'.1 (Nat.le_refl _))).trans h'.2⟩

theorem add (ctx : PipeContext) {instruction : Instruction} (h : instruction.isQuiet = true) :
    Quietly ctx (ctx.addInstruction instruction) := by
  refine ⟨List.prefix_append _ _, ?_⟩
  rw [addInstruction_length]
  refine .quiet ?_ h (.refl _)
  rw [PipeContext.addInstruction_code]
  exact List.getElem?_concat_length

theorem addNamed (ctx : PipeContext) {named : ℕ → Instruction} (name : JSString)
    (h : ∀ idx, (named idx).isQuiet = true) : Quietly ctx (ctx.addNamed named name) :=
  (of_code_eq (ctx.registerString_code name).symm).trans (add _ (h _))

end Quietly

/-- Whenever the emission succeeds, there is a straight way. -/
def Quiets (emit : PipeContext → Except String PipeContext) : Prop :=
  ∀ ⦃ctx ctx' : PipeContext⦄, emit ctx = .ok ctx' → Quietly ctx ctx'

/-! ## Expressions -/

theorem quietly_numericLiteral (value : Binary64) (ctx : PipeContext) :
    Quietly ctx (pipeNumericLiteral value ctx) := by
  unfold pipeNumericLiteral
  split
  · exact .add ctx rfl
  · exact .add ctx rfl

theorem quietly_identifier (name : JSString) (ctx : PipeContext) :
    Quietly ctx (pipeIdentifier name ctx) := by
  unfold pipeIdentifier
  split
  · exact .add ctx rfl
  · exact .addNamed ctx name fun _ => rfl

theorem quiets_unaryOperator (operator : UnaryOperator) : Quiets (pipeUnaryOperator operator) := by
  intro ctx ctx' hrun
  cases operator with
  | other text => cases hrun
  | void =>
    obtain rfl := Except.ok.inj hrun
    exact (Quietly.add ctx rfl).trans (.add _ rfl)
  | _ =>
    obtain rfl := Except.ok.inj hrun
    exact .add ctx rfl

theorem quiets_memberObject {object : Expression}
    (h : object.isSuper = false → Quiets (pipeExpression object)) :
    Quiets (pipeMemberObject object (pipeExpression object) false) := by
  intro ctx ctx' hrun
  by_cases hsuper : object.isSuper = false
  · rw [pipeMemberObject_of_not_super hsuper] at hrun
    simp only [Fallible.bind_eq_ok, Fallible.pure_eq_ok] at hrun
    obtain ⟨ctx₁, hobject, rfl⟩ := hrun
    exact h hsuper hobject
  · obtain ⟨extra, rfl⟩ : ∃ extra, object = .super extra := by
      cases object <;> first | exact ⟨_, rfl⟩ | exact absurd rfl hsuper
    cases extra with
    | none => cases hrun
    | some extra =>
      unfold pipeMemberObject at hrun
      simp only [Fallible.guard_eq_ok, Except.ok.injEq] at hrun
      obtain ⟨_, rfl⟩ := hrun
      have hload : Quietly ctx (ctx.addNamed .loadLocal extra.targetName) :=
        .addNamed ctx _ fun _ => rfl
      cases hstatic : extra.isStatic with
      | true => exact hload
      | false => exact hload.trans (.addNamed _ _ fun _ => rfl)

theorem quiets_memberExpression {object property : Expression} {computed : Bool}
    (h : ∀ e, .expression e ∈ memberChildren object property computed →
      Quiets (pipeExpression e)) :
    Quiets (pipeMemberExpression object property (pipeExpression object)
      (pipeExpression property) computed false) := by
  intro ctx ctx' hrun
  unfold pipeMemberExpression at hrun
  obtain ⟨ctx₁, hfirst, hsecond⟩ := Fallible.bind_eq_ok.mp hrun
  have hobject : Quietly ctx ctx₁ := by
    refine quiets_memberObject (fun hsuper => h _ ?_) hfirst
    unfold memberChildren
    rw [hsuper]
    exact List.mem_append_left _ (List.mem_singleton_self _)
  refine hobject.trans ?_
  unfold pipeMemberProperty at hsecond
  split at hsecond
  · next hcomputed =>
    simp only [Fallible.bind_eq_ok, Fallible.pure_eq_ok] at hsecond
    obtain ⟨ctx₂, hkey, rfl⟩ := hsecond
    have hproperty : Quietly ctx₁ ctx₂ := by
      refine h property ?_ hkey
      unfold memberChildren
      rw [if_pos hcomputed]
      exact List.mem_append_right _ (List.mem_singleton_self _)
    exact hproperty.trans (.add _ rfl)
  · split at hsecond
    · obtain rfl := Except.ok.inj hsecond
      exact .addNamed _ _ fun _ => rfl
    · cases hsecond

theorem quiets_properties {properties : List Property}
    (h : ∀ e, .expression e ∈ properties.flatMap Property.children → Quiets (pipeExpression e)) :
    Quiets (pipeProperties properties) := by
  induction properties with
  | nil =>
    intro ctx ctx' hrun
    obtain rfl := Except.ok.inj hrun
    exact .refl ctx
  | cons property properties ih =>
    intro ctx ctx' hrun
    match property with
    | .objectProperty (some key) value =>
      simp only [pipeProperties, Fallible.bind_eq_ok] at hrun
      obtain ⟨ctx₁, hvalue, hrest⟩ := hrun
      have hkey : Quietly ctx ((ctx.addInstruction .dup).registerString key).2 :=
        (Quietly.add ctx rfl).trans (.of_code_eq (PipeContext.registerString_code _ _).symm)
      have hstore : ∀ idx, Quietly ctx₁ (ctx₁.addInstruction (.objStore idx)) :=
        fun _ => .add ctx₁ rfl
      have hothers := ih (fun e hmem => h e (List.mem_append_right _ hmem)) hrest
      exact ((hkey.trans (h value List.mem_cons_self hvalue)).trans (hstore _)).trans hothers
    | .objectProperty none _ | .objectMethod none | .objectMethod (some _) | .spreadElement =>
      cases hrun

theorem quiets_elements {elements : List (Option Expression)}
    (h : ∀ e, some e ∈ elements → Quiets (pipeExpression e)) (i : ℕ) :
    Quiets (pipeElements elements i) := by
  induction elements generalizing i with
  | nil =>
    intro ctx ctx' hrun
    obtain rfl := Except.ok.inj hrun
    exact .refl ctx
  | cons element elements ih =>
    intro ctx ctx' hrun
    cases element with
    | none => cases hrun
    | some e =>
      simp only [pipeElements, Fallible.bind_eq_ok] at hrun
      obtain ⟨ctx₁, he, hrest⟩ := hrun
      have hdup : Quietly ctx (ctx.addInstruction .dup) := .add ctx rfl
      have hstore : Quietly ctx₁ (ctx₁.addNamed .objStore (jsString (toString i))) :=
        .addNamed ctx₁ _ fun _ => rfl
      have hstored := (hdup.trans (h e List.mem_cons_self he)).trans hstore
      exact hstored.trans (ih (fun e' hmem => h e' (List.mem_cons_of_mem _ hmem)) (i + 1) hrest)

/-- The way leads around a function without a name. -/
theorem quiets_function {params : List (Option JSString)} {body : Block} :
    Quiets (pipeFunction (.mk none params body)) := by
  intro ctx ctx' hrun
  have hextends := (extends_node (n := .function (.mk none params body)) hrun).code
  simp only [pipeFunction, Fallible.bind_eq_ok, PipeContext.getCount_eq] at hrun
  obtain ⟨ctx₁, _, ctx₂, _, hreplace⟩ := hrun
  obtain ⟨hlt, hcode, _⟩ := PipeContext.replaceInstruction_ok hreplace
  have hend : ctx.code.length + 1 + (ctx₂.code.length - ctx.code.length - 1) = ctx₂.code.length := by
    omega
  have hget : ctx'.code[ctx.code.length]? =
      some (.funcDeclE (ctx₂.code.length - ctx.code.length - 1)) := by
    rw [hcode, List.getElem?_set_self hlt]
  refine ⟨hextends, .function hget ?_⟩
  rw [hcode, List.length_set, hend]
  exact .refl _

/-- A function with a name starts with the declaration of the name. -/
theorem funcDecl_emitted {name : JSString} {params : List (Option JSString)} {body : Block}
    (hrun : pipeFunction (.mk (some name) params body) ctx = .ok ctx') :
    ∃ idx, ctx.code.length < ctx'.code.length ∧
      ctx'.code[ctx.code.length]? =
        some (.funcDecl idx (ctx'.code.length - ctx.code.length - 1)) ∧
      ctx'.stable.strings[idx]? = some name := by
  simp only [pipeFunction, Fallible.bind_eq_ok, PipeContext.getCount_eq] at hrun
  obtain ⟨ctx₁, hparams, ctx₂, hbody, hreplace⟩ := hrun
  obtain ⟨hlt, hcode, hstable⟩ := PipeContext.replaceInstruction_ok hreplace
  obtain ⟨visits, hemission, _⟩ := visits_params hparams
  have hblock := (extends_node (n := .block body) hbody).strings
  obtain ⟨rest, hstrings⟩ := hemission.extends.strings.trans hblock
  have hname : ((ctx.addInstruction .nop).registerString name).2.stable.strings[
      ((ctx.addInstruction .nop).registerString name).1]? = some name :=
    (ctx.addInstruction .nop).stable.registerString_getElem? name
  refine ⟨((ctx.addInstruction .nop).registerString name).1, ?_, ?_, ?_⟩
  · rwa [hcode, List.length_set]
  · rw [hcode, List.getElem?_set_self hlt, List.length_set]
  · rw [hstable, ← hstrings, List.getElem?_append_left (List.getElem?_eq_some_iff.mp hname).1]
    exact hname

/-! ## What is evaluated -/

namespace Expression

/-- The expression is a call or an assignment. -/
def acts : Expression → Bool
  | .callExpression _ _ _ | .assignmentExpression _ _ _ => true
  | _ => false

/-- The name of a function expression. -/
def functionName? : Expression → Option JSString
  | .functionExpression (.mk id _ _) => id
  | _ => none

end Expression

/-- The expressions that are evaluated with an expression.  The bodies of functions are not. -/
inductive Evaluated : Expression → Expression → Prop
  | self (e : Expression) : Evaluated e e
  | child {e c m : Expression} : .expression c ∈ e.children → Evaluated c m → Evaluated e m

theorem Evaluated.within {e m : Expression} (h : Evaluated e m) :
    SyntaxNode.Within (.expression e) (.expression m) := by
  induction h with
  | self e => exact .self _
  | child hc _ ih => exact .child hc ih

theorem quiets_step {e : Expression} (hacts : e.acts = false) (hname : e.functionName? = none)
    (h : ∀ c, .expression c ∈ e.children → Quiets (pipeExpression c)) :
    Quiets (pipeExpression e) := by
  intro ctx ctx' hrun
  match e with
  | .stringLiteral value =>
    obtain rfl := Except.ok.inj hrun
    exact .addNamed ctx value fun _ => rfl
  | .numericLiteral value =>
    obtain rfl := Except.ok.inj hrun
    exact quietly_numericLiteral value ctx
  | .booleanLiteral value =>
    obtain rfl := Except.ok.inj hrun
    cases value <;> exact .add ctx rfl
  | .nullLiteral | .thisExpression =>
    obtain rfl := Except.ok.inj hrun
    exact .add ctx rfl
  | .identifier name =>
    obtain rfl := Except.ok.inj hrun
    exact quietly_identifier name ctx
  | .binaryExpression operator left right =>
    simp only [pipeExpression, Fallible.bind_eq_ok, Fallible.pure_eq_ok] at hrun
    obtain ⟨ctx₁, hleft, ctx₂, hright, opcode, _, rfl⟩ := hrun
    have hfirst := h left List.mem_cons_self hleft
    have hsecond := h right (List.mem_cons_of_mem _ (List.mem_singleton_self _)) hright
    exact (hfirst.trans hsecond).trans (.add _ rfl)
  | .unaryExpression operator argument =>
    simp only [pipeExpression, Fallible.bind_eq_ok] at hrun
    obtain ⟨ctx₁, hargument, hoperator⟩ := hrun
    exact (h argument (List.mem_singleton_self _) hargument).trans
      (quiets_unaryOperator operator hoperator)
  | .callExpression callee id arguments => cases hacts
  | .objectExpression properties =>
    have halloc : Quietly ctx (ctx.addInstruction .objAlloc) := .add ctx rfl
    exact halloc.trans (quiets_properties h hrun)
  | .arrayExpression elements =>
    have halloc : Quietly ctx ((ctx.addInstruction .arrAlloc).addInstruction .dup) :=
      (Quietly.add ctx rfl).trans (.add _ rfl)
    have hlength : ∀ (ctx : PipeContext) (idx : ℕ), Quietly ctx
        ((ctx.addInstruction (.ldInt elements.length)).addInstruction (.objStore idx)) :=
      fun ctx idx => (Quietly.add ctx rfl).trans (.add _ rfl)
    have helements : Quiets (pipeElements elements 0) :=
      quiets_elements (fun e he => h e (List.mem_filterMap.mpr ⟨some e, he, rfl⟩)) 0
    have hregister := halloc.trans
      (.of_code_eq (PipeContext.registerString_code _ (jsString "length")).symm)
    exact (hregister.trans (hlength _ _)).trans (helements hrun)
  | .memberExpression object property computed => exact quiets_memberExpression h hrun
  | .assignmentExpression simple left right => cases hacts
  | .functionExpression (.mk id params body) =>
    obtain rfl : id = none := hname
    exact quiets_function hrun
  | .super extra | .other type => cases hrun

/-- What is evaluated with an expression calls nothing, assigns nothing, and no function
in it has a name: then the code is a straight way. -/
theorem quiets_expression {e : Expression}
    (h : ∀ m, Evaluated e m → m.acts = false ∧ m.functionName? = none) : Quiets (pipeExpression e) := by
  have hall : ∀ n : SyntaxNode, ∀ e, n = .expression e →
      (∀ m, Evaluated e m → m.acts = false ∧ m.functionName? = none) →
      Quiets (pipeExpression e) := by
    intro n
    induction n using SyntaxNode.induction with
    | h n ih =>
      rintro e rfl h
      obtain ⟨hacts, hname⟩ := h e (.self e)
      exact quiets_step hacts hname fun c hc =>
        ih (.expression c) hc c rfl fun m hm => h m (.child hc hm)
  exact hall _ e rfl h

end AtomixJS.Compiler
