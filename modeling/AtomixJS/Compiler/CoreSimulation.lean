import AtomixJS.Compiler.Execution

/-!
# The generated code simulates the reference semantics

One lemma for each expression and statement of the core: in the region of the
code that was emitted for it, the machine does what the reference semantics says.
The final code differs from what was emitted at the placeholders only, so a
region is followed through all later contexts by `Placed`.
-/

namespace AtomixJS.Compiler

open Simulation (Simulates Outcome)

variable {ctx ctx' ctx₁ ctx₂ ctx₃ : PipeContext} {instruction : Instruction} {act : Activation}

/-! ## Expressions -/

theorem binaryOpcode_operatorOf (operator : BinaryOpcode) :
    binaryOpcode (operatorOf operator) = .ok operator := by
  cases operator <;> rfl

theorem pipeUnaryOperator_operatorOf (operator : UnaryOpcode) (ctx : PipeContext) :
    pipeUnaryOperator (unaryOperatorOf operator) ctx =
      .ok (ctx.addInstruction (.unary operator)) := by
  cases operator <;> rfl

theorem whole?_literal (n : Fin (2 ^ 31)) :
    (Binary64.ofInt n.val).whole? = some (n.val : ℤ) :=
  Binary64.whole?_ofInt (Nat.lt_trans n.isLt (by decide))

/-- What `pipe` emits for an expression of the core. -/
def emitExpression : CoreExpression → PipeContext → PipeContext
  | .int n, ctx => ctx.addInstruction (.ldInt n.val)
  | .bool value, ctx => ctx.addInstruction (if value then .ldTrue else .ldFalse)
  | .null, ctx => ctx.addInstruction .ldNull
  | .identifier name, ctx => pipeIdentifier name ctx
  | .binary operator left right, ctx =>
    (emitExpression right (emitExpression left ctx)).addInstruction (.binary operator)
  | .unary operator argument, ctx => (emitExpression argument ctx).addInstruction (.unary operator)
  | .void argument, ctx => ((emitExpression argument ctx).addInstruction .pop).addInstruction .ldUndf
  | .assign name value, ctx =>
    ((emitExpression value ctx).addInstruction .dup).addNamed .storeLocal name

theorem pipeExpression_node (e : CoreExpression) (ctx : PipeContext) :
    pipeExpression e.node ctx = .ok (emitExpression e ctx) := by
  induction e generalizing ctx with
  | int n =>
    show Except.ok (pipeNumericLiteral (Binary64.ofInt n.val) ctx) = _
    rw [pipeNumericLiteral_of_whole (whole?_literal n)]
    rfl
  | bool value => rfl
  | null => rfl
  | identifier name => rfl
  | binary operator left right ihl ihr =>
    simp only [CoreExpression.node, pipeExpression, ihl, ihr, Fallible.ok_bind,
      binaryOpcode_operatorOf]
    rfl
  | unary operator argument ih =>
    simp only [CoreExpression.node, pipeExpression, ih, Fallible.ok_bind,
      pipeUnaryOperator_operatorOf]
    rfl
  | void argument ih =>
    simp only [CoreExpression.node, pipeExpression, ih, Fallible.ok_bind]
    rfl
  | assign name value ih =>
    simp only [CoreExpression.node, pipeExpression, ih, Fallible.ok_bind]
    rfl

theorem extends_identifier (name : JSString) (ctx : PipeContext) :
    Extends ctx (pipeIdentifier name ctx) := by
  unfold pipeIdentifier
  split
  · exact Extends.add ctx _
  · exact Extends.addNamed ctx _ name

theorem extends_expression (e : CoreExpression) (ctx : PipeContext) :
    Extends ctx (emitExpression e ctx) := by
  induction e generalizing ctx with
  | int n => exact Extends.add ctx _
  | bool value => exact Extends.add ctx _
  | null => exact Extends.add ctx _
  | identifier name => exact extends_identifier name ctx
  | binary operator left right ihl ihr => exact ((ihl ctx).trans (ihr _)).trans (Extends.add _ _)
  | unary operator argument ih => exact (ih ctx).trans (Extends.add _ _)
  | void argument ih => exact ((ih ctx).trans (Extends.add _ _)).trans (Extends.add _ _)
  | assign name value ih => exact ((ih ctx).trans (Extends.add _ _)).trans (Extends.addNamed _ _ _)

/-! ## Statements -/

def emitDeclarators : List (JSString × Option CoreExpression) → PipeContext → PipeContext
  | [], ctx => ctx
  | (name, none) :: rest, ctx =>
    emitDeclarators rest ((ctx.addInstruction .ldUndf).addNamed .allocLocal name)
  | (name, some init) :: rest, ctx =>
    emitDeclarators rest ((emitExpression init ctx).addNamed .allocLocal name)

theorem pipeDeclarators_node (declarators : List (JSString × Option CoreExpression))
    (ctx : PipeContext) :
    pipeDeclarators (declarators.map declaratorNode) ctx = .ok (emitDeclarators declarators ctx) := by
  induction declarators generalizing ctx with
  | nil => rfl
  | cons declarator rest ih =>
    match declarator with
    | (name, none) => exact ih _
    | (name, some init) =>
      show (do
        let ctx ← (do
          let ctx ← pipeExpression init.node ctx
          pipeDeclaratorId (.identifier name) ctx)
        pipeDeclarators (rest.map declaratorNode) ctx) = _
      rw [pipeExpression_node, Fallible.ok_bind]
      exact ih _

theorem extends_declarators (declarators : List (JSString × Option CoreExpression))
    (ctx : PipeContext) : Extends ctx (emitDeclarators declarators ctx) := by
  induction declarators generalizing ctx with
  | nil => exact Extends.refl ctx
  | cons declarator rest ih =>
    match declarator with
    | (name, none) =>
      exact ((Extends.add ctx _).trans (Extends.addNamed _ _ name)).trans (ih _)
    | (name, some init) =>
      exact ((extends_expression init ctx).trans (Extends.addNamed _ _ name)).trans (ih _)

theorem PipeContext.replaceInstruction_of_lt (ctx : PipeContext) {i : ℕ}
    (h : i < ctx.code.length) (instruction : Instruction) :
    ∃ ctx', ctx.replaceInstruction i instruction = .ok ctx' := by
  unfold PipeContext.replaceInstruction DataSection.replaceInstruction
  split
  · next hnone =>
    exact absurd (List.getElem?_eq_none_iff.mp hnone) (Nat.not_le.mpr h)
  · exact ⟨_, rfl⟩

mutual

/-- Every statement of the core is accepted. -/
theorem pipeStatement_node (s : CoreStatement) (ctx : PipeContext) :
    ∃ ctx', pipeStatement s.node ctx = .ok ctx' ∧ Extends ctx ctx' := by
  match s with
  | .expression e =>
    refine ⟨(emitExpression e ctx).addInstruction .pop, ?_,
      (extends_expression e ctx).trans (Extends.add _ _)⟩
    rw [CoreStatement.node, pipeStatement, pipeExpression_node]
    rfl
  | .declare declarators =>
    exact ⟨_, pipeDeclarators_node declarators ctx, extends_declarators declarators ctx⟩
  | .block body =>
    obtain ⟨ctx₁, hbody, hextends⟩ := pipeItems_nodes body (ctx.addInstruction .pushScope)
    refine ⟨ctx₁.addInstruction .popScope, ?_,
      ((Extends.add _ _).trans hextends).trans (Extends.add _ _)⟩
    show (do
      let ctx ← pipeItems (nodes body) (ctx.addInstruction .pushScope)
      pure (ctx.addInstruction .popScope)) = _
    rw [hbody]
    rfl
  | .ifThen test consequent =>
    obtain ⟨ctx₂, hthen, hextends⟩ :=
      pipeStatement_node consequent ((emitExpression test ctx).addInstruction .nop)
    have hle := hextends.le
    rw [addInstruction_length] at hle
    obtain ⟨ctx', hreplace⟩ := ctx₂.replaceInstruction_of_lt
      (i := (emitExpression test ctx).code.length) (by omega) (.jmpF ctx₂.code.length)
    refine ⟨ctx', ?_, (extends_expression test ctx).trans
      (hextends.replaced (replaced hextends.code List.prefix_rfl hreplace))⟩
    simp only [CoreStatement.node, pipeStatement, pipeExpression_node, Fallible.ok_bind, hthen,
      PipeContext.getCount_eq]
    exact hreplace
  | .ifElse test consequent alternate =>
    obtain ⟨ctx₂, hthen, hextends⟩ :=
      pipeStatement_node consequent ((emitExpression test ctx).addInstruction .nop)
    have hle := hextends.le
    rw [addInstruction_length] at hle
    obtain ⟨ctx₃, hfirst⟩ := (ctx₂.addInstruction .nop).replaceInstruction_of_lt
      (i := (emitExpression test ctx).code.length) (by rw [addInstruction_length]; omega)
      (.jmpF (ctx₂.code.length + 1))
    obtain ⟨ctx₄, helse, hextends'⟩ := pipeStatement_node alternate ctx₃
    have hfirst' := replaced hextends.code (List.prefix_append _ _) hfirst
    have hlength := hfirst'.length_eq
    rw [addInstruction_length] at hlength
    obtain ⟨ctx', hsecond⟩ := ctx₄.replaceInstruction_of_lt
      (i := ctx₂.code.length) (by have := hextends'.le; omega) (.jmp ctx₄.code.length)
    have hlayout := branches hextends.code hfirst hextends'.code hsecond
    refine ⟨ctx', ?_, (extends_expression test ctx).trans ⟨hlayout.extends_code, ?_⟩⟩
    · simp only [CoreStatement.node, pipeStatement, pipeExpression_node, Fallible.ok_bind, hthen,
        PipeContext.getCount_eq, hfirst, helse]
      exact hsecond
    · rw [hlayout.else_stable]
      have hstrings := hextends'.strings
      rw [hlayout.then_stable] at hstrings
      exact hextends.strings.trans hstrings
  | .while test body =>
    obtain ⟨ctx₂, hbody, hextends⟩ :=
      pipeStatement_node body ((emitExpression test ctx).addInstruction .pop)
    have hle := hextends.le
    rw [addInstruction_length] at hle
    obtain ⟨ctx', hreplace⟩ :=
      (ctx₂.addInstruction (.jmp ctx.code.length)).replaceInstruction_of_lt
      (i := (emitExpression test ctx).code.length) (by rw [addInstruction_length]; omega)
      (.jmpF (ctx₂.addInstruction (.jmp ctx.code.length)).code.length)
    have hlayout := loop hextends.code hreplace
    refine ⟨ctx', ?_, (extends_expression test ctx).trans ⟨hlayout.extends_code, ?_⟩⟩
    · simp only [CoreStatement.node, pipeStatement, pipeExpression_node, Fallible.ok_bind, hbody,
        PipeContext.getCount_eq]
      exact hreplace
    · rw [hlayout.stable_eq]
      exact hextends.strings

theorem pipeItems_nodes (body : List CoreStatement) (ctx : PipeContext) :
    ∃ ctx', pipeItems (nodes body) ctx = .ok ctx' ∧ Extends ctx ctx' := by
  match body with
  | [] => exact ⟨ctx, rfl, Extends.refl ctx⟩
  | statement :: rest =>
    obtain ⟨ctx₁, hfirst, hextends⟩ := pipeStatement_node statement ctx
    obtain ⟨ctx', hrest, hextends'⟩ := pipeItems_nodes rest ctx₁
    refine ⟨ctx', ?_, hextends.trans hextends'⟩
    have hfunction : statement.node.isFunctionDeclaration = false := by
      cases statement <;> rfl
    simp only [nodes, pipeItems, hfirst, Fallible.ok_bind, hfunction]
    exact hrest

end

/-! ## Runs -/

section

variable {k pc : ℕ} {ops : List JSValue} {refs : List ScopeRef} {env : Env} {config : Config}

/-- The machine in the region, as a simulation of a computation. -/
abbrev Activation.Simulates {α : Type} (act : Activation) (k : ℕ) (config : Config)
    (o : Outcome α) (R : α → Config → Prop) : Prop :=
  Simulation.Simulates (step act.host) act.InCode k config o R

theorem Activation.Goes.simulates {α : Type} {o : Outcome α} {R : α → Config → Prop}
    (h : act.Goes config pc ops refs env)
    (hnext : ∀ config', act.At pc ops refs env config' → act.Simulates k config' o R) :
    act.Simulates k config o R := by
  obtain ⟨config', hrun, hat⟩ := h
  exact (hnext config' hat).after hrun

/-- The value and the environment of an expression, on the machine. -/
def Activation.Valued (act : Activation) (pc : ℕ) (ops : List JSValue) (refs : List ScopeRef)
    (result : JSValue × Env) (config : Config) : Prop :=
  act.At pc (result.1 :: ops) refs result.2 config

theorem Activation.Goes.valued {v : JSValue} (h : act.Goes config pc (v :: ops) refs env) :
    act.Simulates k config (.ok (v, env)) (act.Valued pc ops refs) :=
  h.simulates fun _ hat => Simulates.pure hat

theorem ok_of_toOption {α : Type} {result : Except Fault α} {a : α}
    (h : result.toOption = some a) : result = .ok a := by
  cases result with
  | error e => exact nomatch h
  | ok b => exact congrArg Except.ok (Option.some.inj h)

/-- The operand stack has room above so many operands. -/
def hasRoom (depth : ℕ) : Bool := decide (depth < stackSize)

theorem lt_of_hasRoom {depth : ℕ} (h : hasRoom depth = true) : depth < stackSize :=
  of_decide_eq_true h

theorem simulates_identifier (name : JSString) {ctx : PipeContext}
    (hplaced : act.Placed ctx (pipeIdentifier name ctx))
    (hat : act.At ctx.code.length ops refs env config) :
    act.Simulates k config (eval act.host.address hasRoom (.identifier name) ops.length env)
      (act.Valued (pipeIdentifier name ctx).code.length ops refs) := by
  unfold eval
  apply Simulates.require
  intro hroom
  have hroom' := lt_of_hasRoom hroom
  unfold pipeIdentifier at hplaced ⊢
  by_cases hundefined : name = jsString "undefined"
  · rw [if_pos hundefined] at hplaced ⊢
    rw [if_pos hundefined, addInstruction_length]
    exact (hat.push hplaced.added (by decide) rfl (fun _ => rfl) hroom').valued
  · rw [if_neg hundefined] at hplaced ⊢
    rw [if_neg hundefined, addNamed_length]
    apply Simulates.ofOption
    intro v hv
    obtain ⟨hhas, hname⟩ := hplaced.named
    exact (hat.loadLocal hhas hname hroom' hv).valued

/-- The code of an expression leaves its value on the operand stack. -/
theorem simulates_expression (e : CoreExpression) {ctx : PipeContext}
    (hplaced : act.Placed ctx (emitExpression e ctx))
    (hat : act.At ctx.code.length ops refs env config) :
    act.Simulates k config (eval act.host.address hasRoom e ops.length env)
      (act.Valued (emitExpression e ctx).code.length ops refs) := by
  induction e generalizing ctx ops env config with
  | int n =>
    unfold eval
    apply Simulates.require
    intro hroom
    rw [emitExpression, addInstruction_length]
    have hvalue : BitVec.ofInt 32 (n.val : ℤ) = BitVec.ofNat 32 n.val := BitVec.ofInt_natCast 32 _
    have hloaded : Instruction.loaded (.ldInt n.val) =
        some (.ldInt (BitVec.ofNat 32 n.val)) := by
      rw [← hvalue]
      rfl
    exact (hat.push hplaced.added (fun h => nomatch h) hloaded (fun _ => rfl)
      (lt_of_hasRoom hroom)).valued
  | bool value =>
    unfold eval
    apply Simulates.require
    intro hroom
    rw [emitExpression, addInstruction_length]
    cases value with
    | true => exact (hat.push hplaced.added (by decide) rfl (fun _ => rfl) (lt_of_hasRoom hroom)).valued
    | false => exact (hat.push hplaced.added (by decide) rfl (fun _ => rfl) (lt_of_hasRoom hroom)).valued
  | null =>
    unfold eval
    apply Simulates.require
    intro hroom
    rw [emitExpression, addInstruction_length]
    exact (hat.push hplaced.added (by decide) rfl (fun _ => rfl) (lt_of_hasRoom hroom)).valued
  | identifier name => exact simulates_identifier name hplaced hat
  | binary operator left right ihl ihr =>
    have hleft := extends_expression left ctx
    have hright := extends_expression right (emitExpression left ctx)
    have hlast := Extends.add (emitExpression right (emitExpression left ctx)) (.binary operator)
    unfold eval
    apply (ihl (hplaced.first (hright.trans hlast)) hat).bind
    rintro ⟨l, env₁⟩ config₁ hat₁
    apply (ihr ((hplaced.second hleft).first hlast) hat₁).bind
    rintro ⟨r, env₂⟩ config₂ hat₂
    apply Simulates.require
    intro happlicable
    apply Simulates.ofOption
    intro v hv
    rw [emitExpression, addInstruction_length]
    exact (Activation.At.binary hat₂ (hplaced.second (hleft.trans hright)).added happlicable
      (ok_of_toOption hv)).valued
  | unary operator argument ih =>
    have hargument := extends_expression argument ctx
    unfold eval
    apply (ih (hplaced.first (Extends.add _ _)) hat).bind
    rintro ⟨r, env₁⟩ config₁ hat₁
    apply Simulates.ofOption
    intro v hv
    rw [emitExpression, addInstruction_length]
    exact (Activation.At.unary hat₁ (hplaced.second hargument).added (ok_of_toOption hv)).valued
  | void argument ih =>
    have hargument := extends_expression argument ctx
    have hpop := Extends.add (emitExpression argument ctx) .pop
    have hundf := Extends.add ((emitExpression argument ctx).addInstruction .pop) .ldUndf
    unfold eval
    apply (ih (hplaced.first (hpop.trans hundf)) hat).bind
    rintro ⟨r, env₁⟩ config₁ hat₁
    apply Simulates.require
    intro hroom
    apply (Activation.At.pop hat₁ ((hplaced.second hargument).first hundf).added).simulates
    intro config₂ hat₂
    rw [emitExpression, addInstruction_length, addInstruction_length]
    have hhas := (hplaced.second (hargument.trans hpop)).added
    rw [addInstruction_length] at hhas
    exact (hat₂.push hhas (by decide) rfl (fun _ => rfl) (lt_of_hasRoom hroom)).valued
  | assign name value ih =>
    have hvalue := extends_expression value ctx
    have hdup := Extends.add (emitExpression value ctx) .dup
    have hstore := Extends.addNamed ((emitExpression value ctx).addInstruction .dup)
      .storeLocal name
    unfold eval
    apply (ih (hplaced.first (hdup.trans hstore)) hat).bind
    rintro ⟨v, env₁⟩ config₁ hat₁
    apply Simulates.require
    intro hroom
    apply Simulates.ofOption
    intro env₂ hassign
    apply (Activation.At.dup hat₁ ((hplaced.second hvalue).first hstore).added
      (lt_of_hasRoom hroom)).simulates
    intro config₂ hat₂
    rw [emitExpression, addNamed_length, addInstruction_length]
    obtain ⟨hhas, hname⟩ := (hplaced.second (hvalue.trans hdup)).named
    rw [addInstruction_length] at hhas
    exact (hat₂.storeLocal hhas hname hassign).valued

/-- The state after a statement. -/
theorem simulates_declarators (declarators : List (JSString × Option CoreExpression))
    {ctx : PipeContext} (hplaced : act.Placed ctx (emitDeclarators declarators ctx))
    (hat : act.At ctx.code.length ops refs env config) :
    act.Simulates k config
      (execDeclarators act.host.address hasRoom declarators ops.length env)
      (act.At (emitDeclarators declarators ctx).code.length ops refs) := by
  induction declarators generalizing ctx env config with
  | nil => exact Simulates.pure hat
  | cons declarator rest ih =>
    match declarator with
    | (name, none) =>
      have hundf := Extends.add ctx .ldUndf
      have halloc := Extends.addNamed (ctx.addInstruction .ldUndf) .allocLocal name
      have hrest := extends_declarators rest
        ((ctx.addInstruction .ldUndf).addNamed .allocLocal name)
      unfold execDeclarators
      apply Simulates.require
      intro hroom
      apply Simulates.ofOption
      intro env₁ hdeclare
      apply (hat.push (hplaced.first (halloc.trans hrest)).added (by decide) rfl (fun _ => rfl)
        (lt_of_hasRoom hroom)).simulates
      intro config₁ hat₁
      obtain ⟨hhas, hname⟩ := ((hplaced.second hundf).first hrest).named
      rw [addInstruction_length] at hhas
      apply (hat₁.allocLocal hhas hname hdeclare).simulates
      intro config₂ hat₂
      apply ih (hplaced.second (hundf.trans halloc))
      rw [addNamed_length, addInstruction_length]
      exact hat₂
    | (name, some init) =>
      have hinit := extends_expression init ctx
      have halloc := Extends.addNamed (emitExpression init ctx) .allocLocal name
      have hrest := extends_declarators rest ((emitExpression init ctx).addNamed .allocLocal name)
      unfold execDeclarators
      apply (simulates_expression init (hplaced.first (halloc.trans hrest)) hat).bind
      rintro ⟨v, env₁⟩ config₁ hat₁
      apply Simulates.ofOption
      intro env₂ hdeclare
      obtain ⟨hhas, hname⟩ := ((hplaced.second hinit).first hrest).named
      apply (Activation.At.allocLocal hat₁ hhas hname hdeclare).simulates
      intro config₂ hat₂
      apply ih (hplaced.second (hinit.trans halloc))
      rw [addNamed_length]
      exact hat₂

/-- A test and the jump behind it. -/
theorem simulates_test (test : CoreExpression) {ctx : PipeContext} {target : ℕ}
    (hplaced : act.Placed ctx (emitExpression test ctx))
    (hjump : act.Has (emitExpression test ctx).code.length (.jmpF target))
    (hlt : target < 2 ^ 16) (hat : act.At ctx.code.length ops refs env config) :
    act.Simulates k config (evalTest act.host.address hasRoom test ops.length env) fun x =>
      act.At (if x.1 then (emitExpression test ctx).code.length + 1 else target) ops refs x.2 := by
  unfold evalTest
  apply (simulates_expression test hplaced hat).bind
  rintro ⟨v, env₁⟩ config₁ hat₁
  apply Simulates.ofOption
  intro falsy hfalsy
  apply (Activation.At.jmpF hat₁ hjump (ok_of_toOption hfalsy) hlt).simulates
  intro config₂ hat₂
  apply Simulates.pure
  cases falsy with
  | true => exact hat₂
  | false => exact hat₂

theorem refs_ne_nil (hat : act.At pc ops refs env config) : refs ≠ [] := by
  obtain ⟨vm, _, hstands⟩ := hat
  rintro rfl
  exact nomatch hstands.chain

mutual

/-- The code of a statement does what the statement means. -/
theorem simulates_statement (s : CoreStatement) {ctx ctx' : PipeContext}
    {refs : List ScopeRef} {env : Env} {config : Config}
    (hrun : pipeStatement s.node ctx = .ok ctx') (hplaced : act.Placed ctx ctx')
    (hat : act.At ctx.code.length ops refs env config) :
    act.Simulates k config (exec act.host.address hasRoom k s ops.length env)
      (act.At ctx'.code.length ops refs) := by
  match s with
  | .expression e =>
    rw [CoreStatement.node, pipeStatement, pipeExpression_node] at hrun
    obtain rfl := Except.ok.inj hrun
    unfold exec
    apply (simulates_expression e (hplaced.first (Extends.add _ _)) hat).bind
    rintro ⟨v, env₁⟩ config₁ hat₁
    rw [addInstruction_length]
    apply (Activation.At.pop hat₁ (hplaced.second (extends_expression e ctx)).added).simulates
    exact fun config₂ hat₂ => Simulates.pure hat₂
  | .declare declarators =>
    obtain rfl := Except.ok.inj ((pipeDeclarators_node declarators ctx).symm.trans hrun)
    unfold exec
    exact simulates_declarators declarators hplaced hat
  | .block body =>
    obtain ⟨ctx₁, hbody, hextends⟩ := pipeItems_nodes body (ctx.addInstruction .pushScope)
    have hpush := Extends.add ctx .pushScope
    have hpop := Extends.add ctx₁ .popScope
    have hrun' : ctx' = ctx₁.addInstruction .popScope := by
      have hnode : pipeStatement (CoreStatement.block body).node ctx = (do
          let ctx ← pipeItems (nodes body) (ctx.addInstruction .pushScope)
          pure (ctx.addInstruction .popScope)) := rfl
      rw [hnode, hbody] at hrun
      exact (Except.ok.inj hrun).symm
    subst hrun'
    unfold exec
    obtain ⟨ref, hgoes⟩ := hat.pushScope (hplaced.first (hextends.trans hpop)).added
    apply hgoes.simulates
    intro config₁ hat₁
    rw [← addInstruction_length _ .pushScope] at hat₁
    apply (simulates_statements body hbody ((hplaced.second hpush).first hpop) hat₁).bind
    intro env₂ config₂ hat₂
    rw [addInstruction_length]
    apply (hat₂.popScope (hplaced.second (hpush.trans hextends)).added (refs_ne_nil hat)).simulates
    exact fun config₃ hat₃ => Simulates.pure hat₃
  | .ifThen test consequent =>
    obtain ⟨ctx₂, hthen, hextends⟩ :=
      pipeStatement_node consequent ((emitExpression test ctx).addInstruction .nop)
    simp only [CoreStatement.node, pipeStatement, pipeExpression_node, Fallible.ok_bind, hthen,
      PipeContext.getCount_eq] at hrun
    have hlayout := replaced hextends.code List.prefix_rfl hrun
    have hwhole := hextends.replaced hlayout
    have htest := extends_expression test ctx
    have hjump := hplaced.get htest.le hlayout.new_eq
    unfold exec
    apply (simulates_test test (hplaced.first hwhole) hjump
      (hlayout.length_eq ▸ hplaced.lt hat.loads) hat).bind
    rintro ⟨holds, env₁⟩ config₁ hat₁
    cases holds with
    | false =>
      rw [hlayout.length_eq]
      exact Simulates.pure hat₁
    | true =>
      have hinner : act.Placed ((emitExpression test ctx).addInstruction .nop) ctx₂ := by
        apply hplaced.inner
        · rw [addInstruction_length]
          exact hlayout.agree
        · exact hlayout.stable_eq ▸ List.prefix_rfl
        · exact (htest.trans (Extends.add _ _)).le
        · exact Nat.le_of_eq hlayout.length_eq.symm
      rw [hlayout.length_eq]
      rw [← addInstruction_length _ .nop] at hat₁
      exact simulates_statement consequent hthen hinner hat₁
  | .ifElse test consequent alternate =>
    obtain ⟨ctx₂, hthen, hextends⟩ :=
      pipeStatement_node consequent ((emitExpression test ctx).addInstruction .nop)
    simp only [CoreStatement.node, pipeStatement, pipeExpression_node, Fallible.ok_bind, hthen,
      PipeContext.getCount_eq, Fallible.bind_eq_ok] at hrun
    obtain ⟨ctx₃, hfirst, ctx₄, helse, hsecond⟩ := hrun
    obtain ⟨_, helse', hextends'⟩ := pipeStatement_node alternate ctx₃
    obtain rfl := Except.ok.inj (helse.symm.trans helse')
    have hlayout := branches hextends.code hfirst hextends'.code hsecond
    have hstrings : ctx₂.stable.strings <+: ctx'.stable.strings := by
      rw [hlayout.else_stable, ← hlayout.then_stable]
      exact hextends'.strings
    have hwhole : Extends (emitExpression test ctx) ctx' :=
      ⟨hlayout.extends_code, hextends.strings.trans hstrings⟩
    have htest := extends_expression test ctx
    have hle := hlayout.le
    have hle' := hlayout.else_le
    unfold exec
    apply (simulates_test test (hplaced.first hwhole)
      (hplaced.get htest.le hlayout.jump_eq) (Nat.lt_of_le_of_lt hle' (hplaced.lt hat.loads)) hat).bind
    rintro ⟨holds, env₁⟩ config₁ hat₁
    cases holds with
    | false =>
      have hinner : act.Placed ctx₃ ctx₄ := by
        apply hplaced.inner
        · rw [hlayout.else_start]
          exact hlayout.else_agree
        · exact hlayout.else_stable ▸ List.prefix_rfl
        · exact Nat.le_trans htest.le (by rw [hlayout.else_start]; omega)
        · exact Nat.le_of_eq hlayout.length_eq.symm
      have hat₂ : act.At ctx₃.code.length ops refs env₁ config₁ := by
        rw [hlayout.else_start]
        exact hat₁
      rw [hlayout.length_eq]
      exact simulates_statement alternate helse hinner hat₂
    | true =>
      have hinner : act.Placed ((emitExpression test ctx).addInstruction .nop) ctx₂ := by
        apply hplaced.inner
        · rw [addInstruction_length]
          exact hlayout.then_agree
        · exact hstrings
        · exact (htest.trans (Extends.add _ _)).le
        · exact Nat.le_of_succ_le hle'
      rw [← addInstruction_length _ .nop] at hat₁
      -- the first branch ends in the jump over the second one
      have hbranch := simulates_statement consequent hthen hinner hat₁
      refine Eq.subst (motive := (act.Simulates k config₁ · _)) (Outcome.bind_ok _) ?_
      apply hbranch.bind
      intro env₂ config₂ hat₂
      have hend := hplaced.get (Nat.le_trans htest.le (Nat.le_of_succ_le hle)) hlayout.end_eq
      apply (hat₂.jmp hend (hplaced.lt hat.loads)).simulates
      exact fun config₃ hat₃ => Simulates.pure hat₃
  | .while test body =>
    obtain ⟨ctx₂, hbody, hextends⟩ :=
      pipeStatement_node body ((emitExpression test ctx).addInstruction .pop)
    simp only [CoreStatement.node, pipeStatement, pipeExpression_node, Fallible.ok_bind, hbody,
      PipeContext.getCount_eq] at hrun
    have hlayout := loop hextends.code hrun
    have hwhole : Extends (emitExpression test ctx) ctx' :=
      ⟨hlayout.extends_code, hlayout.stable_eq ▸ hextends.strings⟩
    have htest := extends_expression test ctx
    have hle := hlayout.le
    have hlength := hlayout.length_eq
    have hjump := hplaced.get htest.le hlayout.test_eq
    have hback := hplaced.get (Nat.le_trans htest.le (Nat.le_of_succ_le hle)) hlayout.jump_eq
    have hinner : act.Placed ((emitExpression test ctx).addInstruction .pop) ctx₂ := by
      apply hplaced.inner
      · rw [addInstruction_length]
        exact hlayout.body_agree
      · exact hlayout.stable_eq ▸ List.prefix_rfl
      · exact (htest.trans (Extends.add _ _)).le
      · omega
    have hstart : ctx.code.length < 2 ^ 16 :=
      Nat.lt_of_le_of_lt (Nat.le_trans htest.le hwhole.le) (hplaced.lt hat.loads)
    unfold exec
    refine Simulates.loop (act.At ctx.code.length ops refs)
      (act.At ((emitExpression test ctx).code.length + 1) ops refs)
      (act.At ctx₂.code.length ops refs) ?_ ?_ ?_ ?_ (Nat.le_refl k) hat
    · intro env config hat
      rw [hlength]
      apply (simulates_test test (hplaced.first hwhole) hjump (hlength ▸ hplaced.lt hat.loads) hat).mono
      rintro ⟨holds, env₁⟩ config₁ hat₁
      cases holds with
      | true => exact hat₁
      | false => exact hat₁
    · intro env config hat
      rw [← addInstruction_length _ .pop] at hat
      exact simulates_statement body hbody hinner hat
    · intro env config hat
      obtain ⟨config', hrun', hat'⟩ := hat.jmp hback hstart
      obtain ⟨hin, hstep⟩ := hrun'.of_one
      exact ⟨hin, config', hstep, hat'⟩
    · rintro env config ⟨vm, rfl, hstands⟩
      refine ⟨vm, rfl, ?_, ?_⟩
      · rw [hstands.counter]
        exact hplaced.lower
      · rw [hstands.counter]
        exact Nat.lt_of_le_of_lt htest.le hjump.upper

theorem simulates_statements (body : List CoreStatement) {ctx ctx' : PipeContext}
    {refs : List ScopeRef} {env : Env} {config : Config}
    (hrun : pipeItems (nodes body) ctx = .ok ctx') (hplaced : act.Placed ctx ctx')
    (hat : act.At ctx.code.length ops refs env config) :
    act.Simulates k config (execAll act.host.address hasRoom k body ops.length env)
      (act.At ctx'.code.length ops refs) := by
  match body with
  | [] =>
    obtain rfl := Except.ok.inj hrun
    exact Simulates.pure hat
  | statement :: rest =>
    obtain ⟨ctx₁, hfirst, hextends⟩ := pipeStatement_node statement ctx
    obtain ⟨ctx₂, hrest, hextends'⟩ := pipeItems_nodes rest ctx₁
    have hfunction : statement.node.isFunctionDeclaration = false := by
      cases statement <;> rfl
    simp only [nodes, pipeItems, hfirst, Fallible.ok_bind, hfunction, Bool.false_eq_true,
      if_false, hrest, Except.ok.injEq] at hrun
    subst hrun
    unfold execAll
    apply (simulates_statement statement hfirst (hplaced.first hextends') hat).bind
    intro env₁ config₁ hat₁
    exact simulates_statements rest hrest (hplaced.second hextends) hat₁

end

end

end AtomixJS.Compiler
