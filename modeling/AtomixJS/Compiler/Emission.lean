import AtomixJS.Compiler.Node
import AtomixJS.Compiler.Placeholder

/-!
# How a node is emitted

Between two contexts the compiler adds instructions, visits nodes, and lays out
functions, branches and loops around what it visits.  `Emission` lists these
ways, together with the nodes that were visited, so that the emission of every
node is described once (`emission_node`).

Whatever relation of contexts each of the ways keeps then holds of every node
(`Keeping.node`).  Nothing that was emitted is lost (`extends_node`), and the
code of a visited node stays as it is in what is emitted around it
(`Emission.agree`).
-/

namespace AtomixJS

/-- An instruction that is not part of a layout. -/
def Instruction.isPlain : Instruction → Bool
  | .nop | .pushScope | .popScope | .jmp _ | .jmpF _ | .jmpT _ | .funcDecl _ _ | .funcDeclE _ => false
  | _ => true

/-- The size of the function that an instruction declares. -/
def Instruction.functionSize? : Instruction → Option ℕ
  | .funcDecl _ size | .funcDeclE size => some size
  | _ => none

namespace Compiler

@[simp] theorem addInstruction_length (ctx : PipeContext) (instruction : Instruction) :
    (ctx.addInstruction instruction).code.length = ctx.code.length + 1 := by
  rw [PipeContext.addInstruction_code, List.length_append, List.length_singleton]

@[simp] theorem addNamed_length {ctx : PipeContext} {named : ℕ → Instruction} {name : JSString} :
    (ctx.addNamed named name).code.length = ctx.code.length + 1 := by
  unfold PipeContext.addNamed
  rw [addInstruction_length, PipeContext.registerString_code]

/-! ## Ways to emit -/

/-- A node and the contexts between which it was emitted. -/
structure Visit where
  node : SyntaxNode
  before : PipeContext
  after : PipeContext
  accepts : pipeNode node before = .ok after

inductive Emission : List Visit → PipeContext → PipeContext → Prop
  | refl (ctx : PipeContext) : Emission [] ctx ctx
  | register (ctx : PipeContext) (x : JSString) : Emission [] ctx (ctx.registerString x).2
  | add (ctx : PipeContext) {instruction : Instruction} (h : instruction.isPlain = true) :
      Emission [] ctx (ctx.addInstruction instruction)
  | visit (v : Visit) : Emission [v] v.before v.after
  | seq {visits visits' : List Visit} {ctx ctx₁ ctx₂ : PipeContext} :
      Emission visits ctx ctx₁ → Emission visits' ctx₁ ctx₂ → Emission (visits ++ visits') ctx ctx₂
  | scope {visits : List Visit} {ctx ctx₁ : PipeContext} :
      Emission visits (ctx.addInstruction .pushScope) ctx₁ →
      Emission visits ctx (ctx₁.addInstruction .popScope)
  | function {visits : List Visit} {ctx ctx₁ ctx' : PipeContext} {new : Instruction} :
      Emission visits (ctx.addInstruction .nop) ctx₁ →
      new.functionSize? = some (ctx₁.code.length - ctx.code.length - 1) →
      ctx₁.replaceInstruction ctx.code.length new = .ok ctx' → Emission visits ctx ctx'
  | skip {visits : List Visit} {ctx ctx₁ ctx' : PipeContext} :
      Emission visits (ctx.addInstruction .nop) ctx₁ →
      ctx₁.replaceInstruction ctx.code.length (.jmpF ctx₁.code.length) = .ok ctx' →
      Emission visits ctx ctx'
  | branch {visits visits' : List Visit} {ctx ctx₁ ctx₂ ctx₃ ctx' : PipeContext} :
      Emission visits (ctx.addInstruction .nop) ctx₁ →
      (ctx₁.addInstruction .nop).replaceInstruction ctx.code.length
        (.jmpF (ctx₁.code.length + 1)) = .ok ctx₂ →
      Emission visits' ctx₂ ctx₃ →
      ctx₃.replaceInstruction ctx₁.code.length (.jmp ctx₃.code.length) = .ok ctx' →
      Emission (visits ++ visits') ctx ctx'
  | loop {visits visits' : List Visit} {ctx ctx₁ ctx₂ ctx' : PipeContext} :
      Emission visits ctx ctx₁ → Emission visits' (ctx₁.addInstruction .pop) ctx₂ →
      (ctx₂.addInstruction (.jmp ctx.code.length)).replaceInstruction ctx₁.code.length
        (.jmpF (ctx₂.addInstruction (.jmp ctx.code.length)).code.length) = .ok ctx' →
      Emission (visits ++ visits') ctx ctx'

/-- What was emitted between two contexts visits these nodes. -/
def Visits (nodes : List SyntaxNode) (ctx ctx' : PipeContext) : Prop :=
  ∃ visits, Emission visits ctx ctx' ∧ (visits.map Visit.node).Perm nodes

/-- A call reverses its array of arguments before anything is emitted. -/
def SyntaxNode.entered (n : SyntaxNode) (ctx : PipeContext) : PipeContext :=
  match n with
  | .expression (.callExpression _ id _) => (ctx.reverseArguments id).2
  | _ => ctx

variable {ctx ctx' ctx₁ ctx₂ ctx₃ : PipeContext} {nodes nodes' : List SyntaxNode}

namespace Visits

theorem of_perm (h : Visits nodes ctx ctx') (hnodes : nodes.Perm nodes') :
    Visits nodes' ctx ctx' := by
  obtain ⟨visits, hemission, hperm⟩ := h
  exact ⟨visits, hemission, hperm.trans hnodes⟩

theorem refl (ctx : PipeContext) : Visits [] ctx ctx := ⟨[], .refl ctx, .refl _⟩

theorem register (ctx : PipeContext) (x : JSString) : Visits [] ctx (ctx.registerString x).2 :=
  ⟨[], .register ctx x, .refl _⟩

theorem add (ctx : PipeContext) {instruction : Instruction} (h : instruction.isPlain = true) :
    Visits [] ctx (ctx.addInstruction instruction) := ⟨[], .add ctx h, .refl _⟩

theorem visit {n : SyntaxNode} (h : pipeNode n ctx = .ok ctx') : Visits [n] ctx ctx' :=
  ⟨[⟨n, ctx, ctx', h⟩], .visit ⟨n, ctx, ctx', h⟩, .refl _⟩

theorem seq (h : Visits nodes ctx ctx₁) (h' : Visits nodes' ctx₁ ctx₂) :
    Visits (nodes ++ nodes') ctx ctx₂ := by
  obtain ⟨visits, hemission, hperm⟩ := h
  obtain ⟨visits', hemission', hperm'⟩ := h'
  refine ⟨visits ++ visits', hemission.seq hemission', ?_⟩
  rw [List.map_append]
  exact hperm.append hperm'

/-- Instructions behind what is emitted for some nodes. -/
theorem after (h : Visits nodes ctx ctx₁) (h' : Visits [] ctx₁ ctx₂) : Visits nodes ctx ctx₂ :=
  (h.seq h').of_perm (.of_eq (List.append_nil _))

theorem addNamed (ctx : PipeContext) {named : ℕ → Instruction} (name : JSString)
    (h : ∀ idx, (named idx).isPlain = true) : Visits [] ctx (ctx.addNamed named name) :=
  (register ctx name).seq (add _ (h _))

/-- The visits of a layout around what was emitted. -/
theorem layout (h : Visits nodes ctx₁ ctx₂)
    (hlayout : ∀ visits, Emission visits ctx₁ ctx₂ → Emission visits ctx ctx') :
    Visits nodes ctx ctx' := by
  obtain ⟨visits, hemission, hperm⟩ := h
  exact ⟨visits, hlayout visits hemission, hperm⟩

/-- The visits of a layout with two parts. -/
theorem layout₂ {ctx₄ : PipeContext} (h : Visits nodes ctx₁ ctx₂) (h' : Visits nodes' ctx₃ ctx₄)
    (hlayout : ∀ visits visits', Emission visits ctx₁ ctx₂ → Emission visits' ctx₃ ctx₄ →
      Emission (visits ++ visits') ctx ctx') : Visits (nodes ++ nodes') ctx ctx' := by
  obtain ⟨visits, hemission, hperm⟩ := h
  obtain ⟨visits', hemission', hperm'⟩ := h'
  refine ⟨visits ++ visits', hlayout _ _ hemission hemission', ?_⟩
  rw [List.map_append]
  exact hperm.append hperm'

end Visits

/-! ## Parts of nodes -/

theorem visits_foldlM {α : Type} {f : PipeContext → α → Except String PipeContext} {xs : List α}
    (h : ∀ x ctx ctx', f ctx x = .ok ctx' → Visits [] ctx ctx')
    (hrun : xs.foldlM f ctx = .ok ctx') : Visits [] ctx ctx' := by
  induction xs generalizing ctx with
  | nil =>
    obtain rfl := Except.ok.inj hrun
    exact .refl ctx
  | cons x xs ih =>
    simp only [List.foldlM_cons, Fallible.bind_eq_ok] at hrun
    obtain ⟨ctx₁, hx, hxs⟩ := hrun
    exact (h x ctx ctx₁ hx).seq (ih hxs)

theorem pipeNumericLiteral_of_whole {x : Binary64} {i : ℤ} (h : x.whole? = some i)
    (ctx : PipeContext) : pipeNumericLiteral x ctx = ctx.addInstruction (.ldInt i) := by
  simp only [pipeNumericLiteral, h]

theorem visits_numericLiteral (value : Binary64) (ctx : PipeContext) :
    Visits [] ctx (pipeNumericLiteral value ctx) := by
  unfold pipeNumericLiteral
  split
  · exact .add ctx rfl
  · exact .add ctx rfl

theorem visits_identifier (name : JSString) (ctx : PipeContext) :
    Visits [] ctx (pipeIdentifier name ctx) := by
  unfold pipeIdentifier
  split
  · exact .add ctx rfl
  · exact .addNamed ctx name fun _ => rfl

theorem visits_unaryOperator {operator : UnaryOperator}
    (hrun : pipeUnaryOperator operator ctx = .ok ctx') : Visits [] ctx ctx' := by
  cases operator with
  | other text => cases hrun
  | void =>
    obtain rfl := Except.ok.inj hrun
    exact (Visits.add ctx rfl).seq (.add _ rfl)
  | _ =>
    obtain rfl := Except.ok.inj hrun
    exact .add ctx rfl

theorem visits_declaratorId {id : DeclaratorId} (hrun : pipeDeclaratorId id ctx = .ok ctx') :
    Visits [] ctx ctx' := by
  cases id with
  | identifier name =>
    obtain rfl := Except.ok.inj hrun
    exact .addNamed ctx name fun _ => rfl
  | objectPattern properties =>
    refine visits_foldlM (fun property ctx ctx' hrun => ?_) hrun
    match property with
    | .objectProperty (some key) (some value) =>
      obtain rfl := Except.ok.inj hrun
      have hnames := (Visits.register (ctx.addInstruction .dup) key).seq (.register _ value)
      exact (((Visits.add ctx rfl).seq hnames).seq (.add _ rfl)).seq (.add _ rfl)
    | .objectProperty (some _) none | .objectProperty none _ | .restElement => cases hrun
  | other type => cases hrun

theorem visits_params {params : List (Option JSString)} {i : ℕ}
    (hrun : pipeParams params i ctx = .ok ctx') : Visits [] ctx ctx' := by
  induction params generalizing ctx i with
  | nil =>
    obtain rfl := Except.ok.inj hrun
    exact .refl ctx
  | cons param params ih =>
    cases param with
    | none => cases hrun
    | some name =>
      have hargument : Visits [] ctx (ctx.addInstruction (.loadArg (i + 1))) := .add ctx rfl
      exact (hargument.seq (.addNamed _ name fun _ => rfl)).seq (ih hrun)

theorem visits_exportDeclaration {declaration : Declaration}
    (hrun : pipeExportDeclaration declaration ctx = .ok ctx') : Visits [] ctx ctx' := by
  match declaration with
  | .variableDeclaration declarations =>
    refine visits_foldlM (fun declarator ctx ctx' hrun => ?_) hrun
    match declarator with
    | .mk (.identifier name) _ =>
      obtain rfl := Except.ok.inj hrun
      exact (visits_identifier name ctx).seq (.addNamed _ name fun _ => rfl)
    | .mk (.objectPattern _) _ | .mk (.other _) _ => cases hrun
  | .functionDeclaration (.mk (some name) _ _) =>
    obtain rfl := Except.ok.inj hrun
    exact .addNamed ctx name fun _ => rfl
  | .functionDeclaration (.mk none _ _) | .other _ => cases hrun

theorem visits_arguments {arguments : List Expression}
    (hrun : pipeArguments arguments ctx = .ok ctx') :
    Visits (arguments.map .expression) ctx ctx' := by
  induction arguments generalizing ctx with
  | nil =>
    obtain rfl := Except.ok.inj hrun
    exact .refl ctx
  | cons argument arguments ih =>
    simp only [pipeArguments, Fallible.bind_eq_ok] at hrun
    obtain ⟨ctx₁, hfirst, hrest⟩ := hrun
    exact (Visits.visit (n := .expression argument) hfirst).seq (ih hrest)

theorem visits_reversed {arguments : List Expression}
    (hrun : pipeReversed arguments ctx = .ok ctx') :
    Visits (arguments.map .expression) ctx ctx' := by
  induction arguments generalizing ctx' with
  | nil =>
    obtain rfl := Except.ok.inj hrun
    exact .refl ctx
  | cons argument arguments ih =>
    simp only [pipeReversed, Fallible.bind_eq_ok] at hrun
    obtain ⟨ctx₁, hrest, hfirst⟩ := hrun
    exact ((ih hrest).seq (.visit (n := .expression argument) hfirst)).of_perm
      (List.perm_append_singleton _ _)

theorem visits_member {object property : Expression} {computed doubleObject : Bool}
    (hrun : pipeMemberExpression object property (pipeExpression object) (pipeExpression property)
      computed doubleObject ctx = .ok ctx') :
    Visits (memberChildren object property computed) ctx ctx' := by
  unfold pipeMemberExpression at hrun
  rw [Fallible.bind_eq_ok] at hrun
  obtain ⟨ctx₁, hobject, hproperty⟩ := hrun
  have hfirst : Visits (if object.isSuper then [] else [.expression object]) ctx ctx₁ := by
    by_cases hsuper : object.isSuper = false
    · rw [pipeMemberObject_of_not_super hsuper, Fallible.bind_eq_ok] at hobject
      obtain ⟨ctx₂, hvalue, hdouble⟩ := hobject
      obtain rfl := Fallible.pure_eq_ok.mp hdouble
      rw [hsuper]
      refine (Visits.visit (n := .expression object) hvalue).after ?_
      cases doubleObject with
      | false => exact .refl _
      | true => exact .add _ rfl
    · obtain ⟨extra, rfl⟩ : ∃ extra, object = .super extra := by
        cases object <;> first | exact ⟨_, rfl⟩ | exact absurd rfl hsuper
      cases extra with
      | none => cases hobject
      | some extra =>
        unfold pipeMemberObject at hobject
        simp only [Fallible.guard_eq_ok, Except.ok.injEq] at hobject
        obtain ⟨_, rfl⟩ := hobject
        have hthis : Visits [] ctx (if doubleObject then ctx.addInstruction .ldThis else ctx) := by
          cases doubleObject with
          | false => exact .refl _
          | true => exact .add _ rfl
        refine hthis.seq ?_
        have hclass : ∀ ctx : PipeContext, Visits [] ctx (ctx.addNamed .loadLocal extra.targetName) :=
          fun ctx => .addNamed ctx _ fun _ => rfl
        cases extra.isStatic with
        | true => exact hclass _
        | false => exact (hclass _).seq (.addNamed _ _ fun _ => rfl)
  refine hfirst.seq ?_
  unfold pipeMemberProperty at hproperty
  split at hproperty
  · next hcomputed =>
    simp only [Fallible.bind_eq_ok, Fallible.pure_eq_ok] at hproperty
    obtain ⟨ctx₂, hkey, rfl⟩ := hproperty
    rw [if_pos hcomputed]
    exact (Visits.visit (n := .expression property) hkey).after (.add _ rfl)
  · next hcomputed =>
    rw [if_neg hcomputed]
    split at hproperty
    · obtain rfl := Except.ok.inj hproperty
      exact .addNamed _ _ fun _ => rfl
    · cases hproperty

theorem visits_callee {callee : Expression} (hrun : pipeCallee callee ctx = .ok ctx') :
    Visits (calleeChildren callee) ctx ctx' := by
  cases callee with
  | memberExpression object property computed => exact visits_member hrun
  | _ => exact (Visits.add ctx rfl).seq (.visit hrun)

theorem visits_properties {properties : List Property}
    (hrun : pipeProperties properties ctx = .ok ctx') :
    Visits (properties.flatMap Property.children) ctx ctx' := by
  induction properties generalizing ctx with
  | nil =>
    obtain rfl := Except.ok.inj hrun
    exact .refl ctx
  | cons property properties ih =>
    match property with
    | .objectProperty (some key) value =>
      simp only [pipeProperties, Fallible.bind_eq_ok] at hrun
      obtain ⟨ctx₁, hvalue, hrest⟩ := hrun
      have hkey := (Visits.add ctx rfl).seq (.register (ctx.addInstruction .dup) key)
      exact ((hkey.seq (.visit (n := .expression value) hvalue)).after (.add _ rfl)).seq (ih hrest)
    | .objectProperty none _ | .objectMethod none | .objectMethod (some _) | .spreadElement =>
      cases hrun

theorem visits_elements {elements : List (Option Expression)} {i : ℕ}
    (hrun : pipeElements elements i ctx = .ok ctx') :
    Visits (elements.filterMap (Option.map .expression)) ctx ctx' := by
  induction elements generalizing ctx i with
  | nil =>
    obtain rfl := Except.ok.inj hrun
    exact .refl ctx
  | cons element elements ih =>
    cases element with
    | none => cases hrun
    | some element =>
      simp only [pipeElements, Fallible.bind_eq_ok] at hrun
      obtain ⟨ctx₁, hvalue, hrest⟩ := hrun
      have hfirst := (Visits.add ctx rfl).seq (.visit (n := .expression element) hvalue)
      exact (hfirst.after (.addNamed _ _ fun _ => rfl)).seq (ih hrest)

theorem visits_items {items : List Statement} (hrun : pipeItems items ctx = .ok ctx') :
    Visits (items.map .item) ctx ctx' := by
  induction items generalizing ctx with
  | nil =>
    obtain rfl := Except.ok.inj hrun
    exact .refl ctx
  | cons item items ih =>
    rw [pipeItems_cons, Fallible.bind_eq_ok] at hrun
    obtain ⟨ctx₁, hitem, hrest⟩ := hrun
    exact (Visits.visit (n := .item item) hitem).seq (ih hrest)

theorem visits_declarators {declarations : List Declarator}
    (hrun : pipeDeclarators declarations ctx = .ok ctx') :
    Visits (declarations.map .declarator) ctx ctx' := by
  induction declarations generalizing ctx with
  | nil =>
    obtain rfl := Except.ok.inj hrun
    exact .refl ctx
  | cons declarator declarations ih =>
    simp only [pipeDeclarators, Fallible.bind_eq_ok] at hrun
    obtain ⟨ctx₁, hfirst, hrest⟩ := hrun
    exact (Visits.visit (n := .declarator declarator) hfirst).seq (ih hrest)

theorem visits_export (ctx : PipeContext) (name : JSString) :
    Visits [] ctx (ctx.addNamed .exportAs name) := .addNamed ctx name fun _ => rfl

/-- A default specifier visits the declaration once more. -/
theorem visits_specifiers {specifiers : List Specifier}
    {pipeAgain : PipeContext → Except String PipeContext} {again : List SyntaxNode}
    (hagain : ∀ ctx ctx', pipeAgain ctx = .ok ctx' → Visits again ctx ctx')
    (hrun : pipeSpecifiers specifiers pipeAgain ctx = .ok ctx') :
    Visits (specifiers.flatMap (Specifier.visited again)) ctx ctx' := by
  induction specifiers generalizing ctx with
  | nil =>
    obtain rfl := Except.ok.inj hrun
    exact .refl ctx
  | cons specifier specifiers ih =>
    cases specifier with
    | exportSpecifier binding exported =>
      simp only [pipeSpecifiers, Fallible.bind_eq_ok] at hrun
      obtain ⟨ctx₁, hbinding, hrest⟩ := hrun
      have hfirst := (Visits.visit (n := .expression binding) hbinding).after
        (visits_export ctx₁ exported)
      exact hfirst.seq (ih hrest)
    | exportDefaultSpecifier =>
      simp only [pipeSpecifiers, Fallible.bind_eq_ok] at hrun
      obtain ⟨ctx₁, hdeclaration, hrest⟩ := hrun
      have hfirst := (hagain ctx ctx₁ hdeclaration).after (visits_export ctx₁ (jsString "default"))
      exact hfirst.seq (ih hrest)
    | exportNamespaceSpecifier exported =>
      have hfirst := (visits_identifier exported ctx).seq (visits_export _ exported)
      exact hfirst.seq (ih hrun)

/-! ## Nodes -/

theorem visits_expression {e : Expression} (hrun : pipeExpression e ctx = .ok ctx') :
    Visits e.children ((SyntaxNode.expression e).entered ctx) ctx' := by
  match e with
  | .stringLiteral value =>
    obtain rfl := Except.ok.inj hrun
    exact .addNamed ctx value fun _ => rfl
  | .numericLiteral value =>
    obtain rfl := Except.ok.inj hrun
    exact visits_numericLiteral value ctx
  | .booleanLiteral value =>
    obtain rfl := Except.ok.inj hrun
    cases value <;> exact .add ctx rfl
  | .nullLiteral | .thisExpression =>
    obtain rfl := Except.ok.inj hrun
    exact .add ctx rfl
  | .identifier name =>
    obtain rfl := Except.ok.inj hrun
    exact visits_identifier name ctx
  | .binaryExpression operator left right =>
    simp only [pipeExpression, Fallible.bind_eq_ok, Fallible.pure_eq_ok] at hrun
    obtain ⟨ctx₁, hleft, ctx₂, hright, opcode, _, rfl⟩ := hrun
    have hfirst : Visits [.expression left] ctx ctx₁ := .visit hleft
    have hsecond : Visits [.expression right] ctx₁ ctx₂ := .visit hright
    exact (hfirst.seq hsecond).after (.add _ rfl)
  | .unaryExpression operator argument =>
    simp only [pipeExpression, Fallible.bind_eq_ok] at hrun
    obtain ⟨ctx₁, hargument, hoperator⟩ := hrun
    have hfirst : Visits [.expression argument] ctx ctx₁ := .visit hargument
    exact hfirst.after (visits_unaryOperator hoperator)
  | .callExpression callee id arguments =>
    simp only [pipeExpression, Fallible.bind_eq_ok, Fallible.pure_eq_ok] at hrun
    obtain ⟨ctx₁, hpushed, ctx₂, hcalled, rfl⟩ := hrun
    have harguments : Visits (arguments.map .expression) (ctx.reverseArguments id).2 ctx₁ := by
      split at hpushed
      · exact visits_arguments hpushed
      · exact visits_reversed hpushed
    exact (harguments.seq (visits_callee hcalled)).after (.add _ rfl)
  | .objectExpression properties =>
    exact (Visits.add ctx rfl).seq (visits_properties hrun)
  | .arrayExpression elements =>
    have halloc : Visits [] ctx ((ctx.addInstruction .arrAlloc).addInstruction .dup) :=
      (Visits.add ctx rfl).seq (.add _ rfl)
    have hlength : ∀ (ctx : PipeContext) (idx : ℕ), Visits [] ctx
        ((ctx.addInstruction (.ldInt elements.length)).addInstruction (.objStore idx)) :=
      fun ctx idx => (Visits.add ctx rfl).seq (.add _ rfl)
    exact ((halloc.seq (.register _ _)).seq (hlength _ _)).seq (visits_elements hrun)
  | .memberExpression object property computed => exact visits_member hrun
  | .assignmentExpression simple left right =>
    unfold pipeExpression at hrun
    split at hrun
    · cases hrun
    · cases left with
      | pattern =>
        obtain rfl := Except.ok.inj hrun
        exact .refl ctx
      | identifier name =>
        simp only [Fallible.bind_eq_ok, Fallible.pure_eq_ok] at hrun
        obtain ⟨ctx₁, hright, rfl⟩ := hrun
        have hfirst : Visits [.expression right] ctx ctx₁ := .visit hright
        exact hfirst.after ((Visits.add ctx₁ rfl).seq (.addNamed _ name fun _ => rfl))
      | memberExpression object property computed =>
        simp only [Fallible.bind_eq_ok] at hrun
        obtain ⟨ctx₁, hright, hstore⟩ := hrun
        have hvalue : Visits [.expression right] ctx ctx₁ := .visit hright
        suffices hrest : Visits (AssignmentTarget.memberExpression object property computed).children
            (ctx₁.addInstruction .dup) ctx' from (hvalue.after (.add ctx₁ rfl)).seq hrest
        split at hstore
        · next name =>
          simp only [Fallible.bind_eq_ok, Fallible.pure_eq_ok] at hstore
          obtain ⟨ctx₂, hobject, rfl⟩ := hstore
          have hsecond : Visits [.expression object] (ctx₁.addInstruction .dup) ctx₂ :=
            .visit hobject
          exact hsecond.after ((Visits.add ctx₂ rfl).seq (.addNamed _ name fun _ => rfl))
        · next hname =>
          simp only [Fallible.bind_eq_ok, Fallible.pure_eq_ok] at hstore
          obtain ⟨ctx₂, hobject, ctx₃, hproperty, rfl⟩ := hstore
          have hsecond : Visits [.expression object] (ctx₁.addInstruction .dup) ctx₂ :=
            .visit hobject
          have hthird : Visits [.expression property] ctx₂ ctx₃ := .visit hproperty
          have hchildren : AssignmentTarget.children (.memberExpression object property computed) =
              [.expression object, .expression property] := by
            unfold AssignmentTarget.children
            split <;> simp_all
          rw [hchildren]
          exact (hsecond.seq hthird).after (.add _ rfl)
  | .functionExpression function => exact .visit hrun
  | .super _ | .other _ => cases hrun

theorem visits_declaration {d : Declaration} (hrun : pipeDeclaration d ctx = .ok ctx') :
    Visits d.children ctx ctx' := by
  cases d with
  | variableDeclaration declarations => exact visits_declarators hrun
  | functionDeclaration function => exact .visit hrun
  | other type => cases hrun

theorem visits_function {f : FunctionNode} (hrun : pipeFunction f ctx = .ok ctx') :
    Visits (SyntaxNode.function f).children ctx ctx' := by
  obtain ⟨id, params, body⟩ := f
  have hbody : ∀ {ctx₁ ctx₂ ctx₃ : PipeContext}, Visits [] (ctx.addInstruction .nop) ctx₁ →
      pipeParams params 0 ctx₁ = .ok ctx₂ → pipeBlock body ctx₂ = .ok ctx₃ →
      Visits [.block body] (ctx.addInstruction .nop) ctx₃ := by
    intro ctx₁ ctx₂ ctx₃ hname hparams hblock
    exact (hname.seq (visits_params hparams)).seq (.visit hblock)
  unfold pipeFunction at hrun
  cases id with
  | none =>
    simp only [Fallible.bind_eq_ok, PipeContext.getCount_eq] at hrun
    obtain ⟨ctx₁, hparams, ctx₂, hblock, hreplace⟩ := hrun
    exact (hbody (.refl _) hparams hblock).layout fun visits h => .function h rfl hreplace
  | some name =>
    simp only [Fallible.bind_eq_ok, PipeContext.getCount_eq] at hrun
    obtain ⟨ctx₁, hparams, ctx₂, hblock, hreplace⟩ := hrun
    exact (hbody (.register _ name) hparams hblock).layout fun visits h =>
      .function h rfl hreplace

theorem visits_statement {s : Statement} (hrun : pipeStatement s ctx = .ok ctx') :
    Visits (SyntaxNode.statement s).visited ctx ctx' := by
  match s with
  | .expressionStatement e =>
    simp only [pipeStatement, Fallible.bind_eq_ok, Fallible.pure_eq_ok] at hrun
    obtain ⟨ctx₁, he, rfl⟩ := hrun
    have hfirst : Visits [.expression e] ctx ctx₁ := .visit he
    exact hfirst.after (.add _ rfl)
  | .declaration d => exact .visit hrun
  | .blockStatement b => exact .visit hrun
  | .returnStatement none =>
    obtain rfl := Except.ok.inj hrun
    exact .add ctx rfl
  | .returnStatement (some e) =>
    simp only [pipeStatement, Fallible.bind_eq_ok, Fallible.pure_eq_ok] at hrun
    obtain ⟨ctx₁, he, rfl⟩ := hrun
    have hfirst : Visits [.expression e] ctx ctx₁ := .visit he
    exact hfirst.after (.add _ rfl)
  | .ifStatement test consequent none =>
    simp only [pipeStatement, Fallible.bind_eq_ok, PipeContext.getCount_eq] at hrun
    obtain ⟨ctx₁, htest, ctx₂, hconsequent, hreplace⟩ := hrun
    have hfirst : Visits [.expression test] ctx ctx₁ := .visit htest
    have hthen : Visits [.statement consequent] (ctx₁.addInstruction .nop) ctx₂ :=
      .visit hconsequent
    exact hfirst.seq (hthen.layout fun visits h => .skip h hreplace)
  | .ifStatement test consequent (some alternate) =>
    simp only [pipeStatement, Fallible.bind_eq_ok, PipeContext.getCount_eq] at hrun
    obtain ⟨ctx₁, htest, ctx₂, hconsequent, ctx₃, hjump, ctx₄, halternate, hend⟩ := hrun
    have hfirst : Visits [.expression test] ctx ctx₁ := .visit htest
    have hthen : Visits [.statement consequent] (ctx₁.addInstruction .nop) ctx₂ :=
      .visit hconsequent
    have helse : Visits [.statement alternate] ctx₃ ctx₄ := .visit halternate
    exact hfirst.seq (hthen.layout₂ helse fun visits visits' h h' => .branch h hjump h' hend)
  | .whileStatement test body =>
    simp only [pipeStatement, Fallible.bind_eq_ok, PipeContext.getCount_eq] at hrun
    obtain ⟨ctx₁, htest, ctx₂, hbody, hreplace⟩ := hrun
    have hfirst : Visits [.expression test] ctx ctx₁ := .visit htest
    have hround : Visits [.statement body] (ctx₁.addInstruction .pop) ctx₂ := .visit hbody
    exact hfirst.layout₂ hround fun visits visits' h h' => .loop h h' hreplace
  | .exportNamedDeclaration none specifiers =>
    have hagain : ∀ ctx ctx' : PipeContext, Except.error "TypeError" = Except.ok ctx' →
        Visits [] ctx ctx' := fun _ _ h => by cases h
    have hchildren : Specifier.visited [] = Specifier.children := by
      funext specifier
      cases specifier <;> rfl
    have hvisits := visits_specifiers hagain hrun
    rw [hchildren] at hvisits
    exact hvisits
  | .exportNamedDeclaration (some d) specifiers =>
    simp only [pipeStatement, Fallible.bind_eq_ok] at hrun
    obtain ⟨ctx₁, hd, ctx₂, hexport, hspecifiers⟩ := hrun
    have hfirst : Visits [.declaration d] ctx ctx₁ := .visit hd
    have hagain : ∀ ctx ctx', pipeDeclaration d ctx = .ok ctx' →
        Visits [.declaration d] ctx ctx' := fun _ _ h => .visit h
    exact (hfirst.after (visits_exportDeclaration hexport)).seq
      (visits_specifiers hagain hspecifiers)
  | .exportDefaultDeclaration (.expression e) =>
    simp only [pipeStatement, Fallible.bind_eq_ok, Fallible.pure_eq_ok] at hrun
    obtain ⟨ctx₁, he, rfl⟩ := hrun
    have hfirst : Visits [.expression e] ctx ctx₁ := .visit he
    exact hfirst.after (visits_export ctx₁ _)
  | .exportDefaultDeclaration (.declaration d) =>
    simp only [pipeStatement, Fallible.bind_eq_ok, Fallible.pure_eq_ok] at hrun
    obtain ⟨ctx₁, hd, rfl⟩ := hrun
    have hfirst : Visits [.declaration d] ctx ctx₁ := .visit hd
    exact hfirst.after (visits_export ctx₁ _)
  | .other type => cases hrun

/-- The emission of a node visits its children, and nothing else. -/
theorem emission_node {n : SyntaxNode} (hrun : pipeNode n ctx = .ok ctx') :
    Visits n.visited (n.entered ctx) ctx' := by
  cases n with
  | program body => exact visits_items hrun
  | expression e => exact visits_expression hrun
  | function f => exact visits_function hrun
  | block b =>
    obtain ⟨isVirtual, body⟩ := b
    simp only [pipeNode, pipeBlock, Fallible.bind_eq_ok, Fallible.pure_eq_ok] at hrun
    obtain ⟨ctx₁, hitems, rfl⟩ := hrun
    cases isVirtual with
    | true => exact visits_items hitems
    | false => exact (visits_items hitems).layout fun visits h => .scope h
  | item s =>
    simp only [pipeNode, pipeItem, Fallible.bind_eq_ok, Fallible.pure_eq_ok] at hrun
    obtain ⟨ctx₁, hs, rfl⟩ := hrun
    have hfirst : Visits [.statement s] ctx ctx₁ := .visit hs
    refine hfirst.after ?_
    split
    · exact .add _ rfl
    · exact .refl _
  | statement s => exact visits_statement hrun
  | declaration d => exact visits_declaration hrun
  | declarator d =>
    obtain ⟨id, init⟩ := d
    cases init with
    | none => exact (Visits.add ctx rfl).seq (visits_declaratorId hrun)
    | some e =>
      simp only [pipeNode, pipeDeclarator, Fallible.bind_eq_ok] at hrun
      obtain ⟨ctx₁, he, hid⟩ := hrun
      have hfirst : Visits [.expression e] ctx ctx₁ := .visit he
      exact hfirst.after (visits_declaratorId hid)

/-! ## What emission keeps -/

/-- A relation of contexts that every way to emit keeps. -/
structure Keeping (R : PipeContext → PipeContext → Prop) : Prop where
  refl : ∀ ctx, R ctx ctx
  trans : ∀ {ctx ctx₁ ctx₂}, R ctx ctx₁ → R ctx₁ ctx₂ → R ctx ctx₂
  register : ∀ ctx x, R ctx (ctx.registerString x).2
  reverse : ∀ ctx id, R ctx (ctx.reverseArguments id).2
  add : ∀ ctx {instruction : Instruction}, instruction.isPlain = true →
    R ctx (ctx.addInstruction instruction)
  scope : ∀ {ctx ctx₁}, R (ctx.addInstruction .pushScope) ctx₁ →
    R ctx (ctx₁.addInstruction .popScope)
  function : ∀ {ctx ctx₁ ctx'} {new : Instruction}, R (ctx.addInstruction .nop) ctx₁ →
    new.functionSize? = some (ctx₁.code.length - ctx.code.length - 1) →
    ctx₁.replaceInstruction ctx.code.length new = .ok ctx' → R ctx ctx'
  skip : ∀ {ctx ctx₁ ctx'}, R (ctx.addInstruction .nop) ctx₁ →
    ctx₁.replaceInstruction ctx.code.length (.jmpF ctx₁.code.length) = .ok ctx' → R ctx ctx'
  branch : ∀ {ctx ctx₁ ctx₂ ctx₃ ctx'}, R (ctx.addInstruction .nop) ctx₁ →
    (ctx₁.addInstruction .nop).replaceInstruction ctx.code.length
      (.jmpF (ctx₁.code.length + 1)) = .ok ctx₂ → R ctx₂ ctx₃ →
    ctx₃.replaceInstruction ctx₁.code.length (.jmp ctx₃.code.length) = .ok ctx' → R ctx ctx'
  loop : ∀ {ctx ctx₁ ctx₂ ctx'}, R ctx ctx₁ → R (ctx₁.addInstruction .pop) ctx₂ →
    (ctx₂.addInstruction (.jmp ctx.code.length)).replaceInstruction ctx₁.code.length
      (.jmpF (ctx₂.addInstruction (.jmp ctx.code.length)).code.length) = .ok ctx' → R ctx ctx'

variable {R : PipeContext → PipeContext → Prop} {visits : List Visit}

theorem Emission.keeps (h : Emission visits ctx ctx') (hR : Keeping R)
    (hvisits : ∀ v ∈ visits, R v.before v.after) : R ctx ctx' := by
  induction h with
  | refl ctx => exact hR.refl ctx
  | register ctx x => exact hR.register ctx x
  | add ctx hplain => exact hR.add ctx hplain
  | visit v => exact hvisits v (List.mem_singleton_self v)
  | seq _ _ ih ih' =>
    exact hR.trans (ih fun v hv => hvisits v (List.mem_append_left _ hv))
      (ih' fun v hv => hvisits v (List.mem_append_right _ hv))
  | scope _ ih => exact hR.scope (ih hvisits)
  | function _ hnew hreplace ih => exact hR.function (ih hvisits) hnew hreplace
  | skip _ hreplace ih => exact hR.skip (ih hvisits) hreplace
  | branch _ hjump _ hend ih ih' =>
    exact hR.branch (ih fun v hv => hvisits v (List.mem_append_left _ hv)) hjump
      (ih' fun v hv => hvisits v (List.mem_append_right _ hv)) hend
  | loop _ _ hreplace ih ih' =>
    exact hR.loop (ih fun v hv => hvisits v (List.mem_append_left _ hv))
      (ih' fun v hv => hvisits v (List.mem_append_right _ hv)) hreplace

theorem Visits.children (h : Visits nodes ctx ctx') : ∃ visits, Emission visits ctx ctx' ∧
    (∀ v ∈ visits, v.node ∈ nodes) ∧ ∀ c ∈ nodes, ∃ v ∈ visits, v.node = c := by
  obtain ⟨visits, hemission, hperm⟩ := h
  exact ⟨visits, hemission, fun v hv => hperm.mem_iff.mp (List.mem_map_of_mem hv),
    fun c hc => List.mem_map.mp (hperm.mem_iff.mpr hc)⟩

theorem Keeping.entered (hR : Keeping R) (n : SyntaxNode) (ctx : PipeContext) :
    R ctx (n.entered ctx) := by
  unfold SyntaxNode.entered
  split
  · exact hR.reverse ctx _
  · exact hR.refl ctx

theorem Keeping.node (hR : Keeping R) (n : SyntaxNode) :
    ∀ {ctx ctx'}, pipeNode n ctx = .ok ctx' → R ctx ctx' := by
  induction n using SyntaxNode.induction with
  | h n ih =>
    intro ctx ctx' hrun
    obtain ⟨visits, hemission, hnodes, _⟩ := (emission_node hrun).children
    have hchildren : R (n.entered ctx) ctx' := hemission.keeps hR fun v hv =>
      ih v.node (SyntaxNode.mem_visited.mp (hnodes v hv)) v.accepts
    exact hR.trans (hR.entered n ctx) hchildren

/-! ## Nothing is lost -/

/-- Nothing that was emitted or registered is lost. -/
structure Extends (ctx ctx' : PipeContext) : Prop where
  code : ctx.code <+: ctx'.code
  strings : ctx.stable.strings <+: ctx'.stable.strings

namespace Extends

theorem refl (ctx : PipeContext) : Extends ctx ctx := ⟨List.prefix_rfl, List.prefix_rfl⟩

theorem trans (h : Extends ctx ctx₁) (h' : Extends ctx₁ ctx₂) : Extends ctx ctx₂ :=
  ⟨h.code.trans h'.code, h.strings.trans h'.strings⟩

theorem add (ctx : PipeContext) (instruction : Instruction) :
    Extends ctx (ctx.addInstruction instruction) := ⟨List.prefix_append _ _, List.prefix_rfl⟩

theorem register (ctx : PipeContext) (name : JSString) :
    Extends ctx (ctx.registerString name).2 :=
  ⟨List.prefix_rfl, ctx.stable.registerString_prefix name⟩

theorem addNamed (ctx : PipeContext) (instruction : ℕ → Instruction) (name : JSString) :
    Extends ctx (ctx.addNamed instruction name) := (register ctx name).trans (add _ _)

theorem reverse (ctx : PipeContext) (id : ℕ) : Extends ctx (ctx.reverseArguments id).2 := by
  unfold PipeContext.reverseArguments
  split <;> exact ⟨List.prefix_rfl, List.prefix_rfl⟩

theorem le (h : Extends ctx ctx') : ctx.code.length ≤ ctx'.code.length := h.code.length_le

theorem replaced {instruction new : Instruction} (hbody : Extends (ctx.addInstruction instruction) ctx₁)
    (h : Replaced ctx ctx₁ ctx₁ ctx' new) : Extends ctx ctx' where
  code := h.extends_code
  strings := h.stable_eq ▸ ((Extends.add ctx instruction).trans hbody).strings

theorem branched (hthen : Extends (ctx.addInstruction .nop) ctx₁) (helse : Extends ctx₂ ctx₃)
    (h : Branches ctx ctx₁ ctx₂ ctx₃ ctx') : Extends ctx ctx' where
  code := h.extends_code
  strings := by
    rw [h.else_stable]
    have hstrings := helse.strings
    rw [h.then_stable] at hstrings
    exact hthen.strings.trans hstrings

end Extends

theorem keeping_extends : Keeping Extends where
  refl := Extends.refl
  trans h h' := h.trans h'
  register := Extends.register
  reverse := Extends.reverse
  add ctx _ _ := Extends.add ctx _
  scope h := ((Extends.add _ _).trans h).trans (Extends.add _ _)
  function h _ hreplace := h.replaced (Compiler.replaced h.code List.prefix_rfl hreplace)
  skip h hreplace := h.replaced (Compiler.replaced h.code List.prefix_rfl hreplace)
  branch h hjump h' hend := h.branched h' (branches h.code hjump h'.code hend)
  loop htest hbody hreplace := by
    have hlayout := Compiler.loop hbody.code hreplace
    exact htest.trans ⟨hlayout.extends_code, hlayout.stable_eq ▸ hbody.strings⟩

theorem extends_node {n : SyntaxNode} (hrun : pipeNode n ctx = .ok ctx') : Extends ctx ctx' :=
  keeping_extends.node n hrun

theorem Emission.extends (h : Emission visits ctx ctx') : Extends ctx ctx' :=
  h.keeps keeping_extends fun v _ => extends_node v.accepts

/-! ## The code of visited nodes -/

/-- The code of a visited node stands between two contexts. -/
structure Visit.Inside (v : Visit) (ctx ctx' : PipeContext) : Prop where
  lower : ctx.code.length ≤ v.before.code.length
  upper : v.after.code.length ≤ ctx'.code.length
  agree : Agree v.before.code.length v.after.code.length v.after.code ctx'.code

namespace Visit.Inside

variable {v : Visit}

theorem self (v : Visit) : v.Inside v.before v.after :=
  ⟨Nat.le_refl _, Nat.le_refl _, fun _ _ _ => rfl⟩

theorem earlier (h : v.Inside ctx₁ ctx') (hle : ctx.code.length ≤ ctx₁.code.length) :
    v.Inside ctx ctx' := { h with lower := Nat.le_trans hle h.lower }

/-- The code around it is changed elsewhere. -/
theorem later {s : ℕ} (h : v.Inside ctx₁ ctx₂) (hs : s ≤ ctx₁.code.length)
    (hagree : Agree s ctx₂.code.length ctx₂.code ctx'.code)
    (hle : ctx₂.code.length ≤ ctx'.code.length) : v.Inside ctx₁ ctx' where
  lower := h.lower
  upper := Nat.le_trans h.upper hle
  agree := h.agree.trans (hagree.mono (Nat.le_trans hs h.lower) h.upper)

theorem extended (h : v.Inside ctx ctx₁) (hextends : Extends ctx₁ ctx₂) : v.Inside ctx ctx₂ :=
  h.later (Nat.zero_le _) (agree_extended hextends.code (Nat.le_refl _)) hextends.le

/-- The code around it is behind a placeholder. -/
theorem replaced {old new : Instruction} (h : v.Inside (ctx.addInstruction old) ctx₁)
    (hlayout : Replaced ctx ctx₁ ctx₂ ctx' new)
    (hle : ctx₁.code.length ≤ ctx'.code.length) : v.Inside ctx ctx' := by
  have hlength := addInstruction_length ctx old
  exact (h.later (Nat.le_of_eq hlength.symm) hlayout.agree hle).earlier (by omega)

end Visit.Inside

theorem Emission.inside (h : Emission visits ctx ctx') : ∀ v ∈ visits, v.Inside ctx ctx' := by
  induction h with
  | refl | register | add => exact fun v hv => absurd hv List.not_mem_nil
  | visit v =>
    intro v' hv
    obtain rfl := List.mem_singleton.mp hv
    exact .self v'
  | seq h h' ih ih' =>
    intro v hv
    rcases List.mem_append.mp hv with hv | hv
    · exact (ih v hv).extended h'.extends
    · exact (ih' v hv).earlier h.extends.le
  | scope _ ih =>
    exact fun v hv => ((ih v hv).extended (Extends.add _ _)).earlier (Extends.add _ _).le
  | function h _ hreplace ih =>
    have hlayout := Compiler.replaced h.extends.code List.prefix_rfl hreplace
    exact fun v hv => (ih v hv).replaced hlayout (Nat.le_of_eq hlayout.length_eq.symm)
  | skip h hreplace ih =>
    have hlayout := Compiler.replaced h.extends.code List.prefix_rfl hreplace
    exact fun v hv => (ih v hv).replaced hlayout (Nat.le_of_eq hlayout.length_eq.symm)
  | @branch _ _ ctx ctx₁ ctx₂ ctx₃ ctx' h hjump h' hend ih ih' =>
    have hlayout := branches h.extends.code hjump h'.extends.code hend
    have hle := hlayout.le
    have hle' := hlayout.else_le
    intro v hv
    rcases List.mem_append.mp hv with hv | hv
    · have hlength := addInstruction_length ctx .nop
      exact ((ih v hv).later (Nat.le_of_eq hlength.symm) hlayout.then_agree
        (Nat.le_of_succ_le hle')).earlier (by omega)
    · have hstart := hlayout.else_start
      exact ((ih' v hv).later (Nat.le_of_eq hstart.symm) hlayout.else_agree
        (Nat.le_of_eq hlayout.length_eq.symm)).earlier (by omega)
  | @loop _ _ ctx ctx₁ ctx₂ ctx' h h' hreplace ih ih' =>
    have hlayout := Compiler.loop h'.extends.code hreplace
    have hlength := hlayout.length_eq
    intro v hv
    rcases List.mem_append.mp hv with hv | hv
    · exact (ih v hv).extended ⟨hlayout.extends_code, hlayout.stable_eq ▸
        ((Extends.add _ _).trans h'.extends).strings⟩
    · have hbody := addInstruction_length ctx₁ .pop
      have htest := h.extends.le
      exact ((ih' v hv).later (Nat.le_of_eq hbody.symm) hlayout.body_agree
        (by omega)).earlier (by omega)

/-! ## Accepted nodes -/

open SyntaxNode (Accepted Within)

/-- Whatever accepts a node has accepted its children. -/
theorem SyntaxNode.Accepted.child {n c : SyntaxNode} (h : Accepted n) (hc : c ∈ n.children) :
    Accepted c := by
  obtain ⟨ctx, ctx', hrun⟩ := h
  obtain ⟨visits, _, _, hchildren⟩ := (emission_node hrun).children
  obtain ⟨v, _, rfl⟩ := hchildren c (SyntaxNode.mem_visited.mpr hc)
  exact ⟨v.before, v.after, v.accepts⟩

theorem SyntaxNode.Accepted.within {n m : SyntaxNode} (h : Accepted n) (hm : Within n m) :
    Accepted m := by
  induction hm with
  | self n => exact h
  | child hc _ ih => exact ih (h.child hc)

end Compiler

end AtomixJS
