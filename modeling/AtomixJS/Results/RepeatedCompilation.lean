import AtomixJS.Compiler.Occurrence
import AtomixJS.Compiler.Transform

/-!
# Compiling a node twice

`node.arguments.reverse()` turns the array that belongs to the node, so every second
emission of a node has the arguments of its calls in source order.  The transforms
put one node at several places: the target of a compound assignment is read and
written.

A program is emitted as it should be if every array of arguments that is not its
own reverse is emitted at most once.  Nothing at all depends on how often a node
was compiled if there is no such array.
-/

namespace AtomixJS.Compiler

/-! ## Emissions that do not look at the reversals -/

/-- The arguments are the same from behind. -/
def CallSite.Symmetric (site : CallSite) : Prop := site.arguments.reverse = site.arguments

/-- Two emissions that differ in the arrays in reverse at most. -/
def Alike (x y : Except String PipeContext) : Prop :=
  x.map (fun ctx => (ctx.data, ctx.stable)) = y.map fun ctx => (ctx.data, ctx.stable)

/-- The sections do not depend on the arrays in reverse. -/
def Blind (f : PipeContext → Except String PipeContext) : Prop :=
  ∀ data stable reversed reversed', Alike (f ⟨data, stable, reversed⟩) (f ⟨data, stable, reversed'⟩)

theorem Alike.bind {x y : Except String PipeContext} {f g : PipeContext → Except String PipeContext}
    (h : Alike x y) (hrest : ∀ data stable reversed reversed',
      Alike (f ⟨data, stable, reversed⟩) (g ⟨data, stable, reversed'⟩)) :
    Alike (x >>= f) (y >>= g) := by
  cases x with
  | error e =>
    cases y with
    | error e' =>
      obtain rfl := Except.error.inj h
      rfl
    | ok ctx' => cases h
  | ok ctx =>
    cases y with
    | error e' => cases h
    | ok ctx' =>
      obtain ⟨data, stable, reversed⟩ := ctx
      obtain ⟨data', stable', reversed'⟩ := ctx'
      obtain ⟨rfl, rfl⟩ := Prod.mk.inj (Except.ok.inj h)
      exact hrest data stable reversed reversed'

theorem blind_foldlM {α : Type} {f : PipeContext → α → Except String PipeContext} (xs : List α)
    (h : ∀ x, Blind (f · x)) : Blind fun ctx => xs.foldlM f ctx := by
  induction xs with
  | nil => exact fun _ _ _ _ => rfl
  | cons x xs ih =>
    intro data stable reversed reversed'
    simp only [List.foldlM_cons]
    exact (h x _ _ _ _).bind ih

theorem blind_replace (index : ℕ) (instruction : Instruction) :
    Blind (·.replaceInstruction index instruction) := by
  intro data stable reversed reversed'
  simp only [PipeContext.replaceInstruction]
  cases data.replaceInstruction index instruction <;> rfl

theorem blind_params (params : List (Option JSString)) (i : ℕ) : Blind (pipeParams params i) := by
  induction params generalizing i with
  | nil => exact fun _ _ _ _ => rfl
  | cons param params ih =>
    cases param with
    | none => exact fun _ _ _ _ => rfl
    | some name => exact fun data stable reversed reversed' => ih (i + 1) _ _ _ _

theorem blind_identifier (name : JSString) (data : DataSection) (stable : STableSection) :
    ∃ data' stable', ∀ reversed,
      pipeIdentifier name ⟨data, stable, reversed⟩ = ⟨data', stable', reversed⟩ := by
  unfold pipeIdentifier
  split
  · exact ⟨(data.addInstruction .ldUndf).2, stable, fun _ => rfl⟩
  · exact ⟨(data.addInstruction (.loadLocal (stable.registerString name).1)).2,
      (stable.registerString name).2, fun _ => rfl⟩

theorem blind_declaratorId (id : DeclaratorId) : Blind (pipeDeclaratorId id) := by
  cases id with
  | identifier name => exact fun _ _ _ _ => rfl
  | objectPattern properties =>
    refine blind_foldlM properties fun property => ?_
    match property with
    | .objectProperty (some _) (some _) => exact fun _ _ _ _ => rfl
    | .objectProperty (some _) none | .objectProperty none _ | .restElement =>
      exact fun _ _ _ _ => rfl
  | other type => exact fun _ _ _ _ => rfl

theorem blind_exportDeclaration (declaration : Declaration) :
    Blind (pipeExportDeclaration declaration) := by
  match declaration with
  | .variableDeclaration declarations =>
    refine blind_foldlM declarations fun declarator => ?_
    match declarator with
    | .mk (.identifier name) _ =>
      intro data stable reversed reversed'
      obtain ⟨data', stable', hname⟩ := blind_identifier name data stable
      simp only [pipeExportDeclarator, hname]
      rfl
    | .mk (.objectPattern _) _ | .mk (.other _) _ => exact fun _ _ _ _ => rfl
  | .functionDeclaration (.mk (some _) _ _) => exact fun _ _ _ _ => rfl
  | .functionDeclaration (.mk none _ _) | .other _ => exact fun _ _ _ _ => rfl

theorem blind_unaryOperator (operator : UnaryOperator) : Blind (pipeUnaryOperator operator) := by
  cases operator <;> exact fun _ _ _ _ => rfl

theorem blind_arguments {arguments : List Expression}
    (h : ∀ e ∈ arguments, Blind (pipeExpression e)) : Blind (pipeArguments arguments) := by
  induction arguments with
  | nil => exact fun _ _ _ _ => rfl
  | cons e arguments ih =>
    intro data stable reversed reversed'
    exact (h e List.mem_cons_self _ _ _ _).bind
      (ih fun e he => h e (List.mem_cons_of_mem _ he))

theorem blind_member {object property : Expression} {computed doubleObject : Bool}
    (h : ∀ c ∈ memberChildren object property computed, Blind (pipeNode c)) :
    Blind (pipeMemberExpression object property (pipeExpression object) (pipeExpression property)
      computed doubleObject) := by
  have hobject : Blind (pipeMemberObject object (pipeExpression object) doubleObject) := by
    by_cases hsuper : object.isSuper = false
    · have hvalue : Blind (pipeExpression object) :=
        h (.expression object) (by simp [memberChildren, hsuper])
      intro data stable reversed reversed'
      rw [pipeMemberObject_of_not_super hsuper, pipeMemberObject_of_not_super hsuper]
      refine (hvalue _ _ _ _).bind fun _ _ _ _ => ?_
      cases doubleObject <;> rfl
    · obtain ⟨extra, rfl⟩ : ∃ extra, object = .super extra := by
        cases object <;> first | exact ⟨_, rfl⟩ | exact absurd rfl hsuper
      intro data stable reversed reversed'
      cases extra with
      | none => rfl
      | some extra =>
        unfold pipeMemberObject
        dsimp only
        split
        · rfl
        · cases doubleObject <;> cases extra.isStatic <;> rfl
  have hproperty : Blind (pipeMemberProperty property (pipeExpression property) computed) := by
    intro data stable reversed reversed'
    unfold pipeMemberProperty
    cases computed with
    | true =>
      have hkey : Blind (pipeExpression property) :=
        h (.expression property) (by simp [memberChildren])
      exact (hkey _ _ _ _).bind fun _ _ _ _ => rfl
    | false => cases property <;> rfl
  intro data stable reversed reversed'
  exact (hobject _ _ _ _).bind hproperty

theorem blind_callee {callee : Expression} (h : ∀ c ∈ calleeChildren callee, Blind (pipeNode c)) :
    Blind (pipeCallee callee) := by
  cases callee with
  | memberExpression object property computed => exact blind_member h
  | _ => exact fun _ _ _ _ => h _ List.mem_cons_self _ _ _ _

theorem blind_properties {properties : List Property}
    (h : ∀ c ∈ properties.flatMap Property.children, Blind (pipeNode c)) :
    Blind (pipeProperties properties) := by
  induction properties with
  | nil => exact fun _ _ _ _ => rfl
  | cons property properties ih =>
    rw [List.flatMap_cons] at h
    have hrest := ih fun c hc => h c (List.mem_append_right _ hc)
    match property with
    | .objectProperty (some key) value =>
      have hvalue : Blind (pipeExpression value) :=
        h (.expression value) (List.mem_append_left _ List.mem_cons_self)
      intro data stable reversed reversed'
      exact (hvalue _ _ _ _).bind fun _ _ _ _ => hrest _ _ _ _
    | .objectProperty none _ | .objectMethod none | .objectMethod (some _) | .spreadElement =>
      exact fun _ _ _ _ => rfl

theorem blind_elements {elements : List (Option Expression)}
    (h : ∀ c ∈ elements.filterMap (Option.map SyntaxNode.expression), Blind (pipeNode c)) (i : ℕ) :
    Blind (pipeElements elements i) := by
  induction elements generalizing i with
  | nil => exact fun _ _ _ _ => rfl
  | cons element elements ih =>
    cases element with
    | none => exact fun _ _ _ _ => rfl
    | some e =>
      have hrest := ih (fun c hc => h c (List.mem_cons_of_mem _ hc)) (i + 1)
      have hvalue : Blind (pipeExpression e) := h (.expression e) List.mem_cons_self
      intro data stable reversed reversed'
      exact (hvalue _ _ _ _).bind fun _ _ _ _ => hrest _ _ _ _

theorem blind_items {items : List Statement} (h : ∀ c ∈ items.map SyntaxNode.item, Blind (pipeNode c)) :
    Blind (pipeItems items) := by
  induction items with
  | nil => exact fun _ _ _ _ => rfl
  | cons item items ih =>
    intro data stable reversed reversed'
    rw [pipeItems_cons, pipeItems_cons]
    exact (h (.item item) List.mem_cons_self _ _ _ _).bind
      (ih fun c hc => h c (List.mem_cons_of_mem _ hc))

theorem blind_declarators {declarations : List Declarator}
    (h : ∀ c ∈ declarations.map SyntaxNode.declarator, Blind (pipeNode c)) :
    Blind (pipeDeclarators declarations) := by
  induction declarations with
  | nil => exact fun _ _ _ _ => rfl
  | cons declarator declarations ih =>
    intro data stable reversed reversed'
    exact (h (.declarator declarator) List.mem_cons_self _ _ _ _).bind
      (ih fun c hc => h c (List.mem_cons_of_mem _ hc))

theorem blind_specifiers {specifiers : List Specifier}
    {pipeAgain : PipeContext → Except String PipeContext} (hagain : Blind pipeAgain)
    (h : ∀ c ∈ specifiers.flatMap Specifier.children, Blind (pipeNode c)) :
    Blind (pipeSpecifiers specifiers pipeAgain) := by
  induction specifiers with
  | nil => exact fun _ _ _ _ => rfl
  | cons specifier specifiers ih =>
    rw [List.flatMap_cons] at h
    have hrest := ih fun c hc => h c (List.mem_append_right _ hc)
    intro data stable reversed reversed'
    cases specifier with
    | exportSpecifier binding exported =>
      have hbinding : Blind (pipeExpression binding) :=
        h (.expression binding) (List.mem_append_left _ List.mem_cons_self)
      exact (hbinding _ _ _ _).bind fun _ _ _ _ => hrest _ _ _ _
    | exportDefaultSpecifier => exact (hagain _ _ _ _).bind fun _ _ _ _ => hrest _ _ _ _
    | exportNamespaceSpecifier exported =>
      obtain ⟨data', stable', hname⟩ := blind_identifier exported data stable
      simp only [pipeSpecifiers, hname]
      exact hrest _ _ _ _

theorem blind_expression {e : Expression} (hown : ∀ site ∈ (SyntaxNode.expression e).ownCalls,
    site.Symmetric) (h : ∀ c ∈ e.children, Blind (pipeNode c)) : Blind (pipeExpression e) := by
  have hvalue : ∀ e' : Expression, .expression e' ∈ e.children → Blind (pipeExpression e') :=
    fun _ hmem => h (.expression _) hmem
  intro data stable reversed reversed'
  cases e with
  | stringLiteral _ | nullLiteral | thisExpression | super _ | other _ => rfl
  | booleanLiteral value => cases value <;> rfl
  | numericLiteral value =>
    simp only [pipeExpression, pipeNumericLiteral]
    split <;> rfl
  | identifier name =>
    obtain ⟨data', stable', hname⟩ := blind_identifier name data stable
    simp only [pipeExpression, hname]
    rfl
  | binaryExpression operator left right =>
    simp only [pipeExpression]
    refine (hvalue left (by simp [Expression.children]) _ _ _ _).bind fun _ _ _ _ => ?_
    refine (hvalue right (by simp [Expression.children]) _ _ _ _).bind fun _ _ _ _ => ?_
    cases binaryOpcode operator <;> rfl
  | unaryExpression operator argument =>
    exact (hvalue argument (by simp [Expression.children]) _ _ _ _).bind
      (blind_unaryOperator operator)
  | callExpression callee id arguments =>
    have hsymmetric : arguments.reverse = arguments := hown ⟨id, arguments⟩ List.mem_cons_self
    have horder : ∀ ctx : PipeContext, argumentOrder ctx id arguments = arguments := by
      intro ctx
      unfold argumentOrder
      split
      · rfl
      · exact hsymmetric
    have hreverse : ∀ reversed, ∃ reversed', ((⟨data, stable, reversed⟩ : PipeContext).reverseArguments
        id).2 = ⟨data, stable, reversed'⟩ := by
      intro reversed
      unfold PipeContext.reverseArguments
      split
      · exact ⟨_, rfl⟩
      · exact ⟨_, rfl⟩
    obtain ⟨turned, hturned⟩ := hreverse reversed
    obtain ⟨turned', hturned'⟩ := hreverse reversed'
    rw [pipeExpression_call, pipeExpression_call, horder, horder, hturned, hturned']
    have harguments : Blind (pipeArguments arguments) := blind_arguments fun e he =>
      hvalue e (List.mem_append_left _ (List.mem_map_of_mem he))
    have hcallee : Blind (pipeCallee callee) :=
      blind_callee fun c hc => h c (List.mem_append_right _ hc)
    exact (harguments _ _ _ _).bind fun _ _ _ _ => (hcallee _ _ _ _).bind fun _ _ _ _ => rfl
  | objectExpression properties => exact blind_properties h _ _ _ _
  | arrayExpression elements => exact blind_elements h 0 _ _ _ _
  | memberExpression object property computed => exact blind_member h _ _ _ _
  | assignmentExpression simple left right =>
    unfold pipeExpression
    split
    · rfl
    · cases left with
      | pattern => rfl
      | identifier name =>
        exact (hvalue right (by simp [Expression.children]) _ _ _ _).bind
          fun _ _ _ _ => rfl
      | memberExpression object property computed =>
        refine (hvalue right (by simp [Expression.children]) _ _ _ _).bind
          fun _ _ _ _ => ?_
        have hobject : Blind (pipeExpression object) := by
          refine hvalue _ (List.mem_cons_of_mem _ ?_)
          unfold AssignmentTarget.children
          split <;> simp_all
        split
        · exact (hobject _ _ _ _).bind fun _ _ _ _ => rfl
        · next hname =>
          have hproperty : Blind (pipeExpression property) := by
            refine hvalue _ (List.mem_cons_of_mem _ ?_)
            unfold AssignmentTarget.children
            split <;> simp_all
          exact (hobject _ _ _ _).bind fun _ _ _ _ => (hproperty _ _ _ _).bind fun _ _ _ _ => rfl
  | functionExpression function => exact h (.function function) List.mem_cons_self _ _ _ _

theorem blind_function {f : FunctionNode} (h : ∀ c ∈ (SyntaxNode.function f).children,
    Blind (pipeNode c)) : Blind (pipeFunction f) := by
  obtain ⟨id, params, body⟩ := f
  have hbody : Blind (pipeBlock body) := h (.block body) List.mem_cons_self
  intro data stable reversed reversed'
  unfold pipeFunction
  cases id with
  | none =>
    exact (blind_params params 0 _ _ _ _).bind fun _ _ _ _ => (hbody _ _ _ _).bind
      fun _ _ _ _ => blind_replace _ _ _ _ _ _
  | some name =>
    exact (blind_params params 0 _ _ _ _).bind fun _ _ _ _ => (hbody _ _ _ _).bind
      fun _ _ _ _ => blind_replace _ _ _ _ _ _

theorem blind_declaration {d : Declaration} (h : ∀ c ∈ d.children, Blind (pipeNode c)) :
    Blind (pipeDeclaration d) := by
  cases d with
  | variableDeclaration declarations => exact blind_declarators h
  | functionDeclaration function => exact h (.function function) List.mem_cons_self
  | other type => exact fun _ _ _ _ => rfl

theorem blind_statement {s : Statement} (h : ∀ c ∈ s.children, Blind (pipeNode c)) :
    Blind (pipeStatement s) := by
  intro data stable reversed reversed'
  match s with
  | .expressionStatement e =>
    exact (h (.expression e) List.mem_cons_self _ _ _ _).bind fun _ _ _ _ => rfl
  | .declaration d => exact h (.declaration d) List.mem_cons_self _ _ _ _
  | .blockStatement b => exact h (.block b) List.mem_cons_self _ _ _ _
  | .returnStatement none | .other _ => rfl
  | .returnStatement (some e) =>
    exact (h (.expression e) List.mem_cons_self _ _ _ _).bind fun _ _ _ _ => rfl
  | .ifStatement test consequent none =>
    have htest : Blind (pipeExpression test) := h (.expression test) (by simp [Statement.children])
    have hthen : Blind (pipeStatement consequent) :=
      h (.statement consequent) (by simp [Statement.children])
    exact (htest _ _ _ _).bind fun _ _ _ _ => (hthen _ _ _ _).bind fun _ _ _ _ =>
      blind_replace _ _ _ _ _ _
  | .ifStatement test consequent (some alternate) =>
    have htest : Blind (pipeExpression test) := h (.expression test) (by simp [Statement.children])
    have hthen : Blind (pipeStatement consequent) :=
      h (.statement consequent) (by simp [Statement.children])
    have helse : Blind (pipeStatement alternate) :=
      h (.statement alternate) (by simp [Statement.children])
    exact (htest _ _ _ _).bind fun _ _ _ _ => (hthen _ _ _ _).bind fun _ _ _ _ =>
      (blind_replace _ _ _ _ _ _).bind fun _ _ _ _ => (helse _ _ _ _).bind fun _ _ _ _ =>
        blind_replace _ _ _ _ _ _
  | .whileStatement test body =>
    have htest : Blind (pipeExpression test) := h (.expression test) (by simp [Statement.children])
    have hbody : Blind (pipeStatement body) := h (.statement body) (by simp [Statement.children])
    exact (htest _ _ _ _).bind fun _ _ _ _ => (hbody _ _ _ _).bind fun _ _ _ _ =>
      blind_replace _ _ _ _ _ _
  | .exportNamedDeclaration none specifiers =>
    have hagain : Blind fun _ => .error "TypeError" := fun _ _ _ _ => rfl
    exact blind_specifiers hagain h _ _ _ _
  | .exportNamedDeclaration (some d) specifiers =>
    have hd : Blind (pipeDeclaration d) := h (.declaration d) (by simp [Statement.children])
    have hspecifiers := blind_specifiers hd fun c hc => h c (List.mem_append_right _ hc)
    exact (hd _ _ _ _).bind fun _ _ _ _ => (blind_exportDeclaration d _ _ _ _).bind hspecifiers
  | .exportDefaultDeclaration (.expression e) =>
    exact (h (.expression e) List.mem_cons_self _ _ _ _).bind fun _ _ _ _ => rfl
  | .exportDefaultDeclaration (.declaration d) =>
    exact (h (.declaration d) List.mem_cons_self _ _ _ _).bind fun _ _ _ _ => rfl

/-- If all calls have arguments that are their own reverse, no emission depends on
the reversals. -/
theorem blind_node (n : SyntaxNode) (hcalls : ∀ site ∈ n.calls, site.Symmetric) :
    Blind (pipeNode n) := by
  induction n using SyntaxNode.induction with
  | h n ih =>
    rw [SyntaxNode.calls_eq] at hcalls
    have hown : ∀ site ∈ n.ownCalls, site.Symmetric := fun site hsite =>
      hcalls site (List.mem_append_left _ hsite)
    have hchildren : ∀ c ∈ n.children, Blind (pipeNode c) := by
      intro c hc
      refine ih c hc fun site hsite => hcalls site (List.mem_append_right _ ?_)
      exact List.mem_flatMap.mpr ⟨c, SyntaxNode.mem_visited.mpr hc, hsite⟩
    cases n with
    | program body => exact blind_items hchildren
    | expression e => exact blind_expression hown hchildren
    | function f => exact blind_function hchildren
    | block b =>
      obtain ⟨isVirtual, body⟩ := b
      have hbody : Blind (pipeItems body) := blind_items hchildren
      intro data stable reversed reversed'
      cases isVirtual <;> exact (hbody _ _ _ _).bind fun _ _ _ _ => rfl
    | item s =>
      intro data stable reversed reversed'
      refine (hchildren (.statement s) List.mem_cons_self _ _ _ _).bind fun _ _ _ _ => ?_
      cases s.isFunctionDeclaration <;> rfl
    | statement s => exact blind_statement hchildren
    | declaration d => exact blind_declaration hchildren
    | declarator d =>
      obtain ⟨id, init⟩ := d
      cases init with
      | none => exact fun _ _ _ _ => blind_declaratorId id _ _ _ _
      | some e =>
        have hinit : Blind (pipeExpression e) := hchildren (.expression e) List.mem_cons_self
        exact fun _ _ _ _ => (hinit _ _ _ _).bind (blind_declaratorId id)

/-! ## Programs -/

/-- A program whose arrays are objects: an array has the same content wherever it
stands. -/
structure SharedProgram where
  body : List Statement
  coherent : ∀ site ∈ (SyntaxNode.program body).calls, ∀ site' ∈ (SyntaxNode.program body).calls,
    site.argumentsId = site'.argumentsId → site.arguments = site'.arguments

def SharedProgram.node (program : SharedProgram) : SyntaxNode := .program program.body

namespace Visit

/-- Every call is emitted with its arguments from the last one to the first. -/
def CallsInOrder (v : Visit) : Prop :=
  ∀ u, v.Under u → ∀ callee id arguments,
    u.node = .expression (.callExpression callee id arguments) →
    argumentOrder u.before id arguments = arguments.reverse

/-- The content of an array after the emission. -/
def storedArguments (v : Visit) (site : CallSite) : List Expression :=
  if site.argumentsId ∈ v.after.reversed then site.arguments.reverse else site.arguments

/-- The emission leaves the arrays as they were in the source. -/
def TreeUnchanged (v : Visit) : Prop :=
  ∀ site ∈ v.node.calls, v.storedArguments site = site.arguments

/-- With the sections as they were, the node is emitted in the same way again. -/
def Repeats (v : Visit) : Prop :=
  ∃ ctx, pipeNode v.node { v.before with reversed := v.after.reversed } = .ok ctx ∧
    ctx.data = v.after.data ∧ ctx.stable = v.after.stable

theorem repeats_of_symmetric {v : Visit} (h : ∀ site ∈ v.node.calls, site.Symmetric) :
    v.Repeats := by
  obtain ⟨n, ⟨data, stable, reversed⟩, ctx', hrun⟩ := v
  have halike := blind_node n h data stable reversed ctx'.reversed
  rw [Alike, hrun] at halike
  cases hagain : pipeNode n ⟨data, stable, ctx'.reversed⟩ with
  | error e =>
    rw [hagain] at halike
    cases halike
  | ok ctx =>
    rw [hagain] at halike
    obtain ⟨hdata, hstable⟩ := Prod.mk.inj (Except.ok.inj halike)
    exact ⟨ctx, hagain, hdata.symm, hstable.symm⟩

/-- An array that is turned before its emission is emitted in source order. -/
theorem argumentOrder_eq_reverse_iff {ctx : PipeContext} (site : CallSite) :
    argumentOrder ctx site.argumentsId site.arguments = site.arguments.reverse ↔
      (site.argumentsId ∈ ctx.reversed → site.Symmetric) := by
  unfold argumentOrder CallSite.Symmetric
  split
  · next hmem => exact ⟨fun h _ => h.symm, fun h => (h hmem).symm⟩
  · next hmem => exact iff_of_true rfl fun h => absurd h hmem

theorem mem_calls {n : SyntaxNode} {callee : Expression} {id : ℕ} {arguments : List Expression}
    (h : n = .expression (.callExpression callee id arguments)) : ⟨id, arguments⟩ ∈ n.calls := by
  subst h
  rw [SyntaxNode.calls_eq]
  exact List.mem_append_left _ List.mem_cons_self

end Visit

namespace SharedProgram

variable {program : SharedProgram} {ctx : PipeContext}
  (hrun : pipeNode program.node .empty = .ok ctx)

/-- The emission of the program. -/
def visit : Visit := ⟨program.node, .empty, ctx, hrun⟩

/-- The first emission of an array has the arguments from the last one on, the
second one has them in source order. -/
theorem callsInOrder_iff : (visit hrun).CallsInOrder ↔
    ∀ site ∈ program.node.calls, ¬ site.Symmetric →
      program.node.occurrences site.argumentsId ≤ 1 := by
  constructor
  · intro horder site hsite hsymmetric
    by_contra hlt
    have hsecond : 1 < (visit hrun).node.occurrences site.argumentsId := Nat.lt_of_not_le hlt
    obtain ⟨u, hunder, ⟨callee, arguments, hcall⟩, k, hk, hone⟩ :=
      exists_occurrence (visit hrun) hsecond
    have hmem : (⟨site.argumentsId, arguments⟩ : CallSite) ∈ program.node.calls :=
      hunder.calls_subset (Visit.mem_calls hcall)
    have hsame : site.arguments = arguments :=
      program.coherent site hsite ⟨site.argumentsId, arguments⟩ hmem rfl
    subst hsame
    have hturned : site.argumentsId ∈ u.before.reversed := by
      rw [(hk List.nodup_nil).2, hone]
      exact iff_of_false List.not_mem_nil (by decide)
    exact hsymmetric ((Visit.argumentOrder_eq_reverse_iff site).mp
      (horder u hunder callee site.argumentsId site.arguments hcall) hturned)
  · intro hcount u hunder callee id arguments hcall
    have hmem := hunder.calls_subset (Visit.mem_calls hcall)
    refine (Visit.argumentOrder_eq_reverse_iff ⟨id, arguments⟩).mpr fun hturned => ?_
    by_contra hsymmetric
    -- no emission of the array comes before its only one
    obtain ⟨k, hk, hle⟩ := hunder.reverses
    have hone := hcount _ hmem hsymmetric
    have hthis : 0 < u.node.occurrences id := SyntaxNode.occurrences_pos (Visit.mem_calls hcall)
    have hle : k id + u.node.occurrences id ≤ program.node.occurrences id := hle id
    have hzero : k id = 0 := by
      have hone : program.node.occurrences id ≤ 1 := hone
      omega
    rw [(hk List.nodup_nil).2, hzero] at hturned
    exact absurd (hturned.mpr (by decide)) List.not_mem_nil

/-- A single emission leaves its array in reverse. -/
theorem symmetric_of_unchanged (horder : (visit hrun).CallsInOrder)
    (hunchanged : (visit hrun).TreeUnchanged) : ∀ site ∈ program.node.calls, site.Symmetric := by
  intro site hsite
  by_contra hsymmetric
  have hone := (callsInOrder_iff hrun).mp horder site hsite hsymmetric
  have hpos := SyntaxNode.occurrences_pos hsite
  have hcount : program.node.occurrences site.argumentsId = 1 := by omega
  have hturned : site.argumentsId ∈ (visit hrun).after.reversed := by
    rw [((visit hrun).reverses List.nodup_nil).2]
    show _ ↔ Even (program.node.occurrences site.argumentsId)
    rw [hcount]
    exact iff_of_false List.not_mem_nil (by decide)
  have hstored := hunchanged site hsite
  rw [Visit.storedArguments, if_pos hturned] at hstored
  exact hsymmetric hstored

/-- **Code generation and repetition.**  All calls are emitted in order if and only
if every array that is not its own reverse is emitted at most once; the tree is left
as it was, and every node repeats, if and only if there is no such array. -/
theorem codeGeneration_iff :
    ((visit hrun).CallsInOrder ↔ ∀ site ∈ program.node.calls, ¬ site.Symmetric →
      program.node.occurrences site.argumentsId ≤ 1) ∧
    ((visit hrun).CallsInOrder ∧ (visit hrun).TreeUnchanged ∧
        (∀ u, (visit hrun).Under u → u.Repeats) ↔
      ∀ site ∈ program.node.calls, site.Symmetric) := by
  refine ⟨callsInOrder_iff hrun, ?_, ?_⟩
  · rintro ⟨horder, hunchanged, _⟩
    exact symmetric_of_unchanged hrun horder hunchanged
  · intro hsymmetric
    refine ⟨?_, ?_, ?_⟩
    · exact (callsInOrder_iff hrun).mpr fun site hsite h => absurd (hsymmetric site hsite) h
    · intro site hsite
      rw [Visit.storedArguments]
      split
      · exact hsymmetric site hsite
      · rfl
    · intro u hunder
      exact Visit.repeats_of_symmetric fun site hsite =>
        hsymmetric site (hunder.calls_subset hsite)

end SharedProgram

/-! ## A compound assignment to a member of a call -/

/-- `this(null, true).x` -/
def memberOfCall : AssignmentTarget :=
  .memberExpression (.callExpression .thisExpression 0 [.nullLiteral, .booleanLiteral true])
    (.identifier (jsString "x")) false

theorem addTo_memberOfCall : assignmentExpression "+=" memberOfCall .nullLiteral =
    .assignmentExpression true memberOfCall
      (.binaryExpression .plus memberOfCall.toExpression .nullLiteral) := rfl

/-- The array of the call is emitted with the read and with the write. -/
theorem calls_addTo :
    (SyntaxNode.program [.expressionStatement
      (assignmentExpression "+=" memberOfCall .nullLiteral)]).calls =
      [⟨0, [.nullLiteral, .booleanLiteral true]⟩, ⟨0, [.nullLiteral, .booleanLiteral true]⟩] := by
  rw [addTo_memberOfCall]
  simp only [SyntaxNode.calls_eq (.program _), SyntaxNode.calls_eq (.item _),
    SyntaxNode.calls_eq (.statement _), SyntaxNode.calls_expression, SyntaxNode.visited,
    SyntaxNode.children, SyntaxNode.ownCalls, Statement.children, List.flatMap_cons,
    List.flatMap_nil, List.map_cons, List.map_nil, List.nil_append, List.append_nil,
    Expression.children, AssignmentTarget.children, calleeChildren, memberChildren,
    AssignmentTarget.toExpression, memberOfCall, Expression.isSuper, if_false, Bool.false_eq_true,
    List.cons_append]

/-- `this(null, true).x += null` -/
def addToCall : SharedProgram where
  body := [.expressionStatement (assignmentExpression "+=" memberOfCall .nullLiteral)]
  coherent := by
    simp [calls_addTo]

theorem addToCall_out_of_order :
    ¬ ∀ (program : SharedProgram) (ctx : PipeContext)
        (hrun : pipeNode program.node .empty = .ok ctx),
      (SharedProgram.visit hrun).CallsInOrder := by
  intro hclaim
  obtain ⟨ctx, hrun⟩ : ∃ ctx, pipeNode addToCall.node .empty = .ok ctx := ⟨_, rfl⟩
  have hcalls : addToCall.node.calls = _ := calls_addTo
  have horder := (SharedProgram.callsInOrder_iff hrun).mp (hclaim addToCall ctx hrun)
  simp only [SyntaxNode.occurrences, hcalls] at horder
  simp [CallSite.Symmetric] at horder

/-! ## One call -/

theorem calls_callOnce :
    (SyntaxNode.program [.expressionStatement
      (.callExpression .thisExpression 0 [.nullLiteral, .booleanLiteral true])]).calls =
      [⟨0, [.nullLiteral, .booleanLiteral true]⟩] := by
  simp only [SyntaxNode.calls_eq (.program _), SyntaxNode.calls_eq (.item _),
    SyntaxNode.calls_eq (.statement _), SyntaxNode.calls_expression, SyntaxNode.visited,
    SyntaxNode.children, SyntaxNode.ownCalls, Statement.children, List.flatMap_cons,
    List.flatMap_nil, List.map_cons, List.map_nil, List.nil_append, List.append_nil,
    Expression.children, calleeChildren, List.cons_append]

/-- `this(null, true)` -/
def callOnce : SharedProgram where
  body := [.expressionStatement
    (.callExpression .thisExpression 0 [.nullLiteral, .booleanLiteral true])]
  coherent := by
    simp [calls_callOnce]

theorem callOnce_in_order : ∃ (ctx : PipeContext) (hrun : pipeNode callOnce.node .empty = .ok ctx),
    (SharedProgram.visit hrun).CallsInOrder := by
  obtain ⟨ctx, hrun⟩ : ∃ ctx, pipeNode callOnce.node .empty = .ok ctx := ⟨_, rfl⟩
  have hcalls : callOnce.node.calls = _ := calls_callOnce
  refine ⟨ctx, hrun, (SharedProgram.codeGeneration_iff hrun).1.mpr fun site _ _ => ?_⟩
  rw [SyntaxNode.occurrences, hcalls]
  exact List.count_le_length

end AtomixJS.Compiler
