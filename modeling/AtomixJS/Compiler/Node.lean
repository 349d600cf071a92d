import AtomixJS.Compiler.Pipe

/-!
# The nodes that pipe visits

`pipeNode` dispatches on the type of a node.  `SyntaxNode` is a node of any
sort; an item is a statement together with the `POP` that `Program` and
`BlockStatement` add behind a function declaration.  The children of a node are
the nodes it passes to `pipeNode`.
-/

namespace AtomixJS.Compiler

inductive SyntaxNode
  | program (body : List Statement)
  | expression (expression : Expression)
  | function (function : FunctionNode)
  | block (block : Block)
  | item (item : Statement)
  | statement (statement : Statement)
  | declaration (declaration : Declaration)
  | declarator (declarator : Declarator)

/-- What a program or a block emits for a statement. -/
def pipeItem (item : Statement) (ctx : PipeContext) : Except String PipeContext := do
  let ctx ← pipeStatement item ctx
  pure (if item.isFunctionDeclaration then ctx.addInstruction .pop else ctx)

def pipeNode : SyntaxNode → PipeContext → Except String PipeContext
  | .program body => beginPipe body
  | .expression expression => pipeExpression expression
  | .function function => pipeFunction function
  | .block block => pipeBlock block
  | .item item => pipeItem item
  | .statement statement => pipeStatement statement
  | .declaration declaration => pipeDeclaration declaration
  | .declarator declarator => pipeDeclarator declarator

/-! ## Children -/

def Expression.isSuper : Expression → Bool
  | .super _ => true
  | _ => false

/-- The children of a member expression: `super` is not visited, and neither is
a property that is only a name. -/
def memberChildren (object property : Expression) (computed : Bool) : List SyntaxNode :=
  (if object.isSuper then [] else [.expression object]) ++
    if computed then [.expression property] else []

def calleeChildren : Expression → List SyntaxNode
  | .memberExpression object property computed => memberChildren object property computed
  | callee => [.expression callee]

def Property.children : Property → List SyntaxNode
  | .objectProperty (some _) value => [.expression value]
  | _ => []

def AssignmentTarget.children : AssignmentTarget → List SyntaxNode
  | .memberExpression object (.identifier _) false => [.expression object]
  | .memberExpression object property _ => [.expression object, .expression property]
  | .identifier _ | .pattern => []

def Expression.children : Expression → List SyntaxNode
  | .binaryExpression _ left right => [.expression left, .expression right]
  | .unaryExpression _ argument => [.expression argument]
  | .callExpression callee _ arguments => arguments.map .expression ++ calleeChildren callee
  | .objectExpression properties => properties.flatMap Property.children
  | .arrayExpression elements => elements.filterMap (Option.map .expression)
  | .memberExpression object property computed => memberChildren object property computed
  -- a pattern on the left is ignored together with what is assigned
  | .assignmentExpression _ .pattern _ => []
  | .assignmentExpression _ left right => .expression right :: left.children
  | .functionExpression function => [.function function]
  | _ => []

def Declaration.children : Declaration → List SyntaxNode
  | .variableDeclaration declarations => declarations.map .declarator
  | .functionDeclaration function => [.function function]
  | .other _ => []

def Specifier.children : Specifier → List SyntaxNode
  | .exportSpecifier binding _ => [.expression binding]
  | _ => []

/-- What a specifier visits, where `again` is the declaration. -/
def Specifier.visited (again : List SyntaxNode) : Specifier → List SyntaxNode
  | .exportDefaultSpecifier => again
  | specifier => specifier.children

def Statement.children : Statement → List SyntaxNode
  | .expressionStatement expression => [.expression expression]
  | .declaration node => [.declaration node]
  | .blockStatement block => [.block block]
  | .returnStatement argument => argument.toList.map .expression
  | .ifStatement test consequent alternate =>
    .expression test :: .statement consequent :: alternate.toList.map .statement
  | .whileStatement test body => [.expression test, .statement body]
  | .exportNamedDeclaration node specifiers =>
    node.toList.map .declaration ++ specifiers.flatMap Specifier.children
  | .exportDefaultDeclaration (.expression node) => [.expression node]
  | .exportDefaultDeclaration (.declaration node) => [.declaration node]
  | .other _ => []

namespace SyntaxNode

def children : SyntaxNode → List SyntaxNode
  | .program body => body.map .item
  | .expression node => node.children
  | .function (.mk _ _ body) => [.block body]
  | .block (.mk _ body) => body.map .item
  | .item node => [.statement node]
  | .statement node => node.children
  | .declaration node => node.children
  | .declarator (.mk _ init) => init.toList.map .expression

/-- The nodes that are visited, each as often as it is: every default specifier
visits the declaration it belongs to once more. -/
def visited : SyntaxNode → List SyntaxNode
  | .statement (.exportNamedDeclaration (some node) specifiers) =>
    .declaration node :: specifiers.flatMap (Specifier.visited [.declaration node])
  | n => n.children

/-- A node and the nodes it visits, at any depth. -/
inductive Within : SyntaxNode → SyntaxNode → Prop
  | self (n : SyntaxNode) : Within n n
  | child {n c m : SyntaxNode} : c ∈ n.children → Within c m → Within n m

theorem Within.snoc {n m c : SyntaxNode} (h : Within n m) (hc : c ∈ m.children) : Within n c := by
  induction h with
  | self n => exact .child hc (.self c)
  | child hn _ ih => exact .child hn (ih hc)

theorem mem_visited {n c : SyntaxNode} : c ∈ n.visited ↔ c ∈ n.children := by
  unfold visited
  split
  · next node specifiers =>
    have hspecifier : ∀ specifier : Specifier, c ∈ specifier.visited [.declaration node] →
        c = .declaration node ∨ c ∈ specifier.children := by
      intro specifier h
      cases specifier with
      | exportDefaultSpecifier => exact .inl (List.mem_singleton.mp h)
      | _ => exact .inr h
    have hchildren : ∀ specifier : Specifier, c ∈ specifier.children →
        c ∈ specifier.visited [.declaration node] := by
      intro specifier h
      cases specifier with
      | exportDefaultSpecifier => exact absurd h List.not_mem_nil
      | _ => exact h
    simp only [children, Statement.children, Option.toList, List.map_cons, List.map_nil,
      List.mem_cons, List.mem_append, List.mem_flatMap, List.not_mem_nil, or_false]
    constructor
    · rintro (h | ⟨specifier, hmem, h⟩)
      · exact .inl h
      · exact (hspecifier specifier h).imp_right fun h => ⟨specifier, hmem, h⟩
    · rintro (h | ⟨specifier, hmem, h⟩)
      · exact .inl h
      · exact .inr ⟨specifier, hmem, hchildren specifier h⟩
  · exact Iff.rfl

/-- Some context takes the node without an error. -/
def Accepted (n : SyntaxNode) : Prop := ∃ ctx ctx', pipeNode n ctx = .ok ctx'

/-! ## Induction on nodes -/

/-- An item is larger than its statement. -/
noncomputable def size : SyntaxNode → ℕ
  | .program body => 2 * sizeOf body
  | .expression node => 2 * sizeOf node
  | .function node => 2 * sizeOf node
  | .block node => 2 * sizeOf node
  | .item node => 2 * sizeOf node + 1
  | .statement node => 2 * sizeOf node
  | .declaration node => 2 * sizeOf node
  | .declarator node => 2 * sizeOf node

theorem size_memberChildren {object property : Expression} {computed : Bool} {c : SyntaxNode}
    (h : c ∈ memberChildren object property computed) :
    c.size ≤ 2 * (sizeOf object + sizeOf property) := by
  unfold memberChildren at h
  rcases List.mem_append.mp h with h | h
  · split at h
    · exact absurd h List.not_mem_nil
    · obtain rfl := List.mem_singleton.mp h
      simp only [size]
      omega
  · split at h
    · obtain rfl := List.mem_singleton.mp h
      simp only [size]
      omega
    · exact absurd h List.not_mem_nil

theorem size_calleeChildren {callee : Expression} {c : SyntaxNode}
    (h : c ∈ calleeChildren callee) : c.size ≤ 2 * sizeOf callee := by
  cases callee with
  | memberExpression object property computed =>
    have hle := size_memberChildren h
    simp only [Expression.memberExpression.sizeOf_spec]
    omega
  | _ =>
    obtain rfl := List.mem_singleton.mp h
    exact Nat.le_refl _

theorem size_target_child {target : AssignmentTarget} {c : SyntaxNode} (h : c ∈ target.children) :
    c.size < 2 * sizeOf target := by
  unfold AssignmentTarget.children at h
  split at h
  · obtain rfl := List.mem_singleton.mp h
    simp only [size, AssignmentTarget.memberExpression.sizeOf_spec]
    omega
  · simp only [List.mem_cons, List.not_mem_nil, or_false] at h
    rcases h with rfl | rfl
    all_goals
      simp only [size, AssignmentTarget.memberExpression.sizeOf_spec]
      omega
  · exact absurd h List.not_mem_nil
  · exact absurd h List.not_mem_nil

theorem size_expression_child {e : Expression} {c : SyntaxNode} (h : c ∈ e.children) :
    c.size < 2 * sizeOf e := by
  cases e with
  | binaryExpression operator left right =>
    simp only [Expression.children, List.mem_cons, List.not_mem_nil, or_false] at h
    rcases h with rfl | rfl
    all_goals
      simp only [size, Expression.binaryExpression.sizeOf_spec]
      omega
  | unaryExpression operator argument =>
    obtain rfl := List.mem_singleton.mp h
    simp only [size, Expression.unaryExpression.sizeOf_spec]
    omega
  | callExpression callee id arguments =>
    rw [Expression.callExpression.sizeOf_spec]
    rcases List.mem_append.mp h with h | h
    · obtain ⟨e, he, rfl⟩ := List.mem_map.mp h
      have hlt := List.sizeOf_lt_of_mem he
      simp only [size]
      omega
    · have hle := size_calleeChildren h
      omega
  | objectExpression properties =>
    obtain ⟨property, hproperty, hc⟩ := List.mem_flatMap.mp h
    have hlt := List.sizeOf_lt_of_mem hproperty
    match property with
    | .objectProperty (some key) value =>
      obtain rfl := List.mem_singleton.mp hc
      simp only [size, Expression.objectExpression.sizeOf_spec]
      simp only [Property.objectProperty.sizeOf_spec] at hlt
      omega
    | .objectProperty none value | .objectMethod _ | .spreadElement =>
      exact absurd hc List.not_mem_nil
  | arrayExpression elements =>
    obtain ⟨element, helement, hc⟩ := List.mem_filterMap.mp h
    obtain ⟨e, rfl, rfl⟩ := Option.map_eq_some_iff.mp hc
    have hlt := List.sizeOf_lt_of_mem helement
    simp only [size, Expression.arrayExpression.sizeOf_spec]
    simp only [Option.some.sizeOf_spec] at hlt
    omega
  | memberExpression object property computed =>
    have hle := size_memberChildren h
    simp only [Expression.memberExpression.sizeOf_spec]
    omega
  | assignmentExpression simple left right =>
    rw [Expression.assignmentExpression.sizeOf_spec]
    cases left with
    | pattern => exact absurd h List.not_mem_nil
    | _ =>
      rcases List.mem_cons.mp h with rfl | h
      · simp only [size]
        omega
      · have hlt := size_target_child h
        omega
  | functionExpression function =>
    obtain rfl := List.mem_singleton.mp h
    simp only [size, Expression.functionExpression.sizeOf_spec]
    omega
  | _ => exact absurd h List.not_mem_nil

theorem size_declaration_child {d : Declaration} {c : SyntaxNode} (h : c ∈ d.children) :
    c.size < 2 * sizeOf d := by
  cases d with
  | variableDeclaration declarations =>
    obtain ⟨declarator, hmem, rfl⟩ := List.mem_map.mp h
    have hlt := List.sizeOf_lt_of_mem hmem
    simp only [size, Declaration.variableDeclaration.sizeOf_spec]
    omega
  | functionDeclaration function =>
    obtain rfl := List.mem_singleton.mp h
    simp only [size, Declaration.functionDeclaration.sizeOf_spec]
    omega
  | other type => exact absurd h List.not_mem_nil

theorem size_statement_child {s : Statement} {c : SyntaxNode} (h : c ∈ s.children) :
    c.size < 2 * sizeOf s := by
  match s with
  | .expressionStatement e =>
    obtain rfl := List.mem_singleton.mp h
    simp only [size, Statement.expressionStatement.sizeOf_spec]
    omega
  | .declaration d =>
    obtain rfl := List.mem_singleton.mp h
    simp only [size, Statement.declaration.sizeOf_spec]
    omega
  | .blockStatement b =>
    obtain rfl := List.mem_singleton.mp h
    simp only [size, Statement.blockStatement.sizeOf_spec]
    omega
  | .returnStatement none => exact absurd h List.not_mem_nil
  | .returnStatement (some e) =>
    obtain rfl := List.mem_singleton.mp h
    simp only [size, Statement.returnStatement.sizeOf_spec, Option.some.sizeOf_spec]
    omega
  | .ifStatement test consequent none =>
    simp only [Statement.children, Option.toList, List.map_nil, List.mem_cons, List.not_mem_nil,
      or_false] at h
    rcases h with rfl | rfl
    all_goals
      simp only [size, Statement.ifStatement.sizeOf_spec]
      omega
  | .ifStatement test consequent (some alternate) =>
    simp only [Statement.children, Option.toList, List.map_cons, List.map_nil, List.mem_cons,
      List.not_mem_nil, or_false] at h
    rcases h with rfl | rfl | rfl
    all_goals
      simp only [size, Statement.ifStatement.sizeOf_spec, Option.some.sizeOf_spec]
      omega
  | .whileStatement test body =>
    simp only [Statement.children, List.mem_cons, List.not_mem_nil, or_false] at h
    rcases h with rfl | rfl
    all_goals
      simp only [size, Statement.whileStatement.sizeOf_spec]
      omega
  | .exportNamedDeclaration d specifiers =>
    rw [Statement.exportNamedDeclaration.sizeOf_spec]
    rcases List.mem_append.mp h with h | h
    · obtain ⟨d, hd, rfl⟩ := List.mem_map.mp h
      obtain rfl := Option.mem_toList.mp hd
      simp only [size, Option.some.sizeOf_spec]
      omega
    · obtain ⟨specifier, hspecifier, hc⟩ := List.mem_flatMap.mp h
      have hlt := List.sizeOf_lt_of_mem hspecifier
      cases specifier with
      | exportSpecifier binding exported =>
        obtain rfl := List.mem_singleton.mp hc
        simp only [size]
        simp only [Specifier.exportSpecifier.sizeOf_spec] at hlt
        omega
      | _ => exact absurd hc List.not_mem_nil
  | .exportDefaultDeclaration (.expression e) =>
    obtain rfl := List.mem_singleton.mp h
    simp only [size, Statement.exportDefaultDeclaration.sizeOf_spec,
      DefaultDeclaration.expression.sizeOf_spec]
    omega
  | .exportDefaultDeclaration (.declaration d) =>
    obtain rfl := List.mem_singleton.mp h
    simp only [size, Statement.exportDefaultDeclaration.sizeOf_spec,
      DefaultDeclaration.declaration.sizeOf_spec]
    omega
  | .other type => exact absurd h List.not_mem_nil

theorem size_child {n c : SyntaxNode} (h : c ∈ n.children) : c.size < n.size := by
  have hitems : ∀ body : List Statement, c ∈ body.map item → c.size < 2 * sizeOf body := by
    intro body h
    obtain ⟨s, hs, rfl⟩ := List.mem_map.mp h
    have hlt := List.sizeOf_lt_of_mem hs
    simp only [size]
    omega
  cases n with
  | program body => exact hitems body h
  | expression e => exact size_expression_child h
  | function f =>
    obtain ⟨id, params, body⟩ := f
    obtain rfl := List.mem_singleton.mp h
    simp only [size, FunctionNode.mk.sizeOf_spec]
    omega
  | block b =>
    obtain ⟨isVirtual, body⟩ := b
    have hlt := hitems body h
    show c.size < 2 * sizeOf (Block.mk isVirtual body)
    rw [Block.mk.sizeOf_spec]
    omega
  | item s =>
    obtain rfl := List.mem_singleton.mp h
    exact Nat.lt_succ_self _
  | statement s => exact size_statement_child h
  | declaration d => exact size_declaration_child h
  | declarator d =>
    obtain ⟨id, init⟩ := d
    obtain ⟨e, he, rfl⟩ := List.mem_map.mp h
    obtain rfl := Option.mem_toList.mp he
    simp only [size, Declarator.mk.sizeOf_spec, Option.some.sizeOf_spec]
    omega

/-- What holds of a node when it holds of its children holds of every node. -/
theorem induction {P : SyntaxNode → Prop} (h : ∀ n, (∀ c ∈ n.children, P c) → P n)
    (n : SyntaxNode) : P n := by
  have hsize : ∀ k (n : SyntaxNode), n.size < k → P n := by
    intro k
    induction k with
    | zero => exact fun n hn => absurd hn (Nat.not_lt_zero _)
    | succ k ih =>
      intro n hn
      exact h n fun c hc => ih c (Nat.lt_of_lt_of_le (size_child hc) (Nat.le_of_lt_succ hn))
  exact hsize _ n (Nat.lt_succ_self _)

end SyntaxNode

/-! ## Parts of emissions -/

theorem pipeItems_cons (item : Statement) (items : List Statement) (ctx : PipeContext) :
    pipeItems (item :: items) ctx = pipeItem item ctx >>= pipeItems items := by
  unfold pipeItem
  rw [bind_assoc]
  rfl

theorem pipeMemberObject_of_not_super {object : Expression} (h : object.isSuper = false)
    (pipeObject : PipeContext → Except String PipeContext) (doubleObject : Bool)
    (ctx : PipeContext) :
    pipeMemberObject object pipeObject doubleObject ctx = (do
      let ctx ← pipeObject ctx
      pure (if doubleObject then ctx.addInstruction .dup else ctx)) := by
  cases object with
  | super extra => cases h
  | _ => rfl

/-- The name of a property that is not computed. -/
def staticName (property : Expression) (computed : Bool) : Option JSString :=
  match computed, property with
  | false, .identifier name => some name
  | _, _ => none

theorem staticName_eq_some {property : Expression} {computed : Bool} {name : JSString} :
    staticName property computed = some name ↔ computed = false ∧ property = .identifier name := by
  cases computed <;> cases property <;> simp [staticName]

/-- The callee of a call, which is not read if it is a member. -/
def pipeCallee (callee : Expression) (ctx : PipeContext) : Except String PipeContext :=
  match callee with
  | .memberExpression object property computed =>
    pipeMemberExpression object property (pipeExpression object) (pipeExpression property)
      computed true ctx
  | callee => pipeExpression callee (ctx.addInstruction .ldUndf)

end AtomixJS.Compiler
