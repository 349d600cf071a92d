import AtomixJS.Compiler.Scopes
import AtomixJS.Results.ClassMembers

/-!
# Static fields and static blocks

`transformClass` collects the static fields and behind them the static blocks, and makes
them statements of the function around the constructor.  So a block that stands in front
of a field runs behind it, `this` is that of a plain call, and what the blocks declare
is in one scope with the class.
-/

namespace AtomixJS.Compiler

open SyntaxNode (Declares)

/-! ## Pieces -/

/-- What is evaluated when a class is made: the initialiser of a static field or a static
block that is not empty. -/
inductive StaticPiece
  | field (property : ClassProperty)
  | block (body : List Statement)

namespace StaticPiece

def isField : StaticPiece → Bool
  | .field _ => true
  | .block _ => false

/-- The statements of a piece. -/
def statements (identifier : JSString) : StaticPiece → List Statement
  | .field property => [property.install (.identifier identifier)]
  | .block body => body

/-- The nodes of a piece in the source. -/
def nodes : StaticPiece → List SyntaxNode
  | .field property => [.expression property.initializer]
  | .block body => body.map .item

end StaticPiece

def ClassMember.staticPiece? : ClassMember → Option StaticPiece
  | .classProperty property => if property.hasValue true then some (.field property) else none
  | .staticBlock body => if body = [] then none else some (.block body)
  | .classMethod _ | .other _ => none

/-- The pieces in textual order. -/
def ClassNode.staticPieces (node : ClassNode) : List StaticPiece :=
  node.body.filterMap ClassMember.staticPiece?

/-- `this` is used, not counting the functions in a node, which have their own. -/
inductive SyntaxNode.UsesThis : SyntaxNode → Prop
  | this : UsesThis (.expression .thisExpression)
  /-- A method of `super` is called with `this`. -/
  | superMethod {extra : Option SuperExtra} {property : Expression} {computed : Bool} {id : ℕ}
      {arguments : List Expression} : UsesThis (.expression
        (.callExpression (.memberExpression (.super extra) property computed) id arguments))
  | child {n c : SyntaxNode} : (∀ f, n ≠ .function f) → c ∈ n.children → UsesThis c → UsesThis n

def StaticPiece.UsesThis (piece : StaticPiece) : Prop := ∃ n ∈ piece.nodes, n.UsesThis

/-- The object that a call passes as `this`, or `none` for `undefined`. -/
def calledOn : Expression → Option Expression
  | .callExpression (.memberExpression object _ _) _ _ => some object
  | _ => none

/-! ## The order of the pieces -/

/-- What satisfies a condition in front of what does not. -/
theorem filter_append_filter_iff {α : Type} {p : α → Bool} {items : List α} :
    items.filter p ++ items.filter (!p ·) = items ↔
      items.Pairwise fun x y => p y = true → p x = true := by
  induction items with
  | nil => simp
  | cons x items ih =>
    rw [List.pairwise_cons, ← ih]
    cases hx : p x with
    | true => simp [hx]
    | false =>
      have hfirst : (x :: items).filter p = items.filter p := by simp [hx]
      have hsecond : (x :: items).filter (!p ·) = x :: items.filter (!p ·) := by simp [hx]
      rw [hfirst, hsecond]
      cases hfilter : items.filter p with
      | nil =>
        have hnone : ∀ y ∈ items, p y = false := by
          intro y hy
          have hnot := List.filter_eq_nil_iff.mp hfilter y hy
          simpa using hnot
        rw [List.nil_append, List.nil_append, List.cons_inj_right]
        constructor
        · exact fun h => ⟨fun y hy hpy => (Bool.false_ne_true ((hnone y hy).symm.trans hpy)).elim, h⟩
        · exact fun h => h.2
      | cons y rest =>
        have hy : y ∈ items.filter p := hfilter ▸ List.mem_cons_self
        obtain ⟨hmem, hpy⟩ := List.mem_filter.mp hy
        constructor
        · intro h
          obtain rfl := (List.cons.inj h).1
          rw [hpy] at hx
          cases hx
        · intro h
          cases h.1 y hmem hpy

variable {arrays : ClassArrays} {node : ClassNode} {identifier : JSString}

/-- The pieces in the order in which they are generated. -/
def ClassNode.generatedPieces (node : ClassNode) : List StaticPiece :=
  node.staticProperties.map .field ++ (node.staticBlocks.filter (· ≠ [])).map .block

theorem generatedPieces_eq : node.generatedPieces =
    node.staticPieces.filter StaticPiece.isField ++
      node.staticPieces.filter (!StaticPiece.isField ·) := by
  unfold ClassNode.generatedPieces ClassNode.staticProperties ClassNode.staticBlocks
    ClassNode.staticPieces
  rw [List.map_filterMap, List.filter_filterMap, List.filter_filterMap, List.filter_filterMap,
    List.map_filterMap]
  congr 1
  · refine List.filterMap_congr fun m _ => ?_
    cases m with
    | classProperty property =>
      by_cases hvalue : property.hasValue true = true
      · simp [ClassMember.property?, ClassMember.staticPiece?, hvalue, Option.filter, StaticPiece.isField]
      · simp [ClassMember.property?, ClassMember.staticPiece?, hvalue]
    | staticBlock block =>
      by_cases hempty : block = []
      · simp [ClassMember.property?, ClassMember.staticPiece?, hempty]
      · simp [ClassMember.property?, ClassMember.staticPiece?, hempty, Option.filter, StaticPiece.isField]
    | classMethod method => rfl
    | other type => rfl
  · refine List.filterMap_congr fun m _ => ?_
    cases m with
    | classProperty property =>
      by_cases hvalue : property.hasValue true = true
      · simp [ClassMember.staticBlock?, ClassMember.staticPiece?, hvalue, Option.filter, StaticPiece.isField]
      · simp [ClassMember.staticBlock?, ClassMember.staticPiece?, hvalue]
    | staticBlock block =>
      by_cases hempty : block = []
      · simp [ClassMember.staticBlock?, ClassMember.staticPiece?, hempty]
      · simp [ClassMember.staticBlock?, ClassMember.staticPiece?, hempty, Option.filter, StaticPiece.isField]
    | classMethod method => rfl
    | other type => rfl

/-- A static block is generated behind a field. -/
theorem generatedPieces_eq_staticPieces_iff : node.generatedPieces = node.staticPieces ↔
    node.staticPieces.Pairwise fun x y => y.isField = true → x.isField = true := by
  rw [generatedPieces_eq]
  exact filter_append_filter_iff

theorem flatMap_statements : node.generatedPieces.flatMap (StaticPiece.statements identifier) =
    node.staticProperties.map (ClassProperty.install (.identifier identifier)) ++
      node.staticBlocks.flatten := by
  have hflatten : ∀ blocks : List (List Statement),
      (blocks.filter (· ≠ [])).flatten = blocks.flatten := by
    intro blocks
    induction blocks with
    | nil => rfl
    | cons block blocks ih =>
      by_cases hempty : block = []
      · simpa [hempty] using ih
      · simpa [hempty] using ih
  rw [ClassNode.generatedPieces, List.flatMap_append, ← hflatten node.staticBlocks]
  congr 1
  · rw [List.flatMap_map, List.map_eq_flatMap]
    rfl
  · rw [List.flatMap_map, ← List.flatMap_id]
    rfl

namespace Generated

variable (g : Generated arrays node identifier)

/-- The statements in front of the pieces: the constructor, the links and the methods. -/
def front : List Statement :=
  [.declaration (.functionDeclaration (node.constructorFunction identifier g.fields))] ++
    g.extendsNodes ++
    [assignMember (memberOf (.identifier identifier) "prototype")
      (.identifier (jsString "constructor")) false (.identifier identifier)] ++
    node.methods.map (ClassMethod.install (memberOf (.identifier identifier) "prototype")) ++
    node.staticMethods.map (ClassMethod.install (.identifier identifier))

theorem body_eq : g.body = g.front ++
    node.generatedPieces.flatMap (StaticPiece.statements identifier) ++
      [.returnStatement (some (.identifier identifier))] := by
  rw [flatMap_statements, body, ClassNode.generatedBody, ClassNode.installers, front]
  simp only [List.append_assoc]

/-- The pieces of a class run as the source says. -/
structure RunsStatics : Prop where
  order : node.generatedPieces = node.staticPieces
  /-- The function that runs them is called on the class, if this can be seen. -/
  receiver : ∀ piece ∈ node.staticPieces, piece.UsesThis →
    calledOn g.call = some (.identifier identifier)
  /-- What a block declares is not in the scope of the whole class. -/
  isPrivate : ∀ block ∈ node.staticBlocks, ∀ name, (∃ item ∈ block, Declares (.item item) name) →
    name ∉ (SyntaxNode.block (.mk false g.body)).scopeNames

theorem mem_body {block : List Statement} (hblock : block ∈ node.staticBlocks) {item : Statement}
    (hitem : item ∈ block) : item ∈ g.body := by
  have hmem : item ∈ node.staticBlocks.flatten := List.mem_flatten_of_mem hblock hitem
  unfold body ClassNode.generatedBody
  simp only [List.mem_append]
  exact .inl (.inr hmem)

end Generated

/-- The static members that `transformClass` does justice to. -/
structure ClassNode.PlainStatics (node : ClassNode) : Prop where
  /-- No block that is not empty stands in front of a field with a value. -/
  order : node.staticPieces.Pairwise fun x y => y.isField = true → x.isField = true
  noThis : ∀ piece ∈ node.staticPieces, ¬ piece.UsesThis
  noNames : ∀ block ∈ node.staticBlocks, ∀ item ∈ block, ∀ name, ¬ Declares (.item item) name

/-- The function around the constructor is called like any other: on nothing. -/
theorem Generated.calledOn_call (g : Generated arrays node identifier) : calledOn g.call = none := rfl

theorem Generated.runsStatics_iff (g : Generated arrays node identifier) :
    g.RunsStatics ↔ node.PlainStatics := by
  constructor
  · intro h
    refine ⟨generatedPieces_eq_staticPieces_iff.mp h.order, fun piece hpiece hthis => ?_, ?_⟩
    · cases h.receiver piece hpiece hthis
    · intro block hblock item hitem name hdeclares
      exact h.isPrivate block hblock name ⟨item, hitem, hdeclares⟩
        ⟨item, g.mem_body hblock hitem, hdeclares⟩
  · intro h
    refine ⟨generatedPieces_eq_staticPieces_iff.mpr h.order, fun piece hpiece hthis => ?_, ?_⟩
    · exact absurd hthis (h.noThis piece hpiece)
    · rintro block hblock name ⟨item, hitem, hdeclares⟩
      exact absurd hdeclares (h.noNames block hblock item hitem name)

/-! ## Static initialisation -/

/-- The statements that `transformClass` makes of a class end in those of its static
fields and blocks.  These run in textual order, with `this` for the class and with
private declarations, exactly when no block stands in front of a field, none of them
uses `this`, and no block declares a name. -/
theorem statics_run_iff {call : Expression} (h : transformClass arrays node identifier = .ok call) :
    ∃ g : Generated arrays node identifier, g.call = call ∧
      g.body = g.front ++ node.generatedPieces.flatMap (StaticPiece.statements identifier) ++
        [.returnStatement (some (.identifier identifier))] ∧
      (g.RunsStatics ↔ node.PlainStatics) := by
  obtain ⟨g, hcall⟩ := transformClass_eq_ok.mp h
  exact ⟨g, hcall, g.body_eq, g.runsStatics_iff⟩

/-- `static x = null;` -/
private def nullField : ClassMember :=
  .classProperty ⟨true, .identifier (jsString "x"), false, some .nullLiteral⟩

/-- `static { f(); }` -/
private def callBlock : ClassMember :=
  .staticBlock [.expressionStatement (.callExpression (.identifier (jsString "f")) 3 [])]

/-- A class `C` with these members. -/
private def classOf (members : List ClassMember) : ClassNode := ⟨some (jsString "C"), none, members⟩

private def staticsArrays : ClassArrays := ⟨0, 1, 2⟩

private def generatedOf (members : List ClassMember)
    (h : (classOf members).properties.mapM ClassProperty.installInstance = .ok []) :
    Generated staticsArrays (classOf members) (jsString "C") := ⟨[], [], h, rfl⟩

/-- A class with one static field. -/
theorem statics_run_field : ∃ g : Generated staticsArrays (classOf [nullField]) (jsString "C"),
    g.RunsStatics := by
  obtain ⟨g, -, -, hiff⟩ :=
    statics_run_iff (transformClass_eq_ok.mpr ⟨generatedOf [nullField] rfl, rfl⟩)
  refine ⟨g, hiff.mpr ⟨List.pairwise_singleton _ _, fun piece hpiece hthis => ?_, ?_⟩⟩
  · obtain rfl := List.mem_singleton.mp hpiece
    obtain ⟨n, hn, hthis⟩ := hthis
    obtain rfl := List.mem_singleton.mp hn
    cases hthis with
    | child _ hc => exact absurd hc List.not_mem_nil
  · exact fun block hblock => absurd hblock List.not_mem_nil

/-- `class C { static { f(); } static x = null; }` is compiled, and `f` is called when
`C.x` is there. -/
theorem statics_run_late :
    ∃ call ctx, transformClass staticsArrays (classOf [callBlock, nullField]) (jsString "C") =
        .ok call ∧
      pipeExpression call PipeContext.empty = .ok ctx ∧
      ¬ ∃ g : Generated staticsArrays (classOf [callBlock, nullField]) (jsString "C"),
        g.call = call ∧ g.RunsStatics := by
  refine ⟨(generatedOf [callBlock, nullField] rfl).call, _,
    transformClass_eq_ok.mpr ⟨_, rfl⟩, rfl, ?_⟩
  rintro ⟨g, -, h⟩
  have hpieces := congrArg (List.map StaticPiece.isField) h.order
  cases hpieces

end AtomixJS.Compiler
