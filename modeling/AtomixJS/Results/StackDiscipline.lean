import AtomixJS.Compiler.Discipline

/-!
# The stack discipline of generated code

What `pipe` emits for an expression should leave one value on every path, and
what it emits for a statement none.  It does so for every node but five kinds:
an assignment to a pattern emits nothing, a declarator with an object pattern
leaves the object, a function declaration that is a branch of an `if` or the
body of a `while` leaves the function, and two exports of a variable declaration
take a value that nothing left.
-/

namespace AtomixJS.Compiler

namespace SyntaxNode

/-- How many values a node leaves.  A function declaration leaves the function,
which the `POP` of the item takes off. -/
def height : SyntaxNode → ℕ
  | .expression _ | .function _ => 1
  | .declaration d => d.height
  | .statement s => if s.isFunctionDeclaration then 1 else 0
  | .program _ | .block _ | .item _ | .declarator _ => 0

/-- On every path, the emitted instructions never go below the height at which
they are entered, are left only at their end and with the height of the node,
and every instruction has one height.  The body of a function leaves nothing
where it ends. -/
structure Disciplined (n : SyntaxNode) : Prop where
  region : ∀ ⦃ctx ctx'⦄, pipeNode n ctx = .ok ctx' → Region ctx ctx' 0 n.height
  body : ∀ f, n = .function f → ∀ ⦃ctx ctx'⦄, pipeFunction f ctx = .ok ctx' →
    Flow.Balanced (graph ctx'.code) (ctx.code.length + 1) ctx'.code.length 0 0

/-- The kinds of nodes that the code generator gets wrong. -/
def leaks : SyntaxNode → Bool
  | .expression e => e.assignsPattern
  | .declarator (.mk (.objectPattern _) _) => true
  | .statement (.ifStatement _ consequent none) => consequent.isFunctionDeclaration
  | .statement (.ifStatement _ consequent (some alternate)) =>
    consequent.isFunctionDeclaration || alternate.isFunctionDeclaration
  | .statement (.whileStatement _ body) => body.isFunctionDeclaration
  | .statement (.exportNamedDeclaration (some d) specifiers) =>
    d.height == 0 && specifiers.any fun
      | .exportDefaultSpecifier => true
      | _ => false
  | .statement (.exportDefaultDeclaration (.declaration d)) => d.height == 0
  | _ => false

/-- What the proof shows of a node: that its code can also be passed, where the
code around it needs that. -/
def Sound : SyntaxNode → Prop
  | .program body => Keeps (beginPipe body) 0 0
  | .expression e => Raises (pipeExpression e) 0 1
  | .function f => ∀ ⦃ctx ctx'⦄, pipeFunction f ctx = .ok ctx' → Passes ctx ctx' 0 1 ∧
    Flow.Balanced (graph ctx'.code) (ctx.code.length + 1) ctx'.code.length 0 0
  | .block b => Keeps (pipeBlock b) 0 0
  | .item s => Keeps (pipeItem s) 0 0
  | .statement s => Keeps (pipeStatement s) 0 (if s.isFunctionDeclaration then 1 else 0) ∧
    (s.isFunctionDeclaration = true → Raises (pipeStatement s) 0 1)
  | .declaration d => Raises (pipeDeclaration d) 0 d.height
  | .declarator d => Raises (pipeDeclarator d) 0 0

theorem Sound.disciplined {n : SyntaxNode} (h : Sound n) : Disciplined n := by
  constructor
  · intro ctx ctx' hrun
    cases n with
    | program body => exact (h hrun).balanced
    | expression e => exact (h hrun).emits.balanced
    | function f => exact (h hrun).1.emits.balanced
    | block b => exact (h hrun).balanced
    | item s => exact (h hrun).balanced
    | statement s => exact (h.1 hrun).balanced
    | declaration d => exact (h hrun).emits.balanced
    | declarator d => exact (h hrun).emits.balanced
  · rintro f rfl ctx ctx' hrun
    exact (h hrun).2

end SyntaxNode

open SyntaxNode (Sound Disciplined Accepted Within)

/-! ## Nodes that keep the discipline -/

theorem sound_expression {e : Expression} (h : ∀ c ∈ e.children, Sound c)
    (hleaks : e.assignsPattern = false) : Sound (.expression e) := by
  apply raises_expression
  · exact fun e' he => h (.expression e') he
  · exact fun f hf ctx ctx' hrun => (h (.function f) hf hrun).1
  · exact hleaks

theorem sound_item {s : Statement} (h : Sound (.statement s)) : Sound (.item s) := by
  intro ctx ctx' hrun
  unfold pipeItem at hrun
  simp only [Fallible.bind_eq_ok, Fallible.pure_eq_ok] at hrun
  obtain ⟨ctx₁, hs, rfl⟩ := hrun
  have hemits := h.1 hs
  cases hfunction : s.isFunctionDeclaration with
  | false =>
    rw [hfunction] at hemits
    exact hemits
  | true =>
    rw [hfunction] at hemits
    have hpop : Passes ctx₁ (ctx₁.addInstruction .pop) 1 0 :=
      passes_add (fun _ => rfl) (Nat.le_refl 1) rfl
    exact hemits.trans hpop.emits

theorem sound_declaration {d : Declaration} (h : ∀ c ∈ d.children, Sound c) :
    Sound (.declaration d) := by
  cases d with
  | variableDeclaration declarations =>
    exact raises_declarators fun d hd => h (.declarator d) (List.mem_map.mpr ⟨d, hd, rfl⟩)
  | functionDeclaration f =>
    exact fun ctx ctx' hrun => (h (.function f) (List.mem_singleton_self _) hrun).1
  | other type =>
    intro ctx ctx' hrun
    cases hrun

theorem Statement.height_declaration (d : Declaration) :
    (if (Statement.declaration d).isFunctionDeclaration then 1 else 0) = d.height := by
  cases d <;> rfl

theorem sound_statement {s : Statement} (h : ∀ c ∈ s.children, Sound c)
    (hleaks : (SyntaxNode.statement s).leaks = false) : Sound (.statement s) := by
  -- every statement but a function declaration leaves nothing
  have hother : s.isFunctionDeclaration = false → Keeps (pipeStatement s) 0 0 →
      Sound (.statement s) := by
    intro hfunction hkeeps
    refine ⟨?_, fun htrue => ?_⟩
    · rw [hfunction]
      exact hkeeps
    · rw [hfunction] at htrue
      cases htrue
  match s with
  | .declaration d =>
    have hd : Raises (pipeDeclaration d) 0 d.height :=
      h (.declaration d) (List.mem_singleton_self _)
    refine ⟨?_, fun htrue => ?_⟩
    · rw [Statement.height_declaration]
      exact hd.keeps
    · have hheight := Statement.height_declaration d
      rw [if_pos htrue] at hheight
      rw [← hheight] at hd
      exact hd
  | .expressionStatement e =>
    apply hother rfl
    intro ctx ctx' hrun
    simp only [pipeStatement, Fallible.bind_eq_ok, Fallible.pure_eq_ok] at hrun
    obtain ⟨ctx₁, he, rfl⟩ := hrun
    have hpop : Passes ctx₁ (ctx₁.addInstruction .pop) 1 0 :=
      passes_add (fun _ => rfl) (Nat.le_refl 1) rfl
    exact ((h (.expression e) (List.mem_singleton_self _) he).trans hpop).emits
  | .blockStatement b => exact hother rfl (h (.block b) (List.mem_singleton_self _))
  | .returnStatement none =>
    apply hother rfl
    intro ctx ctx' hrun
    obtain rfl := Except.ok.inj hrun
    exact emits_return ctx 0 0
  | .returnStatement (some e) =>
    apply hother rfl
    intro ctx ctx' hrun
    simp only [pipeStatement, Fallible.bind_eq_ok, Fallible.pure_eq_ok] at hrun
    obtain ⟨ctx₁, he, rfl⟩ := hrun
    exact (h (.expression e) (List.mem_singleton_self _) he).emits.trans (emits_return ctx₁ 1 0)
  | .ifStatement test consequent none =>
    have hthen := (h (.statement consequent) (by simp [Statement.children])).1
    rw [show consequent.isFunctionDeclaration = false from hleaks] at hthen
    exact hother rfl (keeps_if (h (.expression test) List.mem_cons_self) hthen)
  | .ifStatement test consequent (some alternate) =>
    obtain ⟨hconsequent, halternate⟩ := Bool.or_eq_false_iff.mp hleaks
    have hthen := (h (.statement consequent) (by simp [Statement.children])).1
    have helse := (h (.statement alternate) (by simp [Statement.children])).1
    rw [hconsequent] at hthen
    rw [halternate] at helse
    exact hother rfl (keeps_if_else (h (.expression test) List.mem_cons_self) hthen helse)
  | .whileStatement test body =>
    have hbody := (h (.statement body) (by simp [Statement.children])).1
    rw [show body.isFunctionDeclaration = false from hleaks] at hbody
    exact hother rfl (keeps_while (h (.expression test) List.mem_cons_self) hbody)
  | .exportNamedDeclaration none specifiers =>
    apply hother rfl
    apply keeps_exportNamed
    · intro d hd
      cases hd
    · exact fun e he => h (.expression e) he
    · intro d hd
      cases hd
  | .exportNamedDeclaration (some d) specifiers =>
    apply hother rfl
    apply keeps_exportNamed
    · intro d' hd'
      obtain rfl := Option.some.inj hd'
      exact h (.declaration d) List.mem_cons_self
    · exact fun e he => h (.expression e) (List.mem_cons_of_mem _ he)
    · intro d' hd' hmem
      obtain rfl := Option.some.inj hd'
      rcases Bool.and_eq_false_iff.mp hleaks with hheight | hany
      · cases d with
        | functionDeclaration f => rfl
        | _ => cases hheight
      · exact absurd rfl (List.any_eq_false.mp hany _ hmem)
  | .exportDefaultDeclaration (.expression e) =>
    apply hother rfl
    intro ctx ctx' hrun
    simp only [pipeStatement, Fallible.bind_eq_ok, Fallible.pure_eq_ok] at hrun
    obtain ⟨ctx₁, he, rfl⟩ := hrun
    exact ((h (.expression e) (List.mem_singleton_self _) he).trans (passes_export _)).emits
  | .exportDefaultDeclaration (.declaration d) =>
    apply hother rfl
    intro ctx ctx' hrun
    simp only [pipeStatement, Fallible.bind_eq_ok, Fallible.pure_eq_ok] at hrun
    obtain ⟨ctx₁, hd, rfl⟩ := hrun
    cases d with
    | functionDeclaration f =>
      exact ((h _ (List.mem_singleton_self _) hd).trans (passes_export _)).emits
    | _ => cases hleaks
  | .other type =>
    refine hother rfl fun ctx ctx' hrun => ?_
    cases hrun

theorem sound_of_children {n : SyntaxNode} (h : ∀ c ∈ n.children, Sound c)
    (hleaks : n.leaks = false) : Sound n := by
  have hitems : ∀ body : List Statement, (∀ c ∈ body.map SyntaxNode.item, Sound c) →
      ∀ s ∈ body, Keeps (pipeItem s) 0 0 :=
    fun body h s hs => h (.item s) (List.mem_map.mpr ⟨s, hs, rfl⟩)
  cases n with
  | program body => exact keeps_items (hitems body h)
  | expression e => exact sound_expression h hleaks
  | function f =>
    obtain ⟨id, params, body⟩ := f
    exact fun ctx ctx' hrun => passes_function (h (.block body) (List.mem_singleton_self _)) hrun
  | block b =>
    obtain ⟨isVirtual, body⟩ := b
    exact keeps_block (hitems body h)
  | item s => exact sound_item (h (.statement s) (List.mem_singleton_self _))
  | statement s => exact sound_statement h hleaks
  | declaration d => exact sound_declaration h
  | declarator d =>
    obtain ⟨id, init⟩ := d
    have hdeclarator := @raises_declarator id init fun e he =>
      h (.expression e) (List.mem_map.mpr ⟨e, Option.mem_toList.mpr he, rfl⟩)
    cases id with
    | objectPattern properties => cases hleaks
    | _ => exact hdeclarator

/-! ## Nodes that leak -/

theorem not_disciplined_of_region {n : SyntaxNode} (hn : n.height = 0)
    (h : ∀ ctx ctx', pipeNode n ctx = .ok ctx' → ¬ Region ctx ctx' 0 0) (haccepted : Accepted n) :
    ¬ Disciplined n := by
  obtain ⟨ctx, ctx', hrun⟩ := haccepted
  intro hdisciplined
  have hregion := hdisciplined.region hrun
  rw [hn] at hregion
  exact h ctx ctx' hrun hregion

/-- Nothing is emitted for an assignment to a pattern. -/
theorem leaks_assignment {e : Expression} (hleaks : e.assignsPattern = true)
    (haccepted : Accepted (.expression e)) : ¬ Disciplined (.expression e) := by
  obtain ⟨ctx, ctx', hrun⟩ := haccepted
  intro hdisciplined
  have hregion := hdisciplined.region hrun
  match e with
  | .assignmentExpression false .pattern right => cases hrun
  | .assignmentExpression true .pattern right =>
    obtain rfl := Except.ok.inj hrun
    exact Nat.zero_ne_one (hregion.height_eq .refl)

/-- The object that a pattern takes apart stays on the stack. -/
theorem leaks_declarator {properties : List PatternProperty} {init : Option Expression}
    (h : ∀ e ∈ init, Raises (pipeExpression e) 0 1)
    (haccepted : Accepted (.declarator (.mk (.objectPattern properties) init))) :
    ¬ Disciplined (.declarator (.mk (.objectPattern properties) init)) := by
  apply not_disciplined_of_region rfl _ haccepted
  intro ctx ctx' hrun hregion
  have hpasses : Passes ctx ctx' 0 1 := raises_declarator _ h hrun
  exact Nat.one_ne_zero (hregion.height_eq hpasses.passes.2)

theorem leaks_exportNamed {d : Declaration} {specifiers : List Specifier}
    (hd : Raises (pipeDeclaration d) 0 0) (hheight : d.height = 0)
    (hmem : .exportDefaultSpecifier ∈ specifiers)
    (h : ∀ e, .expression e ∈ specifiers.flatMap Specifier.children →
      Raises (pipeExpression e) 0 1) {ctx ctx' : PipeContext}
    (hrun : pipeStatement (.exportNamedDeclaration (some d) specifiers) ctx = .ok ctx') :
    ¬ Region ctx ctx' 0 0 := by
  simp only [pipeStatement, Fallible.bind_eq_ok] at hrun
  obtain ⟨ctx₁, hdeclared, ctx₂, hexported, hspecifiers⟩ := hrun
  have hexports := raises_exportDeclaration d hexported
  rw [hheight] at hexports
  have hunderflows := underflows_specifiers h hd hmem hspecifiers
  have hextends := extends_specifiers h hd hspecifiers
  exact (((hd hdeclared).trans hexports).underflows hextends hunderflows).not_region

theorem leaks_exportDefault {d : Declaration} (hd : Raises (pipeDeclaration d) 0 0)
    {ctx ctx' : PipeContext}
    (hrun : pipeStatement (.exportDefaultDeclaration (.declaration d)) ctx = .ok ctx') :
    ¬ Region ctx ctx' 0 0 := by
  simp only [pipeStatement, Fallible.bind_eq_ok, Fallible.pure_eq_ok] at hrun
  obtain ⟨ctx₁, hdeclared, rfl⟩ := hrun
  exact ((hd hdeclared).underflows (passes_export _).extends_code
    (underflows_export List.prefix_rfl)).not_region

theorem leaks_statement {s : Statement} (h : ∀ c ∈ s.children, Sound c)
    (hleaks : (SyntaxNode.statement s).leaks = true) (haccepted : Accepted (.statement s)) :
    ¬ Disciplined (.statement s) := by
  match s with
  | .ifStatement test consequent none =>
    apply not_disciplined_of_region rfl _ haccepted
    have hthen := (h (.statement consequent) (by simp [Statement.children])).2 hleaks
    exact fun ctx ctx' => leaks_if (h (.expression test) List.mem_cons_self) hthen
  | .ifStatement test consequent (some alternate) =>
    apply not_disciplined_of_region rfl _ haccepted
    have hthen := h (.statement consequent) (by simp [Statement.children])
    have helse := h (.statement alternate) (by simp [Statement.children])
    intro ctx ctx'
    apply leaks_if_else (h (.expression test) List.mem_cons_self) hthen.1 helse.1
    rcases Bool.or_eq_true_iff.mp hleaks with hconsequent | halternate
    · exact .inl ⟨hconsequent, hthen.2 hconsequent⟩
    · exact .inr ⟨halternate, helse.2 halternate⟩
  | .whileStatement test body =>
    apply not_disciplined_of_region rfl _ haccepted
    have hbody := (h (.statement body) (by simp [Statement.children])).2 hleaks
    exact fun ctx ctx' => leaks_while (h (.expression test) List.mem_cons_self) hbody
  | .exportNamedDeclaration (some d) specifiers =>
    apply not_disciplined_of_region rfl _ haccepted
    obtain ⟨hheight, hany⟩ := Bool.and_eq_true_iff.mp hleaks
    have hheight' := eq_of_beq hheight
    have hd : Raises (pipeDeclaration d) 0 d.height := h (.declaration d) List.mem_cons_self
    rw [hheight'] at hd
    obtain ⟨specifier, hmem, hspecifier⟩ := List.any_eq_true.mp hany
    cases specifier with
    | exportDefaultSpecifier =>
      exact fun ctx ctx' => leaks_exportNamed hd hheight' hmem
        fun e he => h (.expression e) (List.mem_cons_of_mem _ he)
    | _ => cases hspecifier
  | .exportDefaultDeclaration (.declaration d) =>
    apply not_disciplined_of_region rfl _ haccepted
    have hd : Raises (pipeDeclaration d) 0 d.height :=
      h (.declaration d) (List.mem_singleton_self _)
    rw [eq_of_beq hleaks] at hd
    exact fun ctx ctx' => leaks_exportDefault hd

theorem leaks_of_children {n : SyntaxNode} (h : ∀ c ∈ n.children, Sound c)
    (hleaks : n.leaks = true) (haccepted : Accepted n) : ¬ Disciplined n := by
  match n with
  | .expression e => exact leaks_assignment hleaks haccepted
  | .statement s => exact leaks_statement h hleaks haccepted
  | .declarator (.mk (.objectPattern properties) init) =>
    exact leaks_declarator
      (fun e he => h (.expression e) (List.mem_map.mpr ⟨e, Option.mem_toList.mpr he, rfl⟩))
      haccepted

/-! ## The discipline -/

/-- Of an accepted node, the code generator keeps the stack discipline for it and
for all nodes in it exactly when none of them is of a kind that leaks. -/
theorem pipeNode_disciplined_iff {n : SyntaxNode} (haccepted : Accepted n) :
    (∀ m, Within n m → Disciplined m) ↔ ∀ m, Within n m → m.leaks = false := by
  constructor
  · intro hdisciplined
    -- a smallest node that leaks would have sound children
    have hsound : ∀ m, Within n m → Sound m ∧ m.leaks = false := by
      intro m
      induction m using SyntaxNode.induction with
      | h m ih =>
        intro hm
        have hchildren : ∀ c ∈ m.children, Sound c := fun c hc => (ih c hc (hm.snoc hc)).1
        have hleaks : m.leaks = false := by
          by_contra hleaks
          exact leaks_of_children hchildren (Bool.of_not_eq_false hleaks)
            (haccepted.within hm) (hdisciplined m hm)
        exact ⟨sound_of_children hchildren hleaks, hleaks⟩
    exact fun m hm => (hsound m hm).2
  · intro hleaks m
    have hsound : Within n m → Sound m := by
      induction m using SyntaxNode.induction with
      | h m ih =>
        intro hm
        exact sound_of_children (fun c hc => ih c hc (hm.snoc hc)) (hleaks m hm)
    exact fun hm => (hsound hm).disciplined

/-- `while (x) { }` -/
def loopProgram : SyntaxNode :=
  .program [.whileStatement (.identifier (jsString "x")) (.blockStatement (.mk false []))]

theorem pipeNode_disciplined_loop : Disciplined loopProgram := by
  have haccepted : Accepted loopProgram := ⟨PipeContext.empty, _, rfl⟩
  refine (pipeNode_disciplined_iff haccepted).mpr (fun m hm => ?_) _ (.self _)
  rcases hm with _ | ⟨hc, hm⟩
  · rfl
  obtain rfl := List.mem_singleton.mp hc
  rcases hm with _ | ⟨hc, hm⟩
  · rfl
  obtain rfl := List.mem_singleton.mp hc
  rcases hm with _ | ⟨hc, hm⟩
  · rfl
  -- the test and the body
  rcases List.mem_pair.mp hc with rfl | rfl
  · rcases hm with _ | ⟨hc, hm⟩
    · rfl
    · exact absurd hc List.not_mem_nil
  · rcases hm with _ | ⟨hc, hm⟩
    · rfl
    obtain rfl := List.mem_singleton.mp hc
    rcases hm with _ | ⟨hc, hm⟩
    · rfl
    · exact absurd hc List.not_mem_nil

/-- `const { a } = x;` -/
def patternProgram : SyntaxNode :=
  .program [.declaration (.variableDeclaration
    [.mk (.objectPattern [.objectProperty (some (jsString "a")) (some (jsString "a"))])
      (some (.identifier (jsString "x")))])]

theorem pipeNode_undisciplined_pattern : Accepted patternProgram ∧ ¬ Disciplined patternProgram := by
  have haccepted : Accepted patternProgram := ⟨PipeContext.empty, _, rfl⟩
  refine ⟨haccepted, not_disciplined_of_region rfl (fun ctx ctx' hrun hregion => ?_) haccepted⟩
  -- the declarator leaves the object, and the program adds nothing
  have hdeclarator : Passes ctx ctx' 0 1 := by
    have hraises := @raises_declarator
      (.objectPattern [.objectProperty (some (jsString "a")) (some (jsString "a"))])
      (some (.identifier (jsString "x"))) (fun e he => by
        obtain rfl := Option.some.inj he
        exact raises_expression (fun e he => nomatch he) (fun f hf => nomatch hf) rfl)
    simp only [patternProgram, pipeNode, beginPipe, pipeItems, pipeStatement, pipeDeclaration,
      pipeDeclarators, Fallible.bind_eq_ok, Except.ok.injEq] at hrun
    obtain ⟨_, ⟨_, hdeclarator, rfl⟩, rfl⟩ := hrun
    exact hraises hdeclarator
  exact Nat.one_ne_zero (hregion.height_eq hdeclarator.passes.2)

end AtomixJS.Compiler
