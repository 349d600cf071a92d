import AtomixJS.Compiler.Effect
import AtomixJS.Compiler.Emission

/-!
# The stack effect of every node

One lemma for each kind of node: what the node emits keeps the stack as it
should, provided that the nodes it visits do.  The nodes that leak are left out;
they are the subject of the results.
-/

namespace AtomixJS.Compiler

variable {ctx ctx' ctx₁ : PipeContext} {a b c : ℕ}

theorem Raises.lift {emit : PipeContext → Except String PipeContext} (h : Raises emit a b)
    (c : ℕ) : Raises emit (a + c) (b + c) := fun _ _ hrun => (h hrun).lift c

/-! ## Expressions -/

theorem raises_arguments {arguments : List Expression}
    (h : ∀ e ∈ arguments, Raises (pipeExpression e) 0 1) (a : ℕ) :
    Raises (pipeArguments arguments) a (a + arguments.length) := by
  induction arguments generalizing a with
  | nil =>
    intro ctx ctx' hrun
    obtain rfl := Except.ok.inj hrun
    exact Passes.refl ctx a
  | cons e arguments ih =>
    intro ctx ctx' hrun
    simp only [pipeArguments, Fallible.bind_eq_ok] at hrun
    obtain ⟨ctx₁, he, hrest⟩ := hrun
    have hfirst := (h e List.mem_cons_self).lift a he
    have hothers := ih (fun e' he' => h e' (List.mem_cons_of_mem e he')) (a + 1) hrest
    rw [Nat.zero_add, Nat.add_comm 1 a] at hfirst
    rw [List.length_cons, ← Nat.add_assoc, Nat.add_right_comm]
    exact hfirst.trans hothers

theorem raises_reversed {arguments : List Expression}
    (h : ∀ e ∈ arguments, Raises (pipeExpression e) 0 1) :
    Raises (pipeReversed arguments) 0 arguments.length := by
  induction arguments with
  | nil =>
    intro ctx ctx' hrun
    obtain rfl := Except.ok.inj hrun
    exact Passes.refl ctx 0
  | cons e arguments ih =>
    intro ctx ctx' hrun
    simp only [pipeReversed, Fallible.bind_eq_ok] at hrun
    obtain ⟨ctx₁, hrest, he⟩ := hrun
    have hothers := ih (fun e' he' => h e' (List.mem_cons_of_mem e he')) hrest
    have hfirst := (h e List.mem_cons_self).lift arguments.length he
    rw [Nat.zero_add, Nat.add_comm 1] at hfirst
    exact hothers.trans hfirst

/-- The object, or what stands for `super`, is left once or twice. -/
theorem raises_memberObject {object : Expression} {doubleObject : Bool}
    (h : object.isSuper = false → Raises (pipeExpression object) 0 1) :
    Raises (pipeMemberObject object (pipeExpression object) doubleObject) 0
      (if doubleObject then 2 else 1) := by
  intro ctx ctx' hrun
  by_cases hsuper : object.isSuper = false
  · rw [pipeMemberObject_of_not_super hsuper] at hrun
    simp only [Fallible.bind_eq_ok, Fallible.pure_eq_ok] at hrun
    obtain ⟨ctx₁, hobject, rfl⟩ := hrun
    cases doubleObject with
    | false => exact h hsuper hobject
    | true => exact (h hsuper hobject).trans (passes_add (fun _ => rfl) (Nat.le_refl 1) rfl)
  · obtain ⟨extra, rfl⟩ : ∃ extra, object = .super extra := by
      cases object <;> first | exact ⟨_, rfl⟩ | exact absurd rfl hsuper
    cases extra with
    | none => cases hrun
    | some extra =>
      unfold pipeMemberObject at hrun
      simp only [Fallible.guard_eq_ok, Except.ok.injEq] at hrun
      obtain ⟨_, rfl⟩ := hrun
      -- `this` below, then the super class, then perhaps its prototype
      have hthis : Passes ctx (if doubleObject then ctx.addInstruction .ldThis else ctx) 0
          (if doubleObject then 1 else 0) := by
        cases doubleObject with
        | false => exact Passes.refl ctx 0
        | true => exact passes_add (fun _ => rfl) (Nat.zero_le _) rfl
      have hclass : ∀ ctx : PipeContext, Passes ctx
          (if extra.isStatic then ctx.addNamed .loadLocal extra.targetName
            else (ctx.addNamed .loadLocal extra.targetName).addNamed .objLoad
              (jsString "prototype")) 0 1 := by
        intro ctx
        have hload : Passes ctx (ctx.addNamed .loadLocal extra.targetName) 0 1 :=
          passes_addNamed _ (fun _ _ => rfl) (Nat.zero_le _) rfl
        split
        · exact hload
        · exact hload.trans (passes_addNamed _ (fun _ _ => rfl) (Nat.le_refl 1) rfl)
      cases doubleObject with
      | false => exact hthis.trans (hclass ctx)
      | true => exact hthis.trans ((hclass _).lift 1)

/-- A member expression leaves the value, and below it the object when a call
needs it as `this`. -/
theorem raises_memberExpression {object property : Expression} {computed doubleObject : Bool}
    (h : ∀ e, .expression e ∈ memberChildren object property computed →
      Raises (pipeExpression e) 0 1) :
    Raises (pipeMemberExpression object property (pipeExpression object)
      (pipeExpression property) computed doubleObject) 0 (if doubleObject then 2 else 1) := by
  intro ctx ctx' hrun
  unfold pipeMemberExpression at hrun
  simp only [Fallible.bind_eq_ok] at hrun
  obtain ⟨ctx₁, hfirst, hsecond⟩ := hrun
  have hvalue : Passes ctx ctx₁ 0 (if doubleObject then 2 else 1) := by
    apply raises_memberObject _ hfirst
    intro hsuper
    apply h
    unfold memberChildren
    rw [hsuper]
    exact List.mem_append_left _ (List.mem_singleton_self _)
  have hload : Passes ctx₁ ctx' 1 1 := by
    unfold pipeMemberProperty at hsecond
    split at hsecond
    · next hcomputed =>
      simp only [Fallible.bind_eq_ok, Fallible.pure_eq_ok] at hsecond
      obtain ⟨ctx₂, hkey, rfl⟩ := hsecond
      have hproperty : Raises (pipeExpression property) 0 1 := by
        apply h
        unfold memberChildren
        rw [if_pos hcomputed]
        exact List.mem_append_right _ (List.mem_singleton_self _)
      exact (hproperty.lift 1 hkey).trans (passes_add (fun _ => rfl) (by decide) rfl)
    · split at hsecond
      · obtain rfl := Except.ok.inj hsecond
        exact passes_addNamed _ (fun _ _ => rfl) (Nat.le_refl 1) rfl
      · cases hsecond
  cases doubleObject with
  | false => exact hvalue.trans hload
  | true => exact hvalue.trans (hload.lift 1)

theorem raises_callee {callee : Expression}
    (h : ∀ e, .expression e ∈ calleeChildren callee → Raises (pipeExpression e) 0 1) :
    Raises (pipeCallee callee) 0 2 := by
  intro ctx ctx' hrun
  cases callee with
  | memberExpression object property computed => exact raises_memberExpression h hrun
  | _ =>
    have hundf : Passes ctx (ctx.addInstruction .ldUndf) 0 1 :=
      passes_add (fun _ => rfl) (Nat.zero_le _) rfl
    exact hundf.trans ((h _ (List.mem_singleton_self _)).lift 1 hrun)

theorem raises_properties {properties : List Property}
    (h : ∀ e, .expression e ∈ properties.flatMap Property.children →
      Raises (pipeExpression e) 0 1) : Raises (pipeProperties properties) 1 1 := by
  induction properties with
  | nil =>
    intro ctx ctx' hrun
    obtain rfl := Except.ok.inj hrun
    exact Passes.refl ctx 1
  | cons property properties ih =>
    intro ctx ctx' hrun
    match property with
    | .objectProperty (some key) value =>
      simp only [pipeProperties, Fallible.bind_eq_ok] at hrun
      obtain ⟨ctx₁, hvalue, hrest⟩ := hrun
      have hdup : Passes ctx (ctx.addInstruction .dup) 1 2 :=
        passes_add (fun _ => rfl) (Nat.le_refl 1) rfl
      have hfirst := (h value List.mem_cons_self).lift 2 hvalue
      have hstore : ∀ idx, Passes ctx₁ (ctx₁.addInstruction (.objStore idx)) 3 1 :=
        fun _ => passes_add (fun _ => rfl) (by decide) rfl
      have hothers := ih (fun e hmem => h e (List.mem_append_right _ hmem)) hrest
      exact ((hdup.trans (passes_register key)).trans (hfirst.trans (hstore _))).trans hothers
    | .objectProperty none _ | .objectMethod none | .objectMethod (some _) | .spreadElement =>
      cases hrun

theorem raises_elements {elements : List (Option Expression)}
    (h : ∀ e, some e ∈ elements → Raises (pipeExpression e) 0 1) (i : ℕ) :
    Raises (pipeElements elements i) 1 1 := by
  induction elements generalizing i with
  | nil =>
    intro ctx ctx' hrun
    obtain rfl := Except.ok.inj hrun
    exact Passes.refl ctx 1
  | cons element elements ih =>
    intro ctx ctx' hrun
    cases element with
    | none => cases hrun
    | some e =>
      simp only [pipeElements, Fallible.bind_eq_ok] at hrun
      obtain ⟨ctx₁, he, hrest⟩ := hrun
      have hdup : Passes ctx (ctx.addInstruction .dup) 1 2 :=
        passes_add (fun _ => rfl) (Nat.le_refl 1) rfl
      have hfirst := (h e List.mem_cons_self).lift 2 he
      have hstore : Passes ctx₁ (ctx₁.addNamed .objStore (jsString (toString i))) 3 1 :=
        passes_addNamed _ (fun _ _ => rfl) (by decide) rfl
      have hothers := ih (fun e' hmem => h e' (List.mem_cons_of_mem _ hmem)) (i + 1) hrest
      exact (hdup.trans (hfirst.trans hstore)).trans hothers

theorem raises_call {callee : Expression} {id : ℕ} {arguments : List Expression}
    (harguments : ∀ e ∈ arguments, Raises (pipeExpression e) 0 1)
    (hcallee : ∀ e, .expression e ∈ calleeChildren callee → Raises (pipeExpression e) 0 1) :
    Raises (pipeExpression (.callExpression callee id arguments)) 0 1 := by
  intro ctx ctx' hrun
  simp only [pipeExpression, Fallible.bind_eq_ok, Fallible.pure_eq_ok] at hrun
  obtain ⟨ctx₁, hpushed, ctx₂, hcalled, rfl⟩ := hrun
  have hsame : Passes ctx (ctx.reverseArguments id).2 0 0 :=
    Passes.of_code_eq (ctx.reverseArguments_code id).symm
  have harguments' : Passes (ctx.reverseArguments id).2 ctx₁ 0 arguments.length := by
    split at hpushed
    · have hpasses := raises_arguments harguments 0 hpushed
      rwa [Nat.zero_add] at hpasses
    · exact raises_reversed harguments hpushed
  have hcallee' : Passes ctx₁ ctx₂ arguments.length (arguments.length + 2) := by
    have hpasses := (raises_callee hcallee hcalled).lift arguments.length
    rwa [Nat.zero_add, Nat.add_comm] at hpasses
  refine ((hsame.trans harguments').trans hcallee').trans (passes_add (fun _ => rfl) ?_ ?_)
  · exact Nat.le_refl _
  · rw [Nat.sub_self]

/-- An assignment leaves the assigned value. -/
theorem raises_assignment {simple : Bool} {left : AssignmentTarget} {right : Expression}
    (hpattern : left ≠ .pattern) (hright : Raises (pipeExpression right) 0 1)
    (hleft : ∀ e, .expression e ∈ left.children → Raises (pipeExpression e) 0 1) :
    Raises (pipeExpression (.assignmentExpression simple left right)) 0 1 := by
  intro ctx ctx' hrun
  unfold pipeExpression at hrun
  split at hrun
  · cases hrun
  · have hdup : ∀ {ctx : PipeContext}, Passes ctx (ctx.addInstruction .dup) 1 2 :=
      passes_add (fun _ => rfl) (Nat.le_refl 1) rfl
    cases left with
    | pattern => exact absurd rfl hpattern
    | identifier name =>
      simp only [Fallible.bind_eq_ok, Fallible.pure_eq_ok] at hrun
      obtain ⟨ctx₁, hvalue, rfl⟩ := hrun
      exact ((hright hvalue).trans hdup).trans
        (passes_addNamed name (fun _ _ => rfl) (by decide) rfl)
    | memberExpression object property computed =>
      simp only [Fallible.bind_eq_ok] at hrun
      obtain ⟨ctx₁, hvalue, hstore⟩ := hrun
      have hobject : Raises (pipeExpression object) 0 1 := by
        apply hleft
        unfold AssignmentTarget.children
        split <;> simp_all
      refine ((hright hvalue).trans hdup).trans ?_
      split at hstore
      · next name =>
        simp only [Fallible.bind_eq_ok, Fallible.pure_eq_ok] at hstore
        obtain ⟨ctx₂, hvalue', rfl⟩ := hstore
        have hswap : Passes ctx₂ (ctx₂.addInstruction .swap) 3 3 :=
          passes_add (fun _ => rfl) (by decide) rfl
        exact ((hobject.lift 2 hvalue').trans hswap).trans
          (passes_addNamed name (fun _ _ => rfl) (by decide) rfl)
      · next hname =>
        simp only [Fallible.bind_eq_ok, Fallible.pure_eq_ok] at hstore
        obtain ⟨ctx₂, hvalue', ctx₃, hkey, rfl⟩ := hstore
        have hproperty : Raises (pipeExpression property) 0 1 := by
          apply hleft
          unfold AssignmentTarget.children
          split <;> simp_all
        exact ((hobject.lift 2 hvalue').trans (hproperty.lift 3 hkey)).trans
          (passes_add (fun _ => rfl) (by decide) rfl)

/-- The target of an assignment is a pattern, which `pipe` ignores. -/
def Expression.assignsPattern : Expression → Bool
  | .assignmentExpression _ .pattern _ => true
  | _ => false

theorem raises_expression {e : Expression}
    (h : ∀ e', .expression e' ∈ e.children → Raises (pipeExpression e') 0 1)
    (hfunction : ∀ f, .function f ∈ e.children → Raises (pipeFunction f) 0 1)
    (hpattern : e.assignsPattern = false) : Raises (pipeExpression e) 0 1 := by
  match e with
  | .stringLiteral value =>
    intro ctx ctx' hrun
    obtain rfl := Except.ok.inj hrun
    exact passes_addNamed value (fun _ _ => rfl) (Nat.zero_le _) rfl
  | .numericLiteral value =>
    intro ctx ctx' hrun
    obtain rfl := Except.ok.inj hrun
    exact passes_numericLiteral value ctx
  | .booleanLiteral value =>
    intro ctx ctx' hrun
    obtain rfl := Except.ok.inj hrun
    cases value <;> exact passes_add (fun _ => rfl) (Nat.zero_le _) rfl
  | .nullLiteral | .thisExpression =>
    intro ctx ctx' hrun
    obtain rfl := Except.ok.inj hrun
    exact passes_add (fun _ => rfl) (Nat.zero_le _) rfl
  | .identifier name =>
    intro ctx ctx' hrun
    obtain rfl := Except.ok.inj hrun
    exact passes_identifier name ctx
  | .binaryExpression operator left right =>
    intro ctx ctx' hrun
    simp only [pipeExpression, Fallible.bind_eq_ok, Fallible.pure_eq_ok] at hrun
    obtain ⟨ctx₁, hleft, ctx₂, hright, opcode, _, rfl⟩ := hrun
    have hfirst := h left List.mem_cons_self hleft
    have hsecond := (h right (List.mem_cons_of_mem _ (List.mem_singleton_self _))).lift 1 hright
    exact (hfirst.trans hsecond).trans (passes_add (fun _ => rfl) (by decide) rfl)
  | .unaryExpression operator argument =>
    intro ctx ctx' hrun
    simp only [pipeExpression, Fallible.bind_eq_ok] at hrun
    obtain ⟨ctx₁, hargument, hoperator⟩ := hrun
    exact (h argument (List.mem_singleton_self _) hargument).trans
      (raises_unaryOperator operator hoperator)
  | .callExpression callee id arguments =>
    apply raises_call
    · exact fun e he => h e (List.mem_append_left _ (List.mem_map.mpr ⟨e, he, rfl⟩))
    · exact fun e he => h e (List.mem_append_right _ he)
  | .objectExpression properties =>
    intro ctx ctx' hrun
    have halloc : Passes ctx (ctx.addInstruction .objAlloc) 0 1 :=
      passes_add (fun _ => rfl) (Nat.zero_le _) rfl
    exact halloc.trans (raises_properties h hrun)
  | .arrayExpression elements =>
    intro ctx ctx' hrun
    have halloc : Passes ctx (ctx.addInstruction .arrAlloc) 0 1 :=
      passes_add (fun _ => rfl) (Nat.zero_le _) rfl
    have hdup : Passes _ ((ctx.addInstruction .arrAlloc).addInstruction .dup) 1 2 :=
      passes_add (fun _ => rfl) (Nat.le_refl 1) rfl
    have hlength : ∀ {ctx : PipeContext} (idx : ℕ), Passes ctx
        ((ctx.addInstruction (.ldInt elements.length)).addInstruction (.objStore idx)) 2 1 := by
      intro ctx idx
      have hint : Passes ctx (ctx.addInstruction (.ldInt elements.length)) 2 3 :=
        passes_add (fun _ => rfl) (Nat.zero_le _) rfl
      exact hint.trans (passes_add (fun _ => rfl) (by decide) rfl)
    have helements : Raises (pipeElements elements 0) 1 1 :=
      raises_elements (fun e he => h e (List.mem_filterMap.mpr ⟨some e, he, rfl⟩)) 0
    exact ((halloc.trans hdup).trans ((passes_register _).trans (hlength _))).trans
      (helements hrun)
  | .memberExpression object property computed => exact raises_memberExpression h
  | .assignmentExpression simple .pattern right => cases hpattern
  | .assignmentExpression simple (.identifier name) right =>
    exact raises_assignment (by simp) (h right List.mem_cons_self)
      fun e he => h e (List.mem_cons_of_mem _ he)
  | .assignmentExpression simple (.memberExpression object property computed) right =>
    exact raises_assignment (by simp) (h right List.mem_cons_self)
      fun e he => h e (List.mem_cons_of_mem _ he)
  | .functionExpression function => exact hfunction function (List.mem_singleton_self _)
  | .super _ | .other _ =>
    intro ctx ctx' hrun
    cases hrun

/-! ## Code behind a placeholder -/

variable {code : List Instruction} {instruction : Instruction} {s : ℕ}

/-- What was emitted behind an instruction, in a code that agrees with it. -/
theorem Emits.behind (h : Emits (ctx.addInstruction instruction) ctx₁ a b)
    (hagree : Agree (ctx.code.length + 1) ctx₁.code.length ctx₁.code code) :
    Flow.Balanced (graph code) (ctx.code.length + 1) ctx₁.code.length a b := by
  have hbalanced := h.balanced
  rw [PipeContext.addInstruction_code, List.length_append, List.length_singleton] at hbalanced
  exact hbalanced.congr hagree.graph

theorem Passes.behind (h : Passes (ctx.addInstruction instruction) ctx₁ a b)
    (hagree : Agree (ctx.code.length + 1) ctx₁.code.length ctx₁.code code) :
    Flow.Passes (graph code) (ctx.code.length + 1) ctx₁.code.length a b := by
  have hpasses := h.passes
  rw [PipeContext.addInstruction_code, List.length_append, List.length_singleton] at hpasses
  exact hpasses.congr hagree.graph

/-! ## Functions -/

theorem emits_functionBody {id : Option JSString} {params : List (Option JSString)} {body : Block}
    (hbody : Keeps (pipeBlock body) 0 0)
    (hrun : pipeFunction (.mk id params body) ctx = .ok ctx') :
    ∃ ctx₁ new, Emits (ctx.addInstruction .nop) ctx₁ 0 0 ∧
      ctx₁.replaceInstruction ctx.code.length new = .ok ctx' := by
  unfold pipeFunction at hrun
  simp only [PipeContext.getCount_eq] at hrun
  cases id with
  | none =>
    simp only [Fallible.bind_eq_ok] at hrun
    obtain ⟨ctx₁, hparams, ctx₂, hblock, hreplace⟩ := hrun
    exact ⟨ctx₂, _, (raises_params params 0 hparams).emits.trans (hbody hblock), hreplace⟩
  | some name =>
    simp only [Fallible.bind_eq_ok] at hrun
    obtain ⟨ctx₁, hparams, ctx₂, hblock, hreplace⟩ := hrun
    refine ⟨ctx₂, _, ?_, hreplace⟩
    exact ((passes_register name).trans (raises_params params 0 hparams)).emits.trans
      (hbody hblock)

/-- A function leaves itself on the stack, whatever its body does. -/
theorem raises_function (f : FunctionNode) : Raises (pipeFunction f) 0 1 := by
  intro ctx ctx' hrun
  obtain ⟨id, params, body⟩ := f
  have hextends := (extends_node (n := .function (.mk id params body)) hrun).code
  obtain ⟨ctx₁, new, hreplace, hnode⟩ : ∃ ctx₁ new,
      PipeContext.replaceInstruction ctx₁ ctx.code.length new = .ok ctx' ∧
      documentedNode ctx.code.length new =
        ⟨0, 1, [ctx.code.length + 1 + (ctx₁.code.length - ctx.code.length - 1)]⟩ := by
    unfold pipeFunction at hrun
    cases id <;>
    · simp only [PipeContext.getCount_eq, Fallible.bind_eq_ok] at hrun
      obtain ⟨_, _, ctx₂, _, hreplace⟩ := hrun
      exact ⟨ctx₂, _, hreplace, rfl⟩
  obtain ⟨hlt, hcode, _⟩ := PipeContext.replaceInstruction_ok hreplace
  have hlength : ctx'.code.length = ctx₁.code.length := by rw [hcode, List.length_set]
  have hend : ctx.code.length + 1 + (ctx₁.code.length - ctx.code.length - 1) =
      ctx'.code.length := by omega
  have hget : graph ctx'.code ctx.code.length = some (documentedNode ctx.code.length new) :=
    graph_of_get (by rw [hcode, List.getElem?_set_self hlt])
  rw [hnode, hend] at hget
  exact ⟨hextends, Flow.passes_single hget (by omega) (Nat.zero_le _) rfl⟩

/-- A call of a function that falls off its end leaves the stack as it was. -/
theorem passes_function {id : Option JSString} {params : List (Option JSString)} {body : Block}
    (hbody : Keeps (pipeBlock body) 0 0)
    (hrun : pipeFunction (.mk id params body) ctx = .ok ctx') :
    Passes ctx ctx' 0 1 ∧
      Flow.Balanced (graph ctx'.code) (ctx.code.length + 1) ctx'.code.length 0 0 := by
  obtain ⟨ctx₁, new, hemits, hreplace⟩ := emits_functionBody hbody hrun
  obtain ⟨_, hle, hlength, _, _, hagree⟩ :=
    replaced hemits.extends_code List.prefix_rfl hreplace
  have hbalanced := hemits.behind hagree
  rw [← hlength] at hbalanced
  exact ⟨raises_function _ hrun, hbalanced⟩

/-! ## Statements -/

theorem keeps_items {items : List Statement} (h : ∀ item ∈ items, Keeps (pipeItem item) 0 0) :
    Keeps (pipeItems items) 0 0 := by
  induction items with
  | nil =>
    intro ctx ctx' hrun
    obtain rfl := Except.ok.inj hrun
    exact (Passes.refl ctx 0).emits
  | cons item items ih =>
    intro ctx ctx' hrun
    rw [pipeItems_cons, Fallible.bind_eq_ok] at hrun
    obtain ⟨ctx₁, hitem, hrest⟩ := hrun
    exact (h item List.mem_cons_self hitem).trans
      (ih (fun item' hmem => h item' (List.mem_cons_of_mem item hmem)) hrest)

theorem keeps_block {isVirtual : Bool} {body : List Statement}
    (h : ∀ item ∈ body, Keeps (pipeItem item) 0 0) : Keeps (pipeBlock (.mk isVirtual body)) 0 0 := by
  intro ctx ctx' hrun
  simp only [pipeBlock, Fallible.bind_eq_ok, Fallible.pure_eq_ok] at hrun
  obtain ⟨ctx₁, hitems, rfl⟩ := hrun
  have hbody := keeps_items h hitems
  cases isVirtual with
  | true => exact hbody
  | false =>
    have hpush : Passes ctx (ctx.addInstruction .pushScope) 0 0 :=
      passes_add (fun _ => rfl) (Nat.le_refl 0) rfl
    have hpop : Passes ctx₁ (ctx₁.addInstruction .popScope) 0 0 :=
      passes_add (fun _ => rfl) (Nat.le_refl 0) rfl
    exact (hpush.emits.trans hbody).trans hpop.emits

/-- A return ends every path. -/
theorem emits_return (ctx : PipeContext) (a b : ℕ) : Emits ctx (ctx.addInstruction .ret) a b := by
  refine ⟨List.prefix_append _ _, Flow.balanced_stop (graph_add ctx .ret) ?_ (Nat.zero_le a) rfl⟩
  rw [PipeContext.addInstruction_code, List.length_append, List.length_singleton]
  exact Nat.lt_succ_self _

theorem keeps_if {test : Expression} {consequent : Statement}
    (htest : Raises (pipeExpression test) 0 1) (hthen : Keeps (pipeStatement consequent) 0 0) :
    Keeps (pipeStatement (.ifStatement test consequent none)) 0 0 := by
  intro ctx ctx' hrun
  simp only [pipeStatement, Fallible.bind_eq_ok, PipeContext.getCount_eq] at hrun
  obtain ⟨ctx₁, hcond, ctx₂, hbody, hreplace⟩ := hrun
  obtain ⟨hextends, hle, hlength, _, hnew, hagree⟩ :=
    replaced (hthen hbody).extends_code List.prefix_rfl hreplace
  have hbalanced := (hthen hbody).behind hagree
  rw [← hlength] at hnew hle hbalanced
  have hskip : Emits ctx₁ ctx' 1 0 :=
    ⟨hextends, Flow.balanced_skip (graph_of_get hnew) (Nat.le_refl 1) rfl rfl hbalanced hle⟩
  exact (htest hcond).emits.trans hskip

theorem keeps_if_else {test : Expression} {consequent alternate : Statement}
    (htest : Raises (pipeExpression test) 0 1) (hthen : Keeps (pipeStatement consequent) 0 0)
    (helse : Keeps (pipeStatement alternate) 0 0) :
    Keeps (pipeStatement (.ifStatement test consequent (some alternate))) 0 0 := by
  intro ctx ctx' hrun
  simp only [pipeStatement, Fallible.bind_eq_ok, PipeContext.getCount_eq] at hrun
  obtain ⟨ctx₁, hcond, ctx₂, hbody, ctx₃, hfirst, ctx₄, hother, hsecond⟩ := hrun
  have hlayout := branches (hthen hbody).extends_code hfirst (helse hother).extends_code hsecond
  have hthen' := (hthen hbody).behind hlayout.then_agree
  have helse' := (helse hother).balanced
  rw [hlayout.else_start] at helse'
  have helse'' := helse'.congr hlayout.else_agree.graph
  rw [← hlayout.length_eq] at helse''
  have hdiamond : Emits ctx₁ ctx' 1 0 :=
    ⟨hlayout.extends_code, Flow.balanced_diamond (graph_of_get hlayout.jump_eq) (Nat.le_refl 1)
      rfl rfl hthen' (graph_of_get hlayout.end_eq) rfl rfl rfl helse'' hlayout.le hlayout.else_le⟩
  exact (htest hcond).emits.trans hdiamond

theorem keeps_while {test : Expression} {body : Statement}
    (htest : Raises (pipeExpression test) 0 1) (hbody : Keeps (pipeStatement body) 0 0) :
    Keeps (pipeStatement (.whileStatement test body)) 0 0 := by
  intro ctx ctx' hrun
  simp only [pipeStatement, Fallible.bind_eq_ok, PipeContext.getCount_eq] at hrun
  obtain ⟨ctx₁, hcond, ctx₂, hbody', hreplace⟩ := hrun
  have hlayout := loop (hbody hbody').extends_code hreplace
  obtain ⟨hextends, hcond'⟩ := (htest hcond).emits
  refine ⟨hextends.trans hlayout.extends_code, ?_⟩
  rw [hlayout.length_eq]
  refine Flow.balanced_loop
    (hcond'.congr (agree_extended hlayout.extends_code (Nat.le_refl _)).graph)
    (graph_of_get hlayout.test_eq) (Nat.le_refl 1) rfl rfl
    ((hbody hbody').behind hlayout.body_agree) (graph_of_get hlayout.jump_eq) rfl rfl rfl ?_
    hlayout.le
  -- the test leaves a value, so it is not empty
  rcases hcond'.safe _ _ .refl with ⟨_, hzero⟩ | ⟨_, hlt, _⟩
  · exact absurd hzero (by decide)
  · exact hlt

/-! ## Declarations -/

theorem raises_declarator (id : DeclaratorId) {init : Option Expression}
    (h : ∀ e ∈ init, Raises (pipeExpression e) 0 1) :
    Raises (pipeDeclarator (.mk id init)) 0
      (match id with | .objectPattern _ => 1 | _ => 0) := by
  intro ctx ctx' hrun
  cases init with
  | none =>
    have hundf : Passes ctx (ctx.addInstruction .ldUndf) 0 1 :=
      passes_add (fun _ => rfl) (Nat.zero_le _) rfl
    exact hundf.trans (raises_declaratorId id hrun)
  | some e =>
    simp only [pipeDeclarator, Fallible.bind_eq_ok] at hrun
    obtain ⟨ctx₁, hvalue, hid⟩ := hrun
    exact (h e rfl hvalue).trans (raises_declaratorId id hid)

theorem raises_declarators {declarations : List Declarator}
    (h : ∀ d ∈ declarations, Raises (pipeDeclarator d) 0 0) :
    Raises (pipeDeclarators declarations) 0 0 := by
  induction declarations with
  | nil =>
    intro ctx ctx' hrun
    obtain rfl := Except.ok.inj hrun
    exact Passes.refl ctx 0
  | cons declarator declarations ih =>
    intro ctx ctx' hrun
    simp only [pipeDeclarators, Fallible.bind_eq_ok] at hrun
    obtain ⟨ctx₁, hfirst, hrest⟩ := hrun
    exact (h declarator List.mem_cons_self hfirst).trans
      (ih (fun d hd => h d (List.mem_cons_of_mem _ hd)) hrest)

/-! ## Exports -/

theorem passes_export {ctx : PipeContext} (name : JSString) :
    Passes ctx (ctx.addNamed .exportAs name) 1 0 :=
  passes_addNamed name (fun _ _ => rfl) (Nat.le_refl 1) rfl

/-- Every specifier exports the value that was loaded for it. -/
theorem raises_specifiers {specifiers : List Specifier}
    {pipeAgain : PipeContext → Except String PipeContext}
    (h : ∀ e, .expression e ∈ specifiers.flatMap Specifier.children →
      Raises (pipeExpression e) 0 1)
    (hagain : .exportDefaultSpecifier ∈ specifiers → Raises pipeAgain 0 1) :
    Raises (pipeSpecifiers specifiers pipeAgain) 0 0 := by
  induction specifiers with
  | nil =>
    intro ctx ctx' hrun
    obtain rfl := Except.ok.inj hrun
    exact Passes.refl ctx 0
  | cons specifier specifiers ih =>
    have hrest := ih (fun e he => h e (List.mem_append_right _ he))
      fun hmem => hagain (List.mem_cons_of_mem _ hmem)
    intro ctx ctx' hrun
    cases specifier with
    | exportSpecifier binding exported =>
      simp only [pipeSpecifiers, Fallible.bind_eq_ok] at hrun
      obtain ⟨ctx₁, hbinding, hothers⟩ := hrun
      have hvalue := h binding (List.mem_append_left _ (List.mem_singleton_self _)) hbinding
      exact (hvalue.trans (passes_export exported)).trans (hrest hothers)
    | exportDefaultSpecifier =>
      simp only [pipeSpecifiers, Fallible.bind_eq_ok] at hrun
      obtain ⟨ctx₁, hdeclaration, hothers⟩ := hrun
      have hvalue := hagain List.mem_cons_self hdeclaration
      exact (hvalue.trans (passes_export _)).trans (hrest hothers)
    | exportNamespaceSpecifier exported =>
      exact ((passes_identifier exported ctx).trans (passes_export exported)).trans (hrest hrun)

theorem keeps_exportNamed {declaration : Option Declaration} {specifiers : List Specifier}
    (hdeclaration : ∀ d ∈ declaration, Raises (pipeDeclaration d) 0 d.height)
    (h : ∀ e, .expression e ∈ specifiers.flatMap Specifier.children →
      Raises (pipeExpression e) 0 1)
    (hagain : ∀ d ∈ declaration, .exportDefaultSpecifier ∈ specifiers → d.height = 1) :
    Keeps (pipeStatement (.exportNamedDeclaration declaration specifiers)) 0 0 := by
  intro ctx ctx' hrun
  cases declaration with
  | none =>
    refine (raises_specifiers h (fun _ => ?_) hrun).emits
    intro ctx ctx' hrun
    cases hrun
  | some d =>
    simp only [pipeStatement, Fallible.bind_eq_ok] at hrun
    obtain ⟨ctx₁, hd, ctx₂, hexport, hspecifiers⟩ := hrun
    have hrest := raises_specifiers h (fun hmem => hagain d rfl hmem ▸ hdeclaration d rfl)
      hspecifiers
    exact (((hdeclaration d rfl hd).trans (raises_exportDeclaration d hexport)).trans hrest).emits

/-! ## Leaks -/

/-- The region that was added between two contexts. -/
def Region (ctx ctx' : PipeContext) (a b : ℕ) : Prop :=
  Flow.Balanced (graph ctx'.code) ctx.code.length ctx'.code.length a b

theorem Region.height_eq (h : Region ctx ctx' a b)
    (hpath : Flow.Path (graph ctx'.code) ctx.code.length ctx'.code.length (ctx.code.length, a)
      (ctx'.code.length, c)) : c = b := by
  rcases h.safe _ _ hpath with ⟨_, heq⟩ | ⟨_, hlt, _⟩
  · exact heq
  · exact absurd hlt (Nat.lt_irrefl _)

/-- The code between two contexts takes a value that is not there. -/
def Underflows (ctx ctx' : PipeContext) : Prop :=
  ∃ pc node, Flow.Path (graph ctx'.code) ctx.code.length ctx'.code.length (ctx.code.length, 0)
    (pc, 0) ∧ pc < ctx'.code.length ∧ graph ctx'.code pc = some node ∧ 0 < node.pops

theorem Underflows.not_region (h : Underflows ctx ctx') : ¬ Region ctx ctx' 0 b := by
  obtain ⟨pc, node, hpath, hlt, hget, hpops⟩ := h
  intro hregion
  rcases hregion.safe _ _ hpath with ⟨heq, _⟩ | ⟨_, _, node', hget', hpops'⟩
  · omega
  · obtain rfl := Option.some.inj (hget.symm.trans hget')
    omega

theorem Passes.underflows (h : Passes ctx ctx₁ 0 0) (hextends : ctx₁.code <+: ctx'.code)
    (hlater : Underflows ctx₁ ctx') : Underflows ctx ctx' := by
  obtain ⟨pc, node, hpath, hlt, hget, hpops⟩ := hlater
  refine ⟨pc, node, ?_, hlt, hget, hpops⟩
  have hfirst := (h.passes.congr (agree_extended hextends (Nat.le_refl _)).graph).2
  exact (hfirst.mono (Nat.le_refl _) hextends.length_le fun _ _ _ => rfl).trans
    (hpath.mono h.extends_code.length_le (Nat.le_refl _) fun _ _ _ => rfl)

/-- An export without a value. -/
theorem underflows_export {name : JSString}
    (hextends : (ctx.addNamed .exportAs name).code <+: ctx'.code) : Underflows ctx ctx' := by
  have hlt : ctx.code.length < (ctx.addNamed .exportAs name).code.length := by
    simp [PipeContext.addNamed]
  refine ⟨ctx.code.length,
    documentedNode ctx.code.length (.exportAs (ctx.registerString name).1), .refl,
    Nat.lt_of_lt_of_le hlt hextends.length_le, ?_, Nat.one_pos⟩
  rw [← (agree_extended hextends (Nat.le_refl _)).graph _ (Nat.zero_le _) hlt]
  exact graph_add (ctx.registerString name).2 _

theorem extends_specifiers {specifiers : List Specifier}
    {pipeAgain : PipeContext → Except String PipeContext}
    (h : ∀ e, .expression e ∈ specifiers.flatMap Specifier.children →
      Raises (pipeExpression e) 0 1) (hagain : Raises pipeAgain a b)
    (hrun : pipeSpecifiers specifiers pipeAgain ctx = .ok ctx') : ctx.code <+: ctx'.code := by
  induction specifiers generalizing ctx with
  | nil =>
    obtain rfl := Except.ok.inj hrun
    exact List.prefix_rfl
  | cons specifier specifiers ih =>
    have hrest : ∀ {ctx}, pipeSpecifiers specifiers pipeAgain ctx = .ok ctx' →
        ctx.code <+: ctx'.code := fun hothers =>
      ih (fun e he => h e (List.mem_append_right _ he)) hothers
    cases specifier with
    | exportSpecifier binding exported =>
      simp only [pipeSpecifiers, Fallible.bind_eq_ok] at hrun
      obtain ⟨ctx₁, hbinding, hothers⟩ := hrun
      have hvalue := h binding (List.mem_append_left _ (List.mem_singleton_self _)) hbinding
      exact (hvalue.extends_code.trans (passes_export exported).extends_code).trans
        (hrest hothers)
    | exportDefaultSpecifier =>
      simp only [pipeSpecifiers, Fallible.bind_eq_ok] at hrun
      obtain ⟨ctx₁, hdeclaration, hothers⟩ := hrun
      exact ((hagain hdeclaration).extends_code.trans (passes_export _).extends_code).trans
        (hrest hothers)
    | exportNamespaceSpecifier exported =>
      have hvalue := passes_identifier (a := 0) exported ctx
      exact (hvalue.extends_code.trans (passes_export exported).extends_code).trans (hrest hrun)

/-- A default specifier emits the declaration again; when that leaves nothing,
the export has nothing to take. -/
theorem underflows_specifiers {specifiers : List Specifier}
    {pipeAgain : PipeContext → Except String PipeContext}
    (h : ∀ e, .expression e ∈ specifiers.flatMap Specifier.children →
      Raises (pipeExpression e) 0 1) (hagain : Raises pipeAgain 0 0)
    (hmem : .exportDefaultSpecifier ∈ specifiers)
    (hrun : pipeSpecifiers specifiers pipeAgain ctx = .ok ctx') : Underflows ctx ctx' := by
  induction specifiers generalizing ctx with
  | nil => exact absurd hmem List.not_mem_nil
  | cons specifier specifiers ih =>
    have hothers : ∀ e, .expression e ∈ specifiers.flatMap Specifier.children →
        Raises (pipeExpression e) 0 1 := fun e he => h e (List.mem_append_right _ he)
    cases specifier with
    | exportSpecifier binding exported =>
      simp only [pipeSpecifiers, Fallible.bind_eq_ok] at hrun
      obtain ⟨ctx₁, hbinding, hrest⟩ := hrun
      have hvalue := h binding (List.mem_append_left _ (List.mem_singleton_self _)) hbinding
      have hmem' : .exportDefaultSpecifier ∈ specifiers :=
        (List.mem_cons.mp hmem).resolve_left (by simp)
      exact (hvalue.trans (passes_export exported)).underflows
        (extends_specifiers hothers hagain hrest) (ih hothers hmem' hrest)
    | exportDefaultSpecifier =>
      simp only [pipeSpecifiers, Fallible.bind_eq_ok] at hrun
      obtain ⟨ctx₁, hdeclaration, hrest⟩ := hrun
      have hextends := extends_specifiers hothers hagain hrest
      exact (hagain hdeclaration).underflows ((passes_export _).extends_code.trans hextends)
        (underflows_export hextends)
    | exportNamespaceSpecifier exported =>
      have hmem' : .exportDefaultSpecifier ∈ specifiers :=
        (List.mem_cons.mp hmem).resolve_left (by simp)
      exact ((passes_identifier exported ctx).trans (passes_export exported)).underflows
        (extends_specifiers hothers hagain hrun) (ih hothers hmem' hrun)

/-- One step along a path through what was added. -/
theorem path_step {node : Flow.Node} {t pc h next : ℕ} {x : ℕ × ℕ}
    (hpath : Flow.Path (graph code) s t x (pc, h)) (hs : s ≤ pc) (ht : pc < t)
    (hget : graph code pc = some node) (hpops : node.pops ≤ h) (hnext : next ∈ node.next) :
    Flow.Path (graph code) s t x (next, h - node.pops + node.pushes) :=
  hpath.tail (.mk hs ht hget hpops hnext)

/-- A path that passes the test of a statement, in the final code. -/
theorem path_test {test : Expression} (htest : Raises (pipeExpression test) 0 1)
    (hcond : pipeExpression test ctx = .ok ctx₁) (hextends : ctx₁.code <+: ctx'.code) (c : ℕ) :
    Flow.Path (graph ctx'.code) ctx.code.length ctx'.code.length (ctx.code.length, c)
      (ctx₁.code.length, c + 1) := by
  have hpasses := (htest hcond).passes.congr (agree_extended hextends (Nat.le_refl _)).graph
  have hlifted := (hpasses.lift c).2
  rw [Nat.zero_add, Nat.add_comm 1 c] at hlifted
  exact hlifted.mono (Nat.le_refl _) hextends.length_le fun _ _ _ => rfl

/-- A function declaration that nobody takes off stays on the stack. -/
theorem leaks_if {test : Expression} {consequent : Statement}
    (htest : Raises (pipeExpression test) 0 1) (hthen : Raises (pipeStatement consequent) 0 1)
    (hrun : pipeStatement (.ifStatement test consequent none) ctx = .ok ctx') :
    ¬ Region ctx ctx' 0 0 := by
  simp only [pipeStatement, Fallible.bind_eq_ok, PipeContext.getCount_eq] at hrun
  obtain ⟨ctx₁, hcond, ctx₂, hbody, hreplace⟩ := hrun
  obtain ⟨hextends, hle, hlength, _, hnew, hagree⟩ :=
    replaced (hthen hbody).extends_code List.prefix_rfl hreplace
  have hstart := (htest hcond).extends_code.length_le
  have hjump := path_step (path_test htest hcond hextends 0) hstart (by omega)
    (graph_of_get hnew) (Nat.le_refl 1) List.mem_cons_self
  have hbranch := ((hthen hbody).behind hagree).2.mono (Nat.le_trans hstart (Nat.le_succ _))
    (Nat.le_of_eq hlength.symm) fun _ _ _ => rfl
  rw [← hlength] at hbranch
  intro hregion
  exact Nat.one_ne_zero (hregion.height_eq (hjump.trans hbranch))

theorem leaks_if_else {test : Expression} {consequent alternate : Statement}
    (htest : Raises (pipeExpression test) 0 1)
    (hthen : Keeps (pipeStatement consequent) 0 (if consequent.isFunctionDeclaration then 1 else 0))
    (helse : Keeps (pipeStatement alternate) 0 (if alternate.isFunctionDeclaration then 1 else 0))
    (hbranch : (consequent.isFunctionDeclaration = true ∧ Raises (pipeStatement consequent) 0 1) ∨
      (alternate.isFunctionDeclaration = true ∧ Raises (pipeStatement alternate) 0 1))
    (hrun : pipeStatement (.ifStatement test consequent (some alternate)) ctx = .ok ctx') :
    ¬ Region ctx ctx' 0 0 := by
  simp only [pipeStatement, Fallible.bind_eq_ok, PipeContext.getCount_eq] at hrun
  obtain ⟨ctx₁, hcond, ctx₂, hbody, ctx₃, hfirst, ctx₄, hother, hsecond⟩ := hrun
  have hlayout := branches (hthen hbody).extends_code hfirst (helse hother).extends_code hsecond
  have hstart := (htest hcond).extends_code.length_le
  have hle := hlayout.le
  have hle' := hlayout.else_le
  have hlength := hlayout.length_eq
  have htested := path_test htest hcond hlayout.extends_code 0
  intro hregion
  rcases hbranch with ⟨_, hraises⟩ | ⟨_, hraises⟩
  · have hjump := path_step htested hstart (by omega) (graph_of_get hlayout.jump_eq) (Nat.le_refl 1)
      List.mem_cons_self
    have hthenPath := ((hraises hbody).behind hlayout.then_agree).2.mono
      (u := ctx.code.length) (v := ctx'.code.length) (by omega) (by omega) fun _ _ _ => rfl
    have hend := path_step (hjump.trans hthenPath) (by omega) (by omega) (graph_of_get hlayout.end_eq)
      (Nat.zero_le _) (List.mem_singleton_self _)
    exact Nat.one_ne_zero (hregion.height_eq hend)
  · have hjump := path_step htested hstart (by omega) (graph_of_get hlayout.jump_eq) (Nat.le_refl 1)
      (List.mem_cons_of_mem _ (List.mem_singleton_self _))
    have helsePath := (hraises hother).passes
    rw [hlayout.else_start] at helsePath
    have helsePath' := (helsePath.congr hlayout.else_agree.graph).2.mono
      (u := ctx.code.length) (v := ctx'.code.length) (by omega) (by omega) fun _ _ _ => rfl
    rw [← hlength] at helsePath'
    exact Nat.one_ne_zero (hregion.height_eq (hjump.trans helsePath'))

theorem leaks_while {test : Expression} {body : Statement}
    (htest : Raises (pipeExpression test) 0 1) (hbody : Raises (pipeStatement body) 0 1)
    (hrun : pipeStatement (.whileStatement test body) ctx = .ok ctx') :
    ¬ Region ctx ctx' 0 0 := by
  simp only [pipeStatement, Fallible.bind_eq_ok, PipeContext.getCount_eq] at hrun
  obtain ⟨ctx₁, hcond, ctx₂, hbody', hreplace⟩ := hrun
  have hlayout := loop (hbody hbody').extends_code hreplace
  have hstart := (htest hcond).extends_code.length_le
  have hle := hlayout.le
  have hlength := hlayout.length_eq
  -- once around the loop, and then past the test
  have henter := path_step (path_test htest hcond hlayout.extends_code 0) hstart (by omega)
    (graph_of_get hlayout.test_eq) (Nat.le_refl 1) List.mem_cons_self
  have hbodyPath := ((hbody hbody').behind hlayout.body_agree).2.mono
    (u := ctx.code.length) (v := ctx'.code.length) (by omega) (by omega) fun _ _ _ => rfl
  have hback := path_step (henter.trans hbodyPath) (by omega) (by omega) (graph_of_get hlayout.jump_eq)
    (Nat.zero_le _) (List.mem_singleton_self _)
  have hagain := hback.trans (path_test htest hcond hlayout.extends_code 1)
  have hleave := path_step hagain hstart (by omega) (graph_of_get hlayout.test_eq) (Nat.le_succ 1)
    (List.mem_cons_of_mem _ (List.mem_singleton_self _))
  rw [← hlength] at hleave
  intro hregion
  exact Nat.one_ne_zero (hregion.height_eq hleave)

end AtomixJS.Compiler