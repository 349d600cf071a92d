import AtomixJS.Compiler.Emission

/-!
# The operands of generated code

An operand that is the index of a string was given out by the table.  An operand that is a number
comes from one node: a literal, the length of an array, the number of arguments of a call, or a
parameter.  `Adds` says both of what is added to a context, and every node keeps it.  Conversely the
numbers of a node are in its code.
-/

namespace AtomixJS

namespace Instruction

/-- The operand that is the index of a string. -/
def name? : Instruction → Option ℕ
  | .ldString x | .allocLocal x | .storeLocal x | .loadLocal x | .objStore x | .objLoad x
  | .exportAs x | .funcDecl x _ => some x
  | _ => none

/-- The operand is a number of the program. -/
def isNumbered : Instruction → Bool
  | .ldInt _ | .loadArg _ | .call _ => true
  | _ => false

/-- Neither. -/
def isBare (i : Instruction) : Bool := i.name?.isNone && !i.isNumbered

/-- The operands where `count` strings are registered. -/
structure Spelled (allowed : Instruction → Prop) (count : ℕ) (i : Instruction) : Prop where
  name : ∀ x, i.name? = some x → x < count
  number : i.isNumbered = true → allowed i

variable {allowed : Instruction → Prop} {count count' : ℕ} {i : Instruction}

theorem Spelled.mono (h : i.Spelled allowed count) (hle : count ≤ count') :
    i.Spelled allowed count' := { h with name := fun x hx => Nat.lt_of_lt_of_le (h.name x hx) hle }

theorem spelled_of_bare (h : i.isBare = true) : i.Spelled allowed count := by
  obtain ⟨hname, hnumber⟩ := Bool.and_eq_true_iff.mp h
  refine ⟨fun x hx => ?_, fun hnumbered => ?_⟩
  · rw [hx] at hname
    cases hname
  · rw [hnumbered] at hnumber
    cases hnumber

theorem spelled_of_name {x : ℕ} (hname : i.name? = some x) (hnumber : i.isNumbered = false)
    (hx : x < count) : i.Spelled allowed count where
  name _ hy := Option.some.inj (hname.symm.trans hy) ▸ hx
  number hnumbered := absurd (hnumber.symm.trans hnumbered) Bool.false_ne_true

theorem spelled_of_number (hname : i.name? = none) (hi : allowed i) : i.Spelled allowed count where
  name x hx := absurd (hname.symm.trans hx) (Option.some_ne_none x).symm
  number _ := hi

end Instruction

namespace Compiler

/-- The instructions of a node that hold its numbers. -/
def SyntaxNode.numbered : SyntaxNode → List Instruction
  | .expression (.numericLiteral value) => value.whole?.toList.map .ldInt
  | .expression (.callExpression _ _ arguments) => [.call arguments.length]
  | .expression (.arrayExpression elements) => [.ldInt elements.length]
  | .function (.mk _ params _) => (List.range params.length).map fun i => .loadArg (i + 1)
  | _ => []

theorem isNumbered_of_mem {n : SyntaxNode} {i : Instruction} (h : i ∈ n.numbered) :
    i.isNumbered = true := by
  unfold SyntaxNode.numbered at h
  split at h
  · obtain ⟨x, _, rfl⟩ := List.mem_map.mp h
    rfl
  · obtain rfl := List.mem_singleton.mp h
    rfl
  · obtain rfl := List.mem_singleton.mp h
    rfl
  · obtain ⟨k, _, rfl⟩ := List.mem_map.mp h
    rfl
  · exact absurd h List.not_mem_nil

/-- What was added to a context is spelled. -/
structure Adds (allowed : Instruction → Prop) (ctx ctx' : PipeContext) : Prop where
  strings_le : ctx.stable.strings.length ≤ ctx'.stable.strings.length
  new : ∀ i ∈ ctx'.code, i ∈ ctx.code ∨ i.Spelled allowed ctx'.stable.strings.length

def SyntaxNode.AddsOnly (allowed : Instruction → Prop) (n : SyntaxNode) : Prop :=
  ∀ ctx ctx', pipeNode n ctx = .ok ctx' → Adds allowed ctx ctx'

variable {allowed : Instruction → Prop} {ctx ctx' ctx₁ ctx₂ : PipeContext}

theorem registerString_lt (ctx : PipeContext) (x : JSString) :
    (ctx.registerString x).1 < (ctx.registerString x).2.stable.strings.length :=
  (List.getElem?_eq_some_iff.mp (ctx.stable.registerString_getElem? x)).1

namespace Adds

theorem of_code_eq (hcode : ctx.code = ctx'.code)
    (hle : ctx.stable.strings.length ≤ ctx'.stable.strings.length) : Adds allowed ctx ctx' :=
  ⟨hle, fun _ hi => .inl (hcode ▸ hi)⟩

theorem refl (ctx : PipeContext) : Adds allowed ctx ctx := of_code_eq rfl (Nat.le_refl _)

theorem trans (h : Adds allowed ctx ctx₁) (h' : Adds allowed ctx₁ ctx₂) : Adds allowed ctx ctx₂ where
  strings_le := Nat.le_trans h.strings_le h'.strings_le
  new := by
    intro i hi
    rcases h'.new i hi with hold | hnew
    · exact (h.new i hold).imp_right fun hnew => hnew.mono h'.strings_le
    · exact .inr hnew

theorem register (ctx : PipeContext) (x : JSString) : Adds allowed ctx (ctx.registerString x).2 :=
  of_code_eq rfl (ctx.stable.registerString_prefix x).length_le

theorem reverse (ctx : PipeContext) (id : ℕ) : Adds allowed ctx (ctx.reverseArguments id).2 :=
  of_code_eq (ctx.reverseArguments_code id).symm (Extends.reverse ctx id).strings.length_le

theorem spelled {instruction : Instruction}
    (h : instruction.Spelled allowed ctx.stable.strings.length) :
    Adds allowed ctx (ctx.addInstruction instruction) where
  strings_le := Nat.le_refl _
  new := by
    intro i hi
    rw [PipeContext.addInstruction_code, List.mem_append, List.mem_singleton] at hi
    rcases hi with hold | rfl
    · exact .inl hold
    · exact .inr h

theorem bare (ctx : PipeContext) {instruction : Instruction} (h : instruction.isBare = true) :
    Adds allowed ctx (ctx.addInstruction instruction) := spelled (Instruction.spelled_of_bare h)

/-- The index of a string that was registered before. -/
theorem named {instruction : Instruction} {x : JSString}
    (hname : instruction.name? = some (ctx.registerString x).1)
    (hnumber : instruction.isNumbered = false)
    (hle : (ctx.registerString x).2.stable.strings.length ≤ ctx₁.stable.strings.length) :
    Adds allowed ctx₁ (ctx₁.addInstruction instruction) :=
  spelled (Instruction.spelled_of_name hname hnumber
    (Nat.lt_of_lt_of_le (registerString_lt ctx x) hle))

theorem addNamed (ctx : PipeContext) {named : ℕ → Instruction} (name : JSString)
    (hname : ∀ idx, (named idx).name? = some idx)
    (hnumber : ∀ idx, (named idx).isNumbered = false) : Adds allowed ctx (ctx.addNamed named name) :=
  (register ctx name).trans (Adds.named (hname _) (hnumber _) (Nat.le_refl _))

theorem number (ctx : PipeContext) {instruction : Instruction} (hname : instruction.name? = none)
    (h : allowed instruction) : Adds allowed ctx (ctx.addInstruction instruction) :=
  spelled (Instruction.spelled_of_number hname h)

/-- An instruction in the place of another one. -/
theorem replaced {index : ℕ} {instruction : Instruction} (h : Adds allowed ctx ctx₁)
    (hnew : instruction.Spelled allowed ctx₁.stable.strings.length)
    (hreplace : ctx₁.replaceInstruction index instruction = .ok ctx') : Adds allowed ctx ctx' := by
  obtain ⟨_, hcode, hstable⟩ := PipeContext.replaceInstruction_ok hreplace
  refine ⟨hstable ▸ h.strings_le, fun i hi => ?_⟩
  rw [hcode] at hi
  rw [hstable]
  rcases List.mem_or_eq_of_mem_set hi with hold | rfl
  · exact h.new i hold
  · exact .inr hnew

end Adds

/-! ## Parts of nodes -/

theorem adds_foldlM {α : Type} {f : PipeContext → α → Except String PipeContext} {xs : List α}
    (h : ∀ x ctx ctx', f ctx x = .ok ctx' → Adds allowed ctx ctx')
    (hrun : xs.foldlM f ctx = .ok ctx') : Adds allowed ctx ctx' := by
  induction xs generalizing ctx with
  | nil =>
    obtain rfl := Except.ok.inj hrun
    exact .refl ctx
  | cons x xs ih =>
    simp only [List.foldlM_cons, Fallible.bind_eq_ok] at hrun
    obtain ⟨ctx₁, hx, hxs⟩ := hrun
    exact (h x ctx ctx₁ hx).trans (ih hxs)

theorem adds_numericLiteral {value : Binary64} (ctx : PipeContext)
    (hallowed : ∀ i ∈ (SyntaxNode.expression (.numericLiteral value)).numbered, allowed i) :
    Adds allowed ctx (pipeNumericLiteral value ctx) := by
  unfold pipeNumericLiteral
  split
  · next n hn =>
    refine .number ctx rfl (hallowed _ ?_)
    simp only [SyntaxNode.numbered, hn, Option.toList_some, List.map_cons, List.map_nil,
      List.mem_singleton]
  · exact .bare ctx rfl

theorem adds_identifier (name : JSString) (ctx : PipeContext) :
    Adds allowed ctx (pipeIdentifier name ctx) := by
  unfold pipeIdentifier
  split
  · exact .bare ctx rfl
  · exact .addNamed ctx name (fun _ => rfl) fun _ => rfl

theorem adds_unaryOperator {operator : UnaryOperator}
    (hrun : pipeUnaryOperator operator ctx = .ok ctx') : Adds allowed ctx ctx' := by
  cases operator with
  | other text => cases hrun
  | void =>
    obtain rfl := Except.ok.inj hrun
    exact (Adds.bare ctx rfl).trans (.bare _ rfl)
  | _ =>
    obtain rfl := Except.ok.inj hrun
    exact .bare ctx rfl

theorem adds_declaratorId {id : DeclaratorId} (hrun : pipeDeclaratorId id ctx = .ok ctx') :
    Adds allowed ctx ctx' := by
  cases id with
  | identifier name =>
    obtain rfl := Except.ok.inj hrun
    exact .addNamed ctx name (fun _ => rfl) fun _ => rfl
  | objectPattern properties =>
    refine adds_foldlM (fun property ctx ctx' hrun => ?_) hrun
    match property with
    | .objectProperty (some key) (some value) =>
      obtain rfl := Except.ok.inj hrun
      have hkey : Adds allowed ctx ((ctx.addInstruction .dup).registerString key).2 :=
        (Adds.bare ctx rfl).trans (.register _ key)
      have hvalue : Adds allowed _ (((ctx.addInstruction .dup).registerString key).2.registerString
        value).2 := .register _ value
      exact ((hkey.trans hvalue).trans (.named rfl rfl hvalue.strings_le)).trans
        (.named rfl rfl (Nat.le_refl _))
    | .objectProperty (some _) none | .objectProperty none _ | .restElement => cases hrun
  | other type => cases hrun

/-- The parameters from number `i` on. -/
theorem adds_params {params : List (Option JSString)} {i : ℕ}
    (hallowed : ∀ k, i ≤ k → k < i + params.length → allowed (.loadArg (k + 1)))
    (hrun : pipeParams params i ctx = .ok ctx') : Adds allowed ctx ctx' := by
  induction params generalizing ctx i with
  | nil =>
    obtain rfl := Except.ok.inj hrun
    exact .refl ctx
  | cons param params ih =>
    rw [List.length_cons] at hallowed
    cases param with
    | none => cases hrun
    | some name =>
      have hargument : Adds allowed ctx (ctx.addInstruction (.loadArg (i + 1))) :=
        .number ctx rfl (hallowed i (Nat.le_refl i) (by omega))
      have hname : Adds allowed (ctx.addInstruction (.loadArg (i + 1)))
          ((ctx.addInstruction (.loadArg (i + 1))).addNamed .allocLocal name) :=
        .addNamed _ name (fun _ => rfl) fun _ => rfl
      exact (hargument.trans hname).trans
        (ih (fun k hk hk' => hallowed k (by omega) (by omega)) hrun)

theorem adds_export (ctx : PipeContext) (name : JSString) :
    Adds allowed ctx (ctx.addNamed .exportAs name) :=
  .addNamed ctx name (fun _ => rfl) fun _ => rfl

theorem adds_exportDeclaration {declaration : Declaration}
    (hrun : pipeExportDeclaration declaration ctx = .ok ctx') : Adds allowed ctx ctx' := by
  match declaration with
  | .variableDeclaration declarations =>
    refine adds_foldlM (fun declarator ctx ctx' hrun => ?_) hrun
    match declarator with
    | .mk (.identifier name) _ =>
      obtain rfl := Except.ok.inj hrun
      exact (adds_identifier name ctx).trans (adds_export _ name)
    | .mk (.objectPattern _) _ | .mk (.other _) _ => cases hrun
  | .functionDeclaration (.mk (some name) _ _) =>
    obtain rfl := Except.ok.inj hrun
    exact adds_export ctx name
  | .functionDeclaration (.mk none _ _) | .other _ => cases hrun

theorem adds_arguments {arguments : List Expression}
    (hchildren : ∀ e ∈ arguments, (SyntaxNode.expression e).AddsOnly allowed)
    (hrun : pipeArguments arguments ctx = .ok ctx') : Adds allowed ctx ctx' := by
  induction arguments generalizing ctx with
  | nil =>
    obtain rfl := Except.ok.inj hrun
    exact .refl ctx
  | cons argument arguments ih =>
    simp only [pipeArguments, Fallible.bind_eq_ok] at hrun
    obtain ⟨ctx₁, hfirst, hrest⟩ := hrun
    exact (hchildren argument List.mem_cons_self _ _ hfirst).trans
      (ih (fun e he => hchildren e (List.mem_cons_of_mem _ he)) hrest)

theorem adds_reversed {arguments : List Expression}
    (hchildren : ∀ e ∈ arguments, (SyntaxNode.expression e).AddsOnly allowed)
    (hrun : pipeReversed arguments ctx = .ok ctx') : Adds allowed ctx ctx' := by
  induction arguments generalizing ctx' with
  | nil =>
    obtain rfl := Except.ok.inj hrun
    exact .refl ctx
  | cons argument arguments ih =>
    simp only [pipeReversed, Fallible.bind_eq_ok] at hrun
    obtain ⟨ctx₁, hrest, hfirst⟩ := hrun
    exact (ih (fun e he => hchildren e (List.mem_cons_of_mem _ he)) hrest).trans
      (hchildren argument List.mem_cons_self _ _ hfirst)

theorem adds_member {object property : Expression} {computed doubleObject : Bool}
    (hchildren : ∀ c ∈ memberChildren object property computed, c.AddsOnly allowed)
    (hrun : pipeMemberExpression object property (pipeExpression object) (pipeExpression property)
      computed doubleObject ctx = .ok ctx') : Adds allowed ctx ctx' := by
  unfold memberChildren at hchildren
  unfold pipeMemberExpression at hrun
  rw [Fallible.bind_eq_ok] at hrun
  obtain ⟨ctx₁, hobject, hproperty⟩ := hrun
  have hfirst : Adds allowed ctx ctx₁ := by
    by_cases hsuper : object.isSuper = false
    · rw [pipeMemberObject_of_not_super hsuper, Fallible.bind_eq_ok] at hobject
      obtain ⟨ctx₂, hvalue, hdouble⟩ := hobject
      obtain rfl := Fallible.pure_eq_ok.mp hdouble
      rw [hsuper] at hchildren
      refine Adds.trans (hchildren (.expression object) (by simp) _ _ hvalue) ?_
      cases doubleObject with
      | false => exact .refl _
      | true => exact .bare _ rfl
    · obtain ⟨extra, rfl⟩ : ∃ extra, object = .super extra := by
        cases object <;> first | exact ⟨_, rfl⟩ | exact absurd rfl hsuper
      cases extra with
      | none => cases hobject
      | some extra =>
        unfold pipeMemberObject at hobject
        simp only [Fallible.guard_eq_ok, Except.ok.injEq] at hobject
        obtain ⟨_, rfl⟩ := hobject
        have hthis : Adds allowed ctx (if doubleObject then ctx.addInstruction .ldThis else ctx) := by
          cases doubleObject with
          | false => exact .refl _
          | true => exact .bare _ rfl
        refine hthis.trans ?_
        have hclass : ∀ ctx : PipeContext,
            Adds allowed ctx (ctx.addNamed .loadLocal extra.targetName) :=
          fun ctx => .addNamed ctx _ (fun _ => rfl) fun _ => rfl
        cases extra.isStatic with
        | true => exact hclass _
        | false => exact (hclass _).trans (.addNamed _ _ (fun _ => rfl) fun _ => rfl)
  refine hfirst.trans ?_
  unfold pipeMemberProperty at hproperty
  split at hproperty
  · next hcomputed =>
    simp only [Fallible.bind_eq_ok, Fallible.pure_eq_ok] at hproperty
    obtain ⟨ctx₂, hkey, rfl⟩ := hproperty
    rw [if_pos hcomputed] at hchildren
    exact Adds.trans (hchildren (.expression property) (by simp) _ _ hkey) (.bare _ rfl)
  · split at hproperty
    · obtain rfl := Except.ok.inj hproperty
      exact .addNamed _ _ (fun _ => rfl) fun _ => rfl
    · cases hproperty

theorem adds_callee {callee : Expression}
    (hchildren : ∀ c ∈ calleeChildren callee, c.AddsOnly allowed)
    (hrun : pipeCallee callee ctx = .ok ctx') : Adds allowed ctx ctx' := by
  cases callee with
  | memberExpression object property computed => exact adds_member hchildren hrun
  | _ => exact (Adds.bare ctx rfl).trans (hchildren _ (List.mem_singleton_self _) _ _ hrun)

theorem adds_properties {properties : List Property}
    (hchildren : ∀ c ∈ properties.flatMap Property.children, c.AddsOnly allowed)
    (hrun : pipeProperties properties ctx = .ok ctx') : Adds allowed ctx ctx' := by
  induction properties generalizing ctx with
  | nil =>
    obtain rfl := Except.ok.inj hrun
    exact .refl ctx
  | cons property properties ih =>
    rw [List.flatMap_cons] at hchildren
    match property with
    | .objectProperty (some key) value =>
      simp only [pipeProperties, Fallible.bind_eq_ok] at hrun
      obtain ⟨ctx₁, hvalue, hrest⟩ := hrun
      have hkey : Adds allowed ctx ((ctx.addInstruction .dup).registerString key).2 :=
        (Adds.bare ctx rfl).trans (.register _ key)
      have hfirst : Adds allowed _ ctx₁ :=
        hchildren (.expression value) (List.mem_append_left _ (List.mem_singleton_self _)) _ _ hvalue
      -- the key was registered before the value was emitted
      exact ((hkey.trans hfirst).trans (.named rfl rfl hfirst.strings_le)).trans
        (ih (fun c hc => hchildren c (List.mem_append_right _ hc)) hrest)
    | .objectProperty none _ | .objectMethod none | .objectMethod (some _) | .spreadElement =>
      cases hrun

theorem adds_elements {elements : List (Option Expression)} {i : ℕ}
    (hchildren : ∀ c ∈ elements.filterMap (Option.map .expression), SyntaxNode.AddsOnly allowed c)
    (hrun : pipeElements elements i ctx = .ok ctx') : Adds allowed ctx ctx' := by
  induction elements generalizing ctx i with
  | nil =>
    obtain rfl := Except.ok.inj hrun
    exact .refl ctx
  | cons element elements ih =>
    cases element with
    | none => cases hrun
    | some element =>
      replace hchildren : ∀ c ∈ SyntaxNode.expression element ::
          elements.filterMap (Option.map .expression), c.AddsOnly allowed := hchildren
      simp only [pipeElements, Fallible.bind_eq_ok] at hrun
      obtain ⟨ctx₁, hvalue, hrest⟩ := hrun
      have hfirst := (Adds.bare ctx rfl).trans (hchildren _ List.mem_cons_self _ _ hvalue)
      exact (hfirst.trans (.addNamed _ _ (fun _ => rfl) fun _ => rfl)).trans
        (ih (fun c hc => hchildren c (List.mem_cons_of_mem _ hc)) hrest)

theorem adds_items {items : List Statement}
    (hchildren : ∀ s ∈ items, (SyntaxNode.item s).AddsOnly allowed)
    (hrun : pipeItems items ctx = .ok ctx') : Adds allowed ctx ctx' := by
  induction items generalizing ctx with
  | nil =>
    obtain rfl := Except.ok.inj hrun
    exact .refl ctx
  | cons item items ih =>
    rw [pipeItems_cons, Fallible.bind_eq_ok] at hrun
    obtain ⟨ctx₁, hitem, hrest⟩ := hrun
    exact (hchildren item List.mem_cons_self _ _ hitem).trans
      (ih (fun s hs => hchildren s (List.mem_cons_of_mem _ hs)) hrest)

theorem adds_declarators {declarations : List Declarator}
    (hchildren : ∀ d ∈ declarations, (SyntaxNode.declarator d).AddsOnly allowed)
    (hrun : pipeDeclarators declarations ctx = .ok ctx') : Adds allowed ctx ctx' := by
  induction declarations generalizing ctx with
  | nil =>
    obtain rfl := Except.ok.inj hrun
    exact .refl ctx
  | cons declarator declarations ih =>
    simp only [pipeDeclarators, Fallible.bind_eq_ok] at hrun
    obtain ⟨ctx₁, hfirst, hrest⟩ := hrun
    exact (hchildren declarator List.mem_cons_self _ _ hfirst).trans
      (ih (fun d hd => hchildren d (List.mem_cons_of_mem _ hd)) hrest)

theorem adds_specifiers {specifiers : List Specifier}
    {pipeAgain : PipeContext → Except String PipeContext}
    (hagain : ∀ ctx ctx', pipeAgain ctx = .ok ctx' → Adds allowed ctx ctx')
    (hchildren : ∀ c ∈ specifiers.flatMap Specifier.children, c.AddsOnly allowed)
    (hrun : pipeSpecifiers specifiers pipeAgain ctx = .ok ctx') : Adds allowed ctx ctx' := by
  induction specifiers generalizing ctx with
  | nil =>
    obtain rfl := Except.ok.inj hrun
    exact .refl ctx
  | cons specifier specifiers ih =>
    rw [List.flatMap_cons] at hchildren
    have hrest := fun {ctx : PipeContext} (h : pipeSpecifiers specifiers pipeAgain ctx = .ok ctx') =>
      ih (fun c hc => hchildren c (List.mem_append_right _ hc)) h
    cases specifier with
    | exportSpecifier binding exported =>
      simp only [pipeSpecifiers, Fallible.bind_eq_ok] at hrun
      obtain ⟨ctx₁, hbinding, hrun⟩ := hrun
      have hfirst : Adds allowed ctx ctx₁ :=
        hchildren _ (List.mem_append_left _ (List.mem_singleton_self _)) _ _ hbinding
      exact (hfirst.trans (adds_export ctx₁ exported)).trans (hrest hrun)
    | exportDefaultSpecifier =>
      simp only [pipeSpecifiers, Fallible.bind_eq_ok] at hrun
      obtain ⟨ctx₁, hdeclaration, hrun⟩ := hrun
      exact ((hagain ctx ctx₁ hdeclaration).trans (adds_export ctx₁ _)).trans (hrest hrun)
    | exportNamespaceSpecifier exported =>
      exact ((adds_identifier exported ctx).trans (adds_export _ exported)).trans (hrest hrun)

/-! ## Nodes -/

theorem adds_target {object property : Expression} {computed : Bool}
    (hchildren : ∀ c ∈ (AssignmentTarget.memberExpression object property computed).children,
      c.AddsOnly allowed)
    (hrun : (match computed, property with
      | false, .identifier name => do
        let ctx ← pipeExpression object ctx
        pure ((ctx.addInstruction .swap).addNamed .objStore name)
      | _, property => do
        let ctx ← pipeExpression object ctx
        let ctx ← pipeExpression property ctx
        pure (ctx.addInstruction .objCstore)) = Except.ok ctx') : Adds allowed ctx ctx' := by
  split at hrun
  · next name =>
    simp only [Fallible.bind_eq_ok, Fallible.pure_eq_ok] at hrun
    obtain ⟨ctx₁, hobject, rfl⟩ := hrun
    have hfirst : Adds allowed ctx ctx₁ := hchildren _ (List.mem_singleton_self _) _ _ hobject
    exact (hfirst.trans (.bare ctx₁ rfl)).trans (.addNamed _ name (fun _ => rfl) fun _ => rfl)
  · next hname =>
    simp only [Fallible.bind_eq_ok, Fallible.pure_eq_ok] at hrun
    obtain ⟨ctx₁, hobject, ctx₂, hproperty, rfl⟩ := hrun
    have htarget : AssignmentTarget.children (.memberExpression object property computed) =
        [.expression object, .expression property] := by
      unfold AssignmentTarget.children
      split <;> simp_all
    rw [htarget] at hchildren
    have hfirst : Adds allowed ctx ctx₁ := hchildren _ List.mem_cons_self _ _ hobject
    have hsecond : Adds allowed ctx₁ ctx₂ :=
      hchildren (.expression property) (List.mem_cons_of_mem _ (List.mem_singleton_self _)) _ _
        hproperty
    exact (hfirst.trans hsecond).trans (.bare _ rfl)

theorem adds_expression {e : Expression}
    (hallowed : ∀ i ∈ (SyntaxNode.expression e).numbered, allowed i)
    (hchildren : ∀ c ∈ e.children, c.AddsOnly allowed) (hrun : pipeExpression e ctx = .ok ctx') :
    Adds allowed ctx ctx' := by
  match e with
  | .stringLiteral value =>
    obtain rfl := Except.ok.inj hrun
    exact .addNamed ctx value (fun _ => rfl) fun _ => rfl
  | .numericLiteral value =>
    obtain rfl := Except.ok.inj hrun
    exact adds_numericLiteral ctx hallowed
  | .booleanLiteral value =>
    obtain rfl := Except.ok.inj hrun
    cases value <;> exact .bare ctx rfl
  | .nullLiteral | .thisExpression =>
    obtain rfl := Except.ok.inj hrun
    exact .bare ctx rfl
  | .identifier name =>
    obtain rfl := Except.ok.inj hrun
    exact adds_identifier name ctx
  | .binaryExpression operator left right =>
    simp only [pipeExpression, Fallible.bind_eq_ok, Fallible.pure_eq_ok] at hrun
    obtain ⟨ctx₁, hleft, ctx₂, hright, opcode, _, rfl⟩ := hrun
    have hfirst : Adds allowed ctx ctx₁ := hchildren _ List.mem_cons_self _ _ hleft
    have hsecond : Adds allowed ctx₁ ctx₂ :=
      hchildren (.expression right) (List.mem_cons_of_mem _ (List.mem_singleton_self _)) _ _ hright
    exact (hfirst.trans hsecond).trans (.bare _ rfl)
  | .unaryExpression operator argument =>
    simp only [pipeExpression, Fallible.bind_eq_ok] at hrun
    obtain ⟨ctx₁, hargument, hoperator⟩ := hrun
    have hfirst : Adds allowed ctx ctx₁ := hchildren _ (List.mem_singleton_self _) _ _ hargument
    exact hfirst.trans (adds_unaryOperator hoperator)
  | .callExpression callee id arguments =>
    simp only [pipeExpression, Fallible.bind_eq_ok, Fallible.pure_eq_ok] at hrun
    obtain ⟨ctx₁, hpushed, ctx₂, hcalled, rfl⟩ := hrun
    have harguments : Adds allowed (ctx.reverseArguments id).2 ctx₁ := by
      have hmem : ∀ e ∈ arguments, (SyntaxNode.expression e).AddsOnly allowed :=
        fun e he => hchildren _ (List.mem_append_left _ (List.mem_map_of_mem he))
      split at hpushed
      · exact adds_arguments hmem hpushed
      · exact adds_reversed hmem hpushed
    have hcallee := adds_callee (fun c hc => hchildren c (List.mem_append_right _ hc)) hcalled
    exact (((Adds.reverse ctx id).trans harguments).trans hcallee).trans
      (.number ctx₂ rfl (hallowed _ (List.mem_singleton_self _)))
  | .objectExpression properties =>
    exact (Adds.bare ctx rfl).trans (adds_properties hchildren hrun)
  | .arrayExpression elements =>
    have halloc : Adds allowed ctx ((ctx.addInstruction .arrAlloc).addInstruction .dup) :=
      (Adds.bare ctx rfl).trans (.bare _ rfl)
    have hname : Adds allowed ((ctx.addInstruction .arrAlloc).addInstruction .dup)
        (((ctx.addInstruction .arrAlloc).addInstruction .dup).registerString
          (jsString "length")).2 := .register _ _
    have hlength := (halloc.trans hname).trans
      (.number _ rfl (hallowed (.ldInt elements.length) (List.mem_singleton_self _)))
    exact (hlength.trans (.named rfl rfl (Nat.le_refl _))).trans (adds_elements hchildren hrun)
  | .memberExpression object property computed => exact adds_member hchildren hrun
  | .assignmentExpression simple left right =>
    unfold pipeExpression at hrun
    split at hrun
    · cases hrun
    · cases left with
      | pattern =>
        obtain rfl := Except.ok.inj hrun
        exact .refl ctx
      | identifier name =>
        simp only [Fallible.bind_eq_ok, Fallible.pure_eq_ok] at hrun
        obtain ⟨ctx₁, hright, rfl⟩ := hrun
        have hfirst : Adds allowed ctx ctx₁ := hchildren _ List.mem_cons_self _ _ hright
        exact (hfirst.trans (.bare ctx₁ rfl)).trans (.addNamed _ name (fun _ => rfl) fun _ => rfl)
      | memberExpression object property computed =>
        simp only [Fallible.bind_eq_ok] at hrun
        obtain ⟨ctx₁, hright, hstore⟩ := hrun
        have hvalue : Adds allowed ctx ctx₁ := hchildren _ List.mem_cons_self _ _ hright
        exact (hvalue.trans (.bare ctx₁ rfl)).trans
          (adds_target (fun c hc => hchildren c (List.mem_cons_of_mem _ hc)) hstore)
  | .functionExpression function => exact hchildren _ (List.mem_singleton_self _) _ _ hrun
  | .super _ | .other _ => cases hrun

theorem adds_declaration {d : Declaration} (hchildren : ∀ c ∈ d.children, c.AddsOnly allowed)
    (hrun : pipeDeclaration d ctx = .ok ctx') : Adds allowed ctx ctx' := by
  cases d with
  | variableDeclaration declarations =>
    exact adds_declarators (fun d hd => hchildren _ (List.mem_map_of_mem hd)) hrun
  | functionDeclaration function => exact hchildren _ (List.mem_singleton_self _) _ _ hrun
  | other type => cases hrun

theorem adds_function {f : FunctionNode}
    (hallowed : ∀ i ∈ (SyntaxNode.function f).numbered, allowed i)
    (hchildren : ∀ c ∈ (SyntaxNode.function f).children, c.AddsOnly allowed)
    (hrun : pipeFunction f ctx = .ok ctx') : Adds allowed ctx ctx' := by
  obtain ⟨id, params, body⟩ := f
  have hbody : ∀ {ctx₁ ctx₂ ctx₃ : PipeContext}, pipeParams params 0 ctx₁ = .ok ctx₂ →
      pipeBlock body ctx₂ = .ok ctx₃ → Adds allowed ctx₁ ctx₃ := by
    intro ctx₁ ctx₂ ctx₃ hparams hblock
    have hall : ∀ k, 0 ≤ k → k < 0 + params.length → allowed (.loadArg (k + 1)) := fun k _ hk =>
      hallowed _ (List.mem_map_of_mem (List.mem_range.mpr (by omega)))
    exact (adds_params hall hparams).trans (hchildren _ (List.mem_singleton_self _) _ _ hblock)
  have hstart : Adds allowed ctx (ctx.addInstruction .nop) := .bare ctx rfl
  unfold pipeFunction at hrun
  cases id with
  | none =>
    simp only [Fallible.bind_eq_ok, PipeContext.getCount_eq] at hrun
    obtain ⟨ctx₁, hparams, ctx₂, hblock, hreplace⟩ := hrun
    exact (hstart.trans (hbody hparams hblock)).replaced (Instruction.spelled_of_bare rfl) hreplace
  | some name =>
    simp only [Fallible.bind_eq_ok, PipeContext.getCount_eq] at hrun
    obtain ⟨ctx₁, hparams, ctx₂, hblock, hreplace⟩ := hrun
    have hname : Adds allowed ctx ((ctx.addInstruction .nop).registerString name).2 :=
      hstart.trans (.register _ name)
    have hinner := hbody hparams hblock
    have hidx := registerString_lt (ctx.addInstruction .nop) name
    exact (hname.trans hinner).replaced
      (Instruction.spelled_of_name rfl rfl (Nat.lt_of_lt_of_le hidx hinner.strings_le)) hreplace

theorem adds_statement {s : Statement} (hchildren : ∀ c ∈ s.children, c.AddsOnly allowed)
    (hrun : pipeStatement s ctx = .ok ctx') : Adds allowed ctx ctx' := by
  match s with
  | .expressionStatement e =>
    simp only [pipeStatement, Fallible.bind_eq_ok, Fallible.pure_eq_ok] at hrun
    obtain ⟨ctx₁, he, rfl⟩ := hrun
    have hfirst : Adds allowed ctx ctx₁ := hchildren _ (List.mem_singleton_self _) _ _ he
    exact hfirst.trans (.bare _ rfl)
  | .declaration d => exact hchildren _ (List.mem_singleton_self _) _ _ hrun
  | .blockStatement b => exact hchildren _ (List.mem_singleton_self _) _ _ hrun
  | .returnStatement none =>
    obtain rfl := Except.ok.inj hrun
    exact .bare ctx rfl
  | .returnStatement (some e) =>
    simp only [pipeStatement, Fallible.bind_eq_ok, Fallible.pure_eq_ok] at hrun
    obtain ⟨ctx₁, he, rfl⟩ := hrun
    have hfirst : Adds allowed ctx ctx₁ := hchildren _ (List.mem_singleton_self _) _ _ he
    exact hfirst.trans (.bare _ rfl)
  | .ifStatement test consequent none =>
    simp only [pipeStatement, Fallible.bind_eq_ok, PipeContext.getCount_eq] at hrun
    obtain ⟨ctx₁, htest, ctx₂, hconsequent, hreplace⟩ := hrun
    have hfirst : Adds allowed ctx ctx₁ := hchildren _ List.mem_cons_self _ _ htest
    have hthen : Adds allowed _ ctx₂ :=
      hchildren (.statement consequent) (by simp [Statement.children]) _ _ hconsequent
    exact ((hfirst.trans (.bare _ rfl)).trans hthen).replaced (Instruction.spelled_of_bare rfl)
      hreplace
  | .ifStatement test consequent (some alternate) =>
    simp only [pipeStatement, Fallible.bind_eq_ok, PipeContext.getCount_eq] at hrun
    obtain ⟨ctx₁, htest, ctx₂, hconsequent, ctx₃, hjump, ctx₄, halternate, hend⟩ := hrun
    have hfirst : Adds allowed ctx ctx₁ := hchildren _ List.mem_cons_self _ _ htest
    have hthen : Adds allowed _ ctx₂ :=
      hchildren (.statement consequent) (by simp [Statement.children]) _ _ hconsequent
    have helse : Adds allowed ctx₃ ctx₄ :=
      hchildren (.statement alternate) (by simp [Statement.children]) _ _ halternate
    have hbranch := (((hfirst.trans (.bare _ rfl)).trans hthen).trans (.bare _ rfl)).replaced
      (Instruction.spelled_of_bare rfl) hjump
    exact (hbranch.trans helse).replaced (Instruction.spelled_of_bare rfl) hend
  | .whileStatement test body =>
    simp only [pipeStatement, Fallible.bind_eq_ok, PipeContext.getCount_eq] at hrun
    obtain ⟨ctx₁, htest, ctx₂, hbody, hreplace⟩ := hrun
    have hfirst : Adds allowed ctx ctx₁ := hchildren _ List.mem_cons_self _ _ htest
    have hround : Adds allowed _ ctx₂ :=
      hchildren (.statement body) (by simp [Statement.children]) _ _ hbody
    exact (((hfirst.trans (.bare _ rfl)).trans hround).trans (.bare _ rfl)).replaced
      (Instruction.spelled_of_bare rfl) hreplace
  | .exportNamedDeclaration none specifiers =>
    exact adds_specifiers (fun _ _ h => by cases h) hchildren hrun
  | .exportNamedDeclaration (some d) specifiers =>
    simp only [pipeStatement, Fallible.bind_eq_ok] at hrun
    obtain ⟨ctx₁, hd, ctx₂, hexport, hspecifiers⟩ := hrun
    have hagain : (SyntaxNode.declaration d).AddsOnly allowed := hchildren _ List.mem_cons_self
    exact ((hagain _ _ hd).trans (adds_exportDeclaration hexport)).trans
      (adds_specifiers hagain (fun c hc => hchildren c (List.mem_cons_of_mem _ hc)) hspecifiers)
  | .exportDefaultDeclaration (.expression e) =>
    simp only [pipeStatement, Fallible.bind_eq_ok, Fallible.pure_eq_ok] at hrun
    obtain ⟨ctx₁, he, rfl⟩ := hrun
    have hfirst : Adds allowed ctx ctx₁ := hchildren _ (List.mem_singleton_self _) _ _ he
    exact hfirst.trans (adds_export ctx₁ _)
  | .exportDefaultDeclaration (.declaration d) =>
    simp only [pipeStatement, Fallible.bind_eq_ok, Fallible.pure_eq_ok] at hrun
    obtain ⟨ctx₁, hd, rfl⟩ := hrun
    have hfirst : Adds allowed ctx ctx₁ := hchildren _ (List.mem_singleton_self _) _ _ hd
    exact hfirst.trans (adds_export ctx₁ _)
  | .other type => cases hrun

/-- What a node adds is spelled by the numbers of the nodes in it. -/
theorem adds_node (n : SyntaxNode)
    (hallowed : ∀ m, SyntaxNode.Within n m → ∀ i ∈ m.numbered, allowed i) :
    n.AddsOnly allowed := by
  induction n using SyntaxNode.induction with
  | h n ih =>
    intro ctx ctx' hrun
    have hchildren : ∀ c ∈ n.children, c.AddsOnly allowed := fun c hc =>
      ih c hc fun m hm => hallowed m (.child hc hm)
    have hself := hallowed n (.self n)
    cases n with
    | program body =>
      exact adds_items (fun s hs => hchildren _ (List.mem_map_of_mem hs)) hrun
    | expression e => exact adds_expression hself hchildren hrun
    | function f => exact adds_function hself hchildren hrun
    | block b =>
      obtain ⟨isVirtual, body⟩ := b
      simp only [pipeNode, pipeBlock, Fallible.bind_eq_ok, Fallible.pure_eq_ok] at hrun
      obtain ⟨ctx₁, hitems, rfl⟩ := hrun
      have hbody := adds_items (fun s hs => hchildren _ (List.mem_map_of_mem hs)) hitems
      cases isVirtual with
      | true => exact hbody
      | false => exact ((Adds.bare ctx rfl).trans hbody).trans (.bare _ rfl)
    | item s =>
      simp only [pipeNode, pipeItem, Fallible.bind_eq_ok, Fallible.pure_eq_ok] at hrun
      obtain ⟨ctx₁, hs, rfl⟩ := hrun
      have hfirst : Adds allowed ctx ctx₁ := hchildren _ (List.mem_singleton_self _) _ _ hs
      refine hfirst.trans ?_
      split
      · exact .bare _ rfl
      · exact .refl _
    | statement s => exact adds_statement hchildren hrun
    | declaration d => exact adds_declaration hchildren hrun
    | declarator d =>
      obtain ⟨id, init⟩ := d
      cases init with
      | none => exact (Adds.bare ctx rfl).trans (adds_declaratorId hrun)
      | some e =>
        simp only [pipeNode, pipeDeclarator, Fallible.bind_eq_ok] at hrun
        obtain ⟨ctx₁, he, hid⟩ := hrun
        have hfirst : Adds allowed ctx ctx₁ := hchildren _ (List.mem_singleton_self _) _ _ he
        exact hfirst.trans (adds_declaratorId hid)

/-! ## The numbers of a node -/

/-- An instruction stands in what was added to a context. -/
def Added (ctx ctx' : PipeContext) (i : Instruction) : Prop :=
  ∃ pc, ctx.code.length ≤ pc ∧ ctx'.code[pc]? = some i

theorem Visits.extends {nodes : List SyntaxNode} (h : Visits nodes ctx ctx') : Extends ctx ctx' := by
  obtain ⟨visits, hemission, _⟩ := h
  exact hemission.extends

namespace Added

variable {i instruction : Instruction}

theorem last (ctx : PipeContext) (i : Instruction) : Added ctx (ctx.addInstruction i) i :=
  ⟨ctx.code.length, Nat.le_refl _, List.getElem?_concat_length⟩

theorem later (h : Added ctx ctx₁ i) (hextends : Extends ctx₁ ctx') : Added ctx ctx' i := by
  obtain ⟨pc, hle, hi⟩ := h
  have hlt := (List.getElem?_eq_some_iff.mp hi).1
  refine ⟨pc, hle, ?_⟩
  rw [← agree_extended hextends.code (Nat.le_refl _) pc (Nat.zero_le _) hlt]
  exact hi

theorem earlier (h : Added ctx₁ ctx' i) (hextends : Extends ctx ctx₁) : Added ctx ctx' i := by
  obtain ⟨pc, hle, hi⟩ := h
  exact ⟨pc, Nat.le_trans hextends.le hle, hi⟩

/-- A placeholder before it is filled. -/
theorem replaced (h : Added (ctx.addInstruction .nop) ctx₁ i)
    (hreplace : ctx₁.replaceInstruction ctx.code.length instruction = .ok ctx') :
    Added ctx ctx' i := by
  obtain ⟨pc, hle, hi⟩ := h
  rw [addInstruction_length] at hle
  obtain ⟨_, hcode, _⟩ := PipeContext.replaceInstruction_ok hreplace
  refine ⟨pc, Nat.le_of_succ_le hle, ?_⟩
  rw [hcode, List.getElem?_set_ne (Nat.ne_of_lt hle)]
  exact hi

theorem mem (h : Added ctx ctx' i) : i ∈ ctx'.code := by
  obtain ⟨pc, _, hi⟩ := h
  exact List.mem_of_getElem? hi

end Added

theorem added_params {params : List (Option JSString)} {i k : ℕ}
    (hrun : pipeParams params i ctx = .ok ctx') (hk : k < params.length) :
    Added ctx ctx' (.loadArg (i + k + 1)) := by
  induction params generalizing ctx i k with
  | nil => exact absurd hk (Nat.not_lt_zero k)
  | cons param params ih =>
    cases param with
    | none => cases hrun
    | some name =>
      have hname : Extends (ctx.addInstruction (.loadArg (i + 1)))
          ((ctx.addInstruction (.loadArg (i + 1))).addNamed .allocLocal name) := .addNamed _ _ name
      replace hrun : pipeParams params (i + 1)
          ((ctx.addInstruction (.loadArg (i + 1))).addNamed .allocLocal name) = .ok ctx' := hrun
      cases k with
      | zero => exact (Added.last ctx _).later (hname.trans (visits_params hrun).extends)
      | succ k =>
        have hrest := ih hrun (Nat.lt_of_succ_lt_succ hk)
        rw [Nat.add_right_comm i 1 k] at hrest
        exact hrest.earlier ((Extends.add ctx _).trans hname)

theorem added_numbered {n : SyntaxNode} (hrun : pipeNode n ctx = .ok ctx') :
    ∀ i ∈ n.numbered, Added ctx ctx' i := by
  intro i hi
  unfold SyntaxNode.numbered at hi
  split at hi
  · next value =>
    obtain rfl := Except.ok.inj hrun
    obtain ⟨x, hx, rfl⟩ := List.mem_map.mp hi
    rw [pipeNumericLiteral_of_whole (Option.mem_toList.mp hx)]
    exact .last ctx _
  · next callee id arguments =>
    obtain rfl := List.mem_singleton.mp hi
    have hextends := keeping_extends.entered (.expression (.callExpression callee id arguments)) ctx
    simp only [pipeNode, pipeExpression, Fallible.bind_eq_ok, Fallible.pure_eq_ok] at hrun
    obtain ⟨ctx₁, hpushed, ctx₂, hcalled, rfl⟩ := hrun
    have harguments : Extends (ctx.reverseArguments id).2 ctx₁ := by
      split at hpushed
      · exact (visits_arguments hpushed).extends
      · exact (visits_reversed hpushed).extends
    have hcallee : Extends ctx₁ ctx₂ := (visits_callee hcalled).extends
    exact (Added.last ctx₂ _).earlier ((hextends.trans harguments).trans hcallee)
  · next elements =>
    obtain rfl := List.mem_singleton.mp hi
    have halloc : Extends ctx ((ctx.addInstruction .arrAlloc).addInstruction .dup) :=
      (Extends.add ctx _).trans (.add _ _)
    have helements := (Extends.add _ _).trans (visits_elements hrun).extends
    exact ((Added.last _ _).later helements).earlier (halloc.trans (.register _ _))
  · next id params body =>
    obtain ⟨k, hk, rfl⟩ := List.mem_map.mp hi
    have hlt := List.mem_range.mp hk
    have hparam : ∀ {ctx₁ ctx₂ ctx₃ : PipeContext}, Extends (ctx.addInstruction .nop) ctx₁ →
        pipeParams params 0 ctx₁ = .ok ctx₂ → pipeBlock body ctx₂ = .ok ctx₃ →
        Added (ctx.addInstruction .nop) ctx₃ (.loadArg (k + 1)) := by
      intro ctx₁ ctx₂ ctx₃ hname hparams hblock
      have hadded := added_params hparams hlt
      rw [Nat.zero_add] at hadded
      have hbody : Extends ctx₂ ctx₃ := extends_node (n := .block body) hblock
      exact (hadded.later hbody).earlier hname
    simp only [pipeNode, pipeFunction] at hrun
    cases id with
    | none =>
      simp only [Fallible.bind_eq_ok, PipeContext.getCount_eq] at hrun
      obtain ⟨ctx₁, hparams, ctx₂, hblock, hreplace⟩ := hrun
      exact (hparam (.refl _) hparams hblock).replaced hreplace
    | some name =>
      simp only [Fallible.bind_eq_ok, PipeContext.getCount_eq] at hrun
      obtain ⟨ctx₁, hparams, ctx₂, hblock, hreplace⟩ := hrun
      exact (hparam (.register _ name) hparams hblock).replaced hreplace
  · exact absurd hi List.not_mem_nil

end Compiler

end AtomixJS
