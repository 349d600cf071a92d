import AtomixJS.Compiler.Classes
import AtomixJS.Compiler.Execution

/-!
# Members of `super`

For `super.m` the visitor of `transform.ts` finds the superclass in the innermost class
around it, and takes the member for a static one if any static method or static block
is around it, of whatever class.  A static field does not count.  The generated code
looks the superclass up by its name.
-/

namespace AtomixJS.Compiler

/-! ## The object that the source means -/

namespace Ancestor

/-- A member of a class. -/
def isMember : Ancestor → Bool
  | .classMethod _ | .classProperty _ | .staticBlock => true
  | _ => false

/-- A static member of a class. -/
def isStaticMember : Ancestor → Bool
  | .classMethod isStatic | .classProperty isStatic => isStatic
  | .staticBlock => true
  | _ => false

end Ancestor

namespace NodePath

variable (path : NodePath)

/-- The innermost member of a class around a node. -/
def innermostMember : Option Ancestor := path.find? Ancestor.isMember

def inStaticMember : Bool := (path.innermostMember.map Ancestor.isStaticMember).getD false

/-- The name of the superclass of the innermost class around a node. -/
def superclass : Option JSString :=
  match path.findSome? Ancestor.class? with
  | some (some (.identifier name)) => some name
  | _ => none

/-- A static method or a static block is around a node, of whatever class. -/
def StaticAround : Prop := ∃ a ∈ path, a.isStaticContext = true

/-- The visitor judges rightly whether a node is in a static member. -/
def Judged : Prop :=
  match path.innermostMember with
  | some (.classMethod true) | some .staticBlock => True
  | some (.classProperty true) => path.StaticAround
  | _ => ¬ path.StaticAround

variable {path}

theorem isSome_find?_iff :
    (path.find? Ancestor.isStaticContext).isSome = true ↔ path.StaticAround :=
  List.find?_isSome

theorem judged_iff : path.Judged ↔ (path.find? Ancestor.isStaticContext).isSome = path.inStaticMember := by
  have hstatic : (path.find? Ancestor.isStaticContext).isSome = true ↔ path.StaticAround :=
    isSome_find?_iff
  have hother : (path.find? Ancestor.isStaticContext).isSome = false ↔ ¬ path.StaticAround := by
    rw [← hstatic, Bool.not_eq_true]
  unfold Judged inStaticMember
  cases hmember : path.innermostMember with
  | none => exact hother.symm
  | some a =>
    have hmem : a ∈ path := List.mem_of_find?_eq_some hmember
    cases a with
    | classMethod isStatic =>
      cases isStatic with
      | true => exact iff_of_true trivial (hstatic.mpr ⟨_, hmem, rfl⟩)
      | false => exact hother.symm
    | classProperty isStatic =>
      cases isStatic with
      | true => exact hstatic.symm
      | false => exact hother.symm
    | staticBlock => exact iff_of_true trivial (hstatic.mpr ⟨_, hmem, rfl⟩)
    | classDeclaration superClass => exact hother.symm
    | classExpression superClass => exact hother.symm
    | other type => exact hother.symm

end NodePath

/-- What the visitor leaves for `pipe`. -/
theorem visitSuper_eq_ok {path : NodePath} {object : Expression} (h : visitSuper path = .ok object) :
    ∃ name, path.superclass = some name ∧
      object = .super (some ⟨name, (path.find? Ancestor.isStaticContext).isSome⟩) := by
  unfold visitSuper classContext at h
  unfold NodePath.superclass
  cases hclass : path.findSome? Ancestor.class? with
  | none =>
    rw [hclass] at h
    cases h
  | some superClass =>
    rw [hclass] at h
    cases superClass with
    | none => cases h
    | some e =>
      cases e with
      | identifier name => exact ⟨name, rfl, (Except.ok.inj h).symm⟩
      | _ => cases h

/-! ## The object that the code gets -/

/-- The code that gets a constructor, or its prototype, behind `this` if a call needs it. -/
def superCode (doubleObject onConstructor : Bool) (constructorIdx prototypeIdx : ℕ) :
    List Instruction :=
  (if doubleObject then [.ldThis] else []) ++ .loadLocal constructorIdx ::
    if onConstructor then [] else [.objLoad prototypeIdx]

/-- What is added between two contexts gets a constructor in these bindings, or else its
prototype. -/
def Gets (env : Env) (constructor : JSValue) (doubleObject onConstructor : Bool)
    (ctx ctx' : PipeContext) : Prop :=
  ∃ name constructorIdx prototypeIdx,
    ctx'.stable.strings[constructorIdx]? = some name ∧
    (onConstructor = false → ctx'.stable.strings[prototypeIdx]? = some (jsString "prototype")) ∧
    env.lookup name = some constructor ∧
    ctx'.code = ctx.code ++ superCode doubleObject onConstructor constructorIdx prototypeIdx

variable {env : Env} {constructor : JSValue} {doubleObject isStatic : Bool} {ctx ctx' : PipeContext}
  {name : JSString} {pipeObject : PipeContext → Except String PipeContext}

theorem addNamed_string {named : ℕ → Instruction} :
    (ctx.addNamed named name).stable.strings[(ctx.registerString name).1]? = some name :=
  ctx.stable.registerString_getElem? name

/-- The object of a member of `super`. -/
theorem pipeMemberObject_super
    (h : pipeMemberObject (.super (some ⟨name, isStatic⟩)) pipeObject doubleObject ctx = .ok ctx') :
    ∃ constructorIdx prototypeIdx, ctx'.stable.strings[constructorIdx]? = some name ∧
      (isStatic = false → ctx'.stable.strings[prototypeIdx]? = some (jsString "prototype")) ∧
      ctx'.code = ctx.code ++ superCode doubleObject isStatic constructorIdx prototypeIdx := by
  unfold pipeMemberObject at h
  simp only [Fallible.guard_eq_ok, Except.ok.injEq] at h
  obtain ⟨-, rfl⟩ := h
  generalize hstart : (if doubleObject = true then ctx.addInstruction .ldThis else ctx) = start
  have hcode : start.code = ctx.code ++ if doubleObject then [.ldThis] else [] := by
    rw [← hstart]
    cases doubleObject <;> simp
  have hloaded : (start.addNamed .loadLocal name).code =
      start.code ++ [.loadLocal (start.registerString name).1] := rfl
  have hname : (start.addNamed .loadLocal name).stable.strings[(start.registerString name).1]? =
      some name := addNamed_string
  cases isStatic with
  | true =>
    refine ⟨_, 0, hname, ?_, ?_⟩
    · rintro ⟨⟩
    · rw [if_pos rfl, hloaded, hcode, List.append_assoc]
      rfl
  | false =>
    obtain ⟨rest, hrest⟩ :=
      (start.addNamed .loadLocal name).stable.registerString_prefix (jsString "prototype")
    refine ⟨(start.registerString name).1, _, ?_, fun _ => addNamed_string, ?_⟩
    · show ((start.addNamed .loadLocal name).stable.registerString (jsString "prototype")).2.strings[
        (start.registerString name).1]? = some name
      rw [← hrest, List.getElem?_append_left (List.getElem?_eq_some_iff.mp hname).1]
      exact hname
    · show (start.addNamed .loadLocal name).code ++ _ = _
      rw [hloaded, hcode, List.append_assoc, List.append_assoc]
      rfl

theorem gets_iff {onConstructor : Bool}
    (h : pipeMemberObject (.super (some ⟨name, isStatic⟩)) pipeObject doubleObject ctx = .ok ctx') :
    Gets env constructor doubleObject onConstructor ctx ctx' ↔
      isStatic = onConstructor ∧ env.lookup name = some constructor := by
  obtain ⟨i, j, hname, hprototype, hcode⟩ := pipeMemberObject_super h
  constructor
  · rintro ⟨name', i', j', hname', -, hlookup, hcode'⟩
    have hsame := List.append_cancel_left (hcode.symm.trans hcode')
    unfold superCode at hsame
    obtain ⟨hload, hrest⟩ := List.cons.inj (List.append_cancel_left hsame)
    obtain rfl : i = i' := by injection hload
    rw [hname] at hname'
    obtain rfl := Option.some.inj hname'
    refine ⟨?_, hlookup⟩
    cases isStatic <;> cases onConstructor <;> simp at hrest ⊢
  · rintro ⟨rfl, hlookup⟩
    exact ⟨name, i, j, hname, hprototype, hlookup, hcode⟩

/-- The machine has the constructor on top when it is behind the `LOAD_LOCAL`. -/
theorem Gets.loads {act : Activation} {onConstructor : Bool} {ops : List JSValue}
    {refs : List ScopeRef} {config : Config}
    (h : Gets env constructor doubleObject onConstructor ctx ctx') (hplaced : act.Placed ctx ctx')
    (hat : act.At (ctx.code.length + if doubleObject then 1 else 0) ops refs env config)
    (hroom : ops.length < stackSize) :
    act.Goes config (ctx.code.length + (if doubleObject then 1 else 0) + 1) (constructor :: ops)
      refs env := by
  obtain ⟨name, i, j, hname, -, hlookup, hcode⟩ := h
  have hget : ctx'.code[ctx.code.length + if doubleObject then 1 else 0]? = some (.loadLocal i) := by
    rw [hcode, List.getElem?_append_right (Nat.le_add_right _ _), Nat.add_sub_cancel_left]
    cases doubleObject <;> rfl
  exact hat.loadLocal (hplaced.get (Nat.le_add_right _ _) hget) (hplaced.string hname) hroom hlookup

/-! ## Super members -/

/-- A member of `super` is looked up on the superclass of the innermost class, or on its
prototype if the innermost member around it is not static, exactly when the visitor
judges rightly and the name of the superclass still denotes it. -/
theorem super_resolves_iff {path : NodePath} {object property : Expression} {computed : Bool}
    {pipeProperty : PipeContext → Except String PipeContext} (hvisit : visitSuper path = .ok object)
    (hpipe : pipeMemberExpression object property pipeObject pipeProperty computed doubleObject ctx =
      .ok ctx') (env : Env) (constructor : JSValue) :
    ∃ name ctx₁, path.superclass = some name ∧
      pipeMemberObject object pipeObject doubleObject ctx = .ok ctx₁ ∧
      pipeMemberProperty property pipeProperty computed ctx₁ = .ok ctx' ∧
      (Gets env constructor doubleObject path.inStaticMember ctx ctx₁ ↔
        path.Judged ∧ env.lookup name = some constructor) := by
  obtain ⟨name, hname, rfl⟩ := visitSuper_eq_ok hvisit
  obtain ⟨ctx₁, hobject, hproperty⟩ := Fallible.bind_eq_ok.mp hpipe
  refine ⟨name, ctx₁, hname, hobject, hproperty, ?_⟩
  rw [gets_iff hobject, NodePath.judged_iff]

private def superclassA : Option Expression := some (.identifier (jsString "A"))

/-- Above `super` in `class B extends A { m() { super.x; } }`. -/
private def methodPath : NodePath :=
  [.other "MemberExpression", .other "ExpressionStatement", .other "BlockStatement",
    .classMethod false, .other "ClassBody", .classDeclaration superclassA]

/-- Above `super` in `class B extends A { static y = super.x; }`. -/
private def fieldPath : NodePath :=
  [.other "MemberExpression", .classProperty true, .other "ClassBody", .classDeclaration superclassA]

/-- Above `super` in `class C { static n() { class B extends A { m() { super.x; } } } }`. -/
private def nestedPath : NodePath :=
  methodPath ++ [.other "BlockStatement", .classMethod true, .other "ClassBody",
    .classDeclaration none]

/-- In a method of a class that is not in another one. -/
theorem super_resolves_method : ∃ name ctx₁, methodPath.superclass = some name ∧
    Gets [fun _ => some .null] .null false false PipeContext.empty ctx₁ := by
  have hvisit : ∃ object ctx', visitSuper methodPath = .ok object ∧
      pipeMemberExpression object (.identifier (jsString "x")) .ok .ok false false
        PipeContext.empty = .ok ctx' := ⟨_, _, rfl, rfl⟩
  obtain ⟨object, ctx', hobject, hpipe⟩ := hvisit
  obtain ⟨name, ctx₁, hname, -, -, hiff⟩ :=
    super_resolves_iff hobject hpipe [fun _ => some .null] .null
  refine ⟨name, ctx₁, hname, hiff.mpr ⟨?_, rfl⟩⟩
  show ¬ NodePath.StaticAround methodPath
  rw [← NodePath.isSome_find?_iff]
  decide

/-- `super.x` compiles there, but never gets the object that is meant. -/
def Misresolved (path : NodePath) : Prop :=
  ∃ object ctx₁ ctx', visitSuper path = .ok object ∧
    pipeMemberObject object .ok false PipeContext.empty = .ok ctx₁ ∧
    pipeMemberProperty (.identifier (jsString "x")) .ok false ctx₁ = .ok ctx' ∧
    ∀ env constructor, ¬ Gets env constructor false path.inStaticMember PipeContext.empty ctx₁

/-- In a static field the prototype is read, and in a method inside of a static method
the constructor. -/
theorem super_misresolved : Misresolved fieldPath ∧ Misresolved nestedPath := by
  constructor
  · refine ⟨_, _, _, rfl, rfl, rfl, fun env constructor hgets => ?_⟩
    obtain ⟨_, _, _, _, _, _, hcode⟩ := hgets
    cases congrArg List.length hcode
  · refine ⟨_, _, _, rfl, rfl, rfl, fun env constructor hgets => ?_⟩
    obtain ⟨_, _, _, _, _, _, hcode⟩ := hgets
    cases congrArg List.length hcode

end AtomixJS.Compiler
