import AtomixJS.Compiler.Scopes
import AtomixJS.Core.Value
import AtomixJS.Results.ClassMembers

/-!
# The names that the transformation uses

Generated code reads `Object` and `Module`, the name of a superclass and the name of a
class like any other name: from the nearest scope that binds it.  A `NameReference` is such
a name, with the scopes between the place where it is read and the place where it is
meant.  It denotes what is meant if no state of these scopes comes in between.

`GeneratedName` are the references in a program that the transformation has made, and the
references of a class to its own name.
-/

namespace AtomixJS.Compiler

open Store (Contents inherited)
open SyntaxNode (Declares Inside)

/-! ## References -/

structure NameReference where
  name : JSString
  /-- The name under which the value is bound that is meant. -/
  meant : JSString
  /-- The scopes between the reference and the place where the value is meant. -/
  scopes : List (Set JSString)
  /-- What else is declared in the scope where the value is bound. -/
  rebound : Set JSString

namespace NameReference

variable (r : NameReference) (changed : Set JSString)

/-- Whatever the scopes on the way hold, the reference reads the value that was bound
where it is meant.  Since then bindings from there on have changed under some names. -/
def Denotes : Prop :=
  ∀ (before contents : Contents ℕ JSString JSValue) (between rest : List ℕ) (value : JSValue),
    (between ++ rest).Nodup → Store.Fits contents between r.scopes →
    (∀ name ∉ changed ∪ r.rebound, inherited contents rest name = inherited before rest name) →
    inherited before rest r.meant = some value →
    inherited contents (between ++ rest) r.name = some value

/-- The name is the one that is meant, and nothing on the way declares or changes it. -/
structure Clean : Prop where
  name_eq : r.name = r.meant
  unchanged : r.name ∉ changed ∪ r.rebound
  free : ∀ names ∈ r.scopes, r.name ∉ names

variable {r changed}

theorem Clean.denotes (h : r.Clean changed) : r.Denotes changed := by
  intro before contents between rest value _ hfits hsame hvalue
  rw [hfits.inherited_append h.free, hsame _ h.unchanged, h.name_eq]
  exact hvalue

/-- One place with one value. -/
def oneValue (place : ℕ) (name : JSString) (value : JSValue) : Contents ℕ JSString JSValue :=
  fun i k => if i = place ∧ k = name then some value else none

theorem inherited_oneValue (place : ℕ) (name k : JSString) (value : JSValue) :
    inherited (oneValue place name value) [place] k = if k = name then some value else none := by
  rw [inherited, List.findSome?_singleton, oneValue]
  simp

theorem nodup_range' (n : ℕ) : (List.range' 1 n ++ [0]).Nodup := by
  rw [List.nodup_append]
  refine ⟨List.nodup_range', List.nodup_singleton 0, fun i hi j hj => ?_⟩
  obtain rfl := List.mem_singleton.mp hj
  have hle := (List.mem_range'_1.mp hi).1
  omega

/-- Scopes without any binding. -/
theorem fits_empty {contents : Contents ℕ JSString JSValue} {shape : List (Set JSString)}
    (h : ∀ i k, i ≠ 0 → contents i k = none) : Store.Fits contents (List.range' 1 shape.length) shape := by
  refine Store.fits_range' fun i names _ k hsome => ?_
  rw [h (1 + i) k (by omega)] at hsome
  cases hsome

theorem inherited_empty {contents : Contents ℕ JSString JSValue} {k : JSString}
    (h : ∀ i k, i ≠ 0 → contents i k = none) (n : ℕ) :
    inherited contents (List.range' 1 n ++ [0]) k = contents 0 k := by
  have hnone : (List.range' 1 n).findSome? (contents · k) = none := by
    rw [List.findSome?_eq_none_iff]
    intro i hi
    have hle := (List.mem_range'_1.mp hi).1
    exact h i k (by omega)
  unfold inherited
  rw [List.findSome?_append, hnone]
  cases hzero : contents 0 k <;> simp [hzero]

theorem name_eq_of_denotes (h : r.Denotes changed) : r.name = r.meant := by
  by_contra hne
  have hplace : ∀ i k, i ≠ 0 → oneValue 0 r.meant .null i k = none :=
    fun i k hi => if_neg fun h => hi h.1
  have hread := h (oneValue 0 r.meant .null) (oneValue 0 r.meant .null)
    (List.range' 1 r.scopes.length) [0] .null (nodup_range' _) (fits_empty hplace)
    (fun _ _ => rfl) (by rw [inherited_oneValue, if_pos rfl])
  rw [inherited_empty hplace] at hread
  have hnone : oneValue 0 r.meant .null 0 r.name = none := if_neg fun h => hne h.2
  rw [hnone] at hread
  cases hread

theorem unchanged_of_denotes (h : r.Denotes changed) : r.name ∉ changed ∪ r.rebound := by
  intro hmem
  have hread := h (oneValue 0 r.meant .null) (fun _ _ => none)
    (List.range' 1 r.scopes.length) [0] .null (nodup_range' _) (fits_empty fun _ _ _ => rfl)
    (fun name hname => ?_) (by rw [inherited_oneValue, if_pos rfl])
  · rw [inherited_empty fun _ _ _ => rfl] at hread
    cases hread
  · have hne : name ≠ r.meant := by
      rintro rfl
      rw [← name_eq_of_denotes h] at hname
      exact hname hmem
    rw [inherited_oneValue, if_neg hne]
    rfl

theorem free_of_denotes (h : r.Denotes changed) : ∀ names ∈ r.scopes, r.name ∉ names := by
  intro names hnames hmem
  obtain ⟨i, hi⟩ := List.getElem?_of_mem hnames
  have hlt : i < r.scopes.length := (List.getElem?_eq_some_iff.mp hi).1
  have hplace : ∀ j k, j ≠ 0 → oneValue 0 r.meant .null j k = none :=
    fun j k hj => if_neg fun h => hj h.1
  -- the scope in between has another value
  let contents : Contents ℕ JSString JSValue := fun j k =>
    (oneValue (1 + i) r.name .undefined j k).or (oneValue 0 r.meant .null j k)
  have hzero : ∀ k, contents 0 k = oneValue 0 r.meant .null 0 k := by
    intro k
    have hnone : oneValue (1 + i) r.name .undefined 0 k = none := if_neg fun h => by omega
    simp only [contents, hnone, Option.none_or]
  have hlater : ∀ j k, j ≠ 0 → contents j k = oneValue (1 + i) r.name .undefined j k := by
    intro j k hj
    simp only [contents, hplace j k hj, Option.or_none]
  have hfits : Store.Fits contents (List.range' 1 r.scopes.length) r.scopes := by
    refine Store.fits_range' fun j names' hj k hsome => ?_
    rw [hlater (1 + j) k (by omega), oneValue] at hsome
    split at hsome
    · next hsame =>
      obtain rfl : j = i := by omega
      rw [hi] at hj
      rw [← Option.some.inj hj, hsame.2]
      exact hmem
    · cases hsome
  have hread := h (oneValue 0 r.meant .null) contents (List.range' 1 r.scopes.length) [0] .null
    (nodup_range' _) hfits (fun name _ => ?_) (by rw [inherited_oneValue, if_pos rfl])
  · have hvalue : (List.range' 1 r.scopes.length).findSome? (contents · r.name) =
        some .undefined := by
      have hsome : ((List.range' 1 r.scopes.length).findSome? (contents · r.name)).isSome := by
        rw [List.findSome?_isSome_iff]
        refine ⟨1 + i, List.mem_range'_1.mpr ⟨by omega, by omega⟩, ?_⟩
        rw [hlater (1 + i) r.name (by omega), oneValue, if_pos ⟨rfl, rfl⟩]
        rfl
      obtain ⟨value, hvalue⟩ := Option.isSome_iff_exists.mp hsome
      obtain ⟨j, hj, hfound⟩ := List.exists_of_findSome?_eq_some hvalue
      have hle := (List.mem_range'_1.mp hj).1
      rw [hlater j r.name (by omega), oneValue] at hfound
      split at hfound
      · rw [hvalue, ← hfound]
      · cases hfound
    rw [inherited, List.findSome?_append, hvalue] at hread
    cases hread
  · show inherited contents [0] name = inherited (oneValue 0 r.meant .null) [0] name
    unfold inherited
    rw [List.findSome?_singleton, List.findSome?_singleton, hzero]

theorem denotes_iff : r.Denotes changed ↔ r.Clean changed :=
  ⟨fun h => ⟨name_eq_of_denotes h, unchanged_of_denotes h, free_of_denotes h⟩, Clean.denotes⟩

end NameReference

/-! ## Classes in a program -/

/-- A node that stands for a class. -/
def SyntaxNode.IsClass (n : SyntaxNode) : Prop :=
  ∃ arrays node identifier call,
    transformClass arrays node identifier = .ok call ∧ n = .expression call

/-- The scopes around a node that is in no class further in. -/
inductive SyntaxNode.Directly : SyntaxNode → List (Set JSString) → SyntaxNode → Prop
  | self (n : SyntaxNode) : Directly n [] n
  | child {n m k : SyntaxNode} {scopes : List (Set JSString)} : m ∈ n.children → ¬ m.IsClass →
      Directly m scopes k → Directly n (scopes ++ n.opened) k

/-- A class, and where it stands.  A class expression has `__C__` for its name. -/
structure ClassIn (program : List Statement) where
  arrays : ClassArrays
  node : ClassNode
  identifier : JSString
  identifier_eq : identifier = jsString "__C__" ∨ node.id = some identifier
  generated : Generated arrays node identifier
  outer : List (Set JSString)
  inside : Inside (.program program) outer (.expression generated.call)

namespace ClassIn

variable {program : List Statement} (c : ClassIn program)

def call : SyntaxNode := .expression c.generated.call

/-- The body of the function around the constructor. -/
def body : SyntaxNode := .block (.mk false c.generated.body)

/-- The scopes of this function: that of the body, and that of the parameters, of which
there are none. -/
def scopes : List (Set JSString) := [c.body.scopeNames, ∅]

/-- What the function declares besides the constructor, in static blocks for example. -/
def rebound : Set JSString := {name | ∃ item ∈ c.generated.body.tail, Declares (.item item) name}

/-- The scopes of the constructor, in which the fields are initialised. -/
def constructorScopes : List (Set JSString) :=
  match c.node.constructorFunction c.identifier c.generated.fields with
  | .mk id params body => [(SyntaxNode.block body).scopeNames,
      (SyntaxNode.function (.mk id params body)).scopeNames]

theorem mem_scopeNames {name : JSString} :
    name ∈ c.body.scopeNames ↔ name = c.identifier ∨ name ∈ c.rebound := by
  have hbody : c.generated.body = .declaration (.functionDeclaration
      (c.node.constructorFunction c.identifier c.generated.fields)) :: c.generated.body.tail := rfl
  have hconstructor : Declares (.item (.declaration (.functionDeclaration
      (c.node.constructorFunction c.identifier c.generated.fields)))) name ↔
        name = c.identifier := by
    constructor
    · intro h
      cases h with
      | child _ hc h =>
        obtain rfl := List.mem_singleton.mp hc
        cases h with
        | child _ hc h =>
          obtain rfl := List.mem_singleton.mp hc
          cases h with
          | child _ hc h =>
            obtain rfl := List.mem_singleton.mp hc
            cases h with
            | function => rfl
            | child hopens => cases hopens
    · rintro rfl
      exact .child rfl (List.mem_singleton_self _) (.child rfl (List.mem_singleton_self _)
        (.child rfl (List.mem_singleton_self _) .function))
  show (∃ item ∈ c.generated.body, Declares (.item item) name) ↔ _
  rw [hbody]
  simp only [List.mem_cons, exists_eq_or_imp, hconstructor]
  rfl

/-- A statement of the function around the constructor is in its scopes. -/
theorem inside_item {item : Statement} (h : item ∈ c.generated.body) :
    Inside c.call c.scopes (.item item) := by
  have hempty : (SyntaxNode.function (.mk none [] (.mk false c.generated.body))).scopeNames =
      ∅ := by
    ext name
    simp only [SyntaxNode.scopeNames, List.not_mem_nil, false_or, Set.mem_ofPred_eq,
      Set.mem_empty_iff_false, iff_false]
    exact SyntaxNode.not_declares_block
  have hblock : Inside c.body [c.body.scopeNames] (.item item) :=
    .child (List.mem_map_of_mem h) (.self _)
  have hfunction : Inside (.function (.mk none [] (.mk false c.generated.body))) c.scopes
      (.item item) := by
    have hchild := Inside.child (n := .function (.mk none [] (.mk false c.generated.body)))
      (List.mem_singleton_self _) hblock
    have hopened : (SyntaxNode.function (.mk none [] (.mk false c.generated.body))).opened =
        [∅] := by
      rw [← hempty]
      rfl
    rwa [hopened] at hchild
  have hexpression : Inside (.expression (.functionExpression
      (.mk none [] (.mk false c.generated.body)))) [] (.function _) :=
    .same rfl (List.mem_singleton_self _)
  have hcall : Inside c.call [] (.expression (.functionExpression
      (.mk none [] (.mk false c.generated.body)))) := .same rfl (List.mem_singleton_self _)
  have hwhole := (hcall.trans hexpression).trans hfunction
  rwa [List.append_nil, List.append_nil] at hwhole

/-- A statement that links the class to its superclass, or the one behind them. -/
theorem mem_body_of_links {item : Statement} (h : item ∈ c.node.links c.arrays c.identifier) :
    item ∈ c.generated.body :=
  (List.sublist_append_left _ _).trans c.generated.sublist_body |>.subset h

/-- The links read `Object` and the name of the superclass. -/
theorem links_read {superClass : JSString} (h : c.node.superClass = some (.identifier superClass)) :
    Inside c.call c.scopes (.expression (.identifier (jsString "Object"))) ∧
      Inside c.call c.scopes (.expression (.identifier superClass)) := by
  have hitem : Inside c.call c.scopes (.item (.expressionStatement
      (.callExpression (memberOf (.identifier (jsString "Object")) "setPrototypeOf")
        c.arrays.setPrototypeOf [.identifier c.identifier, .identifier superClass]))) := by
    refine c.inside_item (c.mem_body_of_links ?_)
    rw [ClassNode.links, h]
    exact List.mem_cons_of_mem _ List.mem_cons_self
  have hcall := hitem.trans ((Inside.same rfl (List.mem_singleton_self _)).trans
    (.same rfl (List.mem_singleton_self _)))
  refine ⟨hcall.trans (.same rfl ?_), hcall.trans (.same rfl ?_)⟩
  · exact List.mem_append_right _ List.mem_cons_self
  · exact List.mem_append_left _ (List.mem_cons_of_mem _ List.mem_cons_self)

/-- The function returns the class by its name. -/
theorem name_read : Inside c.call c.scopes (.expression (.identifier c.identifier)) := by
  have hitem : Inside c.call c.scopes (.item (.returnStatement (some (.identifier c.identifier)))) := by
    refine c.inside_item ?_
    unfold Generated.body ClassNode.generatedBody
    exact List.mem_append_right _ (List.mem_singleton_self _)
  exact hitem.trans ((Inside.same rfl (List.mem_singleton_self _)).trans
    (.same rfl List.mem_cons_self))

/-- A node that reads the name of the superclass: what a `super` call becomes, a member of
`super`, or a call of one. -/
inductive ReadsSuper : SyntaxNode → Prop
  | call {id : ℕ} {arguments : List Expression} {e : Expression} :
      superCall id c.node.superClass arguments = .ok e → ReadsSuper (.expression e)
  | member {isStatic computed : Bool} {e property : Expression} :
      superMember c.node.superClass isStatic = .ok e →
      ReadsSuper (.expression (.memberExpression e property computed))
  | method {isStatic computed : Bool} {e property : Expression} {id : ℕ}
      {arguments : List Expression} : superMember c.node.superClass isStatic = .ok e →
      ReadsSuper (.expression (.callExpression (.memberExpression e property computed) id arguments))

/-- The scopes around a use of a name in the class, which the source does not declare
around it.  Those of the constructor are not in the source around a field. -/
inductive UsesName (name : JSString) : List (Set JSString) → Prop
  | member {inner : List (Set JSString)} :
      Inside c.body (inner ++ [c.body.scopeNames]) (.expression (.identifier name)) →
      (∀ names ∈ inner, name ∉ names) → UsesName name inner
  | field {property : ClassProperty} {inner : List (Set JSString)} :
      property ∈ c.node.properties →
      Inside (.expression property.initializer) inner (.expression (.identifier name)) →
      (∀ names ∈ inner, name ∉ names) → UsesName name (inner ++ c.constructorScopes)

end ClassIn

/-- The references that the transformation makes in a program, and those of a class to its
own name. -/
inductive GeneratedName (program : List Statement) : NameReference → Prop
  /-- `Object` of `new`. -/
  | new {scopes : List (Set JSString)} {id : ℕ} {callee : Expression}
      {arguments : List Expression} :
      Inside (.program program) scopes (.expression (newExpression id callee arguments)) →
      GeneratedName program ⟨jsString "Object", jsString "Object", scopes, ∅⟩
  /-- `Module` of an import. -/
  | importModule {scopes : List (Set JSString)} {id : ℕ} {hash : UInt32 × UInt32} :
      Inside (.program program) scopes (.expression (importCall id hash)) →
      GeneratedName program ⟨jsString "Module", jsString "Module", scopes, ∅⟩
  /-- `Object` of `extends`. -/
  | linkObject (c : ClassIn program) : c.node.superClass.isSome →
      GeneratedName program ⟨jsString "Object", jsString "Object", c.scopes ++ c.outer, ∅⟩
  /-- The superclass of `extends`. -/
  | linkSuper (c : ClassIn program) {superClass : JSString} :
      c.node.superClass = some (.identifier superClass) →
      GeneratedName program ⟨superClass, superClass, c.scopes, ∅⟩
  /-- The superclass of `super`. -/
  | superName (c : ClassIn program) {superClass : JSString} {inner : List (Set JSString)}
      {n : SyntaxNode} : c.node.superClass = some (.identifier superClass) →
      SyntaxNode.Directly c.call inner n → c.ReadsSuper n →
      GeneratedName program ⟨superClass, superClass, inner, ∅⟩
  /-- The name of the constructor in the function around it. -/
  | className (c : ClassIn program) :
      GeneratedName program ⟨c.identifier, c.identifier, [], c.rebound⟩
  /-- The own name of a class in its body. -/
  | ownName (c : ClassIn program) {name : JSString} {inner : List (Set JSString)} :
      c.node.id = some name → c.UsesName name inner →
      GeneratedName program ⟨name, c.identifier, inner, c.rebound⟩

/-! ## Hygiene -/

/-- `class C { m() { return C; } }` -/
private def namedClass : ClassNode where
  id := some (jsString "C")
  superClass := none
  body := [.classMethod ⟨.method, false, .identifier (jsString "m"), false, [],
    .mk false [.returnStatement (some (.identifier (jsString "C")))]⟩]

private def hygieneArrays : ClassArrays := ⟨0, 1, 2⟩

private def namedGenerated : Generated hygieneArrays namedClass (jsString "__C__") :=
  ⟨[], [], rfl, rfl⟩

/-- `const D = class C { m() { return C; } };` -/
private def namedProgram : List Statement :=
  [constDeclaration (.identifier (jsString "D")) namedGenerated.call]

private def namedIn : ClassIn namedProgram where
  arrays := hygieneArrays
  node := namedClass
  identifier := jsString "__C__"
  identifier_eq := .inl rfl
  generated := namedGenerated
  outer := [(SyntaxNode.program namedProgram).scopeNames]
  inside := by
    have hitem : Inside (.program namedProgram) [(SyntaxNode.program namedProgram).scopeNames]
        (.item (constDeclaration (.identifier (jsString "D")) namedGenerated.call)) :=
      .child (List.mem_singleton_self _) (.self _)
    have hdeclarator := (Inside.same (n := .item (constDeclaration (.identifier (jsString "D"))
      namedGenerated.call)) rfl (List.mem_singleton_self _)).trans
        ((Inside.same rfl (List.mem_singleton_self _)).trans (.same rfl (List.mem_singleton_self _)))
    exact hitem.trans (hdeclarator.trans (.same rfl (List.mem_singleton_self _)))

private def methodNode : FunctionNode :=
  .mk none [] (.mk false [.returnStatement (some (.identifier (jsString "C")))])

private def methodScopes : List (Set JSString) :=
  [(SyntaxNode.block (.mk false [.returnStatement (some (.identifier (jsString "C")))])).scopeNames,
    (SyntaxNode.function methodNode).scopeNames]

/-- The method has nothing of its own. -/
private theorem methodScopes_free {names : Set JSString} (h : names ∈ methodScopes) (name : JSString) :
    name ∉ names := by
  rcases List.mem_pair.mp h with rfl | rfl
  · rintro ⟨item, hitem, hdeclares⟩
    obtain rfl := List.mem_singleton.mp hitem
    cases hdeclares with
    | child _ hc hdeclares =>
      obtain rfl := List.mem_singleton.mp hc
      cases hdeclares with
      | child _ hc hdeclares =>
        obtain rfl := List.mem_singleton.mp hc
        cases hdeclares with
        | child _ hc => exact absurd hc List.not_mem_nil
  · rintro (hparam | hdeclares)
    · exact absurd hparam List.not_mem_nil
    · exact SyntaxNode.not_declares_block hdeclares

private theorem namedIn_uses : namedIn.UsesName (jsString "C") methodScopes := by
  have hitem : Inside namedIn.body [namedIn.body.scopeNames]
      (.item (ClassMethod.install (memberOf (.identifier (jsString "__C__")) "prototype")
        ⟨.method, false, .identifier (jsString "m"), false, [],
          .mk false [.returnStatement (some (.identifier (jsString "C")))]⟩)) :=
    .child (List.mem_map_of_mem (List.mem_cons_of_mem _ (List.mem_cons_of_mem _
      List.mem_cons_self))) (.self _)
  have hfunction := (Inside.same (n := .item (ClassMethod.install
      (memberOf (.identifier (jsString "__C__")) "prototype")
        ⟨.method, false, .identifier (jsString "m"), false, [],
          .mk false [.returnStatement (some (.identifier (jsString "C")))]⟩)) rfl
    (List.mem_singleton_self _)).trans ((Inside.same rfl (List.mem_singleton_self _)).trans
      ((Inside.same rfl List.mem_cons_self).trans (.same rfl (List.mem_singleton_self _))))
  have hreturn : Inside (.function methodNode) methodScopes
      (.item (.returnStatement (some (.identifier (jsString "C"))))) :=
    Inside.child (n := .function methodNode) (List.mem_singleton_self _)
      (Inside.child (n := .block (.mk false [.returnStatement (some (.identifier (jsString "C")))]))
        (List.mem_singleton_self _) (.self _))
  have hname := (Inside.same (n := .item (.returnStatement (some (.identifier (jsString "C")))))
    rfl (List.mem_singleton_self _)).trans (.same rfl (List.mem_singleton_self _))
  exact .member (hitem.trans (hfunction.trans (hreturn.trans hname)))
    fun names hnames => methodScopes_free hnames _

end AtomixJS.Compiler
