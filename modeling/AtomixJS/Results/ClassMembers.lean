import AtomixJS.Compiler.Classes
import AtomixJS.Compiler.Node
import Mathlib.Data.List.Flatten
import Mathlib.Data.List.Perm.Lattice

/-!
# The members of classes and object literals

A class is compiled to assignments that install its members.  An `Installation` says
where a member goes, under which key, and what it is.  `ClassMember.denotes` are the
installations that the source asks for; `installation?` reads them off a generated
assignment, as `pipe` emits it: a property that is not computed and an identifier is
stored under its name, every other one under the value of the property.

`transformClass` picks the members by their types and guesses from the type of a key
whether it is computed.
-/

namespace AtomixJS.Compiler

/-! ## Installations -/

inductive Place
  | prototype | constructor | object

inductive Content
  | value (expression : Expression)
  | getter (function : Expression)
  | setter (function : Expression)
  /-- A member that the compiler does not know. -/
  | other (type : String)

/-- A member under a key, which is the value of an expression. -/
structure Installation where
  place : Place
  key : Expression
  content : Content

/-- The expression whose value is the key of a property. -/
def keyExpression (key : Expression) (computed : Bool) : Expression :=
  match staticName key computed with
  | some name => .stringLiteral name
  | none => key

def memberPlace (isStatic : Bool) : Place := if isStatic then .constructor else .prototype

def fieldPlace (isStatic : Bool) : Place := if isStatic then .constructor else .object

/-- What the source asks for. -/
def ClassMember.denotes : ClassMember → List Installation
  | .classMethod method =>
    let installation := Installation.mk (memberPlace method.isStatic)
      (keyExpression method.key method.computed)
    match method.kind with
    | .constructor => []
    | .method => [installation (.value method.function)]
    | .get => [installation (.getter method.function)]
    | .set => [installation (.setter method.function)]
  | .classProperty property =>
    [⟨fieldPlace property.isStatic, keyExpression property.key property.computed,
      .value property.initializer⟩]
  | .staticBlock _ => []
  | .other type => [⟨.prototype, .other type, .other type⟩]

/-- The object of a generated assignment. -/
def place? (identifier : JSString) : Expression → Option Place
  | .thisExpression => some .object
  | .identifier name => if name = identifier then some .constructor else none
  | .memberExpression (.identifier name) (.identifier property) false =>
    if name = identifier ∧ property = jsString "prototype" then some .prototype else none
  | _ => none

/-- What a generated statement installs. -/
def installation? (identifier : JSString) : Statement → Option Installation
  | .expressionStatement
      (.assignmentExpression true (.memberExpression object key computed) value) =>
    (place? identifier object).map (⟨·, keyExpression key computed, .value value⟩)
  | _ => none

/-- The key under which `transformClass` installs a member. -/
def installedKey (key : Expression) : Expression := keyExpression key (!key.isIdentifier)

/-- What `transformClass` installs for a member. -/
def ClassMember.generates : ClassMember → List Installation
  | .classMethod method =>
    if method.kind = .method then
      [⟨memberPlace method.isStatic, installedKey method.key, .value method.function⟩]
    else []
  | .classProperty property =>
    if property.value.isSome then
      [⟨fieldPlace property.isStatic, installedKey property.key, .value property.initializer⟩]
    else []
  | .staticBlock _ | .other _ => []

/-- A computed key that is an identifier. -/
def isVariableKey (key : Expression) (computed : Bool) : Bool := computed && key.isIdentifier

/-- The members that `transformClass` knows, with a key that it does not mistake. -/
def ClassMember.Handled : ClassMember → Prop
  | .classMethod method =>
    method.kind = .constructor ∨
      (method.kind = .method ∧ isVariableKey method.key method.computed = false)
  | .classProperty property =>
    property.value.isSome ∧ isVariableKey property.key property.computed = false
  | .staticBlock _ => True
  | .other _ => False

/-! ## Keys -/

theorem keyExpression_eq_installedKey_iff {key : Expression} {computed : Bool} :
    keyExpression key computed = installedKey key ↔ isVariableKey key computed = false := by
  cases computed <;> cases key <;>
    simp [keyExpression, installedKey, isVariableKey, Expression.isIdentifier, staticName]

theorem installedKey_not_identifier (key : Expression) :
    (installedKey key).isIdentifier = false := by
  cases key <;> rfl

theorem keyExpression_isIdentifier {key : Expression} {computed : Bool} :
    (keyExpression key computed).isIdentifier = isVariableKey key computed := by
  cases computed <;> cases key <;> rfl

theorem keyExpression_of_identifier {key : Expression} (h : key.isIdentifier = true) :
    keyExpression key false = installedKey key := by
  cases key with
  | identifier name => rfl
  | _ => cases h

/-- How `pipe` emits an assignment to a member: the name of a static key is the operand
of the store, any other key is evaluated. -/
theorem pipeStatement_assignMember {object key value : Expression} {computed : Bool}
    {ctx ctx' : PipeContext} :
    pipeStatement (assignMember object key computed value) ctx = .ok ctx' ↔
      ∃ ctx₁ ctx₂, pipeExpression value ctx = .ok ctx₁ ∧
        pipeExpression object (ctx₁.addInstruction .dup) = .ok ctx₂ ∧
        match staticName key computed with
        | some name =>
          ctx' = ((ctx₂.addInstruction .swap).addNamed .objStore name).addInstruction .pop
        | none => ∃ ctx₃, pipeExpression key ctx₂ = .ok ctx₃ ∧
          ctx' = (ctx₃.addInstruction .objCstore).addInstruction .pop := by
  rw [assignMember, pipeStatement, pipeExpression]
  simp only [Bool.not_true, Bool.false_eq_true, if_false, Fallible.bind_eq_ok,
    Fallible.pure_eq_ok]
  cases computed with
  | true =>
    simp only [Fallible.bind_eq_ok, Fallible.pure_eq_ok, staticName]
    constructor
    · rintro ⟨_, ⟨ctx₁, hvalue, ctx₂, hobject, ctx₃, hkey, rfl⟩, rfl⟩
      exact ⟨ctx₁, ctx₂, hvalue, hobject, ctx₃, hkey, rfl⟩
    · rintro ⟨ctx₁, ctx₂, hvalue, hobject, ctx₃, hkey, rfl⟩
      exact ⟨_, ⟨ctx₁, hvalue, ctx₂, hobject, ctx₃, hkey, rfl⟩, rfl⟩
  | false =>
    cases key with
    | identifier name =>
      simp only [Fallible.bind_eq_ok, Fallible.pure_eq_ok, staticName]
      constructor
      · rintro ⟨_, ⟨ctx₁, hvalue, ctx₂, hobject, rfl⟩, rfl⟩
        exact ⟨ctx₁, ctx₂, hvalue, hobject, rfl⟩
      · rintro ⟨ctx₁, ctx₂, hvalue, hobject, rfl⟩
        exact ⟨_, ⟨ctx₁, hvalue, ctx₂, hobject, rfl⟩, rfl⟩
    | _ =>
      simp only [Fallible.bind_eq_ok, Fallible.pure_eq_ok, staticName]
      constructor
      · rintro ⟨_, ⟨ctx₁, hvalue, ctx₂, hobject, ctx₃, hkey, rfl⟩, rfl⟩
        exact ⟨ctx₁, ctx₂, hvalue, hobject, ctx₃, hkey, rfl⟩
      · rintro ⟨ctx₁, ctx₂, hvalue, hobject, ctx₃, hkey, rfl⟩
        exact ⟨_, ⟨ctx₁, hvalue, ctx₂, hobject, ctx₃, hkey, rfl⟩, rfl⟩

/-! ## What is generated -/

variable {identifier : JSString} {node : ClassNode} {fields extendsNodes : List Statement}

theorem installation?_assignMember {object key value : Expression} {computed : Bool} {place : Place}
    (h : place? identifier object = some place) :
    installation? identifier (assignMember object key computed value) =
      some ⟨place, keyExpression key computed, .value value⟩ := by
  show (place? identifier object).map _ = _
  rw [h]
  rfl

theorem installation?_method (method : ClassMethod) {object : Expression} {place : Place}
    (h : place? identifier object = some place) :
    installation? identifier (method.install object) =
      some ⟨place, installedKey method.key, .value method.function⟩ :=
  installation?_assignMember h

theorem installation?_property (property : ClassProperty) {object : Expression} {place : Place}
    (h : place? identifier object = some place) :
    installation? identifier (property.install object) =
      some ⟨place, installedKey property.key, .value property.initializer⟩ :=
  installation?_assignMember h

theorem place?_prototype :
    place? identifier (memberOf (.identifier identifier) "prototype") = some .prototype := by
  simp [place?, memberOf]

theorem place?_constructor : place? identifier (.identifier identifier) = some .constructor := by
  simp [place?]

/-- The statements of the instance fields are accepted only if all keys are
identifiers. -/
theorem fields_of_mapM {properties : List ClassProperty}
    (h : properties.mapM ClassProperty.installInstance = .ok fields) :
    fields.filterMap (installation? identifier) =
      properties.map fun property => (⟨.object, installedKey property.key,
        .value property.initializer⟩ : Installation) := by
  have hidentifier : ∀ property ∈ properties, property.key.isIdentifier = true := by
    intro property hmem
    obtain ⟨statement, hstatement⟩ := Fallible.ok_of_mapM_ok h hmem
    unfold ClassProperty.installInstance at hstatement
    split at hstatement
    · assumption
    · cases hstatement
  have hall : ∀ property ∈ properties, property.installInstance =
      .ok (assignMember .thisExpression property.key false property.initializer) :=
    fun property hmem => if_pos (hidentifier property hmem)
  obtain rfl := Except.ok.inj ((Fallible.mapM_of_forall hall).symm.trans h)
  rw [List.filterMap_map, ← List.filterMap_eq_map]
  refine List.filterMap_congr fun property hmem => ?_
  have hplace : place? identifier .thisExpression = some .object := rfl
  have hkey := keyExpression_of_identifier (hidentifier property hmem)
  rw [Function.comp_apply, installation?_assignMember hplace, hkey]
  rfl

/-- The installations section by section: instance fields, methods, static methods
and static fields. -/
theorem installations_eq (h : node.properties.mapM ClassProperty.installInstance = .ok fields) :
    (fields ++ node.installers identifier).filterMap (installation? identifier) =
      node.properties.map (fun property => (⟨.object, installedKey property.key,
          .value property.initializer⟩ : Installation)) ++
        (node.methods.map (fun method => (⟨.prototype, installedKey method.key,
            .value method.function⟩ : Installation)) ++
          node.staticMethods.map (fun method => (⟨.constructor, installedKey method.key,
            .value method.function⟩ : Installation)) ++
          node.staticProperties.map (fun property => (⟨.constructor, installedKey property.key,
            .value property.initializer⟩ : Installation))) := by
  have hmethods : ∀ {object : Expression} {place : Place} (methods : List ClassMethod),
      place? identifier object = some place →
      (methods.map (ClassMethod.install object)).filterMap (installation? identifier) =
        methods.map fun method => (⟨place, installedKey method.key,
          .value method.function⟩ : Installation) := by
    intro object place methods hplace
    rw [List.filterMap_map, ← List.filterMap_eq_map]
    exact List.filterMap_congr fun method _ => installation?_method method hplace
  have hproperties : (node.staticProperties.map (ClassProperty.install (.identifier identifier))).filterMap
      (installation? identifier) = node.staticProperties.map fun property =>
        (⟨.constructor, installedKey property.key, .value property.initializer⟩ : Installation) := by
    rw [List.filterMap_map, ← List.filterMap_eq_map]
    exact List.filterMap_congr fun property _ => installation?_property property place?_constructor
  rw [List.filterMap_append, fields_of_mapM h, ClassNode.installers, List.filterMap_append,
    List.filterMap_append, hmethods _ place?_prototype, hmethods _ place?_constructor, hproperties]

/-- What is generated, member by member. -/
theorem installations_perm (h : node.properties.mapM ClassProperty.installInstance = .ok fields) :
    ((fields ++ node.installers identifier).filterMap (installation? identifier)).Perm
      (node.body.flatMap ClassMember.generates) := by
  have hsection : ∀ {α : Type} (pick : ClassMember → Option α) (install : α → Installation),
      (node.body.filterMap pick).map install =
        node.body.flatMap fun m => ((pick m).map install).toList := by
    intro α pick install
    rw [List.map_filterMap, List.filterMap_eq_flatMap_toList]
  rw [installations_eq h, ClassNode.properties, ClassNode.methods, ClassNode.staticMethods,
    ClassNode.staticProperties, hsection, hsection, hsection, hsection]
  refine (((List.flatMap_append_perm _ _ _).append_right _).append_left _).trans ?_
  refine ((List.flatMap_append_perm _ _ _).append_left _).trans ?_
  refine (List.flatMap_append_perm _ _ _).trans (List.Perm.of_eq ?_)
  refine congrArg (fun install => node.body.flatMap install) (funext fun m => ?_)
  -- a member is in one section at most
  cases m with
  | classMethod method =>
    cases hkind : method.kind <;> cases hstatic : method.isStatic <;>
      simp [ClassMember.property?, ClassMember.method?, ClassMember.generates, memberPlace,
        ClassMethod.isMethod, hkind, hstatic]
  | classProperty property =>
    cases hvalue : property.value <;> cases hstatic : property.isStatic <;>
      simp [ClassMember.property?, ClassMember.method?, ClassMember.generates, fieldPlace,
        ClassProperty.hasValue, hvalue, hstatic]
  | staticBlock body => rfl
  | other type => rfl

/-! ## Handled members -/

theorem generates_eq_denotes {m : ClassMember} (h : m.Handled) : m.generates = m.denotes := by
  cases m with
  | classMethod method =>
    rcases h with hkind | ⟨hkind, hkey⟩
    · simp [ClassMember.generates, ClassMember.denotes, hkind]
    · simp [ClassMember.generates, ClassMember.denotes, hkind,
        keyExpression_eq_installedKey_iff.mpr hkey]
  | classProperty property =>
    simp [ClassMember.generates, ClassMember.denotes, h.1,
      keyExpression_eq_installedKey_iff.mpr h.2]
  | staticBlock body => rfl
  | other type => exact h.elim

theorem length_generates_le (m : ClassMember) : m.generates.length ≤ m.denotes.length := by
  cases m with
  | classMethod method =>
    cases hkind : method.kind <;> simp [ClassMember.generates, ClassMember.denotes, hkind]
  | classProperty property =>
    cases hvalue : property.value <;> simp [ClassMember.generates, ClassMember.denotes, hvalue]
  | staticBlock body => exact le_rfl
  | other type => exact Nat.zero_le _

theorem generates_key {m : ClassMember} {installation : Installation}
    (h : installation ∈ m.generates) : installation.key.isIdentifier = false := by
  cases m with
  | classMethod method =>
    by_cases hkind : method.kind = .method
    · simp only [ClassMember.generates, hkind, if_true, List.mem_singleton] at h
      rw [h]
      exact installedKey_not_identifier method.key
    · simp [ClassMember.generates, hkind] at h
  | classProperty property =>
    by_cases hvalue : property.value.isSome
    · simp only [ClassMember.generates, hvalue, if_true, List.mem_singleton] at h
      rw [h]
      exact installedKey_not_identifier property.key
    · simp [ClassMember.generates, hvalue] at h
  | staticBlock body => cases h
  | other type => cases h

/-- A member that is not dropped and denotes no variable as a key is handled. -/
theorem handled_of_length {m : ClassMember} (hlength : m.denotes.length ≤ m.generates.length)
    (hkey : ∀ installation ∈ m.denotes, installation.key.isIdentifier = false) : m.Handled := by
  cases m with
  | classMethod method =>
    cases hkind : method.kind with
    | constructor => exact .inl hkind
    | method =>
      have hmem := hkey ⟨memberPlace method.isStatic, keyExpression method.key method.computed,
        .value method.function⟩ (by simp [ClassMember.denotes, hkind])
      exact .inr ⟨hkind, keyExpression_isIdentifier.symm.trans hmem⟩
    | get => simp [ClassMember.generates, ClassMember.denotes, hkind] at hlength
    | set => simp [ClassMember.generates, ClassMember.denotes, hkind] at hlength
  | classProperty property =>
    have hmem := hkey _ (List.mem_singleton_self _)
    refine ⟨?_, keyExpression_isIdentifier.symm.trans hmem⟩
    cases hvalue : property.value with
    | some value => rfl
    | none => simp [ClassMember.generates, ClassMember.denotes, hvalue] at hlength
  | staticBlock body => trivial
  | other type => simp [ClassMember.generates, ClassMember.denotes] at hlength

/-- Lists that are shorter member by member and equally long together are equally long
member by member. -/
theorem length_le_of_flatMap_perm {α β : Type} {f g : α → List β} {items : List α}
    (hle : ∀ x, (f x).length ≤ (g x).length) (h : (items.flatMap f).Perm (items.flatMap g)) :
    ∀ x ∈ items, (g x).length ≤ (f x).length := by
  have hsum : (items.map fun x => (f x).length).sum = (items.map fun x => (g x).length).sum := by
    rw [← List.length_flatMap, ← List.length_flatMap]
    exact h.length_eq
  clear h
  induction items with
  | nil => exact fun x hx => absurd hx List.not_mem_nil
  | cons y items ih =>
    rw [List.map_cons, List.map_cons, List.sum_cons, List.sum_cons] at hsum
    have hrest : (items.map fun x => (f x).length).sum ≤ (items.map fun x => (g x).length).sum :=
      List.sum_le_sum fun x _ => hle x
    have hhead := hle y
    rintro x (_ | ⟨_, hx⟩)
    · omega
    · exact ih (by omega) x hx

theorem generates_perm_denotes_iff {body : List ClassMember} :
    (body.flatMap ClassMember.generates).Perm (body.flatMap ClassMember.denotes) ↔
      ∀ m ∈ body, m.Handled := by
  constructor
  · intro h m hm
    refine handled_of_length (length_le_of_flatMap_perm length_generates_le h m hm) ?_
    intro installation hinstallation
    have hmem := h.symm.subset (List.mem_flatMap_of_mem hm hinstallation)
    obtain ⟨m', -, hmem'⟩ := List.mem_flatMap.mp hmem
    exact generates_key hmem'
  · intro h
    exact .of_eq (List.flatMap_congr fun m hm => generates_eq_denotes (h m hm))

/-! ## Classes -/

/-- What `transformClass` makes for a class, as opposed to what it takes over from the
constructor and the static blocks. -/
structure Generated (arrays : ClassArrays) (node : ClassNode) (identifier : JSString) where
  fields : List Statement
  extendsNodes : List Statement
  fields_eq : node.properties.mapM ClassProperty.installInstance = .ok fields
  extendsNodes_eq : node.extendsNodes arrays identifier = .ok extendsNodes

/-- The assignments by which the source links a constructor and its superclass. -/
def ClassNode.links (node : ClassNode) (arrays : ClassArrays) (identifier : JSString) :
    List Statement :=
  (match node.superClass with
    | none => []
    | some superClass =>
      [assignMember (.identifier identifier) (.identifier (jsString "prototype")) false
          (.callExpression (memberOf (.identifier (jsString "Object")) "create") arrays.create
            [memberOf superClass "prototype"]),
        .expressionStatement
          (.callExpression (memberOf (.identifier (jsString "Object")) "setPrototypeOf")
            arrays.setPrototypeOf [.identifier identifier, superClass])]) ++
    [assignMember (memberOf (.identifier identifier) "prototype")
      (.identifier (jsString "constructor")) false (.identifier identifier)]

namespace Generated

variable {arrays : ClassArrays} (g : Generated arrays node identifier)

def body : List Statement := node.generatedBody identifier g.fields g.extendsNodes

def call : Expression :=
  .callExpression (.functionExpression (.mk none [] (.mk false g.body))) arrays.call []

def installations : List Installation :=
  (g.fields ++ node.installers identifier).filterMap (installation? identifier)

/-- The members are installed where the source says, after the prototypes are linked. -/
structure Places : Prop where
  members : g.installations.Perm (node.body.flatMap ClassMember.denotes)
  links : (node.links arrays identifier ++ node.installers identifier).Sublist g.body

theorem links_eq : g.extendsNodes ++ [assignMember (memberOf (.identifier identifier) "prototype")
    (.identifier (jsString "constructor")) false (.identifier identifier)] =
      node.links arrays identifier := by
  have h := g.extendsNodes_eq
  unfold ClassNode.extendsNodes at h
  unfold ClassNode.links
  cases hsuper : node.superClass with
  | none =>
    rw [hsuper] at h
    rw [← Except.ok.inj h]
  | some superClass =>
    rw [hsuper] at h
    cases superClass with
    | identifier name => rw [← Except.ok.inj h]
    | _ => cases h

theorem sublist_body : (node.links arrays identifier ++ node.installers identifier).Sublist g.body := by
  rw [← g.links_eq, body, ClassNode.generatedBody]
  simp only [List.append_assoc]
  refine List.Sublist.trans ?_ (List.sublist_append_right _ _)
  refine (List.Sublist.refl _).append ((List.Sublist.refl _).append ?_)
  exact List.sublist_append_left _ _

theorem places_iff : g.Places ↔ ∀ m ∈ node.body, m.Handled := by
  have hperm : g.installations.Perm (node.body.flatMap ClassMember.generates) :=
    installations_perm g.fields_eq
  constructor
  · intro h
    exact generates_perm_denotes_iff.mp (hperm.symm.trans h.members)
  · intro h
    exact ⟨hperm.trans (generates_perm_denotes_iff.mpr h), g.sublist_body⟩

end Generated

theorem transformClass_eq_ok {arrays : ClassArrays} {call : Expression} :
    transformClass arrays node identifier = .ok call ↔
      ∃ g : Generated arrays node identifier, g.call = call := by
  unfold transformClass
  simp only [Fallible.bind_eq_ok, Fallible.pure_eq_ok]
  constructor
  · rintro ⟨extendsNodes, hextends, fields, hfields, rfl⟩
    exact ⟨⟨fields, extendsNodes, hfields, hextends⟩, rfl⟩
  · rintro ⟨g, rfl⟩
    exact ⟨g.extendsNodes, g.extendsNodes_eq, g.fields, g.fields_eq, rfl⟩

/-- A call that stands for a class and places its members. -/
def PlacesMembers (arrays : ClassArrays) (node : ClassNode) (identifier : JSString)
    (call : Expression) : Prop :=
  ∃ g : Generated arrays node identifier, g.call = call ∧ g.Places

theorem placesMembers_iff {arrays : ClassArrays} {call : Expression}
    (h : transformClass arrays node identifier = .ok call) :
    PlacesMembers arrays node identifier call ↔ ∀ m ∈ node.body, m.Handled := by
  obtain ⟨g, hcall⟩ := transformClass_eq_ok.mp h
  constructor
  · rintro ⟨g', -, hplaces⟩
    exact g'.places_iff.mp hplaces
  · intro hhandled
    exact ⟨g, hcall, g.places_iff.mpr hhandled⟩

/-! ## Object literals -/

/-- A member of an object literal. -/
inductive ObjectMember
  | objectProperty (key : Expression) (computed : Bool) (value : Expression)
  | objectMethod (kind : MethodKind) (key : Expression) (computed : Bool) (function : Expression)
  | spreadElement (argument : Expression)

namespace ObjectMember

/-- What `pipe` sees of a member. -/
def toProperty : ObjectMember → Property
  | .objectProperty key _ value => .objectProperty (staticName key false) value
  | .objectMethod _ key _ _ => .objectMethod (staticName key false)
  | .spreadElement _ => .spreadElement

/-- What the source asks for: keys with their contents. -/
def denotes : ObjectMember → List (Expression × Content)
  | .objectProperty key computed value => [(keyExpression key computed, .value value)]
  | .objectMethod kind key computed function =>
    [(keyExpression key computed,
      match kind with
      | .get => .getter function
      | .set => .setter function
      | _ => .value function)]
  | .spreadElement argument => [(argument, .other "SpreadElement")]

/-- A member whose key `pipe` does not mistake. -/
def Handled : ObjectMember → Prop
  | .objectProperty key computed _ => isVariableKey key computed = false
  | .objectMethod _ _ _ _ | .spreadElement _ => False

end ObjectMember

/-- What `pipe` stores into the object. -/
def Property.stores : Property → List (Expression × Content)
  | .objectProperty (some key) value => [(.stringLiteral key, .value value)]
  | _ => []

/-- The properties of an object literal that `pipe` accepts. -/
theorem properties_of_accepted {properties : List Property} {ctx ctx' : PipeContext}
    (h : pipeProperties properties ctx = .ok ctx') {property : Property}
    (hmem : property ∈ properties) : ∃ key value, property = .objectProperty (some key) value := by
  induction properties generalizing ctx with
  | nil => cases hmem
  | cons first properties ih =>
    rcases first with ⟨_ | key, value⟩ | ⟨_ | key⟩ | _
    · cases h
    · rw [pipeProperties] at h
      obtain ⟨ctx₁, -, hrest⟩ := Fallible.bind_eq_ok.mp h
      rcases List.mem_cons.mp hmem with rfl | hmem
      · exact ⟨key, value, rfl⟩
      · exact ih hrest hmem
    · cases h
    · cases h
    · cases h

/-- The object gets the members of the literal, in their order. -/
def PlacesProperties (members : List ObjectMember) : Prop :=
  (members.map ObjectMember.toProperty).flatMap Property.stores = members.flatMap ObjectMember.denotes

theorem stores_eq_denotes_iff {m : ObjectMember} {key : JSString} {value : Expression}
    (h : m.toProperty = .objectProperty (some key) value) :
    m.toProperty.stores = m.denotes ↔ m.Handled := by
  cases m with
  | objectProperty keyNode computed value' =>
    obtain ⟨hname, hvalue⟩ := Property.objectProperty.inj h
    have hkey : keyNode = .identifier key := (staticName_eq_some.mp hname).2
    subst hkey
    cases computed <;>
      simp [ObjectMember.toProperty, Property.stores, ObjectMember.denotes, ObjectMember.Handled,
        keyExpression, isVariableKey, staticName, Expression.isIdentifier]
  | objectMethod kind keyNode computed function => cases h
  | spreadElement argument => cases h

theorem placesProperties_iff {members : List ObjectMember} {ctx ctx' : PipeContext}
    (h : pipeExpression (.objectExpression (members.map ObjectMember.toProperty)) ctx = .ok ctx') :
    PlacesProperties members ↔ ∀ m ∈ members, m.Handled := by
  have hproperty : ∀ m ∈ members, ∃ key value, m.toProperty = .objectProperty (some key) value := by
    intro m hm
    rw [pipeExpression] at h
    exact properties_of_accepted h (List.mem_map_of_mem hm)
  clear h
  unfold PlacesProperties
  rw [List.flatMap_map]
  induction members with
  | nil => simp
  | cons m members ih =>
    obtain ⟨key, value, hm⟩ := hproperty m List.mem_cons_self
    have hlength : m.toProperty.stores.length = m.denotes.length := by
      cases m with
      | objectProperty keyNode computed value' => rw [hm]; rfl
      | objectMethod kind keyNode computed function => cases hm
      | spreadElement argument => cases hm
    have hrest := ih fun m' hm' => hproperty m' (List.mem_cons_of_mem m hm')
    rw [List.flatMap_cons, List.flatMap_cons, List.forall_mem_cons]
    constructor
    · intro hstores
      obtain ⟨hhead, htail⟩ := List.append_inj hstores hlength
      exact ⟨(stores_eq_denotes_iff hm).mp hhead, hrest.mp htail⟩
    · rintro ⟨hhead, htail⟩
      rw [(stores_eq_denotes_iff hm).mpr hhead, hrest.mpr htail]

/-! ## Members are where the source puts them -/

/-- `{ return 1; }` -/
private def returnOne : Block :=
  .mk false [.returnStatement (some (.numericLiteral (Binary64.ofInt 1)))]

/-- `class C { m() { return 1; } }`, where `m` may be an accessor. -/
private def oneMethod (kind : MethodKind) : ClassNode where
  id := some (jsString "C")
  superClass := none
  body := [.classMethod ⟨kind, false, .identifier (jsString "m"), false, [], returnOne⟩]

private def sampleArrays : ClassArrays := ⟨0, 1, 2⟩

private theorem oneMethod_fields (kind : MethodKind) :
    (oneMethod kind).properties.mapM ClassProperty.installInstance = .ok [] := by
  cases kind <;> rfl

private def oneMethodGenerated (kind : MethodKind) :
    Generated sampleArrays (oneMethod kind) (jsString "C") :=
  ⟨[], [], oneMethod_fields kind, rfl⟩

end AtomixJS.Compiler
