import AtomixJS.Compiler.Classes
import AtomixJS.Compiler.Pipe
import AtomixJS.Lib.Fallible

/-!
# The order of construction

`new C(args)` in the source: the constructor of a base class initialises the fields and
runs its body; that of a derived class runs its body, in which a `super` call constructs
the superclass and then initialises the fields; a derived class without a constructor
constructs the superclass with the same arguments.

In generated code every class is one function, of which `transformClass` makes the
initialisers of the fields and then the body; a `super` call calls the function of the
superclass.

Both are defined over any semantics of statements in which a `super` call is left open,
so that it may stand anywhere in a body, under any condition.
-/

namespace AtomixJS.Compiler

/-! ## Hierarchies -/

/-- A class that `transformClass` accepts, with the statements that initialise the
fields of an object. -/
structure InstanceClass where
  identifier : JSString
  node : ClassNode
  fields : List Statement
  fields_eq : node.properties.mapM ClassProperty.installInstance = .ok fields

/-- A class below its superclasses, which are identifiers. -/
inductive Hierarchy
  | base (c : InstanceClass) (h : c.node.superClass = none)
  | derived (c : InstanceClass) (name : JSString)
      (h : c.node.superClass = some (.identifier name)) (parent : Hierarchy)

namespace Hierarchy

/-- A hierarchy and those of its superclasses. -/
def all : Hierarchy → List Hierarchy
  | .base c h => [.base c h]
  | .derived c name h parent => .derived c name h parent :: parent.all

/-- The class has a superclass, an explicit constructor and no field with a value, or no
superclass. -/
def Explicit : Hierarchy → Prop
  | .base _ _ => True
  | .derived c _ _ _ => c.node.constructorMethod.isSome ∧ c.node.properties = []

end Hierarchy

/-! ## Semantics -/

/-- A semantics of statements: `run` executes the statements of a constructor that was
called with the given arguments, where `super` is what a `super` call does. -/
structure Semantics (σ V : Type) where
  enter : InstanceClass → List V → σ → σ
  run : (List V → σ → σ) → List Statement → List V → σ → σ
  run_nil : ∀ super args s, run super [] args s = s
  run_append : ∀ super statements statements' args s,
    run super (statements ++ statements') args s =
      run super statements' args (run super statements args s)

variable {σ V : Type} (sem : Semantics σ V)

/-- There is no superclass. -/
def noSuper : List V → σ → σ := fun _ s => s

namespace Semantics

/-- The fields of an object are initialised. -/
def initialise (c : InstanceClass) (args : List V) (s : σ) : σ := sem.run noSuper c.fields args s

/-- The function that `transformClass` makes of a class is called. -/
def call (c : InstanceClass) (super : List V → σ → σ) (args : List V) (s : σ) : σ :=
  match c.node.constructorFunction c.identifier c.fields with
  | .mk _ _ body => sem.run super body.statements args (sem.enter c args s)

end Semantics

namespace Hierarchy

/-- `new C(args)` in the source. -/
def construct : Hierarchy → List V → σ → σ
  | .base c _ => fun args s =>
    let s := sem.initialise c args (sem.enter c args s)
    match c.node.constructorMethod with
    | some method => sem.run noSuper method.body.statements args s
    | none => s
  | .derived c _ _ parent => fun args s =>
    let s := sem.enter c args s
    match c.node.constructorMethod with
    | some method =>
      let super := fun args' s => sem.initialise c args (construct parent args' s)
      sem.run super method.body.statements args s
    | none => sem.initialise c args (construct parent args s)

/-- `new C(args)` in the generated code. -/
def constructCompiled : Hierarchy → List V → σ → σ
  | .base c _ => sem.call c noSuper
  | .derived c _ _ parent => sem.call c (constructCompiled parent)

/-- Objects are constructed in the order of the source. -/
def InOrder (hierarchy : Hierarchy) : Prop :=
  ∀ {σ V : Type} (sem : Semantics σ V) (args : List V) (s : σ),
    hierarchy.constructCompiled sem args s = hierarchy.construct sem args s

end Hierarchy

/-! ## Explicit constructors -/

variable {sem}

theorem Semantics.call_eq (c : InstanceClass) (super : List V → σ → σ) (args : List V) (s : σ) :
    sem.call c super args s =
      sem.run super ((c.node.constructorMethod.map (·.body.statements)).getD []) args
        (sem.run super c.fields args (sem.enter c args s)) :=
  sem.run_append super _ _ args _

theorem fields_eq_nil {c : InstanceClass} (h : c.node.properties = []) : c.fields = [] := by
  have hfields := c.fields_eq
  rw [h] at hfields
  exact (Except.ok.inj hfields).symm

/-- A class without superclass is constructed as the source says. -/
theorem Semantics.call_base (c : InstanceClass) (args : List V) (s : σ) :
    sem.call c noSuper args s =
      match c.node.constructorMethod with
      | some method => sem.run noSuper method.body.statements args
          (sem.initialise c args (sem.enter c args s))
      | none => sem.initialise c args (sem.enter c args s) := by
  rw [sem.call_eq]
  cases c.node.constructorMethod with
  | some method => rfl
  | none => exact sem.run_nil _ _ _

theorem Hierarchy.constructCompiled_eq {hierarchy : Hierarchy}
    (h : ∀ k ∈ hierarchy.all, k.Explicit) (args : List V) (s : σ) :
    hierarchy.constructCompiled sem args s = hierarchy.construct sem args s := by
  induction hierarchy generalizing args s with
  | base c hbase => exact sem.call_base c args s
  | derived c name hsuper parent ih =>
    obtain ⟨hconstructor, hproperties⟩ := h _ List.mem_cons_self
    obtain ⟨method, hmethod⟩ := Option.isSome_iff_exists.mp hconstructor
    have hfields := fields_eq_nil hproperties
    have hparent : ∀ args s, constructCompiled sem parent args s = construct sem parent args s :=
      ih fun k hk => h k (List.mem_cons_of_mem _ hk)
    have hinitialise : ∀ s, sem.initialise c args s = s := by
      intro s
      rw [Semantics.initialise, hfields, sem.run_nil]
    have hsame : constructCompiled sem parent =
        fun args' s => sem.initialise c args (construct sem parent args' s) := by
      funext args' s
      rw [hinitialise, hparent]
    rw [constructCompiled, construct, sem.call_eq, hfields, sem.run_nil, hmethod, hsame]
    rfl

/-! ## What goes wrong without

A semantics that tells the orders apart: it counts the constructors that are entered, and
the statements that run while only one has been.
-/

/-- `S.call(this, ...arguments)`, which a `super` call becomes. -/
def Statement.isSuperCall : Statement → Bool
  | .expressionStatement
      (.callExpression (.memberExpression (.identifier _) (.identifier property) false) _
        (.thisExpression :: _)) => property = jsString "call"
  | _ => false

structure Progress where
  entered : ℕ
  count : ℕ

namespace Progress

def statement (super : Progress → Progress) (s : Progress) (statement : Statement) : Progress :=
  if statement.isSuperCall then super s
  else if s.entered ≤ 1 then { s with count := s.count + 1 } else s

def counting : Semantics Progress Unit where
  enter _ _ s := { s with entered := s.entered + 1 }
  run super statements args s := statements.foldl (statement (super args)) s
  run_nil _ _ _ := rfl
  run_append _ _ _ _ _ := List.foldl_append

/-- Constructors may be entered, and once two have been nothing is counted. -/
structure Later (s s' : Progress) : Prop where
  entered : s.entered ≤ s'.entered
  count : 2 ≤ s.entered → s'.count = s.count

/-- A constructor is entered. -/
structure Enters (s s' : Progress) : Prop where
  entered : s.entered < s'.entered
  count : 1 ≤ s.entered → s'.count = s.count

variable {s s' s'' : Progress} {super : Progress → Progress} {statements : List Statement}

theorem Later.trans (h : Later s s') (h' : Later s' s'') : Later s s'' :=
  ⟨h.entered.trans h'.entered,
    fun hs => (h'.count (hs.trans h.entered)).trans (h.count hs)⟩

theorem Enters.later (h : Enters s s') : Later s s' :=
  ⟨Nat.le_of_lt h.entered, fun hs => h.count (Nat.le_of_succ_le hs)⟩

theorem later_statement (hsuper : ∀ s, Later s (super s)) (st : Statement) (s : Progress) :
    Later s (statement super s st) := by
  unfold statement
  split
  · exact hsuper s
  · split
    · exact ⟨le_rfl, fun hs => by omega⟩
    · exact ⟨le_rfl, fun _ => rfl⟩

theorem later_foldl (hsuper : ∀ s, Later s (super s)) (statements : List Statement)
    (s : Progress) : Later s (statements.foldl (statement super) s) := by
  induction statements generalizing s with
  | nil => exact ⟨le_rfl, fun _ => rfl⟩
  | cons st statements ih => exact (later_statement hsuper st s).trans (ih _)

theorem later_initialise (c : InstanceClass) (args : List Unit) (s : Progress) :
    Later s (counting.initialise c args s) :=
  later_foldl (fun _ => ⟨le_rfl, fun _ => rfl⟩) c.fields s

/-- What follows the entry of a constructor. -/
theorem enters_of_later (c : InstanceClass) (args : List Unit)
    (h : Later (counting.enter c args s) s') : Enters s s' :=
  ⟨h.entered, fun hs => h.count (Nat.succ_le_succ hs)⟩

theorem enters_construct (hierarchy : Hierarchy) (args : List Unit) (s : Progress) :
    Enters s (hierarchy.construct counting args s) := by
  induction hierarchy generalizing args s with
  | base c h =>
    have hfields := later_initialise c args (counting.enter c args s)
    refine enters_of_later c args ?_
    unfold Hierarchy.construct
    refine hfields.trans ?_
    cases c.node.constructorMethod with
    | some method => exact later_foldl (fun _ => ⟨le_rfl, fun _ => rfl⟩) _ _
    | none => exact ⟨le_rfl, fun _ => rfl⟩
  | derived c name h parent ih =>
    refine enters_of_later c args ?_
    have hsuper : ∀ args' s, Later s (counting.initialise c args (parent.construct counting args' s)) :=
      fun args' s => (ih args' s).later.trans (later_initialise c args _)
    unfold Hierarchy.construct
    cases c.node.constructorMethod with
    | some method => exact later_foldl (hsuper args) _ _
    | none => exact hsuper args _

theorem enters_constructCompiled (hierarchy : Hierarchy) (args : List Unit) (s : Progress) :
    Enters s (hierarchy.constructCompiled counting args s) := by
  induction hierarchy generalizing args s with
  | base c h => exact enters_of_later c args (later_foldl (fun _ => ⟨le_rfl, fun _ => rfl⟩) _ _)
  | derived c name h parent ih =>
    exact enters_of_later c args (later_foldl (fun s => (ih args s).later) _ _)

/-- The statements in front of the first `super` call are counted. -/
theorem count_foldl (statements : List Statement) (hsuper : ∀ s, Enters s (super s))
    (hs : s.entered = 1) :
    (statements.foldl (statement super) s).count =
      s.count + (statements.takeWhile (!Statement.isSuperCall ·)).length := by
  induction statements generalizing s with
  | nil => rfl
  | cons st statements ih =>
    rw [List.foldl_cons]
    cases hcall : st.isSuperCall with
    | true =>
      have hstep : statement super s st = super s := if_pos hcall
      have hentered := (hsuper s).entered
      have hrest := later_foldl (fun s => (hsuper s).later) statements (super s)
      rw [hstep, hrest.count (by omega), (hsuper s).count (by omega)]
      simp [hcall]
    | false =>
      have hstep : statement super s st = { s with count := s.count + 1 } := by
        unfold statement
        rw [hcall, if_pos (Nat.le_of_eq hs)]
        rfl
      have hrest := ih (s := { s with count := s.count + 1 }) hs
      rw [hstep, hrest, List.takeWhile_cons]
      simp only [hcall, Bool.not_false, if_true, List.length_cons]
      omega

end Progress

open Progress

theorem isSuperCall_field {c : InstanceClass} {statement : Statement}
    (h : statement ∈ c.fields) : statement.isSuperCall = false := by
  have hfields := c.fields_eq
  obtain ⟨property, -, hproperty⟩ := Fallible.mem_of_mapM_ok hfields h
  unfold ClassProperty.installInstance at hproperty
  split at hproperty
  · obtain rfl := Except.ok.inj hproperty
    rfl
  · cases hproperty

theorem takeWhile_fields (c : InstanceClass) (statements : List Statement) :
    (c.fields ++ statements).takeWhile (!Statement.isSuperCall ·) =
      c.fields ++ statements.takeWhile (!Statement.isSuperCall ·) :=
  List.takeWhile_append_of_pos fun statement hmem => by rw [isSuperCall_field hmem]; rfl

/-- Statements without a `super` call enter no constructor. -/
theorem entered_foldl {super : Progress → Progress} {statements : List Statement}
    (h : ∀ statement ∈ statements, statement.isSuperCall = false) (s : Progress) :
    (statements.foldl (Progress.statement super) s).entered = s.entered := by
  induction statements generalizing s with
  | nil => rfl
  | cons st statements ih =>
    rw [List.foldl_cons, ih fun st' hst' => h st' (List.mem_cons_of_mem _ hst')]
    unfold Progress.statement
    rw [h st List.mem_cons_self]
    split
    · contradiction
    · split <;> rfl

/-- A derived class whose objects are constructed in order is explicit. -/
theorem Hierarchy.InOrder.explicit {hierarchy : Hierarchy} (h : hierarchy.InOrder) :
    hierarchy.Explicit := by
  cases hierarchy with
  | base c hbase => trivial
  | derived c name hsuper parent =>
    have hsame := h counting [] ⟨0, 0⟩
    have hcompiled := enters_constructCompiled parent []
    rw [constructCompiled, Semantics.call_eq, construct] at hsame
    cases hmethod : c.node.constructorMethod with
    | none =>
      -- the superclass is not constructed at all
      rw [hmethod] at hsame
      have hentered := congrArg Progress.entered hsame
      have hfields : (counting.run (constructCompiled counting parent) c.fields []
          (counting.enter c [] ⟨0, 0⟩)).entered = 1 :=
        entered_foldl (fun statement hmem => isSuperCall_field hmem) _
      have hparent := (enters_construct parent [] (counting.enter c [] ⟨0, 0⟩)).entered
      have hlater := (later_initialise c []
        (construct counting parent [] (counting.enter c [] ⟨0, 0⟩))).entered
      have hone : (counting.enter c [] ⟨0, 0⟩).entered = 1 := rfl
      rw [Option.map_none, Option.getD_none, counting.run_nil, hfields] at hentered
      have hright : 1 = (counting.initialise c []
          (construct counting parent [] (counting.enter c [] ⟨0, 0⟩))).entered := hentered
      omega
    | some method =>
      -- the fields are initialised in front of the first `super` call
      rw [hmethod, Option.map_some, Option.getD_some, ← counting.run_append] at hsame
      refine ⟨by rw [hmethod]; rfl, ?_⟩
      have hcount := congrArg Progress.count hsame
      have hsuper : ∀ s, Progress.Enters s
          (counting.initialise c [] (construct counting parent [] s)) := by
        intro s
        have hparent := enters_construct parent [] s
        have hlater := later_initialise c [] (construct counting parent [] s)
        have hle := hparent.entered
        refine ⟨Nat.lt_of_lt_of_le hle hlater.entered, fun hs => ?_⟩
        rw [hlater.count (by omega), hparent.count hs]
      have hleft := count_foldl (c.fields ++ method.body.statements) hcompiled
        (s := counting.enter c [] ⟨0, 0⟩) rfl
      have hright := count_foldl method.body.statements hsuper
        (s := counting.enter c [] ⟨0, 0⟩) rfl
      rw [takeWhile_fields, List.length_append] at hleft
      have hlength : c.fields.length = 0 := by
        have hequal := (hleft.symm.trans hcount).trans hright
        omega
      have hfields := c.fields_eq
      rw [List.length_eq_zero_iff.mp hlength] at hfields
      exact Fallible.eq_nil_of_mapM_ok hfields

theorem Hierarchy.all_subset {hierarchy k : Hierarchy} (h : k ∈ hierarchy.all) :
    k.all ⊆ hierarchy.all := by
  induction hierarchy with
  | base c hbase =>
    obtain rfl := List.mem_singleton.mp h
    exact fun _ hj => hj
  | derived c name hsuper parent ih =>
    rcases List.mem_cons.mp h with rfl | h
    · exact fun _ hj => hj
    · exact fun j hj => List.mem_cons_of_mem _ (ih h hj)

/-! ## Instance construction -/

/-- `class A { }` -/
private def classA : InstanceClass where
  identifier := jsString "A"
  node := ⟨some (jsString "A"), none, []⟩
  fields := []
  fields_eq := rfl

/-- `class B extends A { }` -/
private def classB : InstanceClass where
  identifier := jsString "B"
  node := ⟨some (jsString "B"), some (.identifier (jsString "A")), []⟩
  fields := []
  fields_eq := rfl

private def constructionArrays : ClassArrays := ⟨0, 1, 2⟩

end AtomixJS.Compiler
