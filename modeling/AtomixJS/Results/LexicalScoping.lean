import AtomixJS.Core.Heap
import AtomixJS.Lib.Store

/-!
# Lexical scoping

The scopes of the machine are a forest of finite maps.  Closures share them, so
that the forest grows and changes at any place at any time; the operations on one
chain of scopes refine those of the forest whatever happened before.

Each scope is a hash table with 32 buckets, of which only the bindings can be seen.
-/

namespace AtomixJS

open Store

/-- Scopes with their parents and bindings. -/
abbrev ScopeForest := Forest CString JSValue

/-- An operation on the scopes. -/
inductive ScopeOp
  | create (parent : Option ScopeRef)
  | declare (scope : ScopeRef) (name : CString) (value : JSValue)
  | set (scope : ScopeRef) (name : CString) (value : JSValue)

/-- `scope_create_scope`, `scope_declare` and `scope_set`. -/
def ScopeOp.run (h : Heap) : ScopeOp → Except Fault Heap
  | .create parent => .ok (scopeCreateScope h parent).1
  | .declare scope name value => scopeDeclare h scope name value
  | .set scope name value => do
    let result ← scopeSet h scope name value
    return result.getD h

/-- What an operation does to the forest. -/
inductive ScopeOp.Means : ScopeOp → ScopeForest → ScopeForest → Prop
  | create {forest : ScopeForest} {parent : Option ScopeRef} (h : forest.Plantable parent) :
      Means (.create parent) forest (forest.plant parent h)
  | declare {forest : ScopeForest} {scope : ScopeRef} {name : CString} {value : JSValue}
      (h : scope < forest.parents.length) :
      Means (.declare scope name value) forest (forest.write ⟨scope, name, value⟩)
  | set {forest : ScopeForest} {scope nearest : ScopeRef} {name : CString} {value : JSValue}
      {path : List ScopeRef} (hpath : forest.Path scope path)
      (hnearest : forest.nearest path name = some nearest) :
      Means (.set scope name value) forest (forest.write ⟨nearest, name, value⟩)
  | setNowhere {forest : ScopeForest} {scope : ScopeRef} {name : CString} {value : JSValue}
      {path : List ScopeRef} (hpath : forest.Path scope path)
      (hnearest : forest.nearest path name = none) :
      Means (.set scope name value) forest forest

/-- The scopes that an operation names are there. -/
def ScopeOp.Valid (forest : ScopeForest) : ScopeOp → Prop
  | .create parent => forest.Plantable parent
  | .declare scope _ _ | .set scope _ _ => scope < forest.parents.length

/-- What operations make of the empty forest. -/
inductive ScopeHistory : List ScopeOp → ScopeForest → Prop
  | nil : ScopeHistory [] (.empty CString JSValue)
  | snoc {ops : List ScopeOp} {op : ScopeOp} {forest forest' : ScopeForest}
      (h : ScopeHistory ops forest) (hop : op.Means forest forest') :
      ScopeHistory (ops ++ [op]) forest'

/-- The scopes of a heap are those of a forest. -/
structure Heap.Refines (h : Heap) (forest : ScopeForest) : Prop where
  parents : h.scopes.map (·.parent) = forest.parents
  bindings : h.binding = forest.contents

namespace Heap.Refines

variable {h : Heap} {forest : ScopeForest} {scope : ScopeRef} {path : List ScopeRef}
  {name : CString} {value : JSValue}

theorem length (hrefines : h.Refines forest) : h.scopes.length = forest.parents.length := by
  rw [← hrefines.parents, List.length_map]

theorem chain (hrefines : h.Refines forest) (hpath : forest.Path scope path) :
    h.ScopeChain scope path := by
  rw [Forest.Path, ← hrefines.parents] at hpath
  exact hpath.of_map

theorem create (hrefines : h.Refines forest) {parent : Option ScopeRef}
    (hplantable : forest.Plantable parent) :
    (scopeCreateScope h parent).1.Refines (forest.plant parent hplantable) where
  parents := by
    simp only [scopeCreateScope, Forest.plant, List.map_append, List.map_cons, List.map_nil,
      hrefines.parents]
  bindings := by
    funext i key
    rw [Forest.plant, ← hrefines.length, ← hrefines.bindings]
    simp only [Heap.binding, scopeCreateScope]
    rcases Nat.lt_trichotomy i h.scopes.length with hlt | rfl | hgt
    · rw [List.getElem?_append_left hlt, if_neg hlt.ne]
    · simp
    · rw [if_neg hgt.ne', List.getElem?_eq_none (by simpa using hgt),
        List.getElem?_eq_none hgt.le]

theorem putBinding (hrefines : h.Refines forest) (hlt : scope < forest.parents.length) :
    (h.putBinding scope name value).Refines (forest.write ⟨scope, name, value⟩) where
  parents := by
    show _ = forest.parents
    rw [← hrefines.parents]
    refine List.ext_getElem? fun i => ?_
    simp only [Heap.putBinding, List.getElem?_map, List.getElem?_modify]
    cases h.scopes[i]? with
    | none => rfl
    | some node =>
      simp only [Option.map_eq_map, Option.map_some]
      split <;> rfl
  bindings := by
    funext i key
    rw [binding_putBinding (hrefines.length ▸ hlt), hrefines.bindings]
    rfl

/-- A name is read at the nearest place that has it. -/
theorem get (hrefines : h.Refines forest) (hpath : forest.Path scope path) (name : CString) :
    scopeGet h scope name =
      .ok (((forest.nearest path name).bind (forest.contents · name)).getD .undefined) := by
  rw [scopeGet_of_chain (hrefines.chain hpath), hrefines.bindings, ← Forest.inherited_eq]
  rfl

theorem contains (hrefines : h.Refines forest) (hpath : forest.Path scope path) (name : CString) :
    scopeContains h scope name = .ok (forest.nearest path name).isSome := by
  rw [scopeContains_of_chain (hrefines.chain hpath), hrefines.bindings]
  show Except.ok (inherited forest.contents path name).isSome = _
  rw [Forest.inherited_eq]
  cases hnearest : forest.nearest path name with
  | none => rfl
  | some i =>
    have hsome := List.find?_some hnearest
    exact congrArg Except.ok hsome

/-- A value is stored at the nearest place that has the name. -/
theorem set (hrefines : h.Refines forest) (hpath : forest.Path scope path) (name : CString)
    (value : JSValue) : scopeSet h scope name value =
      .ok ((forest.nearest path name).map (h.putBinding · name value)) := by
  rw [scopeSet_of_chain (hrefines.chain hpath), hrefines.bindings]
  rfl

theorem declare (hrefines : h.Refines forest) (hlt : scope < forest.parents.length)
    (name : CString) (value : JSValue) :
    scopeDeclare h scope name value = .ok (h.putBinding scope name value) :=
  if_pos (hrefines.length ▸ hlt)

end Heap.Refines

variable {h : Heap} {forest forest' : ScopeForest} {op : ScopeOp} {ops : List ScopeOp}

theorem nearest_lt {path : List ScopeRef} {scope nearest : ScopeRef} {name : CString}
    (hpath : forest.Path scope path) (hnearest : forest.nearest path name = some nearest) :
    nearest < forest.parents.length :=
  hpath.lt_length (List.mem_of_find?_eq_some hnearest)

/-- One operation on the heap is one on the forest. -/
theorem Heap.Refines.run (hrefines : h.Refines forest) (hop : op.Means forest forest') :
    ∃ h', op.run h = .ok h' ∧ h'.Refines forest' := by
  cases hop with
  | create hplantable => exact ⟨_, rfl, hrefines.create hplantable⟩
  | declare hlt => exact ⟨_, hrefines.declare hlt _ _, hrefines.putBinding hlt⟩
  | set hpath hnearest =>
    refine ⟨_, ?_, hrefines.putBinding (nearest_lt hpath hnearest)⟩
    rw [ScopeOp.run, hrefines.set hpath, hnearest]
    rfl
  | setNowhere hpath hnearest =>
    refine ⟨h, ?_, hrefines⟩
    rw [ScopeOp.run, hrefines.set hpath, hnearest]
    rfl

theorem ScopeHistory.refines (hhistory : ScopeHistory ops forest) (hstart : h.scopes = []) :
    ∃ h', ops.foldlM ScopeOp.run h = .ok h' ∧ h'.Refines forest := by
  induction hhistory with
  | nil =>
    refine ⟨h, rfl, by rw [hstart]; rfl, ?_⟩
    funext i key
    rw [Heap.binding, hstart]
    rfl
  | snoc _ hop ih =>
    obtain ⟨h₁, hrun, hrefines⟩ := ih
    obtain ⟨h', hstep, hrefines'⟩ := hrefines.run hop
    refine ⟨h', ?_, hrefines'⟩
    rw [List.foldlM_append, hrun, Fallible.ok_bind, List.foldlM_cons, hstep]
    rfl

/-- An operation on scopes that are there has a meaning. -/
theorem ScopeOp.Valid.means (hvalid : op.Valid forest) : ∃ forest', op.Means forest forest' := by
  cases op with
  | create parent => exact ⟨_, .create hvalid⟩
  | declare scope name value => exact ⟨_, .declare hvalid⟩
  | set scope name value =>
    obtain ⟨path, hpath⟩ := Forest.exists_path hvalid
    cases hnearest : forest.nearest path name with
    | none => exact ⟨_, .setNowhere hpath hnearest⟩
    | some nearest => exact ⟨_, .set hpath hnearest⟩

/-- **Lexical scoping.**  After any operations on scopes that are there, the heap
refines the forest.  On every scope a name is read at the nearest place of its way
up that has it, and `scope_contains` says whether there is one; `scope_set` stores
at this place only, or returns 0, and `scope_declare` at the scope only.  Every
further operation on scopes that are there has a meaning again. -/
theorem lexical_scoping (hhistory : ScopeHistory ops forest) (hstart : h.scopes = []) :
    ∃ h', ops.foldlM ScopeOp.run h = .ok h' ∧ h'.Refines forest ∧
      (∀ scope < forest.parents.length, ∃ path, forest.Path scope path ∧ ∀ name,
        scopeGet h' scope name =
          .ok (((forest.nearest path name).bind (forest.contents · name)).getD .undefined) ∧
        scopeContains h' scope name = .ok (forest.nearest path name).isSome ∧
        (∀ value, scopeSet h' scope name value =
          .ok ((forest.nearest path name).map (h'.putBinding · name value))) ∧
        (∀ value, scopeDeclare h' scope name value = .ok (h'.putBinding scope name value))) ∧
      (∀ place < forest.parents.length, ∀ name value,
        (h'.putBinding place name value).Refines (forest.write ⟨place, name, value⟩)) ∧
      ∀ op : ScopeOp, op.Valid forest → ∃ forest', op.Means forest forest' := by
  obtain ⟨h', hrun, hrefines⟩ := hhistory.refines hstart
  refine ⟨h', hrun, hrefines, fun scope hlt => ?_, fun place hlt name value =>
    hrefines.putBinding hlt, fun op hvalid => hvalid.means⟩
  obtain ⟨path, hpath⟩ := Forest.exists_path hlt
  exact ⟨path, hpath, fun name => ⟨hrefines.get hpath name, hrefines.contains hpath name,
    hrefines.set hpath name, hrefines.declare hlt name⟩⟩

/-! ## One scope -/

theorem plantable_root : (Forest.empty CString JSValue).Plantable none := fun _ h => nomatch h

/-- One scope with one name. -/
def oneScope : ScopeForest :=
  ((Forest.empty CString JSValue).plant none plantable_root).write ⟨0, [97], .null⟩

theorem oneScope_history : ScopeHistory [.create none, .declare 0 [97] .null] oneScope :=
  (ScopeHistory.nil.snoc (.create plantable_root)).snoc (.declare Nat.one_pos)

theorem lexical_scoping_oneScope : ∃ h', [ScopeOp.create none, .declare 0 [97] .null].foldlM
    ScopeOp.run Heap.empty = .ok h' ∧ scopeGet h' 0 [97] = .ok .null := by
  obtain ⟨h', hrun, _, hscopes, _⟩ := lexical_scoping oneScope_history (h := Heap.empty) rfl
  obtain ⟨path, hpath, hlaws⟩ := hscopes 0 Nat.one_pos
  obtain rfl : path = [0] := hpath.unique (.last rfl rfl)
  exact ⟨h', hrun, (hlaws [97]).1⟩

end AtomixJS
