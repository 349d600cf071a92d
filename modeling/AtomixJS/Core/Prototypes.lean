import AtomixJS.Core.CoreModule
import AtomixJS.Core.Objects

/-!
# Prototype chains

`Heap.Rooted` says that all prototype chains end at the root prototype.  The
operations that make an object or a function keep it, since a new object is
nobody's prototype yet, and so do property writes.  `setPrototypeOf` keeps it
unless it closes a cycle: the target must not be met on the chain of its new
prototype.

On a rooted heap the lookups and `value_is_array` come to an end.
-/

namespace AtomixJS

/-- The prototype chain of an object ends at `root`. -/
abbrev Heap.ChainEndsAt (h : Heap) (root obj : ObjectRef) : Prop :=
  Chain.EndsAt h.objects objectPrototypeLink root obj

structure Heap.Rooted (h : Heap) : Prop where
  root : ∀ r, h.objectPrototype = some r → ∃ o, h.objects[r]? = some o ∧ o.prototype = some r
  chain : ∀ obj < h.objects.length, ∃ root, h.objectPrototype = some root ∧ h.ChainEndsAt root obj
  array : ∀ r, h.arrayPrototype = some r → r < h.objects.length
  function : ∀ r, h.functionPrototype = some r → r < h.objects.length
  symbol : ∀ r, h.symbolPrototype = some r → r < h.objects.length
  base : ∀ f ∈ h.functions, f.base < h.objects.length

theorem Heap.Rooted.empty : Heap.empty.Rooted where
  root := by simp [Heap.empty]
  chain := by simp [Heap.empty]
  array := by simp [Heap.empty]
  function := by simp [Heap.empty]
  symbol := by simp [Heap.empty]
  base := by simp [Heap.empty]

variable {h h' : Heap} {obj root target prototype : ObjectRef}

/-! ## New objects -/

@[simp] theorem objectCreateObject_length (prototype : Option ObjectRef) :
    (objectCreateObject h prototype).1.objects.length = h.objects.length + 1 := by
  simp [objectCreateObject]

theorem objectCreateObject_new (h : Heap) (prototype : Option ObjectRef) :
    ∃ o, (objectCreateObject h prototype).1.objects[h.objects.length]? = some o ∧
      o.prototype = prototype := by
  refine ⟨_, List.getElem?_concat_length, rfl⟩

/-- The chains of the objects that exist already stay as they are. -/
theorem Heap.ChainEndsAt.createObject (hchain : h.ChainEndsAt root obj)
    (prototype : Option ObjectRef) :
    (objectCreateObject h prototype).1.ChainEndsAt root obj := by
  apply Chain.EndsAt.congr hchain
  intro s _ node hnode
  refine ⟨node, ?_, rfl⟩
  simp only [objectCreateObject]
  rw [List.getElem?_append_left (List.getElem?_eq_some_iff.mp hnode).1]
  exact hnode

theorem Heap.Rooted.createObject (hrooted : h.Rooted) (hlt : prototype < h.objects.length) :
    (objectCreateObject h (some prototype)).1.Rooted where
  root := by
    intro r hr
    obtain ⟨o, ho, hself⟩ := hrooted.root r hr
    refine ⟨o, ?_, hself⟩
    simp only [objectCreateObject]
    rw [List.getElem?_append_left (List.getElem?_eq_some_iff.mp ho).1]
    exact ho
  chain := by
    intro obj hobj
    rw [objectCreateObject_length] at hobj
    by_cases hold : obj < h.objects.length
    · obtain ⟨root, hroot, hchain⟩ := hrooted.chain obj hold
      exact ⟨root, hroot, hchain.createObject _⟩
    · -- the new object, whose chain goes on with that of its prototype
      obtain rfl : obj = h.objects.length := by omega
      obtain ⟨root, hroot, hchain⟩ := hrooted.chain prototype hlt
      obtain ⟨o, ho, hlink⟩ := objectCreateObject_new h (some prototype)
      refine ⟨root, hroot, .next ho ?_ (hchain.createObject _)⟩
      simp [objectPrototypeLink, hlink, hlt.ne]
  array := fun r hr => by simpa using Nat.lt_succ_of_lt (hrooted.array r hr)
  function := fun r hr => by simpa using Nat.lt_succ_of_lt (hrooted.function r hr)
  symbol := fun r hr => by simpa using Nat.lt_succ_of_lt (hrooted.symbol r hr)
  base := fun f hf => by simpa using Nat.lt_succ_of_lt (hrooted.base f hf)

/-! ## New functions and prototypes -/

/-- What the allocations have in common: the heap stays rooted and does not
shrink, and what they return is an object. -/
structure Heap.Allocates (h : Heap) (result : Heap × ObjectRef) : Prop where
  rooted : result.1.Rooted
  lt : result.2 < result.1.objects.length
  le : h.objects.length ≤ result.1.objects.length
  functions : result.1.functions = h.functions

theorem Heap.Allocates.createObject {result : Heap × ObjectRef} (halloc : h.Allocates result) :
    h.Allocates (objectCreateObject result.1 (some result.2)) where
  rooted := halloc.rooted.createObject halloc.lt
  lt := by
    rw [objectCreateObject_length]
    exact Nat.lt_succ_self _
  le := by
    rw [objectCreateObject_length]
    exact Nat.le_succ_of_le halloc.le
  functions := halloc.functions

theorem objectGetObjectPrototype_allocates (hrooted : h.Rooted) :
    h.Allocates (objectGetObjectPrototype h) := by
  unfold objectGetObjectPrototype
  split
  · next ref href =>
      obtain ⟨o, ho, _⟩ := hrooted.root ref href
      exact ⟨hrooted, (List.getElem?_eq_some_iff.mp ho).1, Nat.le_refl _, rfl⟩
  · next hnone =>
      -- without the root there is no object at all
      have hempty : h.objects = [] := by
        by_contra hne
        obtain ⟨root, hroot, _⟩ := hrooted.chain 0 (List.length_pos_iff.mpr hne)
        rw [hnone] at hroot
        cases hroot
      have hno : ∀ r, ¬ r < h.objects.length := by simp [hempty]
      obtain ⟨o, ho, hself⟩ := objectCreateObject_new h (some h.objects.length)
      refine ⟨⟨?_, ?_, ?_, ?_, ?_, ?_⟩, by simp [objectCreateObject], by simp [objectCreateObject],
        rfl⟩
      · intro r hr
        obtain rfl : h.objects.length = r := Option.some.inj hr
        exact ⟨o, ho, hself⟩
      · intro obj hobj
        obtain rfl : obj = h.objects.length := by
          simpa [objectCreateObject, hempty] using hobj
        exact ⟨h.objects.length, rfl, .last ho (by simp [objectPrototypeLink, hself])⟩
      · exact fun r hr => absurd (hrooted.array r hr) (hno r)
      · exact fun r hr => absurd (hrooted.function r hr) (hno r)
      · exact fun r hr => absurd (hrooted.symbol r hr) (hno r)
      · exact fun f hf => absurd (hrooted.base f hf) (hno _)

/-- The prototypes below the root, which inherit from it, and any other object
that does. -/
theorem createBelowRoot_allocates (hrooted : h.Rooted) :
    h.Allocates (objectCreateObject (objectGetObjectPrototype h).1
      (some (objectGetObjectPrototype h).2)) :=
  (objectGetObjectPrototype_allocates hrooted).createObject

theorem objectGetArrayPrototype_allocates (hrooted : h.Rooted) :
    h.Allocates (objectGetArrayPrototype h) := by
  unfold objectGetArrayPrototype
  split
  · next ref href => exact ⟨hrooted, hrooted.array ref href, Nat.le_refl _, rfl⟩
  · obtain ⟨hnew, hlt, hle, hfunctions⟩ := createBelowRoot_allocates hrooted
    refine ⟨⟨hnew.root, hnew.chain, ?_, hnew.function, hnew.symbol, hnew.base⟩, hlt, hle, hfunctions⟩
    intro r hr
    exact Option.some.inj hr ▸ hlt

theorem objectGetFunctionPrototype_allocates (hrooted : h.Rooted) :
    h.Allocates (objectGetFunctionPrototype h) := by
  unfold objectGetFunctionPrototype
  split
  · next ref href => exact ⟨hrooted, hrooted.function ref href, Nat.le_refl _, rfl⟩
  · obtain ⟨hnew, hlt, hle, hfunctions⟩ := createBelowRoot_allocates hrooted
    refine ⟨⟨hnew.root, hnew.chain, hnew.array, ?_, hnew.symbol, hnew.base⟩, hlt, hle, hfunctions⟩
    intro r hr
    exact Option.some.inj hr ▸ hlt

theorem objectGetSymbolPrototype_allocates (hrooted : h.Rooted) :
    h.Allocates (objectGetSymbolPrototype h) := by
  unfold objectGetSymbolPrototype
  split
  · next ref href => exact ⟨hrooted, hrooted.symbol ref href, Nat.le_refl _, rfl⟩
  · obtain ⟨hnew, hlt, hle, hfunctions⟩ := createBelowRoot_allocates hrooted
    refine ⟨⟨hnew.root, hnew.chain, hnew.array, hnew.function, ?_, hnew.base⟩, hlt, hle, hfunctions⟩
    intro r hr
    exact Option.some.inj hr ▸ hlt

/-! ## Writing -/

/-- A write of a property changes no prototype. -/
theorem Heap.Rooted.putProperty (hrooted : h.Rooted) (obj : ObjectRef) (key : PropertyKey)
    (value : JSValue) : (h.putProperty obj key value).Rooted where
  root := by
    intro r hr
    obtain ⟨o, ho, hself⟩ := hrooted.root r hr
    simp only [Heap.putProperty, List.getElem?_modify, ho]
    split <;> exact ⟨_, rfl, hself⟩
  chain := by
    intro obj' hobj'
    rw [putProperty_length] at hobj'
    obtain ⟨root, hroot, hchain⟩ := hrooted.chain obj' hobj'
    refine ⟨root, hroot, Chain.EndsAt.congr hchain fun s _ node hnode => ?_⟩
    simp only [Heap.putProperty, List.getElem?_modify, hnode]
    split <;> exact ⟨_, rfl, rfl⟩
  array := fun r hr => by simpa using hrooted.array r hr
  function := fun r hr => by simpa using hrooted.function r hr
  symbol := fun r hr => by simpa using hrooted.symbol r hr
  base := fun f hf => by simpa using hrooted.base f hf

/-- A new function with its base, and the prototype object for its instances. -/
theorem Heap.Rooted.createFunction {result : Heap × ObjectRef} (halloc : h.Allocates result)
    (code : FunctionCode) :
    (functionCreatePrototype
      { result.1 with functions := result.1.functions ++ [⟨result.2, code⟩] }
      result.2 h.functions.length).Rooted := by
  obtain ⟨hnew, hlt, _, _⟩ := halloc
  have hbase : Heap.Rooted { result.1 with
      functions := result.1.functions ++ [⟨result.2, code⟩] } := by
    refine ⟨hnew.root, hnew.chain, hnew.array, hnew.function, hnew.symbol, ?_⟩
    intro f hf
    rcases List.mem_append.mp hf with hf | hf
    · exact hnew.base f hf
    · rw [List.mem_singleton.mp hf]
      exact hlt
  exact ((createBelowRoot_allocates hbase).rooted.putProperty _ _ _).putProperty _ _ _

/-! ## Changing a prototype -/

theorem setPrototype_getElem? (h : Heap) (target prototype s : ObjectRef) :
    (h.setPrototype target prototype).objects[s]? = (h.objects[s]?).map fun o =>
      if s = target then { o with prototype := some prototype } else o := by
  simp only [Heap.setPrototype, List.getElem?_modify]
  by_cases hs : target = s
  · subst hs
    simp
  · have hne : s ≠ target := fun heq => hs heq.symm
    simp [hs, hne]

/-- The target is met on the prototype chain of its new prototype.  The root is
its own prototype anyway. -/
def Heap.ClosesCycle (h : Heap) (target prototype : ObjectRef) : Prop :=
  Chain.Above h.objects objectPrototypeLink prototype target ∧
    ¬ (h.objectPrototype = some target ∧ prototype = target)

theorem Heap.Rooted.setPrototype (hrooted : h.Rooted) (htarget : target < h.objects.length)
    (hprototype : prototype < h.objects.length) (hfree : ¬ h.ClosesCycle target prototype) :
    (h.setPrototype target prototype).Rooted := by
  have hlength : (h.setPrototype target prototype).objects.length = h.objects.length := by
    simp [Heap.setPrototype]
  have hoff : ∀ s, s ≠ target → ∀ node, h.objects[s]? = some node →
      ∃ node', (h.setPrototype target prototype).objects[s]? = some node' ∧
        objectPrototypeLink s node' = objectPrototypeLink s node := by
    intro s hs node hnode
    rw [setPrototype_getElem?, hnode]
    exact ⟨node, by simp [hs], rfl⟩
  obtain ⟨root, hroot, hchain⟩ := hrooted.chain prototype hprototype
  obtain ⟨o, ho, hself⟩ := hrooted.root root hroot
  by_cases habove : Chain.Above h.objects objectPrototypeLink prototype target
  · -- only the root may be put above itself, and that changes nothing
    obtain ⟨htop, rfl⟩ : h.objectPrototype = some target ∧ prototype = target := by
      by_contra hnot
      exact hfree ⟨habove, hnot⟩
    obtain rfl : prototype = root := Option.some.inj (htop.symm.trans hroot)
    have hsame : h.setPrototype prototype prototype = h := by
      unfold Heap.setPrototype
      congr 1
      apply List.ext_getElem?
      intro s
      rw [List.getElem?_modify]
      by_cases hs : prototype = s
      · subst hs
        rw [ho, ← hself]
        simp
      · simp [hs]
    rw [hsame]
    exact hrooted
  · have hne : root ≠ target := by
      rintro rfl
      exact habove hchain.above
    have hnode : h.objects[target]? = some h.objects[target] := List.getElem?_eq_getElem htarget
    have hat : ∃ node', (h.setPrototype target prototype).objects[target]? = some node' ∧
        objectPrototypeLink target node' = some prototype := by
      have hself : prototype ≠ target := by
        rintro rfl
        exact habove .refl
      rw [setPrototype_getElem?, hnode]
      exact ⟨_, rfl, by simp [objectPrototypeLink, hself]⟩
    refine ⟨?_, ?_, ?_, ?_, ?_, ?_⟩
    · intro r hr
      obtain rfl : root = r := Option.some.inj (hroot.symm.trans hr)
      rw [setPrototype_getElem?, ho]
      exact ⟨o, by simp [hne], hself⟩
    · intro obj hobj
      rw [hlength] at hobj
      obtain ⟨root', hroot', hobjchain⟩ := hrooted.chain obj hobj
      obtain rfl : root = root' := Option.some.inj (hroot.symm.trans hroot')
      exact ⟨root, hroot, hchain.relink habove hoff hat hobjchain⟩
    · exact fun r hr => hlength.symm ▸ hrooted.array r hr
    · exact fun r hr => hlength.symm ▸ hrooted.function r hr
    · exact fun r hr => hlength.symm ▸ hrooted.symbol r hr
    · exact fun f hf => hlength.symm ▸ hrooted.base f hf

/-! ## Walks -/

/-- A lookup along a chain that ends finds a value, a getter, or a box without
one, for which the source panics. -/
theorem objectReadProperty_ends {refs : List ObjectRef} (hchain : h.PrototypeChain obj refs)
    (key : PropertyKey) :
    (∃ read, objectReadProperty h obj key = .ok read) ∨
      objectReadProperty h obj key = .error (.panic "Property contains no getter") := by
  have hbound : refs.length ≤ h.objects.length + 1 := Nat.le_succ_of_le hchain.length_le
  unfold objectReadProperty
  rw [Chain.walk_of_linked hchain hbound]
  cases hfind : refs.find? fun s => (h.objects[s]?.map fun o => (o.properties.find key).isSome).getD
      false with
  | none => exact .inl ⟨_, rfl⟩
  | some r =>
      have hr : r < h.objects.length := hchain.lt_length (List.mem_of_find?_eq_some hfind)
      simp only [List.getElem?_eq_getElem hr, Option.map_some, Option.getD_some]
      split
      · exact .inl ⟨_, rfl⟩
      · exact .inr rfl
      · exact .inl ⟨_, rfl⟩
      · exact .inl ⟨_, rfl⟩

theorem prototypeWalk_ends {objects : List JSObject} {array : ObjectRef} {refs : List ObjectRef}
    {bound : ℕ} (hchain : Chain.Linked objects objectPrototypeLink obj refs)
    (hlast : refs.getLast? = some root) (hbound : refs.length ≤ bound) :
    ∃ state, prototypeWalk objects root array bound (some obj) = .ok state := by
  induction hchain generalizing bound with
  | last =>
      obtain ⟨bound, rfl⟩ := Nat.exists_eq_add_of_le' hbound
      obtain rfl : _ = root := by simpa using hlast
      exact ⟨false, by simp [prototypeWalk]⟩
  | @next r s node refs hnode hlink hrest ih =>
      obtain ⟨bound, rfl⟩ : ∃ b, bound = b + 1 :=
        ⟨bound - 1, by simp only [List.length_cons] at hbound; omega⟩
      by_cases hroot : r = root
      · exact ⟨false, by simp [prototypeWalk, hroot]⟩
      by_cases harray : r = array
      · exact ⟨true, by rw [prototypeWalk, if_neg hroot, if_pos harray]⟩
      have hnext : node.prototype = some s := by
        unfold objectPrototypeLink at hlink
        split at hlink
        · cases hlink
        · exact hlink
      have hlast' : refs.getLast? = some root := by
        cases hrest <;> simpa using hlast
      obtain ⟨state, hstate⟩ := ih hlast' (Nat.le_of_succ_le_succ hbound)
      refine ⟨state, ?_⟩
      rw [prototypeWalk, if_neg hroot, if_neg harray, hnode]
      change prototypeWalk objects root array bound node.prototype = .ok state
      rw [hnext, hstate]

/-- A value that the machine can hold: what it points to is there. -/
def JSValue.Exists (h : Heap) : JSValue → Prop
  | object ref | symbol ref => ref < h.objects.length
  | func ref => ref < h.functions.length
  | _ => True

theorem objectGetObjectPrototype_root (h : Heap) :
    (objectGetObjectPrototype h).1.objectPrototype = some (objectGetObjectPrototype h).2 := by
  unfold objectGetObjectPrototype
  split
  · assumption
  · rfl

theorem objectGetArrayPrototype_root (hroot : h.objectPrototype = some root) :
    (objectGetArrayPrototype h).1.objectPrototype = some root := by
  unfold objectGetArrayPrototype
  split
  · exact hroot
  · simp [objectGetObjectPrototype, hroot, objectCreateObject]

theorem valueIsArray_ends (hrooted : h.Rooted) {value : JSValue} (hvalue : value.Exists h) :
    ∃ h' state, valueIsArray h value = .ok (h', state) ∧ h'.Rooted := by
  cases value with
  | object obj =>
      obtain ⟨hrooted₁, _, hle₁, _⟩ := objectGetObjectPrototype_allocates hrooted
      obtain ⟨hrooted₂, _, hle₂, _⟩ := objectGetArrayPrototype_allocates hrooted₁
      have hobj : obj < (objectGetArrayPrototype (objectGetObjectPrototype h).1).1.objects.length :=
        Nat.lt_of_lt_of_le hvalue (Nat.le_trans hle₁ hle₂)
      have hroot := objectGetArrayPrototype_root (objectGetObjectPrototype_root h)
      obtain ⟨root, hroot', hchain⟩ := hrooted₂.chain obj hobj
      obtain rfl : root = (objectGetObjectPrototype h).2 := Option.some.inj (hroot'.symm.trans hroot)
      simp only [valueIsArray]
      generalize (objectGetArrayPrototype (objectGetObjectPrototype h).1).2 = array
      generalize (objectGetArrayPrototype (objectGetObjectPrototype h).1).1 = heap at *
      -- the walk starts at the prototype, which for the root is the root again
      obtain ⟨o, s, refs, ho, hlink, hrefs, hlast⟩ : ∃ o s refs, heap.objects[obj]? = some o ∧
          o.prototype = some s ∧ heap.PrototypeChain s refs ∧
          refs.getLast? = some (objectGetObjectPrototype h).2 := by
        cases hchain with
        | last hnode hlink =>
            obtain ⟨o, ho, hself⟩ := hrooted₂.root _ hroot
            exact ⟨o, _, _, ho, hself, .last hnode hlink, rfl⟩
        | @next _ s node hnode hlink hrest =>
            obtain ⟨refs, hrefs, hlast⟩ := hrest.linked
            refine ⟨node, s, refs, hnode, ?_, hrefs, hlast⟩
            unfold objectPrototypeLink at hlink
            split at hlink
            · cases hlink
            · exact hlink
      obtain ⟨state, hstate⟩ : ∃ state, prototypeWalk heap.objects (objectGetObjectPrototype h).2
          array (heap.objects.length + 1) (some s) = .ok state :=
        prototypeWalk_ends hrefs hlast (Nat.le_succ_of_le hrefs.length_le)
      refine ⟨heap, state, ?_, hrooted₂⟩
      rw [ho]
      simp only [hlink, hstate]
      rfl
  | _ => exact ⟨h, false, rfl, hrooted⟩

end AtomixJS
