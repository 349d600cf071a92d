import AtomixJS.Core.Arrays

/-!
# Walks along prototype chains

The operations of the machine on objects and functions, in any order, and with any
values that exist.  As long as no `setPrototypeOf` puts an object above itself,
every prototype chain ends at the root prototype, and so does every walk along
one.  The source has no check against the other case, and the walks have none
either, but for an object that is its own prototype.
-/

namespace AtomixJS

/-! ## Operations -/

/-- What the machine does to objects: its allocations, the functions of the core
module, and writes to properties. -/
inductive HeapOperation
  | arrAlloc
  | objAlloc
  | createFunction (parentScope : ScopeRef) (module : ModuleRef) (start stop : ℕ)
  | createNativeFunction (functionPtr : Option ℕ)
  | array (args : List JSValue)
  | symbol (args : List JSValue)
  | create (args : List JSValue)
  | instantiate (prototype : JSValue)
  | setPrototypeOf (args : List JSValue)
  | isArray (args : List JSValue)
  | setProperty (obj : ObjectRef) (key : PropertyKey) (value : JSValue)

/-- The heap that a native function leaves at its end or at its first call. -/
def NativeProgram.heap : NativeProgram → Except Fault Heap
  | ret heap _ | apiCallFunction heap _ _ _ _ | execModule heap _ _ => .ok heap
  | fault e => .error e

namespace HeapOperation

def run (h : Heap) : HeapOperation → Except Fault Heap
  | arrAlloc => .ok (objectCreateObject (objectGetArrayPrototype h).1 (objectGetArrayPrototype h).2).1
  | objAlloc =>
    .ok (objectCreateObject (objectGetObjectPrototype h).1 (objectGetObjectPrototype h).2).1
  | createFunction parentScope module start stop =>
    .ok (functionCreateFunction h parentScope module start stop).1
  | createNativeFunction functionPtr => .ok (functionCreateNativeFunction h functionPtr).1
  | array args => (AtomixJS.array h 0 .undefined args).heap
  | symbol args => (AtomixJS.symbol h 0 .undefined args).heap
  | create args => (AtomixJS.create h 0 .undefined args).heap
  -- the value of the property `prototype` of the constructor
  | instantiate (.object prototype) => .ok (objectCreateObject h (some prototype)).1
  | instantiate _ => .ok h
  | setPrototypeOf args => (AtomixJS.setPrototypeOf h 0 .undefined args).heap
  | isArray args => (AtomixJS.isArray h 0 .undefined args).heap
  | setProperty obj key value =>
    match objectWriteProperty h obj key value with
    | .ok (.stored h) => .ok h
    -- what the setter does is a matter of further operations
    | .ok (.setter _ _) => .ok h
    | .error e => .error e

/-- The values that an operation is about. -/
def values : HeapOperation → List JSValue
  | array args | symbol args | create args | setPrototypeOf args | isArray args => args
  | instantiate prototype => [prototype]
  | setProperty obj _ value => [.object obj, value]
  | _ => []

/-- The operation puts an object above itself. -/
def ClosesCycle (h : Heap) : HeapOperation → Prop
  | setPrototypeOf (first :: second :: _) => ∃ target prototype,
      objectOf h first = .ok target ∧ objectOf h second = .ok prototype ∧
        h.ClosesCycle target prototype
  | _ => False

/-- The heaps that operations with existing values lead to, if each step satisfies
a condition. -/
inductive Reaches (allowed : Heap → HeapOperation → Prop) : Heap → Prop
  | empty : Reaches allowed Heap.empty
  | step {h h' : Heap} {op : HeapOperation} (hreach : Reaches allowed h)
      (hvalues : ∀ value ∈ op.values, value.Exists h) (hallowed : allowed h op)
      (hrun : op.run h = .ok h') : Reaches allowed h'

/-! ## What one operation preserves -/

variable {h h' : Heap}

theorem rooted_putElements (hrooted : h.Rooted) (arr : ObjectRef) (elements : List JSValue) :
    (putElements h arr elements).Rooted := by
  unfold putElements
  generalize elements.zipIdx = items
  induction items generalizing h with
  | nil => exact hrooted
  | cons item items ih => exact ih (hrooted.putProperty _ _ _)

theorem rooted_array (hrooted : h.Rooted) (args : List JSValue)
    (hrun : (AtomixJS.array h 0 .undefined args).heap = .ok h') : h'.Rooted := by
  have hnew := (objectGetArrayPrototype_allocates hrooted).createObject.rooted
  unfold AtomixJS.array at hrun
  generalize objectGetArrayPrototype h = proto at hnew hrun
  obtain ⟨heap, root⟩ := proto
  dsimp only at hrun
  split at hrun <;> obtain rfl := Except.ok.inj hrun
  · exact hnew
  · exact rooted_putElements (hnew.putProperty _ _ _) _ _
  · exact rooted_putElements (hnew.putProperty _ _ _) _ _

theorem rooted_symbol (hrooted : h.Rooted) (args : List JSValue)
    (hrun : (AtomixJS.symbol h 0 .undefined args).heap = .ok h') : h'.Rooted := by
  have hnew := (objectGetSymbolPrototype_allocates hrooted).createObject.rooted
  unfold AtomixJS.symbol at hrun
  generalize objectGetSymbolPrototype h = proto at hnew hrun
  obtain ⟨heap, root⟩ := proto
  cases args with
  | nil => exact Except.ok.inj hrun ▸ hnew
  | cons value args =>
      dsimp only at hrun
      cases htext : valueToString value with
      | error e => rw [htext] at hrun; cases hrun
      | ok description =>
          rw [htext] at hrun
          obtain rfl := Except.ok.inj hrun
          exact hnew.putProperty _ _ _

theorem rooted_create (hrooted : h.Rooted) (args : List JSValue)
    (hvalues : ∀ value ∈ args, value.Exists h)
    (hrun : (AtomixJS.create h 0 .undefined args).heap = .ok h') : h'.Rooted := by
  unfold AtomixJS.create at hrun
  split at hrun <;> obtain rfl := Except.ok.inj hrun
  · exact hrooted.createObject (hvalues _ List.mem_cons_self)
  · exact (createBelowRoot_allocates hrooted).rooted

/-- The object of an existing value exists. -/
theorem objectOf_lt (hrooted : h.Rooted) {value : JSValue} {obj : ObjectRef}
    (hvalue : value.Exists h) (hobj : objectOf h value = .ok obj) : obj < h.objects.length := by
  unfold objectOf at hobj
  split at hobj
  · exact Except.ok.inj hobj ▸ hvalue
  · next function =>
      split at hobj
      · next f hf => exact Except.ok.inj hobj ▸ hrooted.base f (List.mem_of_getElem? hf)
      · cases hobj
  · cases hobj

theorem rooted_setPrototypeOf (hrooted : h.Rooted) (args : List JSValue)
    (hvalues : ∀ value ∈ args, value.Exists h) (hfree : ¬ ClosesCycle h (setPrototypeOf args))
    (hrun : (AtomixJS.setPrototypeOf h 0 .undefined args).heap = .ok h') : h'.Rooted := by
  unfold AtomixJS.setPrototypeOf at hrun
  split at hrun
  · next first second rest =>
      split at hrun
      · split at hrun
        · next target prototype hfirst hsecond =>
            split at hrun
            · next htarget =>
                obtain rfl := Except.ok.inj hrun
                have hprototype : prototype < h.objects.length :=
                  objectOf_lt hrooted (hvalues second (by simp)) hsecond
                exact hrooted.setPrototype htarget hprototype fun hclose =>
                  hfree ⟨target, prototype, hfirst, hsecond, hclose⟩
            · cases hrun
        · cases hrun
        · cases hrun
      · exact Except.ok.inj hrun ▸ hrooted
  · exact Except.ok.inj hrun ▸ hrooted

theorem rooted_isArray (hrooted : h.Rooted) (args : List JSValue)
    (hvalues : ∀ value ∈ args, value.Exists h)
    (hrun : (AtomixJS.isArray h 0 .undefined args).heap = .ok h') : h'.Rooted := by
  unfold AtomixJS.isArray at hrun
  cases args with
  | nil => exact Except.ok.inj hrun ▸ hrooted
  | cons value args =>
      obtain ⟨heap, state, hwalk, hheap⟩ := valueIsArray_ends hrooted (hvalues value (by simp))
      dsimp only at hrun
      rw [hwalk] at hrun
      exact Except.ok.inj hrun ▸ hheap

theorem rooted_setProperty (hrooted : h.Rooted) {obj : ObjectRef} {key : PropertyKey}
    {value : JSValue} (hrun : run h (setProperty obj key value) = .ok h') : h'.Rooted := by
  unfold run objectWriteProperty at hrun
  dsimp only at hrun
  cases hobj : h.objects[obj]? with
  | none => rw [hobj] at hrun; cases hrun
  | some o =>
      simp only [hobj] at hrun
      split at hrun
      · next hwrite =>
          split at hwrite
          · cases hwrite
          · cases hwrite
          · cases hwrite
            exact Except.ok.inj hrun ▸ hrooted.putProperty _ _ _
      · exact Except.ok.inj hrun ▸ hrooted
      · cases hrun

/-- The step lemma: an operation that closes no cycle keeps the heap rooted. -/
theorem rooted_run (hrooted : h.Rooted) {op : HeapOperation}
    (hvalues : ∀ value ∈ op.values, value.Exists h) (hfree : ¬ op.ClosesCycle h)
    (hrun : op.run h = .ok h') : h'.Rooted := by
  cases op with
  | arrAlloc =>
      obtain rfl := Except.ok.inj hrun
      exact (objectGetArrayPrototype_allocates hrooted).createObject.rooted
  | objAlloc =>
      obtain rfl := Except.ok.inj hrun
      exact (createBelowRoot_allocates hrooted).rooted
  | createFunction parentScope module start stop =>
      obtain rfl := Except.ok.inj hrun
      have hscope : (scopeCreateScope h (some parentScope)).1.Rooted :=
        ⟨hrooted.root, hrooted.chain, hrooted.array, hrooted.function, hrooted.symbol, hrooted.base⟩
      exact Heap.Rooted.createFunction (objectGetFunctionPrototype_allocates hscope).createObject _
  | createNativeFunction functionPtr =>
      obtain rfl := Except.ok.inj hrun
      exact Heap.Rooted.createFunction (createBelowRoot_allocates hrooted) _
  | array args => exact rooted_array hrooted args hrun
  | symbol args => exact rooted_symbol hrooted args hrun
  | create args => exact rooted_create hrooted args hvalues hrun
  | instantiate prototype =>
      cases prototype with
      | object prototype =>
          obtain rfl := Except.ok.inj hrun
          exact hrooted.createObject (hvalues (.object prototype) (by simp [values]))
      | _ => exact Except.ok.inj hrun ▸ hrooted
  | setPrototypeOf args => exact rooted_setPrototypeOf hrooted args hvalues hfree hrun
  | isArray args => exact rooted_isArray hrooted args hvalues hrun
  | setProperty obj key value => exact rooted_setProperty hrooted hrun

theorem Reaches.rooted (hreach : Reaches (fun h op => ¬ op.ClosesCycle h) h) : h.Rooted := by
  induction hreach with
  | empty => exact Heap.Rooted.empty
  | step _ hvalues hfree hrun ih => exact rooted_run ih hvalues hfree hrun

end HeapOperation

/-! ## The walks -/

/-- Every lookup ends, and so does `value_is_array`; the chains end at the root
prototype.  An accessor box without a getter makes a lookup end in a panic. -/
structure Heap.WalksEnd (h : Heap) : Prop where
  read : ∀ obj < h.objects.length, ∀ key, (∃ read, objectReadProperty h obj key = .ok read) ∨
    objectReadProperty h obj key = .error (.panic "Property contains no getter")
  isArray : ∀ value : JSValue, value.Exists h → ∃ h' state, valueIsArray h value = .ok (h', state)
  chain : ∀ obj < h.objects.length, ∃ root refs, h.objectPrototype = some root ∧
    h.PrototypeChain obj refs ∧ refs.getLast? = some root

/-- **Prototype walks.**  After operations none of which puts an object above
itself, all walks along prototype chains end. -/
theorem walksEnd_of_reaches {h : Heap}
    (hreach : HeapOperation.Reaches (fun h op => ¬ op.ClosesCycle h) h) : h.WalksEnd := by
  have hrooted := hreach.rooted
  have hchain : ∀ obj < h.objects.length, ∃ root refs, h.objectPrototype = some root ∧
      h.PrototypeChain obj refs ∧ refs.getLast? = some root := by
    intro obj hobj
    obtain ⟨root, hroot, hends⟩ := hrooted.chain obj hobj
    obtain ⟨refs, hrefs, hlast⟩ := hends.linked
    exact ⟨root, refs, hroot, hrefs, hlast⟩
  refine ⟨?_, ?_, hchain⟩
  · intro obj hobj key
    obtain ⟨_, refs, _, hrefs, _⟩ := hchain obj hobj
    exact objectReadProperty_ends hrefs key
  · intro value hvalue
    obtain ⟨h', state, hwalk, _⟩ := valueIsArray_ends hrooted hvalue
    exact ⟨h', state, hwalk⟩

/-! ## Two objects -/

/-- The root prototype, and two objects with the given prototypes. -/
def twoObjects (first second : ObjectRef) : Heap :=
  (objectCreateObject (objectCreateObject (objectGetObjectPrototype Heap.empty).1 (some first)).1
    (some second)).1

/-- `a = {}; b = {}`. -/
theorem reaches_twoObjects {allowed : Heap → HeapOperation → Prop}
    (hallowed : ∀ h, allowed h .objAlloc) : HeapOperation.Reaches allowed (twoObjects 0 0) := by
  have hnone : ∀ h, ∀ value ∈ HeapOperation.values .objAlloc, JSValue.Exists h value := by
    simp [HeapOperation.values]
  exact .step (.step .empty (hnone _) (hallowed _) rfl) (hnone _) (hallowed _) rfl

/-- `Object.setPrototypeOf` on two objects. -/
theorem reaches_setPrototypeOf {allowed : Heap → HeapOperation → Prop} {h : Heap}
    {target prototype : ObjectRef} (hreach : HeapOperation.Reaches allowed h)
    (htarget : target < h.objects.length) (hprototype : prototype < h.objects.length)
    (hallowed : allowed h (.setPrototypeOf [.object target, .object prototype])) :
    HeapOperation.Reaches allowed (h.setPrototype target prototype) := by
  have hrun : HeapOperation.run h (.setPrototypeOf [.object target, .object prototype]) =
      .ok (h.setPrototype target prototype) := by
    simp [HeapOperation.run, setPrototypeOf, JSValue.hasObject, objectOf, htarget,
      NativeProgram.heap]
  refine .step hreach ?_ hallowed hrun
  simp [HeapOperation.values, JSValue.Exists, htarget, hprototype]

/-- `Object.setPrototypeOf(a, b)` is harmless. -/
theorem walksEnd_of_reaches_inherit : ((twoObjects 0 0).setPrototype 1 2).WalksEnd := by
  have hfree : ¬ HeapOperation.ClosesCycle (twoObjects 0 0)
      (.setPrototypeOf [.object 1, .object 2]) := by
    rintro ⟨target, prototype, htarget, hprototype, habove, _⟩
    obtain rfl : 1 = target := Except.ok.inj htarget
    obtain rfl : 2 = prototype := Except.ok.inj hprototype
    -- above the second object there is only the root
    have hmet : ∀ s, Chain.Above (twoObjects 0 0).objects objectPrototypeLink 2 s →
        s = 2 ∨ s = 0 := by
      intro s hs
      induction hs with
      | refl => exact .inl rfl
      | link _ hnode hlink ih =>
          rcases ih with rfl | rfl <;> cases hnode <;> cases hlink
          exact .inr rfl
    exact absurd (hmet 1 habove) (by decide)
  have hstart : HeapOperation.Reaches (fun h op => ¬ op.ClosesCycle h) (twoObjects 0 0) :=
    reaches_twoObjects fun h => by simp [HeapOperation.ClosesCycle]
  exact walksEnd_of_reaches (reaches_setPrototypeOf hstart (by decide) (by decide) hfree)

/-- `a` and `b` after `Object.setPrototypeOf(a, b); Object.setPrototypeOf(b, a)`. -/
def eachOther : Heap := ((twoObjects 0 0).setPrototype 1 2).setPrototype 2 1

theorem prototypeWalk_eachOther (bound : ℕ) :
    prototypeWalk eachOther.objects 0 3 bound (some 1) = .error .divergence ∧
      prototypeWalk eachOther.objects 0 3 bound (some 2) = .error .divergence := by
  induction bound with
  | zero => exact ⟨rfl, rfl⟩
  | succ bound ih => exact ⟨ih.2, ih.1⟩

/-- A lookup of a property that neither of them has goes round for ever, and so
does `Array.isArray(a)`. -/
theorem walks_eachOther :
    HeapOperation.Reaches (fun _ _ => True) eachOther ∧ ¬ eachOther.WalksEnd ∧
      (∀ bound, Chain.walk eachOther.objects objectPrototypeLink
        (fun o => (o.properties.find (.string (cString "x"))).isSome) bound 1 = .endless) ∧
      ∀ bound, prototypeWalk eachOther.objects 0 3 bound (some 1) = .error .divergence := by
  have hstart : HeapOperation.Reaches (fun _ _ => True) (twoObjects 0 0) :=
    reaches_twoObjects fun _ => trivial
  refine ⟨?_, ?_, Chain.walk_endless rfl, fun bound => (prototypeWalk_eachOther bound).1⟩
  · exact reaches_setPrototypeOf
      (reaches_setPrototypeOf hstart (by decide) (by decide) trivial) (by decide) (by decide) trivial
  · intro hends
    obtain ⟨h', state, hwalk⟩ := hends.isArray (.object 1) (by decide : 1 < eachOther.objects.length)
    have hloop : valueIsArray eachOther (.object 1) = .error .divergence := rfl
    rw [hloop] at hwalk
    cases hwalk

/-! ## The array prototype -/

/-- The array prototype stays, and so does the root, once there is one. -/
structure SamePrototypes (h h' : Heap) : Prop where
  array : h'.arrayPrototype = h.arrayPrototype
  root : h.objectPrototype ≠ none → h'.objectPrototype = h.objectPrototype

namespace SamePrototypes

variable {h h' h'' : Heap}

theorem refl (h : Heap) : SamePrototypes h h := ⟨rfl, fun _ => rfl⟩

theorem trans (hfirst : SamePrototypes h h') (hsecond : SamePrototypes h' h'') :
    SamePrototypes h h'' where
  array := hsecond.array.trans hfirst.array
  root hne := (hsecond.root (by rwa [hfirst.root hne])).trans (hfirst.root hne)

theorem objectPrototype (h : Heap) : SamePrototypes h (objectGetObjectPrototype h).1 := by
  unfold objectGetObjectPrototype
  split
  · exact refl h
  · next hnone => exact ⟨rfl, fun hne => absurd hnone hne⟩

theorem functionPrototype (h : Heap) : SamePrototypes h (objectGetFunctionPrototype h).1 := by
  unfold objectGetFunctionPrototype
  split
  · exact refl h
  · exact ⟨(objectPrototype h).array, (objectPrototype h).root⟩

theorem symbolPrototype (h : Heap) : SamePrototypes h (objectGetSymbolPrototype h).1 := by
  unfold objectGetSymbolPrototype
  split
  · exact refl h
  · exact ⟨(objectPrototype h).array, (objectPrototype h).root⟩

/-- A new function, with its base in the heap. -/
theorem createFunction (hsame : SamePrototypes h h') (prototype : Option ObjectRef)
    (functions : List JSFunction) (base : ObjectRef) (function : FunctionRef) :
    SamePrototypes h (functionCreatePrototype
      { (objectCreateObject h' prototype).1 with functions } base function) := by
  have hnext := objectPrototype { (objectCreateObject h' prototype).1 with functions }
  exact hsame.trans ⟨hnext.array, hnext.root⟩

theorem storeAll (arr : ObjectRef) (items : List (JSValue × ℕ)) (h : Heap) :
    SamePrototypes h (items.foldl (storeElement arr) h) := by
  induction items generalizing h with
  | nil => exact refl h
  | cons item items ih =>
    have hfirst : SamePrototypes h (storeElement arr h item) := ⟨rfl, fun _ => rfl⟩
    exact hfirst.trans (ih (storeElement arr h item))

theorem settled (hsame : SamePrototypes h h') (hsettled : Settled h) (hrooted : h'.Rooted) :
    Settled h' := by
  refine ⟨hrooted, fun p hp hroot => ?_⟩
  rw [hsame.array] at hp
  obtain ⟨root, hsome, -⟩ := hsettled.rooted.chain p (hsettled.rooted.array p hp)
  rw [hsame.root (by rw [hsome]; exact Option.some_ne_none root)] at hroot
  exact hsettled.separate p hp hroot

end SamePrototypes

variable {h h' : Heap}

/-- The array prototype is made if there is none, and then it is not the root. -/
theorem Settled.arrayPrototype (hsettled : Settled h) : Settled (objectGetArrayPrototype h).1 := by
  obtain ⟨root, hroot, hp, hne⟩ := objectGetArrayPrototype_settled hsettled
  refine ⟨(objectGetArrayPrototype_allocates hsettled.rooted).rooted, fun p hp' hroot' => ?_⟩
  obtain rfl := Option.some.inj (hp.symm.trans hp')
  exact hne (Option.some.inj (hroot'.symm.trans hroot))

namespace HeapOperation

theorem settled_array (hsettled : Settled h) (args : List JSValue)
    (hrun : (AtomixJS.array h 0 .undefined args).heap = .ok h') : Settled h' := by
  have hrooted := rooted_array hsettled.rooted args hrun
  have hnew : SamePrototypes (objectGetArrayPrototype h).1 (createArray h).1 := ⟨rfl, fun _ => rfl⟩
  have hstart : ∀ size, SamePrototypes (createArray h).1 ((createArray h).1.putProperty
      (createArray h).2 (.string (cString "length")) (.integer size)) := fun _ => ⟨rfl, fun _ => rfl⟩
  refine SamePrototypes.settled ?_ hsettled.arrayPrototype hrooted
  unfold AtomixJS.array at hrun
  dsimp only at hrun
  split at hrun <;> obtain rfl := Except.ok.inj hrun
  · exact hnew
  · exact (hnew.trans (hstart _)).trans (.storeAll _ _ _)
  · exact (hnew.trans (hstart _)).trans (.storeAll _ _ _)

theorem settled_isArray (hsettled : Settled h) (args : List JSValue)
    (hvalues : ∀ value ∈ args, value.Exists h)
    (hrun : (AtomixJS.isArray h 0 .undefined args).heap = .ok h') : Settled h' := by
  have hrooted := rooted_isArray hsettled.rooted args hvalues hrun
  have hobject : Settled (objectGetObjectPrototype h).1 :=
    (SamePrototypes.objectPrototype h).settled hsettled
      (objectGetObjectPrototype_allocates hsettled.rooted).rooted
  have hkept : h' = h ∨ h' = (objectGetArrayPrototype (objectGetObjectPrototype h).1).1 := by
    cases args with
    | nil => exact .inl (Except.ok.inj hrun).symm
    | cons value args =>
      unfold AtomixJS.isArray at hrun
      dsimp only at hrun
      cases hwalk : valueIsArray h value with
      | error e =>
        rw [hwalk] at hrun
        cases hrun
      | ok result =>
        rw [hwalk] at hrun
        obtain rfl := Except.ok.inj hrun
        cases value with
        | object obj =>
          right
          simp only [valueIsArray] at hwalk
          split at hwalk
          · simp only [Fallible.bind_eq_ok, Fallible.pure_eq_ok] at hwalk
            obtain ⟨state, -, rfl⟩ := hwalk
            rfl
          · cases hwalk
        | _ =>
          obtain rfl := Except.ok.inj hwalk
          exact .inl rfl
  rcases hkept with rfl | rfl
  · exact hsettled
  · exact hobject.arrayPrototype

/-- The step: an operation that closes no cycle keeps the array prototype apart from the root. -/
theorem settled_run (hsettled : Settled h) {op : HeapOperation}
    (hvalues : ∀ value ∈ op.values, value.Exists h) (hfree : ¬ op.ClosesCycle h)
    (hrun : op.run h = .ok h') : Settled h' := by
  have hrooted := rooted_run hsettled.rooted hvalues hfree hrun
  cases op with
  | arrAlloc =>
    obtain rfl := Except.ok.inj hrun
    have hnew : SamePrototypes (objectGetArrayPrototype h).1 (createArray h).1 :=
      ⟨rfl, fun _ => rfl⟩
    exact hnew.settled hsettled.arrayPrototype hrooted
  | objAlloc =>
    obtain rfl := Except.ok.inj hrun
    exact SamePrototypes.settled ⟨(SamePrototypes.objectPrototype h).array,
      (SamePrototypes.objectPrototype h).root⟩ hsettled hrooted
  | createFunction parentScope module start stop =>
    obtain rfl := Except.ok.inj hrun
    have hscope : SamePrototypes h (scopeCreateScope h (some parentScope)).1 :=
      ⟨rfl, fun _ => rfl⟩
    exact SamePrototypes.settled ((hscope.trans (.functionPrototype _)).createFunction _ _ _ _)
      hsettled hrooted
  | createNativeFunction functionPtr =>
    obtain rfl := Except.ok.inj hrun
    exact SamePrototypes.settled ((SamePrototypes.objectPrototype h).createFunction _ _ _ _)
      hsettled hrooted
  | array args => exact settled_array hsettled args hrun
  | symbol args =>
    refine SamePrototypes.settled ?_ hsettled hrooted
    have hsymbol := SamePrototypes.symbolPrototype h
    cases args with
    | nil =>
      obtain rfl := Except.ok.inj hrun
      exact ⟨hsymbol.array, hsymbol.root⟩
    | cons value args =>
      simp only [run, AtomixJS.symbol] at hrun
      split at hrun
      · obtain rfl := Except.ok.inj hrun
        exact ⟨hsymbol.array, hsymbol.root⟩
      · cases hrun
  | create args =>
    refine SamePrototypes.settled ?_ hsettled hrooted
    simp only [run, AtomixJS.create] at hrun
    split at hrun <;> obtain rfl := Except.ok.inj hrun
    · exact ⟨rfl, fun _ => rfl⟩
    · exact ⟨(SamePrototypes.objectPrototype h).array, (SamePrototypes.objectPrototype h).root⟩
  | instantiate prototype =>
    refine SamePrototypes.settled ?_ hsettled hrooted
    cases prototype <;> obtain rfl := Except.ok.inj hrun <;> exact ⟨rfl, fun _ => rfl⟩
  | setPrototypeOf args =>
    refine SamePrototypes.settled ?_ hsettled hrooted
    simp only [run, AtomixJS.setPrototypeOf] at hrun
    repeat' split at hrun
    all_goals cases hrun
    all_goals exact ⟨rfl, fun _ => rfl⟩
  | isArray args => exact settled_isArray hsettled args hvalues hrun
  | setProperty obj key value =>
    refine SamePrototypes.settled ?_ hsettled hrooted
    simp only [run] at hrun
    split at hrun
    · next heap hwrite =>
      obtain rfl := Except.ok.inj hrun
      unfold objectWriteProperty at hwrite
      repeat' split at hwrite
      all_goals cases hwrite
      exact ⟨rfl, fun _ => rfl⟩
    · exact Except.ok.inj hrun ▸ .refl h
    · cases hrun

/-- The run: so it is in every heap that is reached. -/
theorem Reaches.settled (hreach : Reaches (fun h op => ¬ op.ClosesCycle h) h) : Settled h := by
  induction hreach with
  | empty => exact ⟨Heap.Rooted.empty, fun p hp => by cases hp⟩
  | step _ hvalues hfree hrun ih => exact settled_run ih hvalues hfree hrun

end HeapOperation


end AtomixJS
