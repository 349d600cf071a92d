import AtomixJS.Core.Prototypes
import AtomixJS.Lib.Fallible

/-!
# Sound heaps

On a sound heap every pointer leads somewhere: what a variable or a property holds, the prototype
of an object, the base and the scope of a function, the exports and the scope of a module.  The
scopes of functions lie below the global scope `g`.  The machine has no way to make an accessor
box, so a sound heap holds none.

`Heap.Grows` says what can become of a heap.  Stores only grow, a function stays what it is, of a
module only the flag may change, and a scope without a parent may get one, the global scope.  Names
stay bound and properties stay there, whatever their values.
Every operation of the heap keeps it sound and lets it grow; `Heap.Later` is both.
-/

namespace AtomixJS

/-- A pointer that leads nowhere, or what the source finds in a value or a function that nothing
has made. -/
def Fault.isCorrupt : Fault → Bool
  | .undefinedBehaviour what =>
    what = "scope pointer" || what = "object pointer" || what = "function pointer" ||
      what = "module pointer" || what = "null prototype"
  | .panic message =>
    message = "Function holds not a valid pointer" || message = "Property contains no getter" ||
      message = "Property contains no setter" || message = "Undefined JSValue Type"
  | .divergence => false

/-- A computation that finds nothing of the kind. -/
abbrev Intact {α : Type} (post : α → Prop) (x : Except Fault α) : Prop :=
  Fallible.Ensures (fun fault => fault.isCorrupt = false) post x

/-! ## Sound values -/

/-- What a value points to is there.  No value is an accessor box. -/
def JSValue.Valid (h : Heap) : JSValue → Prop
  | object ref | symbol ref => ref < h.objects.length
  | func ref => ref < h.functions.length
  | gsBox _ _ => False
  | _ => True

/-- How many native functions `core_init` makes. -/
def nativeCount : ℕ := 12

/-- The parents of a scope lead to the global scope. -/
abbrev Heap.ScopeEndsAt (h : Heap) (g scope : ScopeRef) : Prop :=
  Chain.EndsAt h.scopes scopeParent g scope

/-- What a function refers to is there. -/
def FunctionCode.Sound (g : ScopeRef) (h : Heap) : FunctionCode → Prop
  | native pointer => ∃ p < nativeCount, pointer = some p
  | bytecode scope module _ _ => h.ScopeEndsAt g scope ∧ module < h.modules.length

structure JSFunction.Sound (g : ScopeRef) (h : Heap) (f : JSFunction) : Prop where
  base : f.base < h.objects.length
  code : f.code.Sound g h

/-- What a module refers to is there.  It has a scope as long as it can be executed, and the
parent of that is the global scope, once it has one. -/
structure JSModule.Sound (g : ScopeRef) (h : Heap) (m : JSModule) : Prop where
  exports : m.exports < h.objects.length
  scope : ∀ s, m.scope = some s → s ≠ g ∧
    ∃ node, h.scopes[s]? = some node ∧ (node.parent = none ∨ node.parent = some g)
  executable : m.initialized = false → m.scope.isSome

/-- The prototypes that are made when first asked for. -/
def Heap.roots (h : Heap) : List (Option ObjectRef) :=
  [h.objectPrototype, h.arrayPrototype, h.functionPrototype, h.symbolPrototype]

/-- Every pointer in the heap leads somewhere; the global scope is `g`. -/
structure Heap.Sound (g : ScopeRef) (h : Heap) : Prop where
  global : h.ScopeEndsAt g g
  binding : ∀ s key v, h.binding s key = some v → v.Valid h
  prototype : ∀ o ∈ h.objects, ∃ p < h.objects.length, o.prototype = some p
  property : ∀ obj key v, h.own obj key = some v → v.Valid h
  function : ∀ f ∈ h.functions, f.Sound g h
  module : ∀ m ∈ h.modules, m.Sound g h
  root : ∀ r, some r ∈ h.roots → r < h.objects.length

/-! ## What can become of a heap -/

structure Heap.Grows (g : ScopeRef) (h h' : Heap) : Prop where
  scope : ∀ (s : ScopeRef) node, h.scopes[s]? = some node → ∃ node', h'.scopes[s]? = some node' ∧
    (node'.parent = node.parent ∨ s ≠ g ∧ node.parent = none ∧ node'.parent = some g)
  bound : ∀ s key, (h.binding s key).isSome → (h'.binding s key).isSome
  objects : h.objects.length ≤ h'.objects.length
  owned : ∀ obj key, (h.own obj key).isSome → (h'.own obj key).isSome
  functions : h.functions <+: h'.functions
  modules : h'.modules.length = h.modules.length
  module : ∀ (i : ModuleRef) m, h.modules[i]? = some m → ∃ initialized,
    h'.modules[i]? = some { m with initialized } ∧ (m.initialized = true → initialized = true)

/-- A sound heap that has grown out of `h`. -/
structure Heap.Later (g : ScopeRef) (h h' : Heap) : Prop where
  sound : h'.Sound g
  grows : h.Grows g h'

variable {g : ScopeRef} {h h' h'' : Heap} {v : JSValue} {obj prototype : ObjectRef}
  {scope : ScopeRef} {key : CString} {pkey : PropertyKey}

namespace Heap.Grows

theorem refl (g : ScopeRef) (h : Heap) : h.Grows g h where
  scope := fun _ node hnode => ⟨node, hnode, .inl rfl⟩
  bound := fun _ _ => id
  objects := Nat.le_refl _
  owned := fun _ _ => id
  functions := List.prefix_rfl
  modules := rfl
  module := fun _ m hm => ⟨m.initialized, hm, id⟩

theorem trans (hfirst : h.Grows g h') (hsecond : h'.Grows g h'') : h.Grows g h'' where
  scope := by
    intro s node hnode
    obtain ⟨node', hnode', hparent⟩ := hfirst.scope s node hnode
    obtain ⟨node'', hnode'', hparent'⟩ := hsecond.scope s node' hnode'
    refine ⟨node'', hnode'', ?_⟩
    rcases hparent with hparent | ⟨hne, hnone, hparent⟩
    · rwa [hparent] at hparent'
    · rcases hparent' with hparent' | ⟨_, hnone', _⟩
      · exact .inr ⟨hne, hnone, hparent'.trans hparent⟩
      · rw [hparent] at hnone'
        cases hnone'
  bound := fun s key hbound => hsecond.bound s key (hfirst.bound s key hbound)
  objects := Nat.le_trans hfirst.objects hsecond.objects
  owned := fun obj key howned => hsecond.owned obj key (hfirst.owned obj key howned)
  functions := hfirst.functions.trans hsecond.functions
  modules := hsecond.modules.trans hfirst.modules
  module := by
    intro i m hm
    obtain ⟨flag, hflag, hset⟩ := hfirst.module i m hm
    obtain ⟨flag', hflag', hset'⟩ := hsecond.module i _ hflag
    exact ⟨flag', hflag', fun hm => hset' (hset hm)⟩

theorem scopes_le (hgrows : h.Grows g h') : h.scopes.length ≤ h'.scopes.length := by
  by_contra hlt
  have hnode : h.scopes[h'.scopes.length]? = some h.scopes[h'.scopes.length] :=
    List.getElem?_eq_getElem (by omega)
  obtain ⟨node', hnode', _⟩ := hgrows.scope _ _ hnode
  exact absurd (List.getElem?_eq_some_iff.mp hnode').1 (Nat.lt_irrefl _)

theorem functions_le (hgrows : h.Grows g h') : h.functions.length ≤ h'.functions.length :=
  hgrows.functions.length_le

/-- A function stays what it is. -/
theorem function (hgrows : h.Grows g h') {i : FunctionRef} {f : JSFunction}
    (hf : h.functions[i]? = some f) : h'.functions[i]? = some f := by
  obtain ⟨new, hnew⟩ := hgrows.functions
  rw [← hnew, List.getElem?_append_left (List.getElem?_eq_some_iff.mp hf).1, hf]

end Heap.Grows

theorem Heap.Later.refl (hs : h.Sound g) : h.Later g h := ⟨hs, .refl g h⟩

theorem Heap.Later.trans (hfirst : h.Later g h') (hsecond : h'.Later g h'') : h.Later g h'' :=
  ⟨hsecond.sound, hfirst.grows.trans hsecond.grows⟩

/-! ### What exists stays -/

theorem JSValue.Valid.of_le (hv : v.Valid h) (hobjects : h.objects.length ≤ h'.objects.length)
    (hfunctions : h.functions.length ≤ h'.functions.length) : v.Valid h' := by
  cases v with
  | object ref => exact Nat.lt_of_lt_of_le hv hobjects
  | symbol ref => exact Nat.lt_of_lt_of_le hv hobjects
  | func ref => exact Nat.lt_of_lt_of_le hv hfunctions
  | gsBox getter setter => exact hv
  | _ => trivial

theorem JSValue.Valid.grows (hv : v.Valid h) (hgrows : h.Grows g h') : v.Valid h' :=
  hv.of_le hgrows.objects hgrows.functions_le

theorem JSValue.Valid.not_box (hv : v.Valid h) : v.isGsBox = false := by
  cases v with
  | gsBox getter setter => exact absurd hv id
  | _ => rfl

/-- The way from a scope to the global one stays the way it is. -/
theorem Heap.ScopeEndsAt.grows (hends : h.ScopeEndsAt g scope) (hgrows : h.Grows g h') :
    h'.ScopeEndsAt g scope := by
  induction hends with
  | last hnode hlink =>
    obtain ⟨node', hnode', hparent⟩ := hgrows.scope g _ hnode
    rcases hparent with hparent | ⟨hne, _⟩
    · exact .last hnode' (hparent.trans hlink)
    · exact absurd rfl hne
  | @next s p node hnode hlink _ ih =>
    obtain ⟨node', hnode', hparent⟩ := hgrows.scope s node hnode
    refine .next hnode' ?_ ih
    rcases hparent with hparent | ⟨_, hnone, _⟩
    · exact hparent.trans hlink
    · rw [scopeParent, hnone] at hlink
      cases hlink

theorem Heap.ScopeEndsAt.lt (hends : h.ScopeEndsAt g scope) : scope < h.scopes.length :=
  Chain.EndsAt.lt_length hends

theorem JSFunction.Sound.grows {f : JSFunction} (hf : f.Sound g h) (hgrows : h.Grows g h') :
    f.Sound g h' := by
  refine ⟨Nat.lt_of_lt_of_le hf.base hgrows.objects, ?_⟩
  have hcode := hf.code
  cases hkind : f.code with
  | native pointer =>
    rw [hkind] at hcode
    exact hcode
  | bytecode scope module start stop =>
    rw [hkind] at hcode
    exact ⟨Heap.ScopeEndsAt.grows hcode.1 hgrows, hgrows.modules ▸ hcode.2⟩

theorem JSModule.Sound.grows {m : JSModule} (hm : m.Sound g h) (hgrows : h.Grows g h') :
    m.Sound g h' where
  exports := Nat.lt_of_lt_of_le hm.exports hgrows.objects
  scope := by
    intro s hs
    obtain ⟨hne, node, hnode, hparent⟩ := hm.scope s hs
    obtain ⟨node', hnode', hparent'⟩ := hgrows.scope s node hnode
    refine ⟨hne, node', hnode', ?_⟩
    rcases hparent' with hparent' | ⟨_, _, hparent'⟩
    · rwa [hparent']
    · exact .inr hparent'
  executable := hm.executable

/-! ## Changing one of the stores -/

theorem Heap.Grows.withScopes {scopes : List Scope}
    (hscope : ∀ (s : ScopeRef) node, h.scopes[s]? = some node → ∃ node', scopes[s]? = some node' ∧
      (node'.parent = node.parent ∨ s ≠ g ∧ node.parent = none ∧ node'.parent = some g))
    (hbound : ∀ s key, (h.binding s key).isSome → (Heap.binding { h with scopes } s key).isSome) :
    h.Grows g { h with scopes } where
  scope := hscope
  bound := hbound
  objects := Nat.le_refl _
  owned := fun _ _ => id
  functions := List.prefix_rfl
  modules := rfl
  module := fun _ m hm => ⟨m.initialized, hm, id⟩

theorem Heap.Sound.withScopes (hs : h.Sound g) {scopes : List Scope}
    (hgrows : h.Grows g { h with scopes })
    (hbinding : ∀ s key v, Heap.binding { h with scopes } s key = some v → v.Valid h) :
    h.Later g { h with scopes } where
  sound :=
    { global := Heap.ScopeEndsAt.grows hs.global hgrows
      binding := fun s key v hv => (hbinding s key v hv).grows hgrows
      prototype := hs.prototype
      property := fun obj key v hv => (hs.property obj key v hv).grows hgrows
      function := fun f hf => (hs.function f hf).grows hgrows
      module := fun m hm => (hs.module m hm).grows hgrows
      root := hs.root }
  grows := hgrows

theorem withObjects_grows (g : ScopeRef) {objects : List JSObject}
    (hle : h.objects.length ≤ objects.length)
    (howned : ∀ obj key, (h.own obj key).isSome → (Heap.own { h with objects } obj key).isSome) :
    h.Grows g { h with objects } where
  scope := fun _ node hnode => ⟨node, hnode, .inl rfl⟩
  bound := fun _ _ => id
  objects := hle
  owned := howned
  functions := List.prefix_rfl
  modules := rfl
  module := fun _ m hm => ⟨m.initialized, hm, id⟩

theorem Heap.Sound.withObjects (hs : h.Sound g) {objects : List JSObject}
    (hle : h.objects.length ≤ objects.length)
    (howned : ∀ obj key, (h.own obj key).isSome → (Heap.own { h with objects } obj key).isSome)
    (hprototype : ∀ o ∈ objects, ∃ p < objects.length, o.prototype = some p)
    (hproperty : ∀ obj key v, Heap.own { h with objects } obj key = some v → v.Valid h) :
    h.Later g { h with objects } := by
  have hgrows := withObjects_grows g hle howned
  exact
    { sound :=
        { global := hs.global
          binding := fun s key v hv => (hs.binding s key v hv).grows hgrows
          prototype := hprototype
          property := fun obj key v hv => (hproperty obj key v hv).grows hgrows
          function := fun f hf => (hs.function f hf).grows hgrows
          module := fun m hm => (hs.module m hm).grows hgrows
          root := fun r hr => Nat.lt_of_lt_of_le (hs.root r hr) hle }
      grows := hgrows }

theorem Heap.Sound.withFunction (hs : h.Sound g) {f : JSFunction} (hf : f.Sound g h) :
    h.Later g { h with functions := h.functions ++ [f] } := by
  have hgrows : h.Grows g { h with functions := h.functions ++ [f] } :=
    { scope := fun _ node hnode => ⟨node, hnode, .inl rfl⟩
      bound := fun _ _ => id
      objects := Nat.le_refl _
      owned := fun _ _ => id
      functions := List.prefix_append _ _
      modules := rfl
      module := fun _ m hm => ⟨m.initialized, hm, id⟩ }
  exact
    { sound :=
        { global := hs.global
          binding := fun s key v hv => (hs.binding s key v hv).grows hgrows
          prototype := hs.prototype
          property := fun obj key v hv => (hs.property obj key v hv).grows hgrows
          function := by
            intro f' hf'
            rcases List.mem_append.mp hf' with hf' | hf'
            · exact (hs.function f' hf').grows hgrows
            · obtain rfl := List.mem_singleton.mp hf'
              exact hf.grows hgrows
          module := fun m hm => (hs.module m hm).grows hgrows
          root := hs.root }
      grows := hgrows }

/-- The prototypes that are made when first asked for are kept beside the stores. -/
theorem Heap.Later.withRoots (hlater : h.Later g h') {o a f s : Option ObjectRef}
    (hroots : ∀ r, some r ∈ [o, a, f, s] → r < h'.objects.length) :
    h.Later g ⟨h'.scopes, h'.objects, h'.functions, h'.modules, o, a, f, s⟩ := by
  obtain ⟨hs, hgrows⟩ := hlater
  have hsame : h'.Grows g ⟨h'.scopes, h'.objects, h'.functions, h'.modules, o, a, f, s⟩ :=
    { scope := fun _ node hnode => ⟨node, hnode, .inl rfl⟩
      bound := fun _ _ => id
      objects := Nat.le_refl _
      owned := fun _ _ => id
      functions := List.prefix_rfl
      modules := rfl
      module := fun _ m hm => ⟨m.initialized, hm, id⟩ }
  exact
    { sound :=
        { global := hs.global
          binding := fun s key v hv => (hs.binding s key v hv).grows hsame
          prototype := hs.prototype
          property := fun obj key v hv => (hs.property obj key v hv).grows hsame
          function := fun f hf => (hs.function f hf).grows hsame
          module := fun m hm => (hs.module m hm).grows hsame
          root := hroots }
      grows := hgrows.trans hsame }

/-! ## Operations on scopes -/

/-- A new scope holds nothing. -/
theorem binding_createScope (h : Heap) (parent : Option ScopeRef) :
    (scopeCreateScope h parent).1.binding = h.binding := by
  funext s key
  simp only [Heap.binding, scopeCreateScope]
  rcases Nat.lt_trichotomy s h.scopes.length with hlt | rfl | hgt
  · rw [List.getElem?_append_left hlt]
  · simp
  · rw [List.getElem?_eq_none (by simpa using hgt), List.getElem?_eq_none hgt.le]

theorem Heap.Sound.createScope (hs : h.Sound g) (parent : Option ScopeRef) :
    h.Later g (scopeCreateScope h parent).1 := by
  refine hs.withScopes (.withScopes (fun s node hnode => ⟨node, ?_, .inl rfl⟩) fun s key hbound => ?_)
    fun s key v hv => ?_
  · rw [List.getElem?_append_left (List.getElem?_eq_some_iff.mp hnode).1, hnode]
  · exact (congrFun (congrFun (binding_createScope h parent) s) key).symm ▸ hbound
  · have hbinding := congrFun (congrFun (binding_createScope h parent) s) key
    exact hs.binding s key v (hbinding.symm.trans hv)

/-- The new scope lies below the global one if its parent does. -/
theorem Heap.ScopeEndsAt.createScope (hs : h.Sound g) (hends : h.ScopeEndsAt g scope) :
    (scopeCreateScope h (some scope)).1.ScopeEndsAt g h.scopes.length := by
  have hnew : (scopeCreateScope h (some scope)).1.scopes[h.scopes.length]? =
      some ⟨some scope, dictCreateDict scopeBucketSize scopeBucketSize_pos⟩ :=
    List.getElem?_concat_length
  exact .next hnew rfl (hends.grows (hs.createScope (some scope)).grows)

theorem Heap.Sound.putBinding (hs : h.Sound g) (hlt : scope < h.scopes.length) (key : CString)
    (hv : v.Valid h) : h.Later g (h.putBinding scope key v) := by
  have hput : ∀ s key', (h.putBinding scope key v).binding s key' =
      if s = scope ∧ key' = key then some v else h.binding s key' := binding_putBinding hlt
  refine hs.withScopes (.withScopes (fun s node hnode => ?_) fun s key' hbound => ?_)
    fun s key' v' hv' => ?_
  · simp only [List.getElem?_modify, hnode]
    split
    · exact ⟨_, rfl, .inl rfl⟩
    · exact ⟨_, rfl, .inl rfl⟩
  · have hbinding := hput s key'
    rw [Heap.putBinding] at hbinding
    rw [hbinding]
    split
    · rfl
    · exact hbound
  · have hbinding := hput s key'
    rw [Heap.putBinding, hv'] at hbinding
    split at hbinding
    · exact Option.some.inj hbinding ▸ hv
    · exact hs.binding s key' v' hbinding.symm

theorem scopeDeclare_intact (hs : h.Sound g) (hends : h.ScopeEndsAt g scope) (key : CString)
    (hv : v.Valid h) : Intact (h.Later g) (scopeDeclare h scope key v) :=
  .ite (fun _ => hs.putBinding hends.lt key hv) fun hge => absurd hends.lt hge

theorem scopeGet_intact (hs : h.Sound g) (hends : h.ScopeEndsAt g scope) (key : CString) :
    Intact (JSValue.Valid h) (scopeGet h scope key) := by
  obtain ⟨refs, hchain, _⟩ := Chain.EndsAt.linked hends
  rw [scopeGet_of_chain hchain]
  cases hfind : refs.findSome? (h.binding · key) with
  | none => trivial
  | some v =>
    obtain ⟨s, _, hbinding⟩ := List.exists_of_findSome?_eq_some hfind
    exact hs.binding s key v hbinding

theorem scopeContains_intact (hends : h.ScopeEndsAt g scope) (key : CString) :
    Intact (fun _ => True) (scopeContains h scope key) := by
  obtain ⟨refs, hchain, _⟩ := Chain.EndsAt.linked hends
  rw [scopeContains_of_chain hchain]
  trivial

theorem scopeSet_intact (hs : h.Sound g) (hends : h.ScopeEndsAt g scope) (key : CString)
    (hv : v.Valid h) :
    Intact (fun result => ∀ h', result = some h' → h.Later g h') (scopeSet h scope key v) := by
  obtain ⟨refs, hchain, _⟩ := Chain.EndsAt.linked hends
  rw [scopeSet_of_chain hchain]
  intro h' hresult
  obtain ⟨s, hfind, rfl⟩ := Option.map_eq_some_iff.mp hresult
  exact hs.putBinding (hchain.lt_length (List.mem_of_find?_eq_some hfind)) key hv

theorem binding_setParent (h : Heap) (scope parent : ScopeRef) :
    Heap.binding
      { h with scopes := h.scopes.modify scope fun s => { s with parent := some parent } } =
        h.binding := by
  funext s key
  simp only [Heap.binding, List.getElem?_modify]
  cases h.scopes[s]? with
  | none => rfl
  | some node =>
    simp only [Option.map_eq_map, Option.map_some]
    split <;> rfl

/-- The scope of a module gets its parent. -/
theorem Heap.Sound.setParent (hs : h.Sound g) (hne : scope ≠ g)
    (hparent : ∃ node, h.scopes[scope]? = some node ∧
      (node.parent = none ∨ node.parent = some g)) :
    h.Later g { h with scopes := h.scopes.modify scope fun s => { s with parent := some g } } := by
  obtain ⟨target, htarget, hparent⟩ := hparent
  have hbinding := binding_setParent h scope g
  refine hs.withScopes (.withScopes (fun s node hnode => ?_) fun s key hbound => ?_)
    fun s key v hv => ?_
  · simp only [List.getElem?_modify, hnode]
    split
    · next heq =>
      subst heq
      obtain rfl := Option.some.inj (htarget.symm.trans hnode)
      refine ⟨_, rfl, ?_⟩
      rcases hparent with hnone | hsome
      · exact .inr ⟨hne, hnone, rfl⟩
      · exact .inl hsome.symm
    · exact ⟨_, rfl, .inl rfl⟩
  · rw [hbinding]
    exact hbound
  · rw [hbinding] at hv
    exact hs.binding s key v hv

/-- Then it lies below the global one. -/
theorem Heap.Sound.setParent_ends (hs : h.Sound g) (hne : scope ≠ g)
    (hparent : ∃ node, h.scopes[scope]? = some node ∧
      (node.parent = none ∨ node.parent = some g)) :
    Heap.ScopeEndsAt
      { h with scopes := h.scopes.modify scope fun s => { s with parent := some g } } g scope := by
  have hglobal := (hs.setParent hne hparent).sound.global
  obtain ⟨node, hnode, _⟩ := hparent
  exact .next (by simp [hnode]; rfl) rfl hglobal

/-! ## Operations on objects -/

/-- What an operation returns that makes an object or finds it. -/
structure Heap.Provides (g : ScopeRef) (h : Heap) (result : Heap × ObjectRef) : Prop where
  later : h.Later g result.1
  lt : result.2 < result.1.objects.length
  functions : result.1.functions = h.functions

/-- A new object may be its own prototype. -/
theorem Heap.Sound.createObject (hs : h.Sound g) (hle : prototype ≤ h.objects.length) :
    h.Provides g (objectCreateObject h (some prototype)) := by
  have hown := own_createObject (h := h) (some prototype)
  refine ⟨hs.withObjects ?_ (fun obj key howned => ?_) ?_ fun obj key v hv => ?_, ?_, rfl⟩
  · rw [List.length_append]
    exact Nat.le_add_right _ _
  · exact (congrFun (congrFun hown obj) key).symm ▸ howned
  · intro o ho
    rw [List.length_append, List.length_singleton]
    rcases List.mem_append.mp ho with ho | ho
    · obtain ⟨p, hp, hprototype⟩ := hs.prototype o ho
      exact ⟨p, Nat.lt_succ_of_lt hp, hprototype⟩
    · rw [List.mem_singleton.mp ho]
      exact ⟨prototype, Nat.lt_succ_of_le hle, rfl⟩
  · exact hs.property obj key v ((congrFun (congrFun hown obj) key).symm.trans hv)
  · rw [objectCreateObject_length]
    exact Nat.lt_succ_self _

theorem Heap.Provides.createObject {result : Heap × ObjectRef} (hresult : h.Provides g result) :
    h.Provides g (objectCreateObject result.1 (some result.2)) := by
  obtain ⟨hlater, hlt, hfunctions⟩ := hresult.later.sound.createObject (Nat.le_of_lt hresult.lt)
  exact ⟨hresult.later.trans hlater, hlt, hfunctions.trans hresult.functions⟩

/-- A new object is kept as one of the prototypes. -/
theorem Heap.Provides.withRoots {result : Heap × ObjectRef} (hresult : h.Provides g result)
    {o a f s : Option ObjectRef}
    (hroots : ∀ r, some r ∈ [o, a, f, s] → some r ∈ some result.2 :: result.1.roots) :
    h.Provides g (⟨result.1.scopes, result.1.objects, result.1.functions, result.1.modules, o, a, f,
      s⟩, result.2) := by
  refine ⟨hresult.later.withRoots fun r hr => ?_, hresult.lt, hresult.functions⟩
  rcases List.mem_cons.mp (hroots r hr) with hnew | hold
  · exact Option.some.inj hnew ▸ hresult.lt
  · exact hresult.later.sound.root r hold

theorem Heap.Sound.provides (hs : h.Sound g) {ref : ObjectRef} (href : some ref ∈ h.roots) :
    h.Provides g (h, ref) := ⟨.refl hs, hs.root ref href, rfl⟩

theorem objectGetObjectPrototype_provides (hs : h.Sound g) :
    h.Provides g (objectGetObjectPrototype h) := by
  unfold objectGetObjectPrototype
  split
  · next ref href => exact hs.provides (by simp [Heap.roots, href])
  · have hnew := hs.createObject (Nat.le_refl h.objects.length)
    exact hnew.withRoots fun r hr => by simp [Heap.roots, objectCreateObject] at hr ⊢; tauto

theorem objectGetArrayPrototype_provides (hs : h.Sound g) :
    h.Provides g (objectGetArrayPrototype h) := by
  unfold objectGetArrayPrototype
  split
  · next ref href => exact hs.provides (by simp [Heap.roots, href])
  · have hnew := (objectGetObjectPrototype_provides hs).createObject
    exact hnew.withRoots fun r hr => by simp [Heap.roots] at hr ⊢; tauto

theorem objectGetFunctionPrototype_provides (hs : h.Sound g) :
    h.Provides g (objectGetFunctionPrototype h) := by
  unfold objectGetFunctionPrototype
  split
  · next ref href => exact hs.provides (by simp [Heap.roots, href])
  · have hnew := (objectGetObjectPrototype_provides hs).createObject
    exact hnew.withRoots fun r hr => by simp [Heap.roots] at hr ⊢; tauto

theorem objectGetSymbolPrototype_provides (hs : h.Sound g) :
    h.Provides g (objectGetSymbolPrototype h) := by
  unfold objectGetSymbolPrototype
  split
  · next ref href => exact hs.provides (by simp [Heap.roots, href])
  · have hnew := (objectGetObjectPrototype_provides hs).createObject
    exact hnew.withRoots fun r hr => by simp [Heap.roots] at hr ⊢; tauto

theorem Heap.Sound.putProperty (hs : h.Sound g) (hlt : obj < h.objects.length)
    (pkey : PropertyKey) (hv : v.Valid h) : h.Later g (h.putProperty obj pkey v) := by
  have hput := fun obj' key => congrFun (congrFun (own_putProperty hlt pkey v) obj') key
  refine hs.withObjects ?_ (fun obj' key howned => ?_) ?_ fun obj' key v' hv' => ?_
  · rw [List.length_modify]
  · have hown := hput obj' key
    rw [Heap.putProperty, Store.write] at hown
    rw [hown]
    split
    · rfl
    · exact howned
  · intro o ho
    rw [List.length_modify]
    obtain ⟨i, ho⟩ := List.mem_iff_getElem?.mp ho
    rw [List.getElem?_modify] at ho
    obtain ⟨o', ho', rfl⟩ := Option.map_eq_some_iff.mp ho
    obtain ⟨p, hp, hprototype⟩ := hs.prototype o' (List.mem_of_getElem? ho')
    refine ⟨p, hp, ?_⟩
    split
    · exact hprototype
    · exact hprototype
  · have hown := hput obj' key
    rw [Heap.putProperty, hv', Store.write] at hown
    split at hown
    · exact Option.some.inj hown ▸ hv
    · exact hs.property obj' key v' hown.symm

theorem Heap.Sound.setPrototype (hs : h.Sound g) (target : ObjectRef)
    (hlt : prototype < h.objects.length) : h.Later g (h.setPrototype target prototype) := by
  have hown : (h.setPrototype target prototype).own = h.own := by
    funext obj key
    simp only [Heap.own, Heap.setPrototype, List.getElem?_modify]
    cases h.objects[obj]? with
    | none => rfl
    | some o =>
      simp only [Option.map_eq_map, Option.map_some]
      split <;> rfl
  rw [Heap.setPrototype] at hown ⊢
  refine hs.withObjects ?_ (fun obj key howned => ?_) ?_ fun obj key v hv => ?_
  · rw [List.length_modify]
  · rw [hown]
    exact howned
  · intro o ho
    rw [List.length_modify]
    obtain ⟨i, ho⟩ := List.mem_iff_getElem?.mp ho
    rw [List.getElem?_modify] at ho
    obtain ⟨o', ho', rfl⟩ := Option.map_eq_some_iff.mp ho
    split
    · exact ⟨prototype, hlt, rfl⟩
    · exact hs.prototype o' (List.mem_of_getElem? ho')
  · rw [hown] at hv
    exact hs.property obj key v hv

/-- Reading a property finds a value, unless the prototypes go round in a circle. -/
theorem objectReadProperty_intact (hs : h.Sound g) (hlt : obj < h.objects.length)
    (pkey : PropertyKey) :
    Intact (fun read => ∃ v, read = .value v ∧ v.Valid h) (objectReadProperty h obj pkey) := by
  have hclosed : ∀ r node s, h.objects[r]? = some node → objectPrototypeLink r node = some s →
      s < h.objects.length := by
    intro r node s hnode hlink
    obtain ⟨p, hp, hprototype⟩ := hs.prototype node (List.mem_of_getElem? hnode)
    unfold objectPrototypeLink at hlink
    split at hlink
    · cases hlink
    · rw [hprototype] at hlink
      exact Option.some.inj hlink ▸ hp
  unfold objectReadProperty
  split
  · next ref o hfound =>
    obtain ⟨_, hnode, hhit⟩ := Chain.walk_above hfound
    obtain ⟨v, hfind⟩ := Option.isSome_iff_exists.mp hhit
    have hv : v.Valid h := hs.property ref pkey v (by rw [Heap.own, hnode, Option.bind_some, hfind])
    rw [hfind]
    cases v with
    | gsBox getter setter => exact absurd hv id
    | _ => exact ⟨_, rfl, hv⟩
  · exact ⟨_, rfl, trivial⟩
  · next hfound => exact absurd hfound (Chain.walk_ne_dangling hclosed hlt)
  · exact rfl

theorem objectWriteProperty_eq (hs : h.Sound g) (hlt : obj < h.objects.length)
    (pkey : PropertyKey) (v : JSValue) :
    objectWriteProperty h obj pkey v = .ok (.stored (h.putProperty obj pkey v)) :=
  objectWriteProperty_of_plain (fun obj key v hv => (hs.property obj key v hv).not_box) hlt pkey v

/-! ## Operations on functions and modules -/

/-- The object for the instances of a new function. -/
theorem Heap.Sound.functionCreatePrototype (hs : h.Sound g) {base : ObjectRef}
    {function : FunctionRef} (hbase : base < h.objects.length)
    (hfunction : function < h.functions.length) :
    h.Later g (functionCreatePrototype h base function) := by
  obtain ⟨hlater, hlt, _⟩ := (objectGetObjectPrototype_provides hs).createObject
  have hvalid : (JSValue.func function).Valid _ := JSValue.Valid.grows (v := .func function)
    hfunction hlater.grows
  have hfirst := hlater.sound.putProperty hlt (.string (cString "constructor")) hvalid
  refine (hlater.trans hfirst).trans (hfirst.sound.putProperty ?_ _ ?_)
  · exact Nat.lt_of_lt_of_le hbase (hlater.trans hfirst).grows.objects
  · exact Nat.lt_of_lt_of_le hlt hfirst.grows.objects

/-- What an operation returns that makes a function. -/
structure Heap.ProvidesFunction (g : ScopeRef) (h : Heap) (result : Heap × FunctionRef) : Prop where
  later : h.Later g result.1
  lt : result.2 < result.1.functions.length

/-- A function with a new object as its base. -/
theorem Heap.Provides.createFunction {result : Heap × ObjectRef} (hresult : h.Provides g result)
    {code : FunctionCode} (hcode : code.Sound g result.1) :
    h.ProvidesFunction g (AtomixJS.functionCreatePrototype
      { result.1 with functions := result.1.functions ++ [⟨result.2, code⟩] }
      result.2 h.functions.length, h.functions.length) := by
  have hf : JSFunction.Sound g result.1 ⟨result.2, code⟩ := ⟨hresult.lt, hcode⟩
  have hpush := hresult.later.sound.withFunction hf
  have hlt : h.functions.length < (result.1.functions ++ [JSFunction.mk result.2 code]).length := by
    rw [hresult.functions, List.length_append]
    exact Nat.lt_succ_self _
  have hprototype := hpush.sound.functionCreatePrototype hresult.lt hlt
  exact ⟨(hresult.later.trans hpush).trans hprototype,
    Nat.lt_of_lt_of_le hlt hprototype.grows.functions_le⟩

theorem functionCreateNativeFunction_provides (hs : h.Sound g) {pointer : ℕ}
    (hpointer : pointer < nativeCount) :
    h.ProvidesFunction g (functionCreateNativeFunction h (some pointer)) :=
  have hcode : ∀ h', (FunctionCode.native (some pointer)).Sound g h' :=
    fun _ => Exists.intro pointer ⟨hpointer, rfl⟩
  (objectGetObjectPrototype_provides hs).createObject.createFunction (hcode _)

theorem functionCreateFunction_provides (hs : h.Sound g) (hends : h.ScopeEndsAt g scope)
    {module : ModuleRef} (hmodule : module < h.modules.length) (start stop : ℕ) :
    h.ProvidesFunction g (functionCreateFunction h scope module start stop) := by
  have hscope := hs.createScope (some scope)
  have hnew := hends.createScope hs
  have hbase := (objectGetFunctionPrototype_provides hscope.sound).createObject
  have hcode : (FunctionCode.bytecode h.scopes.length module start stop).Sound g
      (objectCreateObject _ _).1 :=
    ⟨hnew.grows hbase.later.grows, by rw [hbase.later.grows.modules]; exact hmodule⟩
  obtain ⟨hlater, hlt⟩ := hbase.createFunction hcode
  exact ⟨hscope.trans hlater, hlt⟩

theorem Heap.Sound.setInitialized (hs : h.Sound g) (module : ModuleRef) :
    h.Later g (h.setInitialized module) := by
  have hgrows : h.Grows g (h.setInitialized module) :=
    { scope := fun _ node hnode => ⟨node, hnode, .inl rfl⟩
      bound := fun _ _ => id
      objects := Nat.le_refl _
      owned := fun _ _ => id
      functions := List.prefix_rfl
      modules := List.length_modify _ _ _
      module := by
        intro i m hm
        rw [Heap.setInitialized, List.getElem?_modify, hm]
        split
        · exact ⟨true, rfl, fun _ => rfl⟩
        · exact ⟨m.initialized, rfl, id⟩ }
  refine ⟨⟨hs.global, fun s key v hv => (hs.binding s key v hv).grows hgrows, hs.prototype,
    fun obj key v hv => (hs.property obj key v hv).grows hgrows,
    fun f hf => (hs.function f hf).grows hgrows, fun m hm => ?_, hs.root⟩, hgrows⟩
  obtain ⟨i, hm⟩ := List.mem_iff_getElem?.mp hm
  rw [Heap.setInitialized, List.getElem?_modify] at hm
  obtain ⟨m', hm', rfl⟩ := Option.map_eq_some_iff.mp hm
  have hsound := (hs.module m' (List.mem_of_getElem? hm')).grows hgrows
  split
  · refine ⟨hsound.exports, hsound.scope, fun hfalse => ?_⟩
    cases hfalse
  · exact hsound

end AtomixJS
