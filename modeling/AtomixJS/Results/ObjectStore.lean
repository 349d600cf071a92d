import AtomixJS.Core.Objects

/-!
# Object properties

After any sequence of writes, by string keys and by symbols, reading a property
gives the value last written under its key on the nearest object of the prototype
chain that ever received one.  The dictionaries behind the objects share buckets
between keys; that cannot be observed.
-/

namespace AtomixJS

/-- A call of `object_set_property` or `object_set_property_with_symbol`. -/
abbrev PropertySet := Store.Entry ObjectRef PropertyKey JSValue

/-- The calls one after the other, each of which stores its value. -/
inductive SetsProperties : Heap → List PropertySet → Heap → Prop
  | nil (h : Heap) : SetsProperties h [] h
  | cons {h h₁ h₂ : Heap} {entry : PropertySet} {log : List PropertySet}
      (hwrite : objectWriteProperty h entry.place entry.key entry.value = .ok (.stored h₁))
      (hrest : SetsProperties h₁ log h₂) : SetsProperties h (entry :: log) h₂

/-- Sequences of writes are sequences of writes in the store. -/
theorem setsProperties_of_plain {log : List PropertySet} {h : Heap} (hplain : h.Plain)
    (hplaces : ∀ entry ∈ log, entry.place < h.objects.length)
    (hvalues : ∀ entry ∈ log, entry.value.isGsBox = false) :
    ∃ h', SetsProperties h log h' ∧ h'.Plain ∧ h'.objects.length = h.objects.length ∧
      h'.own = log.foldl Store.write h.own ∧
      ∀ obj refs, h.PrototypeChain obj refs → h'.PrototypeChain obj refs := by
  induction log generalizing h with
  | nil => exact ⟨h, .nil h, hplain, rfl, rfl, fun _ _ hchain => hchain⟩
  | cons entry log ih =>
      have hplace := hplaces entry List.mem_cons_self
      have hvalue := hvalues entry List.mem_cons_self
      have hrest : ∀ e ∈ log, e.place <
          (h.putProperty entry.place entry.key entry.value).objects.length := by
        intro e he
        rw [putProperty_length]
        exact hplaces e (List.mem_cons_of_mem _ he)
      obtain ⟨h', hsets, hplain', hlength, hown, hchains⟩ :=
        ih (hplain.putProperty hplace hvalue) hrest
          fun e he => hvalues e (List.mem_cons_of_mem _ he)
      refine ⟨h', .cons (objectWriteProperty_of_plain hplain hplace _ _) hsets, hplain', ?_, ?_, ?_⟩
      · rw [hlength, putProperty_length]
      · rw [hown, own_putProperty hplace, List.foldl_cons]
      · intro obj refs hchain
        exact hchains obj refs (putProperty_chain hchain)

/-- **Object store.**  In a heap without accessor boxes a sequence of writes
succeeds.  Afterwards a lookup finds the last write on the nearest object that
received one, and one more write is seen through its own key and object only. -/
theorem objectReadProperty_after_sets (h : Heap) (log : List PropertySet) (hplain : h.Plain)
    (hplaces : ∀ entry ∈ log, entry.place < h.objects.length)
    (hvalues : ∀ entry ∈ log, entry.value.isGsBox = false) :
    ∃ h', SetsProperties h log h' ∧
      (∀ obj refs key, h.PrototypeChain obj refs →
        objectReadProperty h' obj key = .ok (.value ((refs.findSome? fun r =>
          (Store.lastWrite log r key).or (h.own r key)).getD .undefined))) ∧
      ∀ entry : PropertySet, entry.place < h.objects.length → entry.value.isGsBox = false →
        ∃ h'', objectWriteProperty h' entry.place entry.key entry.value = .ok (.stored h'') ∧
          ∀ obj refs key, h.PrototypeChain obj refs → key ≠ entry.key ∨ entry.place ∉ refs →
            objectReadProperty h'' obj key = objectReadProperty h' obj key := by
  obtain ⟨h', hsets, hplain', hlength, hown, hchains⟩ :=
    setsProperties_of_plain hplain hplaces hvalues
  refine ⟨h', hsets, ?_, ?_⟩
  · intro obj refs key hchain
    rw [objectReadProperty_of_chain (hchains obj refs hchain) hplain', hown]
    unfold Store.inherited
    simp only [Store.contents_after]
  · intro entry hplace hvalue
    have hplace' : entry.place < h'.objects.length := hlength ▸ hplace
    refine ⟨_, objectWriteProperty_of_plain hplain' hplace' _ _, ?_⟩
    intro obj refs key hchain hother
    rw [objectReadProperty_of_chain (putProperty_chain (hchains obj refs hchain))
        (hplain'.putProperty hplace' hvalue),
      objectReadProperty_of_chain (hchains obj refs hchain) hplain', own_putProperty hplace']
    -- a write elsewhere is not inherited along this chain
    have hsame : Store.inherited (Store.write h'.own entry) refs key =
        Store.inherited h'.own refs key := by
      rcases hother with hkey | hnot
      · exact Store.inherited_write_of_key_ne hkey refs
      · exact Store.inherited_write_of_not_mem hnot key
    exact congrArg (fun v => Except.ok (PropertyRead.value (Option.getD v .undefined))) hsame

/-! ## Two objects -/

/-- The root prototype and an object that inherits from it. -/
def rootAndChild : Heap :=
  (objectCreateObject (objectCreateObject Heap.empty (some 0)).1 (some 0)).1

/-- `root.a = 1; child.a = 2`, read from the child. -/
theorem objectReadProperty_after_sets_child :
    ∃ h', SetsProperties rootAndChild
        [⟨0, .string [97], .integer 1⟩, ⟨1, .string [97], .integer 2⟩] h' ∧
      objectReadProperty h' 1 (.string [97]) = .ok (.value (.integer 2)) := by
  have hplain : rootAndChild.Plain := (Heap.Plain.empty.createObject _).createObject _
  obtain ⟨h', hsets, hread, _⟩ := objectReadProperty_after_sets rootAndChild
    [⟨0, .string [97], .integer 1⟩, ⟨1, .string [97], .integer 2⟩] hplain (by decide) (by decide)
  refine ⟨h', hsets, ?_⟩
  rw [hread 1 [1, 0] (.string [97]) (.next rfl rfl (.last rfl rfl))]
  rfl

end AtomixJS
