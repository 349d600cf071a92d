import AtomixJS.Core.Dict

/-!
# Deletion from dictionaries

`dict_delete` and `dict_delete_by_symbol` look for the entry in front of the one
to be deleted from the second entry of the bucket on.  So they find it for every
entry but the second one, for which they follow a null link.

Whatever the history of a dictionary, it holds every key at most once in its
bucket, as long as no key is added that is there already.  Then taking out one
entry takes out one key.
-/

namespace AtomixJS

/-- An operation on a dictionary, with a string or a symbol as its key. -/
inductive DictOp
  | add (key : PropertyKey) (value : JSValue)
  | update (key : PropertyKey) (value : JSValue)
  | delete (key : PropertyKey)

/-- `dict_add`, `dict_update`, `dict_delete` and their counterparts for symbols. -/
def DictOp.run (dict : JSDict) : DictOp → Except Fault JSDict
  | .add key value => .ok (dict.add key value)
  | .update key value => .ok (dict.update key value).1
  | .delete key => do
    let (dict, _) ← dict.delete key
    return dict

/-- A key is only added where it is absent. -/
def DictOp.Allowed (dict : JSDict) : DictOp → Prop
  | .add key _ => dict.find key = none
  | .update _ _ | .delete _ => True

/-- The dictionaries that such operations lead to. -/
inductive Built : JSDict → Prop
  | create (n : ℕ) (h : 0 < n) : Built (dictCreateDict n h)
  | step {dict dict' : JSDict} {op : DictOp} (hbuilt : Built dict) (hallowed : op.Allowed dict)
      (hrun : op.run dict = .ok dict') : Built dict'

namespace JSDict

variable {dict : JSDict} {key : PropertyKey} {value : JSValue}

/-! ## Every key is in its bucket at most once -/

theorem find_eq_none_iff :
    dict.find key = none ↔ key ∉ (dict.bucket (dict.index key)).map (·.key) := by
  simp [find]

/-- A bucket may be changed as long as its keys stay distinct. -/
theorem Distinct.modify (h : dict.Distinct) {f : List JSProperty → List JSProperty}
    (hf : ((f (dict.bucket (dict.index key))).map (·.key)).Nodup) :
    (dict.modify (dict.index key) f).Distinct := by
  intro i
  rw [bucket_modify _ _ _ _ (dict.index_lt key)]
  split
  · next hi => exact hi ▸ hf
  · exact h i

theorem assign_keys (entries : List JSProperty) :
    (assign key value entries).map (·.key) = entries.map (·.key) := by
  induction entries with
  | nil => rfl
  | cons entry rest ih =>
    rw [assign]
    split
    · rfl
    · rw [List.map_cons, List.map_cons, ih]

theorem Distinct.create (n : ℕ) (h : 0 < n) : (dictCreateDict n h).Distinct := by
  intro i
  have hempty : (dictCreateDict n h).bucket i = [] := by
    simp only [bucket, dictCreateDict, List.getElem?_replicate]
    split <;> rfl
  rw [hempty]
  exact List.nodup_nil

theorem Distinct.add (h : dict.Distinct) (habsent : dict.find key = none) :
    (dict.add key value).Distinct :=
  h.modify (List.nodup_cons.mpr ⟨find_eq_none_iff.mp habsent, h _⟩)

theorem Distinct.update (h : dict.Distinct) : (dict.update key value).1.Distinct := by
  rw [JSDict.update]
  split
  · refine h.modify ?_
    rw [assign_keys]
    exact h _
  · exact h

/-! ## One deletion -/

/-- The key is that of the second entry of its bucket. -/
def Second (dict : JSDict) (key : PropertyKey) : Prop :=
  ((dict.bucket (dict.index key))[1]?.map (·.key)) = some key

/-- A deletion succeeds, says whether the key was there, and removes this key and no
other one. -/
def DeletesExactly (dict : JSDict) (key : PropertyKey) : Prop :=
  ∃ dict', dict.delete key = .ok (dict', (dict.find key).isSome) ∧
    ∀ key', dict'.find key' = if key' = key then none else dict.find key'

theorem position_of_second (h : dict.Distinct) (hsecond : dict.Second key) :
    (dict.bucket (dict.index key)).findIdx? (·.key = key) = some 1 := by
  have hdistinct := h (dict.index key)
  unfold Second at hsecond
  generalize dict.bucket (dict.index key) = entries at hdistinct hsecond
  match entries with
  | [] | [_] => simp at hsecond
  | first :: second :: rest =>
    obtain rfl : second.key = key := by simpa using hsecond
    have hfirst : first.key ≠ second.key := by
      intro hsame
      simp [hsame] at hdistinct
    simp [List.findIdx?_cons, hfirst]

theorem delete_second (h : dict.Distinct) (hsecond : dict.Second key) :
    dict.delete key = .error (.undefinedBehaviour "property pointer") := by
  simp only [delete, position_of_second h hsecond, unlink_second]
  rfl

/-- What a deletion does to the dictionary. -/
theorem delete_cases (dict : JSDict) (key : PropertyKey) :
    (dict.find key = none ∧ dict.delete key = .ok (dict, false)) ∨
    (dict.Second key ∧ dict.delete key = .error (.undefinedBehaviour "property pointer")) ∨
    ∃ position, (dict.bucket (dict.index key))[position]?.map (·.key) = some key ∧
      (dict.find key).isSome = true ∧
      dict.delete key = .ok (dict.modify (dict.index key)
        fun _ => (dict.bucket (dict.index key)).eraseIdx position, true) := by
  cases hposition : (dict.bucket (dict.index key)).findIdx? (·.key = key) with
  | none =>
    left
    refine ⟨?_, by simp only [delete, hposition]⟩
    rw [List.findIdx?_eq_none_iff] at hposition
    rw [find_eq_none_iff, List.mem_map]
    rintro ⟨entry, hentry, hkey⟩
    simpa [hkey] using hposition entry hentry
  | some position =>
    right
    obtain ⟨hlt, hkey, _⟩ := List.findIdx?_eq_some_iff_getElem.mp hposition
    have hat : (dict.bucket (dict.index key))[position]?.map (·.key) = some key := by
      rw [List.getElem?_eq_getElem hlt, Option.map_some]
      exact congrArg some (of_decide_eq_true hkey)
    by_cases hone : position = 1
    · left
      subst hone
      refine ⟨hat, ?_⟩
      simp only [delete, hposition, unlink_second]
      rfl
    · right
      refine ⟨position, hat, ?_, ?_⟩
      · rw [find, Option.isSome_map, List.find?_isSome]
        exact ⟨_, List.getElem_mem hlt, hkey⟩
      · simp only [delete, hposition, unlink_of_ne hlt hone]
        rfl

theorem Distinct.delete {dict' : JSDict} {flag : Bool} (h : dict.Distinct)
    (hdelete : dict.delete key = .ok (dict', flag)) : dict'.Distinct := by
  rcases delete_cases dict key with ⟨_, hsame⟩ | ⟨_, hfault⟩ | ⟨position, _, _, herased⟩
  · rw [hsame] at hdelete
    exact (Prod.mk.inj (Except.ok.inj hdelete)).1 ▸ h
  · rw [hfault] at hdelete
    cases hdelete
  · rw [herased] at hdelete
    rw [← (Prod.mk.inj (Except.ok.inj hdelete)).1]
    exact h.modify ((h _).sublist ((List.eraseIdx_sublist _ _).map _))

/-- The key is gone, and nothing else. -/
theorem find_erased (h : dict.Distinct) {position : ℕ}
    (hat : (dict.bucket (dict.index key))[position]?.map (·.key) = some key) (key' : PropertyKey) :
    (dict.modify (dict.index key)
        fun _ => (dict.bucket (dict.index key)).eraseIdx position).find key' =
      if key' = key then none else dict.find key' := by
  rw [find_modify]
  by_cases hindex : dict.index key = dict.index key'
  · rw [if_pos hindex, find?_eraseIdx key (h _) hat, find, hindex]
    split <;> rfl
  · have hkey : key' ≠ key := by
      rintro rfl
      exact hindex rfl
    rw [if_neg hindex, if_neg hkey]

theorem deletesExactly_iff (h : dict.Distinct) : dict.DeletesExactly key ↔ ¬ dict.Second key := by
  constructor
  · rintro ⟨dict', hok, _⟩ hsecond
    rw [delete_second h hsecond] at hok
    cases hok
  · intro hnot
    rcases delete_cases dict key with ⟨habsent, hdelete⟩ | ⟨hsecond, _⟩ |
      ⟨position, hat, hpresent, hdelete⟩
    · refine ⟨dict, habsent ▸ hdelete, fun key' => ?_⟩
      split
      · next hkey => exact hkey ▸ habsent
      · rfl
    · exact absurd hsecond hnot
    · exact ⟨_, hpresent ▸ hdelete, find_erased h hat⟩

end JSDict

theorem Built.distinct {dict : JSDict} (h : Built dict) : dict.Distinct := by
  induction h with
  | create n hn => exact .create n hn
  | @step dict dict' op _ hallowed hrun ih =>
    cases op with
    | add key value =>
      obtain rfl := Except.ok.inj hrun
      exact ih.add hallowed
    | update key value =>
      obtain rfl := Except.ok.inj hrun
      exact ih.update
    | delete key =>
      obtain ⟨⟨dict₁, flag⟩, hdelete, hsame⟩ := Fallible.bind_eq_ok.mp hrun
      obtain rfl := Fallible.pure_eq_ok.mp hsame
      exact ih.delete hdelete

/-- **Deletion.**  In a dictionary of any history, deletion works if and only if the
key is not that of the second entry of its bucket. -/
theorem built_deletesExactly_iff {dict : JSDict} (h : Built dict) (key : PropertyKey) :
    dict.DeletesExactly key ↔ ¬ dict.Second key :=
  JSDict.deletesExactly_iff h.distinct

/-! ## Two symbols -/

/-- Two symbols share a bucket, the later one in front. -/
def twoSymbols : JSDict :=
  dictAddWithSymbol (dictAddWithSymbol (dictCreateDict 1 Nat.one_pos) 0 .null) 1 .null

theorem twoSymbols_built : Built twoSymbols := by
  have hfirst : Built (dictAddWithSymbol (dictCreateDict 1 Nat.one_pos) 0 .null) := by
    refine .step (.create 1 Nat.one_pos) ?_ (show (DictOp.add (.symbol 0) .null).run _ = _ from rfl)
    exact JSDict.find_create 1 Nat.one_pos (.symbol 0)
  refine .step hfirst ?_ (show (DictOp.add (.symbol 1) .null).run _ = _ from rfl)
  show JSDict.find _ (.symbol 1) = none
  decide

theorem built_deletesExactly_iff_front :
    twoSymbols.DeletesExactly (.symbol 1) ↔ ¬ twoSymbols.Second (.symbol 1) :=
  built_deletesExactly_iff twoSymbols_built (.symbol 1)

/-- The symbol that was added first cannot be deleted. -/
theorem built_delete_behind :
    ¬ ∀ (dict : JSDict) (key : PropertyKey), Built dict → dict.DeletesExactly key := by
  intro hclaim
  obtain ⟨dict', hdelete, _⟩ := hclaim twoSymbols (.symbol 0) twoSymbols_built
  have hfault : twoSymbols.delete (.symbol 0) =
      .error (.undefinedBehaviour "property pointer") := rfl
  rw [hfault] at hdelete
  cases hdelete

end AtomixJS
