import AtomixJS.Core.Value
import AtomixJS.Lib.Fallible

/-!
# Dictionaries

`JSDict` is the hash table of `dict.c`: a fixed number of buckets, each a
linked list of properties.  String keys are hashed and compared by content,
symbols all live in bucket 0 and are compared by identity, so one lookup with
a `PropertyKey` covers both families of source functions.

Callers only ever need `dictGet_put`: after a property was put, its key maps to
the new value and every other key to what it mapped to before.  Which bucket a
key falls into cannot be observed, as long as nothing is deleted: the search for
the entry in front of the deleted one misses the first entry of the bucket.
-/

namespace AtomixJS

/-- The key of a property: the source sets either `key` or `symbol`. -/
inductive PropertyKey
  | string (key : CString)
  | symbol (symbol : ObjectRef)
  deriving DecidableEq, Repr

/-- `struct JSProperty`, without the link to the next one. -/
structure JSProperty where
  key : PropertyKey
  value : JSValue
  deriving DecidableEq, Repr

/-- `struct JSDict`.  The bucket count is the length of `buckets`. -/
structure JSDict where
  buckets : List (List JSProperty)
  nonempty : buckets ≠ []
  deriving DecidableEq, Repr

/-- `HASH_SEED`. -/
def hashSeed : UInt32 := 5381

/-- The loop of `hash_string`.  A `char` is signed, and is added as an `int`. -/
def hashString (str : CString) : UInt32 :=
  str.foldl (fun hash c => (hash <<< 5) + hash + c.toInt8.toInt32.toUInt32) hashSeed

/-- `dict_create_dict`. -/
def dictCreateDict (bucketCount : ℕ) (h : 0 < bucketCount) : JSDict :=
  ⟨List.replicate bucketCount [], by simpa using Nat.ne_of_gt h⟩

namespace JSDict

variable (dict : JSDict) (key : PropertyKey)

theorem length_pos : 0 < dict.buckets.length := List.length_pos_iff.mpr dict.nonempty

/-- The bucket that holds a key. -/
def index : PropertyKey → ℕ
  | .string str => (hashString str).toNat % dict.buckets.length
  | .symbol _ => 0

def bucket (i : ℕ) : List JSProperty := dict.buckets[i]?.getD []

/-- Change one bucket. -/
def modify (i : ℕ) (f : List JSProperty → List JSProperty) : JSDict :=
  ⟨dict.buckets.modify i f, by simpa using dict.nonempty⟩

/-- The value of the first property with the key, in its bucket. -/
def find : Option JSValue :=
  ((dict.bucket (dict.index key)).find? (·.key = key)).map (·.value)

/-- Overwrite the value of the first property with the key. -/
def assign (key : PropertyKey) (value : JSValue) : List JSProperty → List JSProperty
  | [] => []
  | entry :: rest =>
    if entry.key = key then { entry with value := value } :: rest
    else entry :: assign key value rest

/-- A new property at the head of its bucket. -/
def add (value : JSValue) : JSDict :=
  dict.modify (dict.index key) (⟨key, value⟩ :: ·)

/-- The value of a key is overwritten where there is one, else the key is added.
Every writer of the source does this. -/
def put (value : JSValue) : JSDict :=
  if (dict.find key).isSome then dict.modify (dict.index key) (assign key value)
  else dict.add key value

/-- Overwrite the value of a key that is there.  The flag is the return value. -/
def update (value : JSValue) : JSDict × Bool :=
  if (dict.find key).isSome then (dict.modify (dict.index key) (assign key value), true)
  else (dict, false)

/-- The search for the entry in front of the one at `position`, from an entry on
that is number `j` of its bucket.  It runs over the end of the bucket. -/
def predecessor (position : ℕ) : ℕ → List JSProperty → Except Fault ℕ
  | _, [] => .error (.undefinedBehaviour "property pointer")
  | j, _ :: rest => if j + 1 = position then .ok j else predecessor position (j + 1) rest

/-- Take an entry out of its bucket.  The search for the one in front of it starts
at the second entry. -/
def unlink (position : ℕ) (entries : List JSProperty) : Except Fault (List JSProperty) :=
  if position = 0 then .ok entries.tail
  else do
    let previous ← predecessor position 1 entries.tail
    return entries.take (previous + 1) ++ entries.drop (position + 1)

/-- Delete the first property with the key.  The flag is the return value. -/
def delete : Except Fault (JSDict × Bool) :=
  match (dict.bucket (dict.index key)).findIdx? (·.key = key) with
  | none => .ok (dict, false)
  | some position => do
    let entries ← unlink position (dict.bucket (dict.index key))
    return (dict.modify (dict.index key) fun _ => entries, true)

/-! ### Lookup after a write -/

theorem index_lt : dict.index key < dict.buckets.length := by
  cases key with
  | string str => exact Nat.mod_lt _ dict.length_pos
  | symbol s => exact dict.length_pos

@[simp] theorem index_modify (i : ℕ) (f : List JSProperty → List JSProperty) :
    (dict.modify i f).index key = dict.index key := by
  cases key with
  | string str => simp [index, modify]
  | symbol s => rfl

theorem bucket_modify (i : ℕ) (f : List JSProperty → List JSProperty) (j : ℕ)
    (hi : i < dict.buckets.length) :
    (dict.modify i f).bucket j = if i = j then f (dict.bucket j) else dict.bucket j := by
  simp only [bucket, modify, List.getElem?_modify]
  split
  · subst j
    simp [List.getElem?_eq_getElem hi]
  · simp

theorem find?_assign (value : JSValue) (key' : PropertyKey) (entries : List JSProperty) :
    ((assign key value entries).find? (·.key = key')).map (·.value) =
      if key' = key then ((entries.find? (·.key = key)).map fun _ => value)
      else (entries.find? (·.key = key')).map (·.value) := by
  induction entries with
  | nil => simp [assign]
  | cons entry rest ih =>
      by_cases hentry : entry.key = key
      · by_cases hkey : key' = key <;> simp_all [assign, eq_comm]
      · by_cases hkey : entry.key = key' <;> simp_all [assign]

theorem find_modify (f : List JSProperty → List JSProperty) (key' : PropertyKey) :
    (dict.modify (dict.index key) f).find key' =
      if dict.index key = dict.index key' then
        ((f (dict.bucket (dict.index key'))).find? (·.key = key')).map (·.value)
      else dict.find key' := by
  rw [find, index_modify, bucket_modify _ _ _ _ (dict.index_lt key)]
  split <;> rfl

/-- A new dictionary holds nothing. -/
@[simp] theorem find_create (n : ℕ) (h : 0 < n) (key : PropertyKey) :
    (dictCreateDict n h).find key = none := by
  simp only [find, bucket, dictCreateDict, List.getElem?_replicate]
  split <;> simp

/-- A write sets its own key and no other. -/
theorem find_put (value : JSValue) (key' : PropertyKey) :
    (dict.put key value).find key' = if key' = key then some value else dict.find key' := by
  by_cases hkey : key' = key
  · subst key'
    rw [if_pos rfl, put]
    split
    · next hsome =>
        obtain ⟨v, hv⟩ := Option.isSome_iff_exists.mp hsome
        rw [find, Option.map_eq_some_iff] at hv
        obtain ⟨entry, hentry, -⟩ := hv
        rw [find_modify, if_pos rfl, find?_assign, if_pos rfl, hentry, Option.map_some]
    · rw [add, find_modify, if_pos rfl]
      simp
  · rw [if_neg hkey, put]
    split
    · rw [find_modify, find?_assign, if_neg hkey]
      split <;> rfl
    · rw [add, find_modify]
      split
      · rw [List.find?_cons_of_neg (by simpa using fun h => hkey h.symm)]
        rfl
      · rfl

/-! ### Lookup after a deletion -/

theorem predecessor_of_le {position j : ℕ} (h : position ≤ j) (entries : List JSProperty) :
    predecessor position j entries = .error (.undefinedBehaviour "property pointer") := by
  induction entries generalizing j with
  | nil => rfl
  | cons entry rest ih =>
      rw [predecessor, if_neg (by omega)]
      exact ih (Nat.le_succ_of_le h)

theorem predecessor_of_lt {position j : ℕ} {entries : List JSProperty} (h : j < position)
    (hlt : position ≤ j + entries.length) : predecessor position j entries = .ok (position - 1) := by
  induction entries generalizing j with
  | nil => simp only [List.length_nil] at hlt; omega
  | cons entry rest ih =>
      rw [List.length_cons] at hlt
      rw [predecessor]
      by_cases hnext : j + 1 = position
      · rw [if_pos hnext, ← hnext, Nat.add_sub_cancel]
      · rw [if_neg hnext]
        exact ih (by omega) (by omega)

/-- The second entry of a bucket is never found from behind itself. -/
theorem unlink_second (entries : List JSProperty) :
    unlink 1 entries = .error (.undefinedBehaviour "property pointer") := by
  rw [unlink, if_neg Nat.one_ne_zero, predecessor_of_le (Nat.le_refl 1)]
  rfl

theorem unlink_of_ne {position : ℕ} {entries : List JSProperty} (h : position < entries.length)
    (hne : position ≠ 1) : unlink position entries = .ok (entries.eraseIdx position) := by
  rw [unlink]
  by_cases hzero : position = 0
  · rw [if_pos hzero, hzero, List.eraseIdx_zero]
  · have hprevious : predecessor position 1 entries.tail = .ok (position - 1) := by
      apply predecessor_of_lt
      · omega
      · rw [List.length_tail]
        omega
    rw [if_neg hzero, hprevious, Fallible.ok_bind, Nat.sub_add_cancel (by omega),
      List.eraseIdx_eq_take_drop_succ]
    rfl

/-- Every key is at most once in its bucket. -/
def Distinct : Prop := ∀ i, ((dict.bucket i).map (·.key)).Nodup

theorem find?_eraseIdx {entries : List JSProperty} (hdistinct : (entries.map (·.key)).Nodup)
    {position : ℕ} (hat : entries[position]?.map (·.key) = some key) (key' : PropertyKey) :
    (entries.eraseIdx position).find? (·.key = key') =
      if key' = key then none else entries.find? (·.key = key') := by
  induction entries generalizing position with
  | nil => simp at hat
  | cons entry rest ih =>
      rw [List.map_cons, List.nodup_cons] at hdistinct
      cases position with
      | zero =>
          obtain rfl : entry.key = key := by simpa using hat
          rw [List.eraseIdx_zero, List.tail_cons]
          split
          · next hkey =>
              subst hkey
              rw [List.find?_eq_none]
              intro other hother hsame
              exact hdistinct.1 (List.mem_map.mpr ⟨other, hother, by simpa using hsame⟩)
          · next hkey =>
              rw [List.find?_cons_of_neg (by simpa using Ne.symm hkey)]
      | succ position =>
          rw [List.getElem?_cons_succ] at hat
          have hother : entry.key ≠ key := by
            rintro rfl
            obtain ⟨found, hfound, hkey⟩ := Option.map_eq_some_iff.mp hat
            exact hdistinct.1 (List.mem_map.mpr ⟨found, List.mem_of_getElem? hfound, hkey⟩)
          rw [List.eraseIdx_cons_succ, List.find?_cons, List.find?_cons, ih hdistinct.2 hat]
          by_cases hentry : entry.key = key'
          · have hne : key' ≠ key := hentry ▸ hother
            simp [hentry, hne]
          · simp [hentry]

end JSDict

/-! ## The functions of the source -/

/-- `dict_get`. -/
def dictGet (dict : JSDict) (key : CString) : Option JSValue := dict.find (.string key)

/-- `dict_get_by_symbol`. -/
def dictGetBySymbol (dict : JSDict) (symbol : ObjectRef) : Option JSValue :=
  dict.find (.symbol symbol)

/-- Write through the pointer of a successful `dict_get`, or else `dict_add`. -/
def dictPut (dict : JSDict) (key : CString) (value : JSValue) : JSDict :=
  dict.put (.string key) value

/-- `dict_add`. -/
def dictAdd (dict : JSDict) (key : CString) (value : JSValue) : JSDict :=
  dict.add (.string key) value

/-- `dict_add_with_symbol`. -/
def dictAddWithSymbol (dict : JSDict) (symbol : ObjectRef) (value : JSValue) : JSDict :=
  dict.add (.symbol symbol) value

/-- `dict_update`. -/
def dictUpdate (dict : JSDict) (key : CString) (value : JSValue) : JSDict × Bool :=
  dict.update (.string key) value

/-- `dict_update_with_symbol`. -/
def dictUpdateWithSymbol (dict : JSDict) (symbol : ObjectRef) (value : JSValue) : JSDict × Bool :=
  dict.update (.symbol symbol) value

/-- `dict_delete`. -/
def dictDelete (dict : JSDict) (key : CString) : Except Fault (JSDict × Bool) :=
  dict.delete (.string key)

/-- `dict_delete_by_symbol`. -/
def dictDeleteBySymbol (dict : JSDict) (symbol : ObjectRef) : Except Fault (JSDict × Bool) :=
  dict.delete (.symbol symbol)

@[simp] theorem dictGet_put (dict : JSDict) (key key' : CString) (value : JSValue) :
    dictGet (dictPut dict key value) key' =
      if key' = key then some value else dictGet dict key' := by
  simp only [dictGet, dictPut, JSDict.find_put, PropertyKey.string.injEq]

@[simp] theorem dictGet_create (n : ℕ) (h : 0 < n) (key : CString) :
    dictGet (dictCreateDict n h) key = none := JSDict.find_create n h _

end AtomixJS
