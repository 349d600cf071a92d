import AtomixJS.Core.Format
import AtomixJS.Lib.Bytes

/-!
# The module lookup

`bundle_get_module` searches the bundle with an upper bound that starts at the
module count and is included in the range, and that steps to `mid - 1` in
sixteen bits.  A hash above the last module makes the search read one module
past the array, and a hash below the first one makes the upper bound wrap at
zero.  Between the two the search is a correct binary search.
-/

namespace AtomixJS

/-- What the lookup is for: the bundle's module with the hash, otherwise the
first native module with it, otherwise a panic. -/
def lookupModule (bundle : JSBundle) (nativeModules : List JSModule) (hash : UInt64) :
    Except Fault ModuleLocation :=
  match bundle.modules.findIdx? (·.header.hash = hash) with
  | some index => .ok (.bundle index)
  | none =>
    match nativeModules.findIdx? (·.header.hash = hash) with
    | some index => .ok (.native index)
    | none => .error (.panic "Could not find module in bundle")

def JSBundle.hashes (bundle : JSBundle) : List UInt64 := bundle.modules.map (·.header.hash)

/-- The hash lies between the first and the last hash of the bundle. -/
def JSBundle.Spans (bundle : JSBundle) (hash : UInt64) : Prop :=
  ∃ first last, bundle.hashes.head? = some first ∧ bundle.hashes.getLast? = some last ∧
    first ≤ hash ∧ hash ≤ last

variable {hashes : List UInt64} {hash : UInt64} {low high : UInt16} {rounds : ℕ}

/-! ## One round -/

/-- The midpoint that a round reads. -/
def midpoint (low high : UInt16) : ℕ := low.toNat + (high.toNat - low.toNat) / 2

theorem midpoint_toNat (h : low ≤ high) : (low + (high - low) / 2).toNat = midpoint low high := by
  have hhigh := high.toNat_lt
  have hle : low.toNat ≤ high.toNat := UInt16.le_iff_toNat_le.mp h
  rw [UInt16.toNat_add, UInt16.toNat_div, UInt16.toNat_sub_of_le _ _ h]
  apply Nat.mod_eq_of_lt
  show low.toNat + (high.toNat - low.toNat) / 2 < 2 ^ 16
  omega

theorem midpoint_bounds (h : low ≤ high) :
    low.toNat ≤ midpoint low high ∧ midpoint low high ≤ high.toNat := by
  have hle : low.toNat ≤ high.toNat := UInt16.le_iff_toNat_le.mp h
  unfold midpoint
  omega

/-- What a round of the search does, in natural numbers.  The new upper bound
wraps when the midpoint was zero. -/
theorem searchStep_cases (hashes : List UInt64) (hash : UInt64) (low high : UInt16) :
    (¬ low ≤ high ∧ searchStep hashes hash low high = .stop) ∨
    (low ≤ high ∧ hashes.length ≤ midpoint low high ∧
      searchStep hashes hash low high = .outside (midpoint low high)) ∨
    ∃ h, low ≤ high ∧ hashes[midpoint low high]? = some h ∧
      ((h = hash ∧ searchStep hashes hash low high = .found (midpoint low high)) ∨
        (h < hash ∧ ∃ low', low'.toNat = (midpoint low high + 1) % 2 ^ 16 ∧
          searchStep hashes hash low high = .next low' high) ∨
        (hash < h ∧ ∃ high', high'.toNat = (midpoint low high + (2 ^ 16 - 1)) % 2 ^ 16 ∧
          searchStep hashes hash low high = .next low high')) := by
  unfold searchStep
  by_cases hle : low ≤ high
  · have hmid := midpoint_toNat hle
    cases hget : hashes[midpoint low high]? with
    | none =>
      refine .inr (.inl ⟨hle, List.getElem?_eq_none_iff.mp hget, ?_⟩)
      simp only [hle, if_true, hmid, hget]
    | some h =>
      refine .inr (.inr ⟨h, hle, rfl, ?_⟩)
      simp only [hle, if_true, hmid, hget]
      rcases lt_trichotomy h hash with hlt | heq | hgt
      · refine .inr (.inl ⟨hlt, _, ?_, by rw [if_neg (ne_of_lt hlt), if_pos hlt]⟩)
        rw [UInt16.toNat_add, hmid]
        rfl
      · exact .inl ⟨heq, if_pos heq⟩
      · refine .inr (.inr ⟨hgt, _, ?_,
          by rw [if_neg (ne_of_gt hgt), if_neg (not_lt_of_gt hgt)]⟩)
        rw [UInt16.toNat_sub, hmid, Nat.add_comm]
        rfl
  · exact .inl ⟨hle, if_neg hle⟩

/-! ## A hash inside the range of the bundle -/

/-- What the search knows of its bounds while the hash is between the first and
the last one: everything left of them is smaller, everything right of them is
larger, and the lower bound is the index of a module. -/
structure Narrowed (hashes : List UInt64) (hash : UInt64) (low high : UInt16) : Prop where
  low_lt : low.toNat < hashes.length
  high_le : high.toNat ≤ hashes.length
  below : ∀ i h, hashes[i]? = some h → i < low.toNat → h < hash
  above : ∀ i h, hashes[i]? = some h → high.toNat < i → hash < h

theorem Narrowed.mid_lt (h : Narrowed hashes hash low high) (hle : low ≤ high) :
    midpoint low high < hashes.length := by
  have hlow := h.low_lt
  have hhigh := h.high_le
  have hle' : low.toNat ≤ high.toNat := UInt16.le_iff_toNat_le.mp hle
  unfold midpoint
  omega

/-- In an ascending list the order of the hashes is that of the indices. -/
theorem index_lt_of_lt (hsorted : hashes.Pairwise (· < ·)) {i j : ℕ} {a b : UInt64}
    (ha : hashes[i]? = some a) (hb : hashes[j]? = some b) (hab : a < b) : i < j := by
  obtain ⟨hi, rfl⟩ := List.getElem?_eq_some_iff.mp ha
  obtain ⟨hj, rfl⟩ := List.getElem?_eq_some_iff.mp hb
  by_contra hji
  rcases Nat.lt_or_eq_of_le (Nat.le_of_not_lt hji) with hlt | rfl
  · exact lt_asymm hab (List.pairwise_iff_getElem.mp hsorted j i hj hi hlt)
  · exact lt_irrefl _ hab

theorem lt_of_index_lt (hsorted : hashes.Pairwise (· < ·)) {i j : ℕ} {a b : UInt64}
    (ha : hashes[i]? = some a) (hb : hashes[j]? = some b) (hij : i < j) : a < b := by
  obtain ⟨hi, rfl⟩ := List.getElem?_eq_some_iff.mp ha
  obtain ⟨hj, rfl⟩ := List.getElem?_eq_some_iff.mp hb
  exact List.pairwise_iff_getElem.mp hsorted i j hi hj hij

/-- The search finds the hash or shows that it is absent, with fewer rounds than
its bounds are apart. -/
theorem search_of_narrowed (hsorted : hashes.Pairwise (· < ·)) {first last : UInt64}
    (hfirst : hashes[0]? = some first) (hlast : hashes[hashes.length - 1]? = some last)
    (hge : first ≤ hash) (hle : hash ≤ last) (hsmall : hashes.length < 2 ^ 16)
    (hinv : Narrowed hashes hash low high) (hrounds : high.toNat + 1 - low.toNat < rounds) :
    (∃ i, hashes[i]? = some hash ∧ search hashes hash rounds low high = some (.ok (some i))) ∨
      (hash ∉ hashes ∧ search hashes hash rounds low high = some (.ok none)) := by
  induction rounds generalizing low high with
  | zero => exact absurd hrounds (Nat.not_lt_zero _)
  | succ rounds ih =>
    unfold search
    rcases searchStep_cases hashes hash low high with
      ⟨hstop, hstep⟩ | ⟨hlh, hout, _⟩ | ⟨h, hlh, hget, hcase⟩
    · -- the bounds have crossed, so every hash is on one side of them
      refine .inr ⟨fun hmem => ?_, by rw [hstep]⟩
      obtain ⟨i, hi⟩ := List.getElem?_of_mem hmem
      rw [UInt16.le_iff_toNat_le] at hstop
      rcases Nat.lt_or_ge i low.toNat with hlow | hlow
      · exact lt_irrefl _ (hinv.below i hash hi hlow)
      · exact lt_irrefl _ (hinv.above i hash hi (by omega))
    · exact absurd (hinv.mid_lt hlh) (Nat.not_lt.mpr hout)
    · have hmid := hinv.mid_lt hlh
      obtain ⟨hmidlow, hmidhigh⟩ := midpoint_bounds hlh
      rcases hcase with ⟨rfl, hstep⟩ | ⟨hlt, low', hlow', hstep⟩ | ⟨hgt, high', hhigh', hstep⟩
      · exact .inl ⟨_, hget, by rw [hstep]⟩
      · rw [Nat.mod_eq_of_lt (by omega)] at hlow'
        rw [hstep]
        -- the last hash is not smaller, so the midpoint is not the last index
        have hnext : midpoint low high < hashes.length - 1 :=
          index_lt_of_lt hsorted hget hlast (lt_of_lt_of_le hlt hle)
        apply ih _ (by omega)
        refine ⟨by omega, hinv.high_le, fun i a ha hi => ?_, hinv.above⟩
        rcases Nat.lt_or_eq_of_le (Nat.lt_succ_iff.mp (hlow' ▸ hi)) with hi | rfl
        · exact lt_trans (lt_of_index_lt hsorted ha hget hi) hlt
        · rw [hget, Option.some.injEq] at ha
          exact ha ▸ hlt
      · -- the first hash is not larger, so the upper bound does not wrap
        have hprev : 0 < midpoint low high :=
          index_lt_of_lt hsorted hfirst hget (lt_of_le_of_lt hge hgt)
        have hwrap : high'.toNat = midpoint low high - 1 := by
          rw [hhigh']
          have := high.toNat_lt
          omega
        rw [hstep]
        apply ih _ (by omega)
        refine ⟨hinv.low_lt, by omega, hinv.below, fun i a ha hi => ?_⟩
        rcases Nat.lt_or_eq_of_le (show midpoint low high ≤ i by omega) with hi | rfl
        · exact lt_trans hgt (lt_of_index_lt hsorted hget ha hi)
        · rw [hget, Option.some.injEq] at ha
          exact ha ▸ hgt

/-! ## A hash outside the range of the bundle -/

/-- The search reads outside the array or goes on forever. -/
def Astray (result : Option (Except Fault (Option ℕ))) : Prop :=
  result = none ∨ ∃ text, result = some (.error (.undefinedBehaviour text))

/-- Above the last hash the lower bound climbs to the module count, where the
search reads past the array. -/
theorem search_above (habove : ∀ h ∈ hashes, h < hash) (hsmall : hashes.length < 2 ^ 16)
    (hlow : low.toNat ≤ hashes.length) (hhigh : high.toNat = hashes.length) :
    Astray (search hashes hash rounds low high) := by
  induction rounds generalizing low with
  | zero => exact .inl rfl
  | succ rounds ih =>
    unfold search
    rcases searchStep_cases hashes hash low high with
      ⟨hstop, _⟩ | ⟨_, _, hstep⟩ | ⟨h, hlh, hget, hcase⟩
    · rw [UInt16.le_iff_toNat_le] at hstop
      omega
    · rw [hstep]
      exact .inr ⟨_, rfl⟩
    · have hlt := habove h (List.mem_of_getElem? hget)
      have hmid : midpoint low high < hashes.length := (List.getElem?_eq_some_iff.mp hget).1
      rcases hcase with ⟨rfl, _⟩ | ⟨_, low', hlow', hstep⟩ | ⟨hgt, _⟩
      · exact absurd hlt (lt_irrefl _)
      · rw [Nat.mod_eq_of_lt (by omega)] at hlow'
        rw [hstep]
        exact ih (by omega)
      · exact absurd hgt (lt_asymm hlt)

/-- Below the first hash the lower bound stays zero, so the bounds never cross. -/
theorem search_below (hbelow : ∀ h ∈ hashes, hash < h) :
    Astray (search hashes hash rounds 0 high) := by
  induction rounds generalizing high with
  | zero => exact .inl rfl
  | succ rounds ih =>
    unfold search
    rcases searchStep_cases hashes hash 0 high with
      ⟨hstop, _⟩ | ⟨_, _, hstep⟩ | ⟨h, _, hget, hcase⟩
    · exact absurd (UInt16.le_iff_toNat_le.mpr (Nat.zero_le _)) hstop
    · rw [hstep]
      exact .inr ⟨_, rfl⟩
    · have hgt := hbelow h (List.mem_of_getElem? hget)
      rcases hcase with ⟨rfl, _⟩ | ⟨hlt, _⟩ | ⟨_, high', _, hstep⟩
      · exact absurd hgt (lt_irrefl _)
      · exact absurd hlt (lt_asymm hgt)
      · rw [hstep]
        exact ih

/-! ## The lookup -/

theorem JSBundle.hashes_length (bundle : JSBundle) :
    bundle.hashes.length = bundle.moduleCount.toNat := by
  rw [JSBundle.hashes, List.length_map, bundle.count_eq]

/-- A hash that the bundle does not span is smaller than all its hashes or
larger than all of them. -/
theorem JSBundle.not_spans {bundle : JSBundle} (hsorted : bundle.hashes.Pairwise (· < ·))
    (h : ¬ bundle.Spans hash) :
    (∀ a ∈ bundle.hashes, a < hash) ∨ (∀ a ∈ bundle.hashes, hash < a) := by
  by_cases hempty : bundle.hashes = []
  · rw [hempty]
    exact .inl (List.forall_mem_nil _)
  · have hfirst := List.head?_eq_some_head hempty
    have hlast := List.getLast?_eq_some_getLast hempty
    by_cases hge : bundle.hashes.head hempty ≤ hash
    · refine .inl fun a ha => ?_
      have hnot : ¬ hash ≤ bundle.hashes.getLast hempty := fun hle =>
        h ⟨_, _, hfirst, hlast, hge, hle⟩
      refine lt_of_le_of_lt ?_ (not_le.mp hnot)
      exact List.Pairwise.rel_getLast (hsorted.imp le_of_lt) ha
    · refine .inr fun a ha => lt_of_lt_of_le (not_le.mp hge) ?_
      exact List.Pairwise.rel_head (hsorted.imp le_of_lt) ha

theorem lookupModule_ne_undefinedBehaviour (bundle : JSBundle) (nativeModules : List JSModule)
    (hash : UInt64) (text : String) :
    lookupModule bundle nativeModules hash ≠ .error (.undefinedBehaviour text) ∧
      lookupModule bundle nativeModules hash ≠ .error .divergence := by
  unfold lookupModule
  cases bundle.modules.findIdx? (·.header.hash = hash) with
  | some i => simp
  | none => cases nativeModules.findIdx? (·.header.hash = hash) <;> simp

/-- The index that the linear search of the definition finds. -/
theorem JSBundle.findIdx?_of_hash {bundle : JSBundle} (hsorted : bundle.hashes.Pairwise (· < ·))
    {i : ℕ} (h : bundle.hashes[i]? = some hash) :
    bundle.modules.findIdx? (·.header.hash = hash) = some i := by
  rw [JSBundle.hashes, List.getElem?_map, Option.map_eq_some_iff] at h
  obtain ⟨m, hm, hhash⟩ := h
  obtain ⟨hi, rfl⟩ := List.getElem?_eq_some_iff.mp hm
  rw [List.findIdx?_eq_some_iff_getElem]
  refine ⟨hi, by simpa using hhash, fun j hj => ?_⟩
  have hlt : bundle.modules[j].header.hash < bundle.modules[i].header.hash := by
    apply lt_of_index_lt hsorted _ _ hj <;>
      simp [JSBundle.hashes, hi, Nat.lt_trans hj hi]
  rw [hhash] at hlt
  simpa using ne_of_lt hlt

/-- Where the bundle spans the hash, the lookup does what it is for. -/
theorem bundleGetModule_of_spans {bundle : JSBundle} (nativeModules : List JSModule)
    (hsorted : bundle.hashes.Pairwise (· < ·)) (hspans : bundle.Spans hash) :
    bundleGetModule (some bundle) nativeModules hash = lookupModule bundle nativeModules hash := by
  have hlength := bundle.hashes_length
  have hsmall : bundle.hashes.length < 2 ^ 16 := hlength ▸ bundle.moduleCount.toNat_lt
  obtain ⟨first, last, hfirst, hlast, hge, hle⟩ := hspans
  rw [List.head?_eq_getElem?] at hfirst
  rw [List.getLast?_eq_getElem?] at hlast
  have hpos : 0 < bundle.hashes.length := (List.getElem?_eq_some_iff.mp hfirst).1
  have hinv : Narrowed bundle.hashes hash 0 bundle.moduleCount := by
    refine ⟨hpos, hlength.ge, fun i _ _ hi => absurd hi (Nat.not_lt_zero i),
      fun i a ha hi => ?_⟩
    have := (List.getElem?_eq_some_iff.mp ha).1
    omega
  have hrounds : bundle.moduleCount.toNat + 1 - (0 : UInt16).toNat < 2 ^ 32 + 1 := by
    have := bundle.moduleCount.toNat_lt
    omega
  rcases search_of_narrowed hsorted hfirst hlast hge hle hsmall hinv hrounds with
    ⟨i, hi, hfound⟩ | ⟨habsent, hfound⟩
  · rw [bundleGetModule, ← JSBundle.hashes, hfound, lookupModule,
      JSBundle.findIdx?_of_hash hsorted hi]
    rfl
  · have hnone : bundle.modules.findIdx? (·.header.hash = hash) = none := by
      rw [List.findIdx?_eq_none_iff]
      intro m hm
      have hne : m.header.hash ≠ hash := fun h => habsent (h ▸ List.mem_map_of_mem hm)
      simpa using hne
    rw [bundleGetModule, ← JSBundle.hashes, hfound, lookupModule, hnone]
    rfl

/-- **The module lookup.**  In a bundle whose hashes ascend, the lookup does what
it is for exactly when the hash lies between the first and the last hash. -/
theorem bundleGetModule_eq_iff (bundle : JSBundle) (nativeModules : List JSModule) (hash : UInt64)
    (hsorted : bundle.hashes.Pairwise (· < ·)) :
    bundleGetModule (some bundle) nativeModules hash = lookupModule bundle nativeModules hash ↔
      bundle.Spans hash := by
  have hlength := bundle.hashes_length
  have hsmall : bundle.hashes.length < 2 ^ 16 := hlength ▸ bundle.moduleCount.toNat_lt
  constructor
  · intro heq
    by_contra hspans
    have hastray : Astray (search bundle.hashes hash (2 ^ 32 + 1) 0 bundle.moduleCount) := by
      rcases JSBundle.not_spans hsorted hspans with habove | hbelow
      · exact search_above habove hsmall (Nat.zero_le _) hlength.symm
      · exact search_below hbelow
    rcases hastray with hnone | ⟨text, herror⟩
    · rw [bundleGetModule, ← JSBundle.hashes, hnone] at heq
      exact (lookupModule_ne_undefinedBehaviour bundle nativeModules hash "").2 heq.symm
    · rw [bundleGetModule, ← JSBundle.hashes, herror] at heq
      exact (lookupModule_ne_undefinedBehaviour bundle nativeModules hash text).1 heq.symm
  · exact bundleGetModule_of_spans nativeModules hsorted

/-- A module that has a hash and nothing else. -/
def JSModule.ofHash (hash : UInt64) : JSModule :=
  { JSModule.ofCode [] [] no_strings_lt no_code_lt with
    header := { magic := [0x2E, 0x41, 0x78, 0x4D], version := 2, hash, stringTable := 22,
                dataSection := 30 } }

/-- A bundle with one module, of hash 5. -/
def oneModule : JSBundle where
  magic := [0x2E, 0x41, 0x78, 0x42]
  version := 1
  entryPoint := 5
  moduleCount := 1
  modules := [JSModule.ofHash 5]
  count_eq := rfl

theorem bundleGetModule_eq_iff_five :
    bundleGetModule (some oneModule) [] 5 = lookupModule oneModule [] 5 :=
  (bundleGetModule_eq_iff oneModule [] 5 (List.pairwise_singleton _ _)).mpr
    ⟨5, 5, rfl, rfl, le_refl 5, le_refl 5⟩

/-- A native module with a larger hash is registered, but the search reads past
the bundle before the native modules are looked at. -/
theorem bundleGetModule_native_nine :
    oneModule.hashes.Pairwise (· < ·) ∧
      lookupModule oneModule [JSModule.ofHash 9] 9 = .ok (.native 0) ∧
      bundleGetModule (some oneModule) [JSModule.ofHash 9] 9 =
        .error (.undefinedBehaviour "module read outside the bundle") :=
  ⟨List.pairwise_singleton _ _, rfl, rfl⟩

end AtomixJS
