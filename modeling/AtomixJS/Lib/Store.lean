import AtomixJS.Lib.Chain

/-!
# Stores with inheritance

The contents of a store say which value a place has under a key, if any.  Along a
chain of places, the nearest one with a value decides: the others are shadowed.

A log of writes leaves at each place and key the value of the last write there,
and what was there before where the log does not write (`contents_after`).

In a forest every place is made below an earlier one or as a root.  So the way up
from a place comes to an end, and what is inherited there is well defined.
-/

namespace Store

variable {ρ κ ν : Type*}

abbrev Contents (ρ κ ν : Type*) := ρ → κ → Option ν

/-- A value that is written under a key of a place. -/
structure Entry (ρ κ ν : Type*) where
  place : ρ
  key : κ
  value : ν

/-- The value that the first place of a chain has or inherits. -/
def inherited (contents : Contents ρ κ ν) (chain : List ρ) (k : κ) : Option ν :=
  chain.findSome? (contents · k)

variable {contents : Contents ρ κ ν} {chain : List ρ} {k : κ}

/-- The search for the nearest place that has a value finds it. -/
theorem inherited_of_find? {r : ρ} (hfind : chain.find? (fun r => (contents r k).isSome) = some r) :
    inherited contents chain k = contents r k := by
  unfold inherited
  induction chain with
  | nil => cases hfind
  | cons s chain ih =>
      rw [List.find?_cons] at hfind
      rw [List.findSome?_cons]
      cases hs : contents s k with
      | some v =>
          rw [hs] at hfind
          obtain rfl : s = r := by simpa using hfind
          exact hs.symm
      | none =>
          rw [hs] at hfind
          exact ih (by simpa using hfind)

/-! ## Shapes -/

/-- The places of a chain have values under these keys only. -/
def Fits (contents : Contents ρ κ ν) (chain : List ρ) (shape : List (Set κ)) : Prop :=
  List.Forall₂ (fun r keys => ∀ k, (contents r k).isSome → k ∈ keys) chain shape

/-- A chain that cannot have a key is looked through. -/
theorem Fits.inherited_append {shape : List (Set κ)} (h : Fits contents chain shape)
    (hk : ∀ keys ∈ shape, k ∉ keys) (rest : List ρ) :
    inherited contents (chain ++ rest) k = inherited contents rest k := by
  induction h with
  | nil => rfl
  | @cons r keys chain shape hr _ ih =>
    have hnone : contents r k = none := by
      rw [Option.eq_none_iff_forall_not_mem]
      exact fun v hv => hk keys List.mem_cons_self (hr k (Option.isSome_of_mem hv))
    rw [← ih fun keys' hkeys' => hk keys' (List.mem_cons_of_mem _ hkeys')]
    unfold inherited
    rw [List.cons_append, List.findSome?_cons, hnone]

theorem fits_range' {shape : List (Set κ)} {contents : Contents ℕ κ ν} {start : ℕ}
    (h : ∀ i keys, shape[i]? = some keys → ∀ k, (contents (start + i) k).isSome → k ∈ keys) :
    Fits contents (List.range' start shape.length) shape := by
  induction shape generalizing start with
  | nil => exact .nil
  | cons keys shape ih =>
    rw [List.length_cons, List.range'_succ]
    refine .cons (h 0 keys rfl) (ih fun i keys' hkeys' => ?_)
    have hnext := h (i + 1) keys' hkeys'
    rwa [Nat.add_comm i 1, ← Nat.add_assoc] at hnext

/-! ## Writes -/

section Writes

variable [DecidableEq ρ] [DecidableEq κ] {entry : Entry ρ κ ν}

def write (contents : Contents ρ κ ν) (entry : Entry ρ κ ν) : Contents ρ κ ν :=
  fun r k => if r = entry.place ∧ k = entry.key then some entry.value else contents r k

/-- The value of the last write at a place and key. -/
def lastWrite (log : List (Entry ρ κ ν)) (r : ρ) (k : κ) : Option ν :=
  (log.reverse.find? fun entry => r = entry.place ∧ k = entry.key).map Entry.value

theorem contents_after (log : List (Entry ρ κ ν)) (contents : Contents ρ κ ν) (r : ρ) (k : κ) :
    log.foldl write contents r k = (lastWrite log r k).or (contents r k) := by
  induction log using List.reverseRecOn with
  | nil => rfl
  | append_singleton log entry ih =>
      unfold lastWrite at ih ⊢
      rw [List.foldl_append, List.foldl_cons, List.foldl_nil, List.reverse_append,
        List.reverse_singleton, List.singleton_append, List.find?_cons, write]
      by_cases hhere : r = entry.place ∧ k = entry.key
      · simp [hhere]
      · simpa [hhere] using ih

/-- A write under one key changes nothing under another. -/
theorem inherited_write_of_key_ne (hne : k ≠ entry.key) (chain : List ρ) :
    inherited (write contents entry) chain k = inherited contents chain k := by
  unfold inherited write
  simp only [hne, and_false, if_false]

/-- A write at a place off the chain changes nothing on it. -/
theorem inherited_write_of_not_mem (hnot : entry.place ∉ chain) (k : κ) :
    inherited (write contents entry) chain k = inherited contents chain k := by
  unfold inherited
  induction chain with
  | nil => rfl
  | cons r chain ih =>
      have hr : r ≠ entry.place := fun heq => hnot (heq ▸ List.mem_cons_self)
      have hsame : write contents entry r k = contents r k := by
        unfold write
        rw [if_neg fun h => hr h.1]
      rw [List.findSome?_cons, List.findSome?_cons, hsame,
        ih fun hmem => hnot (List.mem_cons_of_mem _ hmem)]

end Writes

/-! ## Forests -/

/-- Places with their parents and their contents. -/
structure Forest (κ ν : Type*) where
  parents : List (Option ℕ)
  contents : Contents ℕ κ ν
  parent_lt : ∀ i p : ℕ, parents[i]? = some (some p) → p < i

namespace Forest

variable {forest : Forest κ ν} {i : ℕ} {path : List ℕ} {v : ν}

def empty (κ ν : Type*) : Forest κ ν where
  parents := []
  contents := fun _ _ => none
  parent_lt _ _ h := by simp at h

/-- A parent of a new place is a place that is there. -/
def Plantable (forest : Forest κ ν) (parent : Option ℕ) : Prop :=
  ∀ p, parent = some p → p < forest.parents.length

/-- A new place, without contents. -/
def plant (forest : Forest κ ν) (parent : Option ℕ) (h : forest.Plantable parent) :
    Forest κ ν where
  parents := forest.parents ++ [parent]
  contents := fun i k => if i = forest.parents.length then none else forest.contents i k
  parent_lt i p hp := by
    rcases Nat.lt_trichotomy i forest.parents.length with hlt | rfl | hgt
    · rw [List.getElem?_append_left hlt] at hp
      exact forest.parent_lt i p hp
    · rw [List.getElem?_concat_length] at hp
      exact h p (Option.some.inj hp)
    · rw [List.getElem?_eq_none (by simpa using hgt)] at hp
      cases hp

/-- A value is written at one place. -/
def write [DecidableEq κ] (forest : Forest κ ν) (entry : Entry ℕ κ ν) : Forest κ ν :=
  { forest with contents := Store.write forest.contents entry }

/-- The way up from a place. -/
def Path (forest : Forest κ ν) (i : ℕ) (path : List ℕ) : Prop :=
  Chain.Linked forest.parents (fun _ parent => parent) i path

theorem exists_path (h : i < forest.parents.length) : ∃ path, forest.Path i path := by
  induction i using Nat.strong_induction_on with
  | _ i ih =>
    have hnode := List.getElem?_eq_getElem h
    cases hparent : forest.parents[i] with
    | none => exact ⟨[i], .last (hnode.trans (congrArg some hparent)) rfl⟩
    | some p =>
      rw [hparent] at hnode
      have hlt := forest.parent_lt i p hnode
      obtain ⟨path, hpath⟩ := ih p hlt (Nat.lt_trans hlt h)
      exact ⟨i :: path, .next hnode rfl hpath⟩

/-- The nearest place on a way that has a value. -/
def nearest (forest : Forest κ ν) (path : List ℕ) (k : κ) : Option ℕ :=
  path.find? fun i => (forest.contents i k).isSome

/-- What a place has or inherits is at the nearest place with a value. -/
theorem inherited_eq (path : List ℕ) (k : κ) :
    inherited forest.contents path k = (forest.nearest path k).bind (forest.contents · k) := by
  cases hnearest : forest.nearest path k with
  | none =>
    rw [nearest, List.find?_eq_none] at hnearest
    rw [Option.bind_none, inherited, List.findSome?_eq_none_iff]
    intro i hi
    simpa using hnearest i hi
  | some i => exact inherited_of_find? hnearest

end Forest

end Store
