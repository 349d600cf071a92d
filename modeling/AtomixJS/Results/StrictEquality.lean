import AtomixJS.Core.Numbers

/-!
# Strict equality

`TEQ` and `NTEQ` are two copies of one cascade, which the model has in `tripleEquals`.  It
tells values of different types apart and compares numbers, objects and functions; for two
strings, two booleans or two symbols it runs into the panic at its end.
-/

namespace AtomixJS

open Binary64 (Extended)

/-- Numbers are equal by their value, NaN to nothing; strings by their content; objects,
functions and symbols by identity. -/
inductive StrictlyEqual : JSValue → JSValue → Prop
  | number {l r : JSValue} {q : Extended} : l.number? = some q → r.number? = some q →
      StrictlyEqual l r
  | string (chars : CString) : StrictlyEqual (.string chars) (.string chars)
  | boolean (b : Bool) : StrictlyEqual (.boolean b) (.boolean b)
  | null : StrictlyEqual .null .null
  | undefined : StrictlyEqual .undefined .undefined
  | object (ref : ObjectRef) : StrictlyEqual (.object ref) (.object ref)
  | func (ref : FunctionRef) : StrictlyEqual (.func ref) (.func ref)
  | symbol (ref : ObjectRef) : StrictlyEqual (.symbol ref) (.symbol ref)

/-- `TEQ` leaves whether two values are strictly equal, and `NTEQ` leaves the negation. -/
def DecidesEquality (address : JSValue → CInt) (l r : JSValue) : Prop :=
  ∃ b : Bool, (b = true ↔ StrictlyEqual l r) ∧
    Leaves (instBinary address .teq) [r, l] (· = .boolean b) ∧
    Leaves (instBinary address .nteq) [r, l] (· = .boolean !b)

/-- The types whose values the cascade does not compare. -/
def Uncompared : JSValue → JSValue → Prop
  | .string _, .string _ | .boolean _, .boolean _ | .symbol _, .symbol _
  | .gsBox _ _, .gsBox _ _ => True
  | _, _ => False

variable {address : JSValue → CInt} {l r : JSValue} {x y : Binary64} {i j : CInt}

/-! ## Numbers -/

theorem eq_iff_number? : x.eq y = true ↔
    ∃ q, (JSValue.double x).number? = some q ∧ (JSValue.double y).number? = some q := by
  rw [Binary64.eq_iff, JSValue.number?, JSValue.number?]
  cases hx : x.isNaN with
  | true => simp
  | false =>
    cases hy : y.isNaN with
    | true => simp
    | false => simp [eq_comm]

theorem strictlyEqual_number (hl : l.isNumber = true) :
    StrictlyEqual l r ↔ ∃ q, l.number? = some q ∧ r.number? = some q := by
  constructor
  · intro h
    cases h with
    | number hleft hright => exact ⟨_, hleft, hright⟩
    | _ => cases hl
  · rintro ⟨q, hleft, hright⟩
    exact .number hleft hright

/-! ## The cascade -/

theorem tripleEquals_doubles : x.eq y = true ↔ StrictlyEqual (.double x) (.double y) := by
  rw [strictlyEqual_number rfl]
  exact eq_iff_number?

theorem tripleEquals_integers : decide (i = j) = true ↔ StrictlyEqual (.integer i) (.integer j) := by
  rw [strictlyEqual_number rfl, decide_eq_true_iff, ← BitVec.toInt_inj]
  constructor
  · intro h
    exact ⟨_, rfl, by rw [JSValue.number?, h]⟩
  · rintro ⟨q, hi, hj⟩
    exact (number?_eq_ofInt.mp (hj.trans hi.symm)).symm

theorem tripleEquals_eq (h : ¬ Uncompared l r) :
    ∃ b, tripleEquals l r = .ok b ∧ (b = true ↔ StrictlyEqual l r) := by
  -- values of different types
  have hdiffer : ∀ {l r : JSValue}, (l.number? = none ∨ r.number? = none) →
      (∀ v, ¬ (l = v ∧ r = v)) → (false = true ↔ StrictlyEqual l r) := by
    intro l r hnumber hne
    refine iff_of_false Bool.false_ne_true fun h => ?_
    cases h with
    | number hleft hright =>
      rcases hnumber with h | h
      · cases h.symm.trans hleft
      · cases h.symm.trans hright
    | _ => exact hne _ ⟨rfl, rfl⟩
  cases l with
  | integer i =>
    cases r with
    | integer j => exact ⟨_, rfl, tripleEquals_integers⟩
    | double y =>
      refine ⟨_, rfl, ?_⟩
      rw [strictlyEqual_number rfl, number?_integer_eq]
      exact eq_iff_number?
    | _ => exact ⟨false, rfl, hdiffer (.inr rfl) (by rintro v ⟨rfl, h⟩; cases h)⟩
  | double x =>
    cases r with
    | integer j =>
      refine ⟨_, rfl, ?_⟩
      rw [strictlyEqual_number rfl, number?_integer_eq]
      exact eq_iff_number?
    | double y => exact ⟨_, rfl, tripleEquals_doubles⟩
    | _ => exact ⟨false, rfl, hdiffer (.inr rfl) (by rintro v ⟨rfl, h⟩; cases h)⟩
  | string chars =>
    cases r with
    | string chars' => exact absurd trivial h
    | _ => exact ⟨false, rfl, hdiffer (.inl rfl) (by rintro v ⟨rfl, h⟩; cases h)⟩
  | object ref =>
    cases r with
    | object ref' =>
      refine ⟨_, rfl, decide_eq_true_iff.trans ⟨?_, ?_⟩⟩
      · rintro rfl
        exact .object ref
      · intro h
        cases h with
        | number hleft => cases hleft
        | object => rfl
    | _ => exact ⟨false, rfl, hdiffer (.inl rfl) (by rintro v ⟨rfl, h⟩; cases h)⟩
  | func ref =>
    cases r with
    | func ref' =>
      refine ⟨_, rfl, decide_eq_true_iff.trans ⟨?_, ?_⟩⟩
      · rintro rfl
        exact .func ref
      · intro h
        cases h with
        | number hleft => cases hleft
        | func => rfl
    | _ => exact ⟨false, rfl, hdiffer (.inl rfl) (by rintro v ⟨rfl, h⟩; cases h)⟩
  | undefined =>
    cases r with
    | undefined => exact ⟨true, rfl, iff_of_true rfl .undefined⟩
    | _ => exact ⟨false, rfl, hdiffer (.inl rfl) (by rintro v ⟨rfl, h⟩; cases h)⟩
  | null =>
    cases r with
    | null => exact ⟨true, rfl, iff_of_true rfl .null⟩
    | _ => exact ⟨false, rfl, hdiffer (.inl rfl) (by rintro v ⟨rfl, h⟩; cases h)⟩
  | boolean b =>
    cases r with
    | boolean b' => exact absurd trivial h
    | _ => exact ⟨false, rfl, hdiffer (.inl rfl) (by rintro v ⟨rfl, h⟩; cases h)⟩
  | symbol ref =>
    cases r with
    | symbol ref' => exact absurd trivial h
    | _ => exact ⟨false, rfl, hdiffer (.inl rfl) (by rintro v ⟨rfl, h⟩; cases h)⟩
  | gsBox getter setter =>
    cases r with
    | gsBox getter' setter' => exact absurd trivial h
    | _ => exact ⟨false, rfl, hdiffer (.inl rfl) (by rintro v ⟨rfl, h⟩; cases h)⟩

theorem tripleEquals_panics (h : Uncompared l r) :
    tripleEquals l r = .error (.panic "Unknown comparison") := by
  cases l <;> cases r <;> first | rfl | exact absurd h id

/-- **Strict equality.**  `TEQ` and `NTEQ` decide strict equality of two values if and only if
the values are not both strings, both booleans, both symbols or both accessor boxes. -/
theorem strictEquality_iff (address : JSValue → CInt) (l r : JSValue) :
    DecidesEquality address l r ↔ ¬ Uncompared l r := by
  have hteq : ∀ {P}, Leaves (instBinary address .teq) [r, l] P ↔
      ∃ v, teqValue l r = .ok v ∧ P v := leaves_binary.trans (and_iff_right rfl)
  have hnteq : ∀ {P}, Leaves (instBinary address .nteq) [r, l] P ↔
      ∃ v, nteqValue l r = .ok v ∧ P v := leaves_binary.trans (and_iff_right rfl)
  constructor
  · rintro ⟨b, -, hleaves, -⟩ huncompared
    obtain ⟨v, hv, -⟩ := hteq.mp hleaves
    rw [teqValue, tripleEquals_panics huncompared] at hv
    cases hv
  · intro hcompared
    obtain ⟨b, hb, hequal⟩ := tripleEquals_eq hcompared
    refine ⟨b, hequal, hteq.mpr ⟨_, ?_, rfl⟩, hnteq.mpr ⟨_, ?_, rfl⟩⟩
    · rw [teqValue, hb]
      rfl
    · rw [nteqValue, hb]
      rfl

/-- `"a" === "a"` panics. -/
theorem strictEquality_strings :
    ¬ ∀ (address : JSValue → CInt) (l r : JSValue), DecidesEquality address l r := by
  intro hclaim
  obtain ⟨b, -, hleaves, -⟩ := hclaim (fun _ => 0) (.string [97]) (.string [97])
  obtain ⟨-, v, hv, -⟩ := leaves_binary.mp hleaves
  cases hv

end AtomixJS
