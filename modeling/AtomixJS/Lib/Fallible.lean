import Mathlib

/-!
# Computations that may fail

Inversion rules for `Except`: what follows from a computation having returned.
They are simp lemmas, so that `simp only` with this set and a definition turns
`f x = .ok y` into the conditions under which `f` returns `y`.
-/

namespace Fallible

variable {ε α β : Type}

@[simp] theorem bind_eq_ok {x : Except ε α} {f : α → Except ε β} {b : β} :
    (x >>= f) = .ok b ↔ ∃ a, x = .ok a ∧ f a = .ok b := by
  cases x with
  | error e => simp [bind, Except.bind]
  | ok a => simp [bind, Except.bind]

@[simp] theorem ok_bind (a : α) (f : α → Except ε β) : (Except.ok a >>= f) = f a := rfl

@[simp] theorem error_bind (e : ε) (f : α → Except ε β) :
    ((Except.error e : Except ε α) >>= f) = .error e := rfl

@[simp] theorem pure_eq_ok {a b : α} : (pure a : Except ε α) = .ok b ↔ a = b := by
  simp [pure, Except.pure]

/-- A check that fails when the condition holds. -/
@[simp] theorem guard_eq_ok {c : Prop} [Decidable c] {e : ε} {x : Except ε α} {b : α} :
    (if c then .error e else x) = .ok b ↔ ¬ c ∧ x = .ok b := by
  split <;> simp_all

/-- A check that fails unless the condition holds. -/
@[simp] theorem require_eq_ok {c : Prop} [Decidable c] {e : ε} {x : Except ε α} {b : α} :
    (if c then x else .error e) = .ok b ↔ c ∧ x = .ok b := by
  split <;> simp_all

theorem eq_ok_of_toOption {x : Except ε α} {a : α} (h : x.toOption = some a) : x = .ok a := by
  cases x with
  | error e => cases h
  | ok b => exact congrArg Except.ok (Option.some.inj h)

theorem mapM_of_forall {f : α → Except ε β} {g : α → β} {items : List α}
    (h : ∀ x ∈ items, f x = .ok (g x)) : items.mapM f = .ok (items.map g) := by
  induction items with
  | nil => rfl
  | cons x items ih =>
    rw [List.mapM_cons, h x List.mem_cons_self, ih fun y hy => h y (List.mem_cons_of_mem x hy)]
    rfl

theorem ok_of_mapM_ok {f : α → Except ε β} {items : List α} {results : List β}
    (h : items.mapM f = .ok results) {x : α} (hx : x ∈ items) : ∃ y, f x = .ok y := by
  induction items generalizing results with
  | nil => exact absurd hx List.not_mem_nil
  | cons z items ih =>
    rw [List.mapM_cons] at h
    simp only [bind_eq_ok] at h
    obtain ⟨y, hy, ys, hys, _⟩ := h
    rcases List.mem_cons.mp hx with rfl | hx
    · exact ⟨y, hy⟩
    · exact ih hys hx

theorem error_of_mapM_error {f : α → Except ε β} {items : List α} {e : ε}
    (h : items.mapM f = .error e) : ∃ x ∈ items, f x = .error e := by
  induction items with
  | nil => cases h
  | cons x items ih =>
    rw [List.mapM_cons] at h
    cases hx : f x with
    | error e' =>
      rw [hx] at h
      obtain rfl := Except.error.inj h
      exact ⟨x, List.mem_cons_self, hx⟩
    | ok y =>
      rw [hx, ok_bind] at h
      cases hrest : items.mapM f with
      | error e' =>
        rw [hrest] at h
        obtain rfl := Except.error.inj h
        obtain ⟨x', hx', hfx'⟩ := ih hrest
        exact ⟨x', List.mem_cons_of_mem _ hx', hfx'⟩
      | ok ys =>
        rw [hrest] at h
        cases h

theorem mem_of_mapM_ok {f : α → Except ε β} {items : List α} {results : List β}
    (h : items.mapM f = .ok results) {y : β} (hy : y ∈ results) : ∃ x ∈ items, f x = .ok y := by
  induction items generalizing results with
  | nil =>
    obtain rfl := Except.ok.inj h
    exact absurd hy List.not_mem_nil
  | cons x items ih =>
    rw [List.mapM_cons] at h
    simp only [bind_eq_ok, pure_eq_ok] at h
    obtain ⟨z, hz, ys, hys, rfl⟩ := h
    rcases List.mem_cons.mp hy with rfl | hy
    · exact ⟨x, List.mem_cons_self, hz⟩
    · obtain ⟨x', hx', hfx'⟩ := ih hys hy
      exact ⟨x', List.mem_cons_of_mem _ hx', hfx'⟩

theorem eq_nil_of_mapM_ok {f : α → Except ε β} {items : List α} (h : items.mapM f = .ok []) :
    items = [] := by
  cases items with
  | nil => rfl
  | cons x items =>
    rw [List.mapM_cons] at h
    simp only [bind_eq_ok, pure_eq_ok] at h
    obtain ⟨_, _, _, _, hcons⟩ := h
    cases hcons

/-! ## Postconditions -/

/-- What is returned satisfies `post`, and an error is an allowed one. -/
def Ensures (allowed : ε → Prop) (post : α → Prop) : Except ε α → Prop
  | .ok a => post a
  | .error e => allowed e

section Ensures

variable {allowed : ε → Prop} {post post' : α → Prop} {postβ : β → Prop} {x : Except ε α}
  {f : α → Except ε β}

@[simp] theorem ensures_ok {a : α} : Ensures allowed post (.ok a) ↔ post a := Iff.rfl

@[simp] theorem ensures_error {e : ε} :
    Ensures allowed post (.error e : Except ε α) ↔ allowed e := Iff.rfl

@[simp] theorem ensures_pure {a : α} :
    Ensures allowed post (pure a : Except ε α) ↔ post a := Iff.rfl

theorem Ensures.mono (h : Ensures allowed post x) (himp : ∀ a, post a → post' a) :
    Ensures allowed post' x := by
  cases x with
  | ok a => exact himp a h
  | error e => exact h

/-- The rule for sequences. -/
theorem Ensures.bind (h : Ensures allowed post x)
    (hrest : ∀ a, post a → Ensures allowed postβ (f a)) : Ensures allowed postβ (x >>= f) := by
  cases x with
  | ok a => exact hrest a h
  | error e => exact h

/-- The first one of a sequence fails with an allowed error only. -/
theorem Ensures.of_bind (h : Ensures allowed postβ (x >>= f)) :
    Ensures allowed (fun _ => True) x := by
  cases x with
  | ok a => trivial
  | error e => exact h

/-- What is known of a computation from elsewhere may be used behind it. -/
theorem Ensures.and_eq (h : Ensures allowed post x) :
    Ensures allowed (fun a => post a ∧ x = .ok a) x := by
  cases x with
  | ok a => exact ⟨h, rfl⟩
  | error e => exact h

theorem Ensures.ite {c : Prop} [Decidable c] {y : Except ε α} (hthen : c → Ensures allowed post x)
    (helse : ¬ c → Ensures allowed post y) : Ensures allowed post (if c then x else y) := by
  split
  · next hc => exact hthen hc
  · next hc => exact helse hc

theorem Ensures.mapM {items : List β} {g : β → Except ε α}
    (h : ∀ item ∈ items, Ensures allowed post (g item)) :
    Ensures allowed (fun results => ∀ a ∈ results, post a) (items.mapM g) := by
  induction items with
  | nil => exact fun a ha => absurd ha List.not_mem_nil
  | cons item items ih =>
    rw [List.mapM_cons]
    refine (h item List.mem_cons_self).bind fun a ha => ?_
    refine (ih fun item hitem => h item (List.mem_cons_of_mem _ hitem)).bind fun results hresults => ?_
    intro b hb
    rcases List.mem_cons.mp hb with rfl | hb
    · exact ha
    · exact hresults b hb

end Ensures

/-! ## Repetition -/

variable {σ : Type} {step : σ → Except ε (α × σ)} {s s' s'' : σ}

/-- Run a step `n` times and collect what it returns. -/
def times (step : σ → Except ε (α × σ)) :
    (n : ℕ) → σ → Except ε ({ l : List α // l.length = n } × σ)
  | 0, s => .ok (⟨[], rfl⟩, s)
  | n + 1, s => do
    let (x, s) ← step s
    let (xs, s) ← times step n s
    pure (⟨x :: xs.1, congrArg (· + 1) xs.2⟩, s)

/-- The steps from `s` to `s'` return the elements of a list. -/
inductive Steps (step : σ → Except ε (α × σ)) : σ → List α → σ → Prop
  | nil {s : σ} : Steps step s [] s
  | cons {s s' s'' : σ} {x : α} {xs : List α} :
      step s = .ok (x, s') → Steps step s' xs s'' → Steps step s (x :: xs) s''

theorem times_of_steps {xs : List α} {n : ℕ} (h : Steps step s xs s') (hn : xs.length = n) :
    times step n s = .ok (⟨xs, hn⟩, s') := by
  subst hn
  induction h with
  | nil => rfl
  | cons hstep _ ih => simp [times, hstep, ih, bind, Except.bind, pure, Except.pure]

/-- What every step keeps of the state, and what holds of each element from when it is returned
on. -/
theorem times_invariant {I : σ → Prop} {P : α → σ → Prop}
    (hstep : ∀ s x s', I s → step s = .ok (x, s') → I s' ∧ P x s' ∧ ∀ y, P y s → P y s')
    {n : ℕ} {result : { l : List α // l.length = n } × σ} (hs : I s)
    (h : times step n s = .ok result) :
    I result.2 ∧ (∀ x ∈ result.1.1, P x result.2) ∧ ∀ y, P y s → P y result.2 := by
  induction n generalizing s with
  | zero =>
    obtain rfl := Except.ok.inj h
    exact ⟨hs, fun x hx => absurd hx List.not_mem_nil, fun _ hy => hy⟩
  | succ n ih =>
    simp only [times, bind_eq_ok, pure_eq_ok, Prod.exists] at h
    obtain ⟨x, s', hx, xs, s'', hrest, rfl⟩ := h
    obtain ⟨hs', hxs', hkeep⟩ := hstep s x s' hs hx
    obtain ⟨hs'', hall, hkeep'⟩ := ih hs' hrest
    refine ⟨hs'', fun y hy => ?_, fun y hy => hkeep' y (hkeep y hy)⟩
    rcases List.mem_cons.mp hy with rfl | hy
    · exact hkeep' y hxs'
    · exact hall y hy

/-- A second step that fails ends every longer repetition. -/
theorem times_of_second_error {x : α} {e : ε} {n : ℕ} (hfirst : step s = .ok (x, s'))
    (hsecond : step s' = .error e) (hn : 2 ≤ n) : times step n s = .error e := by
  obtain ⟨k, rfl⟩ := Nat.exists_eq_add_of_le' hn
  simp [times, hfirst, hsecond]

end Fallible
