import Mathlib

/-!
# Runs of a deterministic machine

A machine is given by its step function `step : σ → Option σ`, where `none`
means that the machine has stopped.  Everything here is about `iterate step n`,
the state after exactly `n` steps, and about `Reaches`, which forgets how many
there were.  Nothing in this file knows what the states are.

The rules are used in three ways:

* `Reaches.trans`, `Reaches.head` and `iterate_add` chain runs together;
* `Reaches.invariant` is the induction principle for safety properties;
* `iterate_split` and `Reaches.of_stopped` exploit determinism: a run that goes
  on past a state passes through it, so two descriptions of one run agree.
-/

namespace Run

variable {σ : Type*} {step : σ → Option σ}

/-- The state after exactly `n` steps, if the machine does not stop before. -/
def iterate (step : σ → Option σ) : ℕ → σ → Option σ
  | 0, s => some s
  | n + 1, s => (step s).bind (iterate step n)

/-- `t` is reached from `s` in some number of steps. -/
def Reaches (step : σ → Option σ) (s t : σ) : Prop :=
  ∃ n, iterate step n s = some t

@[simp] theorem iterate_zero (s : σ) : iterate step 0 s = some s := rfl

theorem iterate_succ (n : ℕ) (s : σ) :
    iterate step (n + 1) s = (step s).bind (iterate step n) := rfl

theorem iterate_succ_of_step {s t : σ} (h : step s = some t) (n : ℕ) :
    iterate step (n + 1) s = iterate step n t := by
  rw [iterate_succ, h, Option.bind_some]

theorem iterate_add (m n : ℕ) (s : σ) :
    iterate step (m + n) s = (iterate step m s).bind (iterate step n) := by
  induction m generalizing s with
  | zero => simp
  | succ m ih =>
      rw [Nat.succ_add, iterate_succ, iterate_succ]
      cases step s with
      | none => rfl
      | some t => exact ih t

/-- A run of length `n` passes through the state it is in after `m ≤ n` steps. -/
theorem iterate_split {m n : ℕ} {s t u : σ} (hm : iterate step m s = some t)
    (hn : iterate step n s = some u) (hle : m ≤ n) : iterate step (n - m) t = some u := by
  have hsum : m + (n - m) = n := Nat.add_sub_cancel' hle
  rw [← hsum, iterate_add, hm] at hn
  simpa using hn

theorem iterate_of_le {m n : ℕ} {s u : σ} (hn : iterate step n s = some u) (hle : m ≤ n) :
    ∃ t, iterate step m s = some t := by
  have hsum : m + (n - m) = n := Nat.add_sub_cancel' hle
  rw [← hsum, iterate_add] at hn
  cases hm : iterate step m s with
  | none => rw [hm] at hn; cases hn
  | some t => exact ⟨t, rfl⟩

/-! ## Reachability -/

namespace Reaches

theorem refl (s : σ) : Reaches step s s := ⟨0, rfl⟩

theorem single {s t : σ} (h : step s = some t) : Reaches step s t :=
  ⟨1, by rw [iterate_succ_of_step h, iterate_zero]⟩

theorem trans {s t u : σ} (hst : Reaches step s t) (htu : Reaches step t u) :
    Reaches step s u := by
  obtain ⟨m, hm⟩ := hst
  obtain ⟨n, hn⟩ := htu
  exact ⟨m + n, by rw [iterate_add, hm, Option.bind_some, hn]⟩

theorem head {s t u : σ} (h : step s = some t) (htu : Reaches step t u) : Reaches step s u :=
  (single h).trans htu

/-- The induction rule for safety: what holds at the start and is kept by
every step holds in every state reached. -/
theorem invariant {I : σ → Prop} (hstep : ∀ s t, I s → step s = some t → I t) {s t : σ}
    (hs : I s) (h : Reaches step s t) : I t := by
  obtain ⟨n, hn⟩ := h
  induction n generalizing s with
  | zero =>
      rw [iterate_zero, Option.some.injEq] at hn
      exact hn ▸ hs
  | succ n ih =>
      cases hnext : step s with
      | none => rw [iterate_succ, hnext] at hn; cases hn
      | some u =>
          rw [iterate_succ_of_step hnext] at hn
          exact ih (hstep s u hs hnext) hn

/-- A state in which the machine has stopped is the only one reached from itself. -/
theorem of_stopped {s t : σ} (hs : step s = none) (h : Reaches step s t) : t = s := by
  obtain ⟨n, hn⟩ := h
  cases n with
  | zero => simpa using hn.symm
  | succ n => rw [iterate_succ, hs] at hn; cases hn

end Reaches

/-! ## Runs through given states -/

/-- `n` steps lead from one state to another, and every state before the last
one satisfies `P`. -/
inductive Through (step : σ → Option σ) (P : σ → Prop) : ℕ → σ → σ → Prop
  | refl (s : σ) : Through step P 0 s s
  | head {n : ℕ} {s t u : σ} : P s → step s = some t → Through step P n t u →
      Through step P (n + 1) s u

variable {P Q : σ → Prop} {m n : ℕ} {s t u : σ}

theorem Through.single (hP : P s) (h : step s = some t) : Through step P 1 s t :=
  .head hP h (.refl t)

theorem Through.of_one (h : Through step P 1 s t) : P s ∧ step s = some t := by
  cases h with
  | head hP hstep hrest =>
      cases hrest with
      | refl => exact ⟨hP, hstep⟩

theorem Through.trans (h : Through step P m s t) (h' : Through step P n t u) :
    Through step P (m + n) s u := by
  induction h with
  | refl => rwa [Nat.zero_add]
  | head hP hstep _ ih =>
      rw [Nat.succ_add]
      exact .head hP hstep (ih h')

theorem Through.mono (hPQ : ∀ s, P s → Q s) (h : Through step P n s t) : Through step Q n s t := by
  induction h with
  | refl => exact .refl _
  | head hP hstep _ ih => exact .head (hPQ _ hP) hstep ih

theorem Through.iterate (h : Through step P n s t) : iterate step n s = some t := by
  induction h with
  | refl => rfl
  | head _ hstep _ ih => rw [iterate_succ_of_step hstep, ih]

theorem Through.inside (h : Through step P n s t) (hm : m < n) :
    ∃ u, Run.iterate step m s = some u ∧ P u := by
  induction h generalizing m with
  | refl => exact absurd hm (Nat.not_lt_zero m)
  | @head n s t u hP hstep _ ih =>
      cases m with
      | zero => exact ⟨s, rfl, hP⟩
      | succ m =>
          obtain ⟨v, hv, hPv⟩ := ih (Nat.lt_of_succ_lt_succ hm)
          exact ⟨v, by rw [iterate_succ_of_step hstep, hv], hPv⟩

/-- The induction rule for runs whose states are known to satisfy `P`. -/
theorem Through.invariant {I : σ → Prop} (hstep : ∀ s t, P s → I s → step s = some t → I t)
    (hs : I s) (h : Through step P n s t) : I t := by
  induction h with
  | refl => exact hs
  | head hP hnext _ ih => exact ih (hstep _ _ hP hs hnext)

/-- Two runs that leave the given states end in the same one. -/
theorem Through.unique (h : Through step P m s t) (h' : Through step P n s u) (ht : ¬ P t)
    (hu : ¬ P u) : t = u := by
  induction h generalizing n with
  | refl =>
      cases h' with
      | refl => rfl
      | head hP => exact absurd hP ht
  | head hP hstep _ ih =>
      cases h' with
      | refl => exact absurd hP hu
      | head _ hstep' hrest =>
          obtain rfl := Option.some.inj (hstep.symm.trans hstep')
          exact ih hrest ht

end Run
