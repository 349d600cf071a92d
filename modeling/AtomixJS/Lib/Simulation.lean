import AtomixJS.Lib.Run

/-!
# Simulating a computation by a machine

A computation with loops comes to a result, gets stuck, or runs out of the fuel
that bounds the rounds of its loops.  `Simulates step P k s o R` says what a
machine in state `s` makes of it: if the computation comes to `a`, the machine
comes to a state related to `a`; if it runs out of fuel, the machine has made at
least `k` steps and is still at work; if it gets stuck, nothing is said.  All
states on the way satisfy `P`.

The rules follow the structure of the computation: `pure`, `head`, `bind`, and
for loops `loop`, whose rounds take at least one step each, so that a loop whose
fuel runs out for every amount of it keeps the machine busy for ever
(`Simulates.runs_on`).
-/

namespace Simulation

open Run (Through)

/-- What a computation comes to. -/
inductive Outcome (α : Type)
  | ok (a : α)
  | stuck
  | timeout
  deriving DecidableEq

namespace Outcome

variable {α β : Type}

protected def bind : Outcome α → (α → Outcome β) → Outcome β
  | ok a, f => f a
  | stuck, _ => stuck
  | timeout, _ => timeout

instance : Monad Outcome where
  pure := ok
  bind := Outcome.bind

def ofOption : Option α → Outcome α
  | some a => ok a
  | none => stuck

/-- Go on if a condition holds. -/
def require (b : Bool) : Outcome Unit := if b then ok () else stuck

@[simp] theorem ok_bind (a : α) (f : α → Outcome β) : (ok a >>= f) = f a := rfl

@[simp] theorem stuck_bind (f : α → Outcome β) : (stuck >>= f) = stuck := rfl

@[simp] theorem timeout_bind (f : α → Outcome β) : (timeout >>= f) = timeout := rfl

theorem bind_ok (o : Outcome α) : (o >>= ok) = o := by
  cases o <;> rfl

/-- Rounds of a test and a body, at most as many as there is fuel. -/
def loop (test : α → Outcome (Bool × α)) (body : α → Outcome α) : ℕ → α → Outcome α
  | 0, _ => timeout
  | fuel + 1, a => do
    let (more, a) ← test a
    if more then
      let a ← body a
      loop test body fuel a
    else ok a

/-- The same with a body that may leave the loop for good. -/
def rounds (test : α → Outcome (Bool × α)) (body : α → Outcome (α ⊕ β)) :
    ℕ → α → Outcome (α ⊕ β)
  | 0, _ => timeout
  | fuel + 1, a => do
    let (more, a) ← test a
    if more then
      match ← body a with
      | .inl a => rounds test body fuel a
      | .inr b => ok (.inr b)
    else ok (.inl a)

/-! ### More fuel -/

/-- The first computation has run out of fuel, or it comes to the same. -/
def Below (o o' : Outcome α) : Prop := o = timeout ∨ o = o'

namespace Below

variable {o o' : Outcome α}

theorem refl (o : Outcome α) : o.Below o := .inr rfl

theorem bind {f f' : α → Outcome β} (h : o.Below o') (hf : ∀ a, (f a).Below (f' a)) :
    (o >>= f).Below (o' >>= f') := by
  rcases h with rfl | rfl
  · exact .inl rfl
  · cases o with
    | ok a => exact hf a
    | stuck => exact .inr rfl
    | timeout => exact .inl rfl

end Below

theorem loop_mono {test : α → Outcome (Bool × α)} {body body' : α → Outcome α}
    (hbody : ∀ a, (body a).Below (body' a)) {n n' : ℕ} (hle : n ≤ n') (a : α) :
    (loop test body n a).Below (loop test body' n' a) := by
  induction n generalizing n' a with
  | zero => exact .inl rfl
  | succ n ih =>
      obtain ⟨n', rfl⟩ : ∃ m, n' = m + 1 := Nat.exists_eq_add_of_le' (Nat.le_of_add_left_le hle)
      apply (Below.refl (test a)).bind
      rintro ⟨more, a⟩
      cases more with
      | false => exact .refl _
      | true => exact (hbody a).bind fun a => ih (Nat.le_of_succ_le_succ hle) a

end Outcome

variable {σ : Type*} {α β : Type} {step : σ → Option σ} {P : σ → Prop} {k k' : ℕ} {s t : σ}
  {o : Outcome α} {R R' : α → σ → Prop}

def Simulates (step : σ → Option σ) (P : σ → Prop) (k : ℕ) (s : σ) (o : Outcome α)
    (R : α → σ → Prop) : Prop :=
  match o with
  | .ok a => ∃ n t, Through step P n s t ∧ R a t
  | .stuck => True
  | .timeout => ∃ n t, k ≤ n ∧ Through step P n s t ∧ P t

namespace Simulates

theorem pure {a : α} (h : R a s) : Simulates step P k s (.ok a) R := ⟨0, s, .refl s, h⟩

theorem stuck : Simulates step P k s (.stuck : Outcome α) R := trivial

theorem mono (h : Simulates step P k s o R) (hR : ∀ a t, R a t → R' a t) :
    Simulates step P k s o R' := by
  cases o with
  | ok a =>
      obtain ⟨n, t, hrun, ht⟩ := h
      exact ⟨n, t, hrun, hR a t ht⟩
  | stuck => trivial
  | timeout => exact h

theorem weaken (h : Simulates step P k s o R) (hk : k' ≤ k) : Simulates step P k' s o R := by
  cases o with
  | ok a => exact h
  | stuck => trivial
  | timeout =>
      obtain ⟨n, t, hn, hrun, ht⟩ := h
      exact ⟨n, t, Nat.le_trans hk hn, hrun, ht⟩

/-- A step first. -/
theorem head (hP : P s) (hstep : step s = some t) (h : Simulates step P k t o R) :
    Simulates step P (k + 1) s o R := by
  cases o with
  | ok a =>
      obtain ⟨n, u, hrun, hu⟩ := h
      exact ⟨n + 1, u, .head hP hstep hrun, hu⟩
  | stuck => trivial
  | timeout =>
      obtain ⟨n, u, hn, hrun, hu⟩ := h
      exact ⟨n + 1, u, Nat.succ_le_succ hn, .head hP hstep hrun, hu⟩

/-- A computation after a run. -/
theorem after {n : ℕ} (hrun : Through step P n s t) (h : Simulates step P k t o R) :
    Simulates step P k s o R := by
  cases o with
  | ok a =>
      obtain ⟨m, u, hrun', hu⟩ := h
      exact ⟨n + m, u, hrun.trans hrun', hu⟩
  | stuck => trivial
  | timeout =>
      obtain ⟨m, u, hm, hrun', hu⟩ := h
      exact ⟨n + m, u, Nat.le_add_left_of_le hm, hrun.trans hrun', hu⟩

theorem bind {f : α → Outcome β} {S : β → σ → Prop} (h : Simulates step P k s o R)
    (hf : ∀ a t, R a t → Simulates step P k t (f a) S) : Simulates step P k s (o >>= f) S := by
  cases o with
  | ok a =>
      obtain ⟨n, t, hrun, ht⟩ := h
      exact (hf a t ht).after hrun
  | stuck => trivial
  | timeout => exact h

theorem ofOption {x : Option α} {f : α → Outcome β} {S : β → σ → Prop}
    (h : ∀ a, x = some a → Simulates step P k s (f a) S) :
    Simulates step P k s (Outcome.ofOption x >>= f) S := by
  cases x with
  | none => trivial
  | some a => exact h a rfl

/-- What comes after a condition may assume it. -/
theorem require {b : Bool} {f : Unit → Outcome β} {S : β → σ → Prop}
    (h : b = true → Simulates step P k s (f ()) S) :
    Simulates step P k s (Outcome.require b >>= f) S := by
  cases b with
  | false => trivial
  | true => exact h rfl

/-- A loop.  `head` relates the states at the test, `inner` those at the body,
and `back` those at the jump back to the test. -/
theorem loop {test : α → Outcome (Bool × α)} {body : α → Outcome α}
    (head inner back : α → σ → Prop) {exit : α → σ → Prop}
    (htest : ∀ a s, head a s → Simulates step P k s (test a) fun x t =>
      if x.1 then inner x.2 t else exit x.2 t)
    (hbody : ∀ a s, inner a s → Simulates step P k s (body a) back)
    (hback : ∀ a s, back a s → P s ∧ ∃ t, step s = some t ∧ head a t)
    (hP : ∀ a s, head a s → P s) {n : ℕ} (hn : n ≤ k) {a : α} (hs : head a s) :
    Simulates step P n s (Outcome.loop test body n a) exit := by
  induction n generalizing a s with
  | zero => exact ⟨0, s, Nat.le_refl 0, .refl s, hP a s hs⟩
  | succ n ih =>
      apply ((htest a s hs).weaken hn).bind
      rintro ⟨more, a⟩ t ht
      cases more with
      | false => exact pure ht
      | true =>
          apply ((hbody a t ht).weaken hn).bind
          intro a u hu
          obtain ⟨hPu, v, hstep, hv⟩ := hback a u hu
          exact (ih (Nat.le_of_succ_le hn) hv).head hPu hstep

/-- A loop whose body may leave it. -/
theorem rounds {test : α → Outcome (Bool × α)} {body : α → Outcome (α ⊕ β)}
    (head inner back : α → σ → Prop) {exit : α → σ → Prop} {left : β → σ → Prop}
    (htest : ∀ a s, head a s → Simulates step P k s (test a) fun x t =>
      if x.1 then inner x.2 t else exit x.2 t)
    (hbody : ∀ a s, inner a s → Simulates step P k s (body a) (Sum.elim back left))
    (hback : ∀ a s, back a s → P s ∧ ∃ t, step s = some t ∧ head a t)
    (hP : ∀ a s, head a s → P s) {n : ℕ} (hn : n ≤ k) {a : α} (hs : head a s) :
    Simulates step P n s (Outcome.rounds test body n a) (Sum.elim exit left) := by
  induction n generalizing a s with
  | zero => exact ⟨0, s, Nat.le_refl 0, .refl s, hP a s hs⟩
  | succ n ih =>
      apply ((htest a s hs).weaken hn).bind
      rintro ⟨more, a⟩ t ht
      cases more with
      | false => exact pure ht
      | true =>
          apply ((hbody a t ht).weaken hn).bind
          rintro (a | b) u hu
          · obtain ⟨hPu, v, hstep, hv⟩ := hback a u hu
            exact (ih (Nat.le_of_succ_le hn) hv).head hPu hstep
          · exact pure hu

/-- A computation that never comes to an end keeps the machine at work. -/
theorem runs_on {o : ℕ → Outcome α} (h : ∀ k, Simulates step P k s (o k) R)
    (hdiverges : ∀ k, o k = .timeout) (n : ℕ) : ∃ t, Run.iterate step n s = some t ∧ P t := by
  have hn := h (n + 1)
  rw [hdiverges] at hn
  obtain ⟨m, t, hle, hrun, _⟩ := hn
  exact hrun.inside hle

end Simulates

end Simulation
