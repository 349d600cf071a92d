import AtomixJS.Lib.Run

/-!
# Traces of runs

`observed` collects what an observation of single states sees in the steps of a
run.  A run that is cut into pieces, each with a label, has a labelled trace.  Its
labels are in order if and only if the labels of those pieces are in which
something is observed (`labelled_pairwise_iff`).
-/

namespace Run

variable {σ ε ι : Type*} {step : σ → Option σ} {obs : σ → Option ε} {s t : σ} {m n : ℕ}

/-- What is observed in the first `n` steps. -/
def observed (step : σ → Option σ) (obs : σ → Option ε) : ℕ → σ → List ε
  | 0, _ => []
  | n + 1, s => (obs s).toList ++ ((step s).map (observed step obs n)).getD []

theorem observed_succ_of_step (h : step s = some t) (n : ℕ) :
    observed step obs (n + 1) s = (obs s).toList ++ observed step obs n t := by
  rw [observed, h, Option.map_some, Option.getD_some]

theorem observed_add (h : iterate step m s = some t) (n : ℕ) :
    observed step obs (m + n) s = observed step obs m s ++ observed step obs n t := by
  induction m generalizing s with
  | zero =>
    obtain rfl := Option.some.inj h
    rw [Nat.zero_add, observed, List.nil_append]
  | succ m ih =>
    rw [iterate_succ] at h
    cases hstep : step s with
    | none => rw [hstep] at h; cases h
    | some u =>
      rw [hstep, Option.bind_some] at h
      rw [Nat.succ_add, observed_succ_of_step hstep, observed_succ_of_step hstep, ih h,
        List.append_assoc]

/-- The trace of a run that is cut into pieces, each with its label and its number
of steps. -/
def labelled (step : σ → Option σ) (obs : σ → Option ε) : List (ι × ℕ) → σ → List (ι × ε)
  | [], _ => []
  | (label, n) :: pieces, s =>
    (observed step obs n s).map (Prod.mk label) ++
      ((iterate step n s).map (labelled step obs pieces)).getD []

theorem iterate_cut (h : iterate step (m + n) s = some t) :
    ∃ u, iterate step m s = some u ∧ iterate step n u = some t := by
  obtain ⟨u, hu⟩ := iterate_of_le h (Nat.le_add_right m n)
  refine ⟨u, hu, ?_⟩
  have hrest := iterate_split hu h (Nat.le_add_right m n)
  rwa [Nat.add_sub_cancel_left] at hrest

theorem labelled_cons {label : ι} {pieces : List (ι × ℕ)} (h : iterate step n s = some t) :
    labelled step obs ((label, n) :: pieces) s =
      (observed step obs n s).map (Prod.mk label) ++ labelled step obs pieces t := by
  rw [labelled, h, Option.map_some, Option.getD_some]

/-- Without its labels, the trace is that of the whole run. -/
theorem labelled_map_snd {pieces : List (ι × ℕ)}
    (h : iterate step (pieces.map Prod.snd).sum s = some t) :
    (labelled step obs pieces s).map Prod.snd =
      observed step obs (pieces.map Prod.snd).sum s := by
  induction pieces generalizing s with
  | nil => rfl
  | cons piece pieces ih =>
    rw [List.map_cons, List.sum_cons] at h ⊢
    obtain ⟨u, hpiece, hrest⟩ := iterate_cut h
    rw [observed_add hpiece, ← ih hrest, labelled_cons hpiece, List.map_append, List.map_map]
    congr 1
    exact List.map_id _

/-- A label of the trace is the label of a piece. -/
theorem mem_labels {pieces : List (ι × ℕ)} {event : ι × ε}
    (h : event ∈ labelled step obs pieces s) : event.1 ∈ pieces.map Prod.fst := by
  induction pieces generalizing s with
  | nil => cases h
  | cons piece pieces ih =>
    rw [labelled, List.mem_append] at h
    rw [List.map_cons, List.mem_cons]
    rcases h with h | h
    · obtain ⟨_, _, rfl⟩ := List.mem_map.mp h
      exact .inl rfl
    · cases hnext : iterate step piece.2 s with
      | none => rw [hnext] at h; cases h
      | some u =>
        rw [hnext] at h
        exact .inr (ih h)

/-- Something is observed in the piece with this label. -/
def Seen (step : σ → Option σ) (obs : σ → Option ε) (pieces : List (ι × ℕ)) (s : σ)
    (label : ι) : Prop :=
  ∃ event, (label, event) ∈ labelled step obs pieces s

theorem seen_cons {label i : ι} {pieces : List (ι × ℕ)} (h : iterate step n s = some t) :
    Seen step obs ((label, n) :: pieces) s i ↔
      (i = label ∧ observed step obs n s ≠ []) ∨ Seen step obs pieces t i := by
  simp only [Seen, labelled_cons h, List.mem_append, List.mem_map, Prod.mk.injEq, exists_or]
  constructor
  · rintro (⟨event, _, hevent, rfl, _⟩ | hseen)
    · exact .inl ⟨rfl, List.ne_nil_of_mem hevent⟩
    · exact .inr hseen
  · rintro (⟨rfl, hevents⟩ | hseen)
    · obtain ⟨event, hevent⟩ := List.exists_mem_of_ne_nil _ hevents
      exact .inl ⟨event, event, hevent, rfl, rfl⟩
    · exact .inr hseen

/-- The labels of a trace are in order if and only if those of the pieces are in
which something is observed. -/
theorem labelled_pairwise_iff {R : ι → ι → Prop} (hrefl : ∀ label, R label label)
    {pieces : List (ι × ℕ)} (hrun : iterate step (pieces.map Prod.snd).sum s = some t)
    (hdistinct : (pieces.map Prod.fst).Nodup) :
    (labelled step obs pieces s).Pairwise (fun a b => R a.1 b.1) ↔
      (pieces.map Prod.fst).Pairwise fun i j =>
        Seen step obs pieces s i → Seen step obs pieces s j → R i j := by
  induction pieces generalizing s with
  | nil => exact iff_of_true .nil .nil
  | cons piece pieces ih =>
    obtain ⟨label, n⟩ := piece
    rw [List.map_cons, List.nodup_cons] at hdistinct
    rw [List.map_cons, List.sum_cons] at hrun
    obtain ⟨u, hpiece, hrest⟩ := iterate_cut hrun
    have hseen_rest : ∀ i ∈ pieces.map Prod.fst,
        (Seen step obs ((label, n) :: pieces) s i ↔ Seen step obs pieces u i) := by
      intro i hi
      rw [seen_cons hpiece, or_iff_right]
      rintro ⟨rfl, _⟩
      exact hdistinct.1 hi
    have hfirst : ((observed step obs n s).map (Prod.mk label)).Pairwise
        fun a b => R a.1 b.1 := by
      rw [List.pairwise_map]
      exact List.pairwise_of_forall fun _ _ => hrefl label
    have hmiddle : (∀ a ∈ (observed step obs n s).map (Prod.mk label),
          ∀ b ∈ labelled step obs pieces u, R a.1 b.1) ↔
        ∀ j ∈ pieces.map Prod.fst, Seen step obs ((label, n) :: pieces) s label →
          Seen step obs ((label, n) :: pieces) s j → R label j := by
      constructor
      · intro hall j hj hlabel hseen
        obtain ⟨event', hevent'⟩ := (hseen_rest j hj).mp hseen
        rcases (seen_cons hpiece).mp hlabel with ⟨_, hevents⟩ | ⟨event, hevent⟩
        · obtain ⟨event, hevent⟩ := List.exists_mem_of_ne_nil _ hevents
          exact hall _ (List.mem_map_of_mem hevent) _ hevent'
        · exact absurd (mem_labels hevent) hdistinct.1
      · intro hall a ha b hb
        obtain ⟨event, hevent, rfl⟩ := List.mem_map.mp ha
        have hlabel := mem_labels hb
        exact hall b.1 hlabel ((seen_cons hpiece).mpr (.inl ⟨rfl, List.ne_nil_of_mem hevent⟩))
          ((hseen_rest b.1 hlabel).mpr ⟨b.2, hb⟩)
    have hlater : (labelled step obs pieces u).Pairwise (fun a b => R a.1 b.1) ↔
        (pieces.map Prod.fst).Pairwise fun i j => Seen step obs ((label, n) :: pieces) s i →
          Seen step obs ((label, n) :: pieces) s j → R i j := by
      refine (ih hrest hdistinct.2).trans (List.Pairwise.iff_of_mem fun hi hj => ?_)
      rw [hseen_rest _ hi, hseen_rest _ hj]
    rw [labelled_cons hpiece, List.pairwise_append, List.map_cons, List.pairwise_cons, hmiddle,
      hlater, and_iff_right hfirst, and_comm]

end Run
