import Mathlib

/-!
# Stack heights along the paths of a code region

A graph gives every program point what its instruction takes off the stack, what
it puts on, and where control can go next.  A path through a region `[s, t)`
ends where control leaves the region.

`Balanced g s t a b` says that on every path that enters the region at `s` with
`a` operands no instruction takes more than there is, that control leaves the
region only at `t` and with `b` operands, and that every point has one height:
a loop does not grow the stack.  `Passes` adds that some path does leave the
region.  Regions compose in sequence (`seq`), a region keeps its balance over
more operands (`lift`), and everything else is shown by an invariant on points
and heights (`balanced_of_invariant`).
-/

namespace Flow

/-- The effect of one instruction and its successors. -/
structure Node where
  pops : ℕ
  pushes : ℕ
  next : List ℕ

abbrev Graph := ℕ → Option Node

/-- One instruction of the region `[s, t)` is executed. -/
inductive Step (g : Graph) (s t : ℕ) : ℕ × ℕ → ℕ × ℕ → Prop
  | mk {pc h next : ℕ} {node : Node} : s ≤ pc → pc < t → g pc = some node → node.pops ≤ h →
      next ∈ node.next → Step g s t (pc, h) (next, h - node.pops + node.pushes)

abbrev Path (g : Graph) (s t : ℕ) : ℕ × ℕ → ℕ × ℕ → Prop := Relation.ReflTransGen (Step g s t)

structure Balanced (g : Graph) (s t a b : ℕ) : Prop where
  safe : ∀ pc h, Path g s t (s, a) (pc, h) →
    (pc = t ∧ h = b) ∨ (s ≤ pc ∧ pc < t ∧ ∃ node, g pc = some node ∧ node.pops ≤ h)
  unique : ∀ pc h h', Path g s t (s, a) (pc, h) → Path g s t (s, a) (pc, h') → h = h'

/-- Balanced, and some path goes through. -/
def Passes (g : Graph) (s t a b : ℕ) : Prop := Balanced g s t a b ∧ Path g s t (s, a) (t, b)

/-- A set of points with heights that no path leaves but through the end. -/
structure Invariant (g : Graph) (s t b : ℕ) (I : ℕ → ℕ → Prop) : Prop where
  unique : ∀ pc h h', I pc h → I pc h' → h = h'
  inside : ∀ pc h, I pc h → (pc = t ∧ h = b) ∨ (s ≤ pc ∧ pc < t)
  step : ∀ pc h, I pc h → pc < t → ∃ node, g pc = some node ∧ node.pops ≤ h ∧
    ∀ next ∈ node.next, I next (h - node.pops + node.pushes)

variable {g g' : Graph} {s t m a b c n : ℕ}

theorem balanced_of_invariant {I : ℕ → ℕ → Prop} (hI : Invariant g s t b I) (hstart : I s a) :
    Balanced g s t a b := by
  have hpath : ∀ x, Path g s t (s, a) x → I x.1 x.2 := by
    intro x hx
    induction hx with
    | refl => exact hstart
    | tail _ hstep ih =>
      cases hstep with
      | mk _ hlt hnode _ hnext =>
        obtain ⟨node, hget, _, hclosed⟩ := hI.step _ _ ih hlt
        obtain rfl := Option.some.inj (hnode.symm.trans hget)
        exact hclosed _ hnext
  refine ⟨fun pc h hp => ?_, fun pc h h' hp hp' => hI.unique pc h h' (hpath _ hp) (hpath _ hp')⟩
  have hIpc := hpath _ hp
  rcases hI.inside pc h hIpc with hend | ⟨hle, hlt⟩
  · exact .inl hend
  · obtain ⟨node, hget, hpops, _⟩ := hI.step pc h hIpc hlt
    exact .inr ⟨hle, hlt, node, hget, hpops⟩

/-- The points that a path reaches are an invariant. -/
theorem Balanced.invariant (h : Balanced g s t a b) :
    Invariant g s t b fun pc k => Path g s t (s, a) (pc, k) where
  unique := h.unique
  inside pc k hp := by
    rcases h.safe pc k hp with hend | ⟨hle, hlt, _⟩
    · exact .inl hend
    · exact .inr ⟨hle, hlt⟩
  step pc k hp hlt := by
    rcases h.safe pc k hp with ⟨heq, _⟩ | ⟨hle, _, node, hget, hpops⟩
    · omega
    · exact ⟨node, hget, hpops, fun next hnext => hp.tail (.mk hle hlt hget hpops hnext)⟩

/-! ## Paths -/

theorem Path.mono {u v : ℕ} (hs : u ≤ s) (ht : t ≤ v)
    (hg : ∀ pc, s ≤ pc → pc < t → g pc = g' pc) {x y : ℕ × ℕ} (h : Path g s t x y) :
    Path g' u v x y := by
  refine Relation.ReflTransGen.mono (fun x y hstep => ?_) _ _ h
  cases hstep with
  | mk hle hlt hnode hpops hnext =>
    exact .mk (Nat.le_trans hs hle) (Nat.lt_of_lt_of_le hlt ht) (hg _ hle hlt ▸ hnode) hpops hnext

theorem Path.lift {x y : ℕ × ℕ} (h : Path g s t x y) (c : ℕ) :
    Path g s t (x.1, x.2 + c) (y.1, y.2 + c) := by
  induction h with
  | refl => exact .refl
  | tail _ hstep ih =>
    cases hstep with
    | @mk pc k next node hle hlt hnode hpops hnext =>
      refine ih.tail ?_
      have hheight : k - node.pops + node.pushes + c = k + c - node.pops + node.pushes := by omega
      show Step g s t (pc, k + c) (next, k - node.pops + node.pushes + c)
      rw [hheight]
      exact .mk hle hlt hnode (by omega) hnext

/-! ## Regions -/

theorem Balanced.congr (h : Balanced g s t a b) (hg : ∀ pc, s ≤ pc → pc < t → g pc = g' pc) :
    Balanced g' s t a b := by
  have hI := h.invariant
  refine balanced_of_invariant ⟨hI.unique, hI.inside, fun pc k hp hlt => ?_⟩ .refl
  rcases hI.inside pc k hp with ⟨heq, _⟩ | ⟨hle, _⟩
  · omega
  · rw [← hg pc hle hlt]
    exact hI.step pc k hp hlt

theorem Balanced.lift (h : Balanced g s t a b) (c : ℕ) : Balanced g s t (a + c) (b + c) := by
  have hI := h.invariant
  refine balanced_of_invariant
    (I := fun pc k => ∃ k', Path g s t (s, a) (pc, k') ∧ k = k' + c) ⟨?_, ?_, ?_⟩ ⟨a, .refl, rfl⟩
  · rintro pc _ _ ⟨k, hp, rfl⟩ ⟨k', hp', rfl⟩
    rw [hI.unique pc k k' hp hp']
  · rintro pc _ ⟨k, hp, rfl⟩
    exact (hI.inside pc k hp).imp_left fun ⟨heq, hk⟩ => ⟨heq, by rw [hk]⟩
  · rintro pc _ ⟨k, hp, rfl⟩ hlt
    obtain ⟨node, hget, hpops, hclosed⟩ := hI.step pc k hp hlt
    exact ⟨node, hget, by omega, fun next hnext => ⟨_, hclosed next hnext, by omega⟩⟩

theorem Balanced.seq (h₁ : Balanced g s m a b) (h₂ : Balanced g m t b c) (hs : s ≤ m)
    (ht : m ≤ t) : Balanced g s t a c := by
  have hI₁ := h₁.invariant
  have hI₂ := h₂.invariant
  -- left of `m` the points of the first region, from `m` on those of the second
  refine balanced_of_invariant
    (I := fun pc k => (pc < m ∧ Path g s m (s, a) (pc, k)) ∨
      (m ≤ pc ∧ Path g m t (m, b) (pc, k))) ⟨?_, ?_, ?_⟩ ?_
  · rintro pc k k' (⟨hlt, hp⟩ | ⟨hle, hp⟩) (⟨hlt', hp'⟩ | ⟨hle', hp'⟩)
    · exact hI₁.unique pc k k' hp hp'
    · omega
    · omega
    · exact hI₂.unique pc k k' hp hp'
  · rintro pc k (⟨hlt, hp⟩ | ⟨hle, hp⟩)
    · rcases hI₁.inside pc k hp with ⟨heq, _⟩ | ⟨hle, _⟩
      · omega
      · exact .inr ⟨hle, by omega⟩
    · rcases hI₂.inside pc k hp with hend | ⟨_, hlt⟩
      · exact .inl hend
      · exact .inr ⟨by omega, hlt⟩
  · rintro pc k (⟨hlt, hp⟩ | ⟨hle, hp⟩) hpc
    · obtain ⟨node, hget, hpops, hclosed⟩ := hI₁.step pc k hp hlt
      refine ⟨node, hget, hpops, fun next hnext => ?_⟩
      have hnextPath := hclosed next hnext
      rcases hI₁.inside _ _ hnextPath with ⟨heq, hheight⟩ | ⟨_, hlt'⟩
      · rw [heq, hheight]
        exact .inr ⟨Nat.le_refl m, .refl⟩
      · exact .inl ⟨hlt', hnextPath⟩
    · obtain ⟨node, hget, hpops, hclosed⟩ := hI₂.step pc k hp hpc
      refine ⟨node, hget, hpops, fun next hnext => .inr ⟨?_, hclosed next hnext⟩⟩
      rcases hI₂.inside _ _ (hclosed next hnext) with ⟨heq, _⟩ | ⟨hle', _⟩
      · omega
      · exact hle'
  · rcases Nat.lt_or_eq_of_le hs with hlt | rfl
    · exact .inl ⟨hlt, .refl⟩
    · -- an empty first region leaves the height as it is
      rcases h₁.safe s a .refl with ⟨_, rfl⟩ | ⟨_, hlt, _⟩
      · exact .inr ⟨Nat.le_refl s, .refl⟩
      · omega

theorem balanced_refl : Balanced g s s a a := by
  refine balanced_of_invariant (I := fun pc k => pc = s ∧ k = a) ⟨?_, ?_, ?_⟩ ⟨rfl, rfl⟩
  · exact fun pc k k' h h' => h.2.trans h'.2.symm
  · exact fun pc k h => .inl h
  · rintro pc k ⟨rfl, _⟩ hlt
    omega

/-- One instruction whose successors all lie at the end of the region. -/
theorem balanced_single {node : Node} (hnode : g s = some node) (hlt : s < t)
    (hpops : node.pops ≤ a) (hnext : ∀ next ∈ node.next, next = t) :
    Balanced g s t a (a - node.pops + node.pushes) := by
  refine balanced_of_invariant
    (I := fun pc k => (pc = s ∧ k = a) ∨ (pc = t ∧ k = a - node.pops + node.pushes))
    ⟨by omega, ?_, ?_⟩ (.inl ⟨rfl, rfl⟩)
  · rintro pc k (⟨rfl, rfl⟩ | hend)
    · exact .inr ⟨Nat.le_refl _, hlt⟩
    · exact .inl hend
  · rintro pc k (⟨rfl, rfl⟩ | ⟨rfl, _⟩) hpc
    · exact ⟨node, hnode, hpops, fun next h => .inr ⟨hnext next h, rfl⟩⟩
    · omega

/-- One instruction that control does not leave. -/
theorem balanced_stop {node : Node} (hnode : g s = some node) (hlt : s < t)
    (hpops : node.pops ≤ a) (hnext : node.next = []) : Balanced g s t a b := by
  refine balanced_of_invariant (I := fun pc k => pc = s ∧ k = a) ⟨?_, ?_, ?_⟩ ⟨rfl, rfl⟩
  · exact fun pc k k' h h' => h.2.trans h'.2.symm
  · rintro pc k ⟨rfl, _⟩
    exact .inr ⟨Nat.le_refl _, hlt⟩
  · rintro pc k ⟨rfl, rfl⟩ _
    refine ⟨node, hnode, hpops, fun next h => ?_⟩
    rw [hnext] at h
    exact absurd h List.not_mem_nil

/-! ## Regions with jumps -/

/-- How control goes on from a labelled point: the region is over, or the
instruction leads to labels, or a region without labels starts that ends at one. -/
inductive GoesOn (g : Graph) (s t b : ℕ) (L : ℕ → ℕ → Prop) (pc h : ℕ) : Prop
  | exit : pc = t → h = b → GoesOn g s t b L pc h
  | node {node : Node} : s ≤ pc → pc < t → g pc = some node → node.pops ≤ h →
      (∀ next ∈ node.next, L next (h - node.pops + node.pushes)) → GoesOn g s t b L pc h
  | region {m k : ℕ} : s ≤ pc → pc < m → m ≤ t → Balanced g pc m h k → L m k →
      (∀ q j, L q j → q ≤ pc ∨ m ≤ q) → GoesOn g s t b L pc h

/-- A point with a height inside one of the regions that start at a label. -/
structure InRegion (g : Graph) (s t : ℕ) (L : ℕ → ℕ → Prop) (pc h s' m k k' : ℕ) : Prop where
  start : L s' k
  finish : L m k'
  lower : s ≤ s'
  upper : m ≤ t
  before : pc < m
  balanced : Balanced g s' m k k'
  free : ∀ q j, L q j → q ≤ s' ∨ m ≤ q
  path : Path g s' m (s', k) (pc, h)

variable {L : ℕ → ℕ → Prop} {pc h h' s₁ s₂ m₁ m₂ k k₁ k₂ : ℕ}

theorem InRegion.after (h₁ : InRegion g s t L pc h s₁ m₁ k₁ k) : s₁ ≤ pc := by
  have hbefore := h₁.before
  rcases h₁.balanced.safe pc h h₁.path with ⟨heq, _⟩ | ⟨hle, _⟩
  · omega
  · exact hle

theorem InRegion.unique {k' : ℕ} (hL : ∀ pc h h', L pc h → L pc h' → h = h')
    (h₁ : InRegion g s t L pc h s₁ m₁ k₁ k) (h₂ : InRegion g s t L pc h' s₂ m₂ k₂ k') :
    h = h' := by
  have hafter₁ := h₁.after
  have hafter₂ := h₂.after
  have hbefore₁ := h₁.before
  have hbefore₂ := h₂.before
  have hstart₁ := h₁.free _ _ h₂.start
  have hstart₂ := h₂.free _ _ h₁.start
  -- the regions start at the same label, and end at the next one
  obtain rfl : s₁ = s₂ := by omega
  have hfinish₁ := h₁.free _ _ h₂.finish
  have hfinish₂ := h₂.free _ _ h₁.finish
  obtain rfl : m₁ = m₂ := by omega
  obtain rfl := hL _ _ _ h₁.start h₂.start
  exact h₁.balanced.unique pc h h' h₁.path h₂.path

/-- A label inside a region is where the region starts. -/
theorem InRegion.label (hL : ∀ pc h h', L pc h → L pc h' → h = h')
    (h₁ : InRegion g s t L pc h s₁ m₁ k₁ k) (hlabel : L pc h') : h = h' := by
  have hafter := h₁.after
  have hbefore := h₁.before
  have hfree := h₁.free _ _ hlabel
  obtain rfl : s₁ = pc := by omega
  rw [hL _ _ _ hlabel h₁.start]
  exact h₁.balanced.unique _ _ _ h₁.path .refl

/-- A step inside a region stays inside or reaches the label at its end. -/
theorem InRegion.step (h₁ : InRegion g s t L pc h s₁ m₁ k₁ k) :
    ∃ node, g pc = some node ∧ node.pops ≤ h ∧ ∀ next ∈ node.next,
      L next (h - node.pops + node.pushes) ∨
      InRegion g s t L next (h - node.pops + node.pushes) s₁ m₁ k₁ k := by
  obtain ⟨node, hget, hpops, hclosed⟩ := h₁.balanced.invariant.step pc h h₁.path h₁.before
  refine ⟨node, hget, hpops, fun next hnext => ?_⟩
  rcases h₁.balanced.invariant.inside _ _ (hclosed next hnext) with ⟨heq, hk⟩ | ⟨_, hlt⟩
  · rw [heq, hk]
    exact .inl h₁.finish
  · exact .inr { h₁ with before := hlt, path := hclosed next hnext }

/-- A region with jumps is balanced when its labels go on to labels. -/
theorem balanced_of_labels (hunique : ∀ pc h h', L pc h → L pc h' → h = h')
    (hL : ∀ pc h, L pc h → GoesOn g s t b L pc h) (hstart : L s a) : Balanced g s t a b := by
  -- the labels and all points that paths through the regions reach
  refine balanced_of_invariant
    (I := fun pc h => L pc h ∨ ∃ s' m k k', InRegion g s t L pc h s' m k k') ⟨?_, ?_, ?_⟩
    (.inl hstart)
  · rintro pc h h' (hlabel | ⟨_, _, _, _, hin⟩) (hlabel' | ⟨_, _, _, _, hin'⟩)
    · exact hunique pc h h' hlabel hlabel'
    · exact (hin'.label hunique hlabel).symm
    · exact hin.label hunique hlabel'
    · exact hin.unique hunique hin'
  · rintro pc h (hlabel | ⟨s', m, k, k', hin⟩)
    · cases hL pc h hlabel with
      | exit heq hh => exact .inl ⟨heq, hh⟩
      | node hle hlt _ _ _ => exact .inr ⟨hle, hlt⟩
      | region hle hlt hm _ _ _ => exact .inr ⟨hle, Nat.lt_of_lt_of_le hlt hm⟩
    · exact .inr ⟨Nat.le_trans hin.lower hin.after, Nat.lt_of_lt_of_le hin.before hin.upper⟩
  · have hregion : ∀ pc h s' m k k', InRegion g s t L pc h s' m k k' → ∃ node, g pc = some node ∧
        node.pops ≤ h ∧ ∀ next ∈ node.next, L next (h - node.pops + node.pushes) ∨
          ∃ s' m k k', InRegion g s t L next (h - node.pops + node.pushes) s' m k k' := by
      intro pc h s' m k k' hin
      obtain ⟨node, hget, hpops, hclosed⟩ := hin.step
      exact ⟨node, hget, hpops, fun next hnext =>
        (hclosed next hnext).imp_right fun hin' => ⟨s', m, k, k', hin'⟩⟩
    rintro pc h (hlabel | ⟨s', m, k, k', hin⟩) hpc
    · cases hL pc h hlabel with
      | exit heq hh => omega
      | node _ _ hget hpops hclosed =>
        exact ⟨_, hget, hpops, fun next hnext => .inl (hclosed next hnext)⟩
      | region hle hlt hm hbalanced hend hfree =>
        exact hregion pc h pc _ h _ ⟨hlabel, hend, hle, hm, hlt, hbalanced, hfree, .refl⟩
    · exact hregion pc h s' m k k' hin

/-- A region that may be empty. -/
theorem GoesOn.of_balanced (hs : s ≤ pc) (hm : pc ≤ m) (ht : m ≤ t)
    (h : Balanced g pc m k k) (hL : L m k) (hfree : ∀ q j, L q j → q ≤ pc ∨ m ≤ q)
    (hend : pc = m → GoesOn g s t b L m k) : GoesOn g s t b L pc k := by
  rcases Nat.lt_or_eq_of_le hm with hlt | rfl
  · exact .region hs hlt ht h hL hfree
  · exact hend rfl

/-- A conditional jump over a region. -/
theorem balanced_skip {node : Node} (hnode : g s = some node) (hpops : node.pops ≤ a)
    (hheight : a - node.pops + node.pushes = b) (hnext : node.next = [s + 1, t])
    (hbody : Balanced g (s + 1) t b b) (hst : s + 1 ≤ t) : Balanced g s t a b := by
  apply balanced_of_labels
    (L := fun pc h => (pc = s ∧ h = a) ∨ (pc = s + 1 ∧ h = b) ∨ (pc = t ∧ h = b)) (by omega) _
    (.inl ⟨rfl, rfl⟩)
  rintro pc h (⟨rfl, rfl⟩ | ⟨rfl, rfl⟩ | ⟨rfl, rfl⟩)
  · refine .node (Nat.le_refl _) hst hnode hpops ?_
    rw [hnext, hheight]
    simp
  · exact GoesOn.of_balanced (Nat.le_succ s) hst (Nat.le_refl t) hbody (.inr (.inr ⟨rfl, rfl⟩))
      (by omega) fun _ => .exit rfl rfl
  · exact .exit rfl rfl

/-- A conditional jump between two regions, the first of which ends in a jump
over the second. -/
theorem balanced_diamond {node jump : Node} (hnode : g s = some node) (hpops : node.pops ≤ a)
    (hheight : a - node.pops + node.pushes = b) (hnext : node.next = [s + 1, m + 1])
    (hthen : Balanced g (s + 1) m b b) (hjump : g m = some jump) (hjumpPops : jump.pops = 0)
    (hjumpPushes : jump.pushes = 0) (hjumpNext : jump.next = [t])
    (helse : Balanced g (m + 1) t b b) (hsm : s + 1 ≤ m) (hmt : m + 1 ≤ t) :
    Balanced g s t a b := by
  apply balanced_of_labels
    (L := fun pc h => (pc = s ∧ h = a) ∨ (pc = s + 1 ∧ h = b) ∨ (pc = m ∧ h = b) ∨
      (pc = m + 1 ∧ h = b) ∨ (pc = t ∧ h = b)) (by omega) _ (.inl ⟨rfl, rfl⟩)
  have hgoes : GoesOn g s t b (fun pc h => (pc = s ∧ h = a) ∨ (pc = s + 1 ∧ h = b) ∨
      (pc = m ∧ h = b) ∨ (pc = m + 1 ∧ h = b) ∨ (pc = t ∧ h = b)) m b := by
    refine .node (by omega) (by omega) hjump (by omega) ?_
    rw [hjumpNext, hjumpPops, hjumpPushes]
    simp
  rintro pc h (⟨rfl, rfl⟩ | ⟨rfl, rfl⟩ | ⟨rfl, rfl⟩ | ⟨rfl, rfl⟩ | ⟨rfl, rfl⟩)
  · refine .node (Nat.le_refl _) (by omega) hnode hpops ?_
    rw [hnext, hheight]
    simp
  · exact GoesOn.of_balanced (Nat.le_succ s) hsm (by omega) hthen (.inr (.inr (.inl ⟨rfl, rfl⟩)))
      (by omega) fun _ => hgoes
  · exact hgoes
  · exact GoesOn.of_balanced (by omega) hmt (Nat.le_refl t) helse
      (.inr (.inr (.inr (.inr ⟨rfl, rfl⟩)))) (by omega) fun _ => .exit rfl rfl
  · exact .exit rfl rfl

/-- A loop: a test, a conditional jump to the end, a body and a jump back. -/
theorem balanced_loop {node jump : Node} {p q : ℕ} (htest : Balanced g s p a b)
    (hnode : g p = some node) (hpops : node.pops ≤ b)
    (hheight : b - node.pops + node.pushes = a) (hnext : node.next = [p + 1, q + 1])
    (hbody : Balanced g (p + 1) q a a) (hjump : g q = some jump) (hjumpPops : jump.pops = 0)
    (hjumpPushes : jump.pushes = 0) (hjumpNext : jump.next = [s]) (hsp : s < p)
    (hpq : p + 1 ≤ q) : Balanced g s (q + 1) a a := by
  apply balanced_of_labels
    (L := fun pc h => (pc = s ∧ h = a) ∨ (pc = p ∧ h = b) ∨ (pc = p + 1 ∧ h = a) ∨
      (pc = q ∧ h = a) ∨ (pc = q + 1 ∧ h = a)) (by omega) _ (.inl ⟨rfl, rfl⟩)
  have hgoes : GoesOn g s (q + 1) a (fun pc h => (pc = s ∧ h = a) ∨ (pc = p ∧ h = b) ∨
      (pc = p + 1 ∧ h = a) ∨ (pc = q ∧ h = a) ∨ (pc = q + 1 ∧ h = a)) q a := by
    refine .node (by omega) (by omega) hjump (by omega) ?_
    rw [hjumpNext, hjumpPops, hjumpPushes]
    simp
  rintro pc h (⟨rfl, rfl⟩ | ⟨rfl, rfl⟩ | ⟨rfl, rfl⟩ | ⟨rfl, rfl⟩ | ⟨rfl, rfl⟩)
  · exact .region (Nat.le_refl _) hsp (by omega) htest (.inr (.inl ⟨rfl, rfl⟩)) (by omega)
  · refine .node (by omega) (by omega) hnode hpops ?_
    rw [hnext, hheight]
    simp
  · exact GoesOn.of_balanced (by omega) hpq (by omega) hbody
      (.inr (.inr (.inr (.inl ⟨rfl, rfl⟩)))) (by omega) fun _ => hgoes
  · exact hgoes
  · exact .exit rfl rfl

/-- A loop whose instructions all leave the height as it is.  Its test may be empty. -/
theorem balanced_round {node jump : Node} {p q : ℕ} (htest : Balanced g s p a a)
    (hnode : g p = some node) (hpops : node.pops = 0) (hpushes : node.pushes = 0)
    (hnext : node.next = [p + 1, q + 1]) (hbody : Balanced g (p + 1) q a a)
    (hjump : g q = some jump) (hjumpPops : jump.pops = 0) (hjumpPushes : jump.pushes = 0)
    (hjumpNext : jump.next = [s]) (hsp : s ≤ p) (hpq : p + 1 ≤ q) :
    Balanced g s (q + 1) a a := by
  apply balanced_of_labels
    (L := fun pc h => (pc = s ∨ pc = p ∨ pc = p + 1 ∨ pc = q ∨ pc = q + 1) ∧ h = a) (by omega) _
    ⟨.inl rfl, rfl⟩
  have hback : GoesOn g s (q + 1) a
      (fun pc h => (pc = s ∨ pc = p ∨ pc = p + 1 ∨ pc = q ∨ pc = q + 1) ∧ h = a) q a := by
    refine .node (by omega) (by omega) hjump (by omega) ?_
    rw [hjumpNext, hjumpPops, hjumpPushes]
    simp
  have hout : GoesOn g s (q + 1) a
      (fun pc h => (pc = s ∨ pc = p ∨ pc = p + 1 ∨ pc = q ∨ pc = q + 1) ∧ h = a) p a := by
    refine .node hsp (by omega) hnode (by omega) ?_
    rw [hnext, hpops, hpushes]
    simp
  rintro pc h ⟨rfl | rfl | rfl | rfl | rfl, rfl⟩
  · exact GoesOn.of_balanced (Nat.le_refl _) hsp (by omega) htest ⟨.inr (.inl rfl), rfl⟩
      (by omega) fun _ => hout
  · exact hout
  · exact GoesOn.of_balanced (by omega) hpq (by omega) hbody
      ⟨.inr (.inr (.inr (.inl rfl))), rfl⟩ (by omega) fun _ => hback
  · exact hback
  · exact .exit rfl rfl

/-! ## Regions that control passes through -/

theorem Passes.congr (h : Passes g s t a b) (hg : ∀ pc, s ≤ pc → pc < t → g pc = g' pc) :
    Passes g' s t a b :=
  ⟨h.1.congr hg, h.2.mono (Nat.le_refl s) (Nat.le_refl t) hg⟩

theorem Passes.lift (h : Passes g s t a b) (c : ℕ) : Passes g s t (a + c) (b + c) :=
  ⟨h.1.lift c, h.2.lift c⟩

theorem Passes.seq (h₁ : Passes g s m a b) (h₂ : Passes g m t b c) (hs : s ≤ m) (ht : m ≤ t) :
    Passes g s t a c :=
  ⟨h₁.1.seq h₂.1 hs ht,
    (h₁.2.mono (Nat.le_refl s) ht fun _ _ _ => rfl).trans
      (h₂.2.mono hs (Nat.le_refl t) fun _ _ _ => rfl)⟩

theorem passes_refl : Passes g s s a a := ⟨balanced_refl, .refl⟩

/-- One instruction that goes on at the end of the region. -/
theorem passes_single {node : Node} (hnode : g s = some node) (hlt : s < t)
    (hpops : node.pops ≤ a) (hnext : node.next = [t]) :
    Passes g s t a (a - node.pops + node.pushes) :=
  ⟨balanced_single hnode hlt hpops fun _ h => List.mem_singleton.mp (hnext ▸ h),
    .single (.mk (Nat.le_refl s) hlt hnode hpops (hnext ▸ List.mem_singleton_self t))⟩

end Flow
