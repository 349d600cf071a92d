import Mathlib

/-!
# Linked chains in a store

A store is a list of nodes, and a node may link to another by its index.
`Linked store link r refs` says that following the links from `r` visits exactly
`refs` and then ends.  Such a chain repeats no node, so it is no longer than the
store.  `walk` searches along the links with a bound on the number of nodes; on
a linked chain the bound `store.length` is enough, and the search is the search
in the list of nodes visited (`walk_of_linked`).

`Above store link r s` says only that `s` is met on the way from `r`.  It is the
notion for invariants about stores that need not be free of cycles.

`EndsAt store link e r` says that the way from `r` ends at `e`.  A link may be
redirected to a node from which it is not met again (`EndsAt.relink`).

The bound of a walk is no restriction: a walk that has not come to an end after
one node more than there are goes on for ever (`walk_endless`).
-/

namespace Chain

variable {ν : Type*} {store : List ν} {link : ℕ → ν → Option ℕ} {hit : ν → Bool}
  {r s t : ℕ} {refs refs' : List ℕ}

/-- What a walk along the links comes to. -/
inductive Found (ν : Type*)
  | at (ref : ℕ) (node : ν)
  | absent
  | dangling
  | endless

/-- Search along the links for the first node with `hit`, over at most the given
number of nodes. -/
def walk (store : List ν) (link : ℕ → ν → Option ℕ) (hit : ν → Bool) : ℕ → ℕ → Found ν
  | 0, _ => .endless
  | bound + 1, r =>
    match store[r]? with
    | none => .dangling
    | some node =>
      if hit node then .at r node
      else
        match link r node with
        | none => .absent
        | some next => walk store link hit bound next

/-- The links lead from `r` through `refs` and end there. -/
inductive Linked (store : List ν) (link : ℕ → ν → Option ℕ) : ℕ → List ℕ → Prop
  | last {r : ℕ} {node : ν} (hnode : store[r]? = some node) (hlink : link r node = none) :
      Linked store link r [r]
  | next {r s : ℕ} {node : ν} {refs : List ℕ} (hnode : store[r]? = some node)
      (hlink : link r node = some s) (hrest : Linked store link s refs) :
      Linked store link r (r :: refs)

/-- The links lead from `r` to `e` and end there. -/
inductive EndsAt (store : List ν) (link : ℕ → ν → Option ℕ) (e : ℕ) : ℕ → Prop
  | last {node : ν} (hnode : store[e]? = some node) (hlink : link e node = none) :
      EndsAt store link e e
  | next {r s : ℕ} {node : ν} (hnode : store[r]? = some node) (hlink : link r node = some s)
      (hrest : EndsAt store link e s) : EndsAt store link e r

/-- `s` is met on the way along the links from `r`. -/
inductive Above (store : List ν) (link : ℕ → ν → Option ℕ) (r : ℕ) : ℕ → Prop
  | refl : Above store link r r
  | link {s t : ℕ} {node : ν} (h : Above store link r s) (hnode : store[s]? = some node)
      (hlink : link s node = some t) : Above store link r t

/-! ## Chains -/

theorem Linked.unique (h : Linked store link r refs) (h' : Linked store link r refs') :
    refs = refs' := by
  induction h generalizing refs' with
  | last hnode hlink =>
      cases h' with
      | last => rfl
      | next hnode' hlink' hrest => simp_all
  | next hnode hlink hrest ih =>
      cases h' with
      | last hnode' hlink' => simp_all
      | next hnode' hlink' hrest' =>
          obtain rfl : _ = _ := Option.some.inj (hnode.symm.trans hnode')
          obtain rfl : _ = _ := Option.some.inj (hlink.symm.trans hlink')
          rw [ih hrest']

theorem Linked.lt_length (h : Linked store link r refs) (hs : s ∈ refs) : s < store.length := by
  induction h with
  | last hnode hlink =>
      rw [List.mem_singleton.mp hs]
      exact (List.getElem?_eq_some_iff.mp hnode).1
  | next hnode hlink hrest ih =>
      rcases List.mem_cons.mp hs with rfl | hs
      · exact (List.getElem?_eq_some_iff.mp hnode).1
      · exact ih hs

/-- From a node of a chain on, the rest of the chain follows. -/
theorem Linked.suffix (h : Linked store link r refs) (hs : s ∈ refs) :
    ∃ tail, Linked store link s tail ∧ tail <:+ refs := by
  induction h with
  | last hnode hlink =>
      rw [List.mem_singleton.mp hs]
      exact ⟨_, .last hnode hlink, List.suffix_refl _⟩
  | next hnode hlink hrest ih =>
      rcases List.mem_cons.mp hs with rfl | hs
      · exact ⟨_, .next hnode hlink hrest, List.suffix_refl _⟩
      · obtain ⟨tail, htail, hsuffix⟩ := ih hs
        exact ⟨tail, htail, hsuffix.trans (List.suffix_cons _ _)⟩

/-- A chain that comes back to a node would go round for ever. -/
theorem Linked.nodup (h : Linked store link r refs) : refs.Nodup := by
  induction h with
  | last => exact List.nodup_singleton _
  | next hnode hlink hrest ih =>
      refine List.nodup_cons.mpr ⟨fun hmem => ?_, ih⟩
      obtain ⟨tail, htail, hsuffix⟩ := hrest.suffix hmem
      have hsame := htail.unique (.next hnode hlink hrest)
      have hlength := hsuffix.length_le
      rw [hsame, List.length_cons] at hlength
      omega

theorem Linked.length_le (h : Linked store link r refs) : refs.length ≤ store.length := by
  have hsubset : refs ⊆ List.range store.length :=
    fun s hs => List.mem_range.mpr (h.lt_length hs)
  simpa using (List.subperm_of_subset h.nodup hsubset).length_le

/-- A chain stays one in a store that agrees on its nodes. -/
theorem Linked.congr {store' : List ν} {link' : ℕ → ν → Option ℕ}
    (h : Linked store link r refs)
    (hsame : ∀ s ∈ refs, ∀ node, store[s]? = some node →
      ∃ node', store'[s]? = some node' ∧ link' s node' = link s node) :
    Linked store' link' r refs := by
  induction h with
  | last hnode hlink =>
      obtain ⟨node', hnode', hlink'⟩ := hsame _ List.mem_cons_self _ hnode
      exact .last hnode' (hlink'.trans hlink)
  | next hnode hlink hrest ih =>
      obtain ⟨node', hnode', hlink'⟩ := hsame _ List.mem_cons_self _ hnode
      exact .next hnode' (hlink'.trans hlink)
        (ih fun s hs => hsame s (List.mem_cons_of_mem _ hs))

/-- A chain in the images of the nodes is one in the store. -/
theorem Linked.of_map {μ : Type*} {f : ν → μ} {link : ℕ → μ → Option ℕ}
    (h : Linked (store.map f) link r refs) : Linked store (fun s node => link s (f node)) r refs := by
  induction h with
  | last hnode hlink =>
      rw [List.getElem?_map, Option.map_eq_some_iff] at hnode
      obtain ⟨node, hnode, rfl⟩ := hnode
      exact .last hnode hlink
  | next hnode hlink _ ih =>
      rw [List.getElem?_map, Option.map_eq_some_iff] at hnode
      obtain ⟨node, hnode, rfl⟩ := hnode
      exact .next hnode hlink ih

/-- On a chain, a walk is a search in the list of nodes visited. -/
theorem walk_of_linked (h : Linked store link r refs) {bound : ℕ} (hbound : refs.length ≤ bound) :
    walk store link hit bound r =
      match refs.find? fun s => (store[s]?.map hit).getD false with
      | none => .absent
      | some s => (store[s]?.map (Found.at s)).getD .absent := by
  induction h generalizing bound with
  | @last r node hnode hlink =>
      obtain ⟨bound, rfl⟩ := Nat.exists_eq_add_of_le' hbound
      cases hhit : hit node <;> simp [walk, hnode, hlink, hhit]
  | @next r s node refs hnode hlink hrest ih =>
      obtain ⟨bound, rfl⟩ : ∃ b, bound = b + 1 :=
        ⟨bound - 1, by simp only [List.length_cons] at hbound; omega⟩
      have hle : refs.length ≤ bound := Nat.le_of_succ_le_succ hbound
      cases hhit : hit node with
      | true => simp [walk, hnode, hhit]
      | false => simp [walk, hnode, hlink, hhit, ih hle]

/-! ## What a walk meets -/

theorem Above.head {node : ν} (hnode : store[r]? = some node) (hlink : link r node = some s)
    (h : Above store link s t) : Above store link r t := by
  induction h with
  | refl => exact .link .refl hnode hlink
  | link h hnode' hlink' ih => exact .link ih hnode' hlink'

/-! ## Where the links end -/

variable {store' : List ν} {link' : ℕ → ν → Option ℕ} {e : ℕ}

theorem EndsAt.linked (h : EndsAt store link e r) :
    ∃ refs, Linked store link r refs ∧ refs.getLast? = some e := by
  induction h with
  | last hnode hlink => exact ⟨[e], .last hnode hlink, rfl⟩
  | @next r s node hnode hlink _ ih =>
      obtain ⟨refs, hrefs, hlast⟩ := ih
      refine ⟨r :: refs, .next hnode hlink hrefs, ?_⟩
      rw [List.getLast?_cons, hlast, Option.getD_some]

theorem EndsAt.above (h : EndsAt store link e r) : Above store link r e := by
  induction h with
  | last => exact .refl
  | next hnode hlink _ ih => exact ih.head hnode hlink

theorem EndsAt.last_node (h : EndsAt store link e r) :
    ∃ node, store[e]? = some node ∧ link e node = none := by
  induction h with
  | last hnode hlink => exact ⟨_, hnode, hlink⟩
  | next _ _ _ ih => exact ih

theorem EndsAt.lt_length (h : EndsAt store link e r) : r < store.length := by
  cases h with
  | last hnode => exact (List.getElem?_eq_some_iff.mp hnode).1
  | next hnode => exact (List.getElem?_eq_some_iff.mp hnode).1

/-- The way stays the same in a store that agrees on what is met. -/
theorem EndsAt.congr (h : EndsAt store link e r)
    (hsame : ∀ s, Above store link r s → ∀ node, store[s]? = some node →
      ∃ node', store'[s]? = some node' ∧ link' s node' = link s node) :
    EndsAt store' link' e r := by
  induction h with
  | last hnode hlink =>
      obtain ⟨node', hnode', hlink'⟩ := hsame _ .refl _ hnode
      exact .last hnode' (hlink'.trans hlink)
  | next hnode hlink _ ih =>
      obtain ⟨node', hnode', hlink'⟩ := hsame _ .refl _ hnode
      refine .next hnode' (hlink'.trans hlink) (ih fun s hs => hsame s (hs.head hnode hlink))

/-- One link is redirected to a node from which it is not met again. -/
theorem EndsAt.relink {p : ℕ} (hp : EndsAt store link e p) (ht : ¬ Above store link p t)
    (hoff : ∀ s, s ≠ t → ∀ node, store[s]? = some node →
      ∃ node', store'[s]? = some node' ∧ link' s node' = link s node)
    (hat : ∃ node', store'[t]? = some node' ∧ link' t node' = some p)
    (h : EndsAt store link e r) : EndsAt store' link' e r := by
  have hsame : ∀ s, Above store link p s → s ≠ t := fun s hs heq => ht (heq ▸ hs)
  induction h with
  | last hnode hlink =>
      obtain ⟨node', hnode', hlink'⟩ := hoff e (hsame e hp.above) _ hnode
      exact .last hnode' (hlink'.trans hlink)
  | @next r s node hnode hlink _ ih =>
      by_cases hr : r = t
      · subst hr
        obtain ⟨node', hnode', hlink'⟩ := hat
        exact .next hnode' hlink' (hp.congr fun s hs => hoff s (hsame s hs))
      · obtain ⟨node', hnode', hlink'⟩ := hoff r hr _ hnode
        exact .next hnode' (hlink'.trans hlink) ih

/-! ## The bound of a walk -/

theorem walk_add {bound : ℕ} (h : walk store link hit bound r ≠ .endless) (k : ℕ) :
    walk store link hit (bound + k) r = walk store link hit bound r := by
  induction bound generalizing r with
  | zero => exact absurd rfl h
  | succ bound ih =>
      rw [Nat.succ_add]
      unfold walk at h ⊢
      cases hnode : store[r]? with
      | none => rfl
      | some node =>
          by_cases hhit : hit node = true
          · simp only [hhit, if_true]
          · simp only [hnode, hhit] at h
            simp only [hhit]
            cases hlink : link r node with
            | none => rfl
            | some next => exact ih (by simpa [hlink] using h)

/-- The links up to a hit or out of the store. -/
private def searched (store : List ν) (link : ℕ → ν → Option ℕ) (hit : ν → Bool) :
    ℕ → ν → Option ℕ :=
  fun r node => if hit node then none else (link r node).filter (· < store.length)

private theorem linked_of_walk {bound : ℕ} (hr : r < store.length)
    (h : walk store link hit bound r ≠ .endless) :
    ∃ refs, Linked store (searched store link hit) r refs := by
  induction bound generalizing r with
  | zero => exact absurd rfl h
  | succ bound ih =>
      have hnode : store[r]? = some store[r] := List.getElem?_eq_getElem hr
      unfold walk at h
      by_cases hhit : hit store[r] = true
      · exact ⟨_, .last hnode (by simp [searched, hhit])⟩
      cases hlink : link r store[r] with
      | none => exact ⟨_, .last hnode (by simp [searched, hlink])⟩
      | some next =>
          by_cases hnext : next < store.length
          · obtain ⟨refs, hrefs⟩ := ih hnext (by simpa [hnode, hhit, hlink] using h)
            exact ⟨_, .next hnode (by simp [searched, hhit, hlink, hnext]) hrefs⟩
          · have hout : store.length ≤ next := Nat.le_of_not_lt hnext
            exact ⟨_, .last hnode (by simp [searched, hlink, hout])⟩

private theorem walk_of_searched (h : Linked store (searched store link hit) r refs) :
    walk store link hit (refs.length + 1) r ≠ .endless := by
  induction h with
  | @last r node hnode hlink =>
      unfold walk
      by_cases hhit : hit node = true
      · simp [hnode, hhit]
      cases hnext : link r node with
      | none => simp [hnode, hhit, hnext]
      | some next =>
          have hout : store.length ≤ next := by simpa [searched, hhit, hnext] using hlink
          simp [hnode, hhit, hnext, walk, List.getElem?_eq_none hout]
  | @next r s node refs hnode hlink _ ih =>
      have hhit : ¬ hit node = true := by
        intro hhit
        simp [searched, hhit] at hlink
      have hnext : link r node = some s := by
        unfold searched at hlink
        rw [if_neg hhit, Option.filter_eq_some_iff] at hlink
        exact hlink.1
      unfold walk
      simpa [hnode, hhit, hnext] using ih

/-- A walk over one node more than there are either ends or has no end. -/
theorem walk_endless (h : walk store link hit (store.length + 1) r = .endless) (bound : ℕ) :
    walk store link hit bound r = .endless := by
  by_contra hbound
  have hr : r < store.length := by
    by_contra hout
    simp [walk, List.getElem?_eq_none (Nat.le_of_not_lt hout)] at h
  obtain ⟨refs, hrefs⟩ := linked_of_walk hr hbound
  obtain ⟨k, hk⟩ := Nat.exists_eq_add_of_le (Nat.succ_le_succ hrefs.length_le)
  have hends := walk_of_searched hrefs
  rw [Nat.succ_eq_add_one, Nat.succ_eq_add_one] at hk
  rw [hk, walk_add hends] at h
  exact hends h

theorem walk_above {bound : ℕ} {node : ν} (h : walk store link hit bound r = .at s node) :
    Above store link r s ∧ store[s]? = some node ∧ hit node := by
  induction bound generalizing r with
  | zero => cases h
  | succ bound ih =>
      rw [walk] at h
      split at h
      · cases h
      · next n hnode =>
          split at h
          · next hhit =>
              cases h
              exact ⟨.refl, hnode, hhit⟩
          · split at h
            · cases h
            · next next hlink =>
                obtain ⟨habove, hrest⟩ := ih h
                exact ⟨habove.head hnode hlink, hrest⟩

/-- A walk does not leave a store whose links stay inside. -/
theorem walk_ne_dangling
    (hclosed : ∀ r node s, store[r]? = some node → link r node = some s → s < store.length)
    {bound : ℕ} (hr : r < store.length) : walk store link hit bound r ≠ .dangling := by
  induction bound generalizing r with
  | zero =>
      intro hwalk
      cases hwalk
  | succ bound ih =>
      have hnode : store[r]? = some store[r] := List.getElem?_eq_getElem hr
      intro hwalk
      rw [walk, hnode] at hwalk
      dsimp only at hwalk
      split at hwalk
      · cases hwalk
      · split at hwalk
        · cases hwalk
        · next next hlink => exact ih (hclosed r _ next hnode hlink) hwalk

end Chain
