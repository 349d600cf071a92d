import AtomixJS.Compiler.Calls

/-!
# Occurrences of calls

A node that stands at several places of the tree is emitted at each of them.
`SyntaxNode.calls` lists the calls that are emitted with a node, one entry for
every time; `Visit.Under` are the emissions themselves, at any depth.

The only state of the compiler besides its two sections are the arrays that
stand in reverse.  `Reverses` counts how often each of them was turned on the
way, and this decides the order of every single emission
(`exists_occurrence`, `Visit.Under.reverses`).
-/

namespace AtomixJS.Compiler

/-- A call, with the identity and the content of its array of arguments. -/
structure CallSite where
  argumentsId : ℕ
  arguments : List Expression

namespace SyntaxNode

def ownCalls : SyntaxNode → List CallSite
  | .expression (.callExpression _ id arguments) => [⟨id, arguments⟩]
  | _ => []

/-- The calls that are emitted with a node, each as often as it is. -/
def calls (n : SyntaxNode) : List CallSite :=
  n.ownCalls ++ n.visited.attach.flatMap fun c => c.val.calls
termination_by n.size
decreasing_by exact size_child (mem_visited.mp c.property)

theorem calls_eq (n : SyntaxNode) : n.calls = n.ownCalls ++ n.visited.flatMap calls := by
  rw [calls, List.flatMap_subtype (g := calls) (fun _ _ => rfl), List.unattach_attach]

theorem calls_expression (e : Expression) :
    (SyntaxNode.expression e).calls = (SyntaxNode.expression e).ownCalls ++ e.children.flatMap calls :=
  calls_eq (.expression e)

/-- How often a call with the given array is emitted with a node. -/
def occurrences (n : SyntaxNode) (id : ℕ) : ℕ := (n.calls.map CallSite.argumentsId).count id

/-- The occurrences in a list of nodes. -/
def total (nodes : List SyntaxNode) (id : ℕ) : ℕ := (nodes.map (occurrences · id)).sum

variable {nodes nodes' : List SyntaxNode} {id : ℕ}

@[simp] theorem total_nil : total [] = 0 := rfl

theorem total_cons (n : SyntaxNode) : total (n :: nodes) = n.occurrences + total nodes := by
  funext id
  exact List.sum_cons

theorem total_perm (h : nodes.Perm nodes') : total nodes = total nodes' := by
  funext id
  exact (h.map _).sum_eq

theorem count_flatMap_calls :
    ((nodes.flatMap calls).map CallSite.argumentsId).count id = total nodes id := by
  induction nodes with
  | nil => rfl
  | cons n nodes ih =>
    rw [List.flatMap_cons, List.map_append, List.count_append, ih, total_cons]
    rfl

theorem occurrences_eq (n : SyntaxNode) (id : ℕ) :
    n.occurrences id = (n.ownCalls.map CallSite.argumentsId).count id + total n.visited id := by
  rw [occurrences, calls_eq, List.map_append, List.count_append, count_flatMap_calls]

theorem exists_call (n : SyntaxNode) (h : 0 < n.occurrences id) :
    ∃ site ∈ n.calls, site.argumentsId = id :=
  List.mem_map.mp (List.count_pos_iff.mp h)

theorem occurrences_pos {n : SyntaxNode} {site : CallSite} (h : site ∈ n.calls) :
    0 < n.occurrences site.argumentsId :=
  List.count_pos_iff.mpr (List.mem_map_of_mem h)

end SyntaxNode

/-! ## Emissions at any depth -/

/-- The emission of a node that is visited, at any depth, in another emission. -/
inductive Visit.Under : Visit → Visit → Prop
  | self (v : Visit) : Under v v
  | child {v w u : Visit} {visits : List Visit} :
      Emission visits (v.node.entered v.before) v.after →
      (visits.map Visit.node).Perm v.node.visited → w ∈ visits → Under w u → Under v u

theorem Visit.Under.calls_subset {v u : Visit} (h : v.Under u) : u.node.calls ⊆ v.node.calls := by
  induction h with
  | self v => exact List.Subset.refl _
  | @child v w u visits _ hperm hw _ ih =>
    intro site hsite
    rw [SyntaxNode.calls_eq]
    have hvisited : w.node ∈ v.node.visited := hperm.mem_iff.mp (List.mem_map_of_mem hw)
    exact List.mem_append_right _ (List.mem_flatMap.mpr ⟨w.node, hvisited, ih hsite⟩)

@[simp] theorem SyntaxNode.entered_code (n : SyntaxNode) (ctx : PipeContext) :
    (n.entered ctx).code = ctx.code := by
  unfold SyntaxNode.entered
  split
  · exact ctx.reverseArguments_code _
  · rfl

/-- The strings of a visited node are those of what is emitted around it. -/
theorem Emission.strings {visits : List Visit} {ctx ctx' : PipeContext}
    (h : Emission visits ctx ctx') :
    ∀ v ∈ visits, v.after.stable.strings <+: ctx'.stable.strings := by
  induction h with
  | refl | register | add => exact fun v hv => absurd hv List.not_mem_nil
  | visit v =>
    intro v' hv
    obtain rfl := List.mem_singleton.mp hv
    exact List.prefix_rfl
  | seq _ h' ih ih' =>
    intro v hv
    rcases List.mem_append.mp hv with hv | hv
    · exact (ih v hv).trans h'.extends.strings
    · exact ih' v hv
  | scope _ ih => exact ih
  | function _ _ hreplace ih | skip _ hreplace ih =>
    rw [(PipeContext.replaceInstruction_ok hreplace).2.2]
    exact ih
  | branch _ hjump h' hend ih ih' =>
    have hthen := (PipeContext.replaceInstruction_ok hjump).2.2
    rw [(PipeContext.replaceInstruction_ok hend).2.2]
    intro v hv
    rcases List.mem_append.mp hv with hv | hv
    · exact (hthen ▸ ih v hv).trans h'.extends.strings
    · exact ih' v hv
  | loop _ h' hreplace ih ih' =>
    rw [(PipeContext.replaceInstruction_ok hreplace).2.2]
    intro v hv
    rcases List.mem_append.mp hv with hv | hv
    · exact (ih v hv).trans h'.extends.strings
    · exact ih' v hv

/-- The code of an emission stands where that of the emission around it stands. -/
theorem Visit.Under.placed {act : Activation} {v u : Visit} (h : v.Under u)
    (hplaced : act.Placed v.before v.after) : act.Placed u.before u.after := by
  induction h with
  | self v => exact hplaced
  | @child v w u visits hemission _ hw _ ih =>
    have hinside := hemission.inside w hw
    have hlower := hinside.lower
    rw [v.node.entered_code] at hlower
    exact ih (hplaced.inner hinside.agree (hemission.strings w hw) hlower hinside.upper)

/-- A node within another one is emitted with it. -/
theorem Visit.exists_under {v : Visit} {n : SyntaxNode} (h : v.node.Within n) :
    ∃ u, v.Under u ∧ u.node = n := by
  generalize hnode : v.node = m at h
  induction h generalizing v with
  | self m => exact ⟨v, .self v, hnode⟩
  | @child m c n hc _ ih =>
    obtain ⟨visits, hemission, hperm⟩ := emission_node v.accepts
    rw [← hnode] at hc
    obtain ⟨w, hw, hwc⟩ := List.mem_map.mp
      (hperm.mem_iff.mpr (SyntaxNode.mem_visited.mpr hc))
    obtain ⟨u, hu, hun⟩ := ih hwc
    exact ⟨u, .child hemission hperm hw hu, hun⟩

theorem Visit.Under.within {v u : Visit} (h : v.Under u) : v.node.Within u.node := by
  induction h with
  | self v => exact .self _
  | @child v w u visits _ hperm hw _ ih =>
    have hvisited : w.node ∈ v.node.visited := hperm.mem_iff.mp (List.mem_map_of_mem hw)
    exact .child (SyntaxNode.mem_visited.mp hvisited) ih

/-! ## Reversals -/

/-- Between two states of the compiler every array was turned the given number of
times. -/
def Reverses (k : ℕ → ℕ) (reversed reversed' : List ℕ) : Prop :=
  reversed.Nodup →
    reversed'.Nodup ∧ ∀ id, id ∈ reversed' ↔ (id ∈ reversed ↔ Even (k id))

namespace Reverses

variable {k k' : ℕ → ℕ} {reversed reversed₁ reversed' : List ℕ}

theorem refl (reversed : List ℕ) : Reverses 0 reversed reversed := fun h =>
  ⟨h, fun id => by simp⟩

theorem trans (h : Reverses k reversed reversed₁) (h' : Reverses k' reversed₁ reversed') :
    Reverses (k + k') reversed reversed' := by
  intro hnodup
  obtain ⟨hnodup₁, hmem⟩ := h hnodup
  obtain ⟨hnodup', hmem'⟩ := h' hnodup₁
  refine ⟨hnodup', fun id => ?_⟩
  rw [hmem', hmem, Pi.add_apply, Nat.even_add]
  tauto

theorem reverseArguments (ctx : PipeContext) (id : ℕ) :
    Reverses (fun id' => [id].count id') ctx.reversed (ctx.reverseArguments id).2.reversed := by
  intro hnodup
  have hcount : ∀ id', Even ([id].count id') ↔ id' ≠ id := by
    intro id'
    by_cases h : id' = id
    · subst h
      simp
    · simp [h, Ne.symm h]
  unfold PipeContext.reverseArguments
  split
  · next hmem =>
    refine ⟨hnodup.erase id, fun id' => ?_⟩
    rw [hcount, hnodup.mem_erase_iff]
    by_cases h : id' = id
    · subst h
      simp [hmem]
    · simp [h]
  · next hmem =>
    refine ⟨List.nodup_cons.mpr ⟨hmem, hnodup⟩, fun id' => ?_⟩
    rw [hcount, List.mem_cons]
    by_cases h : id' = id
    · subst h
      simp [hmem]
    · simp [h]

end Reverses

theorem replaceInstruction_reversed {ctx ctx' : PipeContext} {index : ℕ} {instruction : Instruction}
    (h : ctx.replaceInstruction index instruction = .ok ctx') : ctx'.reversed = ctx.reversed := by
  simp only [PipeContext.replaceInstruction, Fallible.bind_eq_ok, Fallible.pure_eq_ok] at h
  obtain ⟨data, _, rfl⟩ := h
  rfl

/-- The arrays in reverse are handed on from one visit to the next. -/
def Threaded : List Visit → List ℕ → List ℕ → Prop
  | [], reversed, reversed' => reversed' = reversed
  | v :: visits, reversed, reversed' =>
    v.before.reversed = reversed ∧ Threaded visits v.after.reversed reversed'

theorem Threaded.append {visits visits' : List Visit} {reversed reversed₁ reversed' : List ℕ}
    (h : Threaded visits reversed reversed₁) (h' : Threaded visits' reversed₁ reversed') :
    Threaded (visits ++ visits') reversed reversed' := by
  induction visits generalizing reversed with
  | nil =>
    obtain rfl := h
    exact h'
  | cons v visits ih => exact ⟨h.1, ih h.2⟩

/-- Nothing but a visit turns an array. -/
theorem Emission.threaded {visits : List Visit} {ctx ctx' : PipeContext}
    (h : Emission visits ctx ctx') : Threaded visits ctx.reversed ctx'.reversed := by
  induction h with
  | refl | register | add => rfl
  | visit v => exact ⟨rfl, rfl⟩
  | seq _ _ ih ih' => exact ih.append ih'
  | scope _ ih => exact ih
  | function _ _ hreplace ih | skip _ hreplace ih =>
    rw [replaceInstruction_reversed hreplace]
    exact ih
  | branch _ hjump _ hend ih ih' =>
    rw [replaceInstruction_reversed hjump] at ih'
    rw [replaceInstruction_reversed hend]
    exact ih.append ih'
  | loop _ _ hreplace ih ih' =>
    rw [replaceInstruction_reversed hreplace]
    exact ih.append ih'

section Threaded

variable {visits : List Visit} {reversed reversed' : List ℕ}
  (hvisits : ∀ v ∈ visits, Reverses v.node.occurrences v.before.reversed v.after.reversed)

include hvisits

theorem Threaded.reverses (h : Threaded visits reversed reversed') :
    Reverses (SyntaxNode.total (visits.map Visit.node)) reversed reversed' := by
  induction visits generalizing reversed with
  | nil =>
    obtain rfl := h
    exact .refl _
  | cons v visits ih =>
    obtain ⟨rfl, hrest⟩ := h
    rw [List.map_cons, SyntaxNode.total_cons]
    exact (hvisits v List.mem_cons_self).trans
      (ih (fun w hw => hvisits w (List.mem_cons_of_mem v hw)) hrest)

/-- What was turned before a visit are occurrences in what was visited earlier. -/
theorem Threaded.reverses_before (h : Threaded visits reversed reversed') {w : Visit}
    (hw : w ∈ visits) : ∃ k, Reverses k reversed w.before.reversed ∧
      ∀ id, k id + w.node.occurrences id ≤ SyntaxNode.total (visits.map Visit.node) id := by
  induction visits generalizing reversed with
  | nil => exact absurd hw List.not_mem_nil
  | cons v visits ih =>
    obtain ⟨rfl, hrest⟩ := h
    rw [List.map_cons, SyntaxNode.total_cons]
    rcases List.mem_cons.mp hw with rfl | hw
    · exact ⟨0, .refl _, fun id => by simp⟩
    · obtain ⟨k, hk, hle⟩ := ih (fun w hw => hvisits w (List.mem_cons_of_mem v hw)) hrest hw
      refine ⟨_, (hvisits v List.mem_cons_self).trans hk, fun id => ?_⟩
      have hle := hle id
      simp only [Pi.add_apply]
      omega

/-- The visit that the occurrence with the given number falls into. -/
theorem Threaded.exists_visit (h : Threaded visits reversed reversed') {id j : ℕ}
    (hj : j < SyntaxNode.total (visits.map Visit.node) id) :
    ∃ w ∈ visits, ∃ k, Reverses k reversed w.before.reversed ∧ k id ≤ j ∧
      j < k id + w.node.occurrences id := by
  induction visits generalizing reversed j with
  | nil => exact absurd hj (Nat.not_lt_zero j)
  | cons v visits ih =>
    obtain ⟨rfl, hrest⟩ := h
    rw [List.map_cons, SyntaxNode.total_cons, Pi.add_apply] at hj
    by_cases hfirst : j < v.node.occurrences id
    · exact ⟨v, List.mem_cons_self, 0, .refl _, Nat.zero_le j, by simpa using hfirst⟩
    · obtain ⟨w, hw, k, hk, hle, hlt⟩ := ih (j := j - v.node.occurrences id)
        (fun w hw => hvisits w (List.mem_cons_of_mem v hw)) hrest (by omega)
      refine ⟨w, List.mem_cons_of_mem v hw, _, (hvisits v List.mem_cons_self).trans hk, ?_, ?_⟩
      · simp only [Pi.add_apply]
        omega
      · simp only [Pi.add_apply]
        omega

end Threaded

theorem reverses_entered (n : SyntaxNode) (ctx : PipeContext) :
    Reverses (fun id => (n.ownCalls.map CallSite.argumentsId).count id) ctx.reversed
      (n.entered ctx).reversed := by
  unfold SyntaxNode.entered
  split
  · exact .reverseArguments ctx _
  · next hother =>
    have hown : n.ownCalls = [] := by
      unfold SyntaxNode.ownCalls
      split
      · next callee id arguments => exact absurd rfl (hother callee id arguments)
      · rfl
    rw [hown]
    exact .refl _

/-- The emission of a node turns every array once for each of its occurrences. -/
theorem reverses_node (n : SyntaxNode) : ∀ {ctx ctx' : PipeContext}, pipeNode n ctx = .ok ctx' →
    Reverses n.occurrences ctx.reversed ctx'.reversed := by
  induction n using SyntaxNode.induction with
  | h n ih =>
    intro ctx ctx' hrun
    obtain ⟨visits, hemission, hperm⟩ := emission_node hrun
    have hvisits : ∀ v ∈ visits, Reverses v.node.occurrences v.before.reversed v.after.reversed := by
      intro v hv
      have hvisited : v.node ∈ n.visited := hperm.mem_iff.mp (List.mem_map_of_mem hv)
      exact ih v.node (SyntaxNode.mem_visited.mp hvisited) v.accepts
    have hchildren := hemission.threaded.reverses hvisits
    rw [SyntaxNode.total_perm hperm] at hchildren
    have hall := (reverses_entered n ctx).trans hchildren
    have hcount : n.occurrences = (fun id => (n.ownCalls.map CallSite.argumentsId).count id) +
        SyntaxNode.total n.visited := by
      funext id
      exact SyntaxNode.occurrences_eq n id
    rw [hcount]
    exact hall

theorem Visit.reverses (v : Visit) :
    Reverses v.node.occurrences v.before.reversed v.after.reversed := reverses_node v.node v.accepts

/-- What was turned before an emission are occurrences elsewhere. -/
theorem Visit.Under.reverses {v u : Visit} (h : v.Under u) :
    ∃ k, Reverses k v.before.reversed u.before.reversed ∧
      ∀ id, k id + u.node.occurrences id ≤ v.node.occurrences id := by
  induction h with
  | self v => exact ⟨0, .refl _, fun id => by simp⟩
  | @child v w u visits hemission hperm hw _ ih =>
    obtain ⟨k₁, hk₁, hle₁⟩ := hemission.threaded.reverses_before (fun v _ => v.reverses) hw
    obtain ⟨k₂, hk₂, hle₂⟩ := ih
    refine ⟨_, (reverses_entered v.node v.before).trans (hk₁.trans hk₂), fun id => ?_⟩
    have hle₁ := hle₁ id
    have hle₂ := hle₂ id
    rw [SyntaxNode.total_perm hperm] at hle₁
    rw [SyntaxNode.occurrences_eq v.node]
    simp only [Pi.add_apply]
    omega

/-- The emission of the occurrence with the given number. -/
theorem exists_occurrence (v : Visit) {id j : ℕ} (hj : j < v.node.occurrences id) :
    ∃ u, v.Under u ∧
      (∃ callee arguments, u.node = .expression (.callExpression callee id arguments)) ∧
      ∃ k, Reverses k v.before.reversed u.before.reversed ∧ k id = j := by
  obtain ⟨n, ctx, ctx', hrun⟩ := v
  induction n using SyntaxNode.induction generalizing ctx ctx' j with
  | h n ih =>
    by_cases hown : j < (n.ownCalls.map CallSite.argumentsId).count id
    · -- the call itself comes first
      unfold SyntaxNode.ownCalls at hown
      split at hown
      · next callee id' arguments =>
        have hcount := List.count_le_length (a := id) (l := [id'])
        have hmem := List.count_pos_iff.mp (Nat.zero_lt_of_lt hown)
        obtain rfl := List.mem_singleton.mp hmem
        have hzero : j = 0 := by
          simp only [List.map_cons, List.map_nil, List.count_singleton_self] at hown
          omega
        exact ⟨_, .self _, ⟨callee, arguments, rfl⟩, 0, .refl _, hzero.symm⟩
      · exact absurd hown (Nat.not_lt_zero j)
    · obtain ⟨visits, hemission, hperm⟩ := emission_node hrun
      have hrest : j - (n.ownCalls.map CallSite.argumentsId).count id <
          SyntaxNode.total (visits.map Visit.node) id := by
        have hj : j < n.occurrences id := hj
        rw [SyntaxNode.occurrences_eq, ← SyntaxNode.total_perm hperm] at hj
        omega
      obtain ⟨w, hw, k, hk, hle, hlt⟩ :=
        hemission.threaded.exists_visit (fun v _ => v.reverses) hrest
      have hvisited : w.node ∈ n.visited := hperm.mem_iff.mp (List.mem_map_of_mem hw)
      obtain ⟨u, hu, hcall, k', hk', hj'⟩ := ih w.node (SyntaxNode.mem_visited.mp hvisited) w.before
        w.after w.accepts (j := j - (n.ownCalls.map CallSite.argumentsId).count id - k id) (by
          show _ < w.node.occurrences id
          omega)
      refine ⟨u, .child hemission hperm hw hu, hcall, _,
        (reverses_entered n ctx).trans (hk.trans hk'), ?_⟩
      simp only [Pi.add_apply]
      omega

end AtomixJS.Compiler
