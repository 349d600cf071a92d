import AtomixJS.Compiler.Calls
import AtomixJS.Lib.Trace

/-!
# Evaluation order

The language evaluates the callee of a call before its arguments, and these from
left to right; in an assignment to a member it evaluates the object and the key
before the value.  The stack layout of `CALL`, `OBJ_STORE` and `OBJ_CSTORE` wants it
the other way around, and `pipe` emits the parts in the order of the layout.

The parts are numbered here in the order of the language.  A run of the emitted
code is a run of its parts, one after the other, so it performs the effects of the
parts in the order of the language as long as no two parts have effects that
change places.
-/

namespace AtomixJS.Compiler

/-- An expression whose parts the language evaluates in a certain order. -/
inductive Sequenced
  | call (callee : Expression) (id : ℕ) (arguments : List Expression)
  | assignment (object property : Expression) (computed : Bool) (right : Expression)

/-- A part of an expression, with its place in the order of the language. -/
structure Part where
  place : ℕ
  emit : PipeContext → Except String PipeContext

/-- The value of an assignment, twice: once to be stored and once as the value of
the expression. -/
def pipeAssigned (right : Expression) (ctx : PipeContext) : Except String PipeContext := do
  let ctx ← pipeExpression right ctx
  pure (ctx.addInstruction .dup)

namespace Sequenced

def expression : Sequenced → Expression
  | .call callee id arguments => .callExpression callee id arguments
  | .assignment object property computed right =>
    .assignmentExpression true (.memberExpression object property computed) right

/-- Where the emission of the parts starts. -/
def entry (ctx : PipeContext) : Sequenced → PipeContext
  | .call _ id _ => (ctx.reverseArguments id).2
  | .assignment .. => ctx

/-- The parts in the order in which their code stands.  The receiver of a call and
the object of an assignment have place 0, the callee and the key have place 1. -/
def parts (ctx : PipeContext) : Sequenced → List Part
  | .call callee id arguments =>
    argumentOrder ctx id ((arguments.zipIdx 2).map fun (argument, place) =>
        ⟨place, pipeExpression argument⟩) ++
      [⟨0, pipeReceiver callee⟩, ⟨1, pipeCalled callee⟩]
  | .assignment object property computed right =>
    [⟨2, pipeAssigned right⟩, ⟨0, pipeExpression object⟩] ++
      match staticName property computed with
      | some _ => []
      | none => [⟨1, pipeExpression property⟩]

/-- The instructions behind the parts. -/
def finish (ctx : PipeContext) : Sequenced → PipeContext
  | .call _ _ arguments => ctx.addInstruction (.call arguments.length)
  | .assignment _ property computed _ =>
    match staticName property computed with
    | some name => (ctx.addInstruction .swap).addNamed .objStore name
    | none => ctx.addInstruction .objCstore

end Sequenced

/-- The emission of some parts, one behind the other. -/
def pipeParts (parts : List Part) (ctx : PipeContext) : Except String PipeContext :=
  (parts.map Part.emit).foldlM (fun ctx emit => emit ctx) ctx

theorem pipeArguments_eq (arguments : List Expression) (ctx : PipeContext) :
    pipeArguments arguments ctx =
      (arguments.map pipeExpression).foldlM (fun ctx emit => emit ctx) ctx := by
  induction arguments generalizing ctx with
  | nil => rfl
  | cons argument arguments ih =>
    rw [pipeArguments, List.map_cons, List.foldlM_cons]
    congr 1
    funext ctx₁
    exact ih ctx₁

/-- The emission of an expression is that of its parts. -/
theorem Sequenced.expression_emission (e : Sequenced) (ctx : PipeContext) :
    pipeExpression e.expression ctx = (do
      let ctx' ← pipeParts (e.parts ctx) (e.entry ctx)
      pure (e.finish ctx')) := by
  cases e with
  | call callee id arguments =>
    have harguments : ((arguments.zipIdx 2).map fun (argument, place) =>
        (⟨place, pipeExpression argument⟩ : Part)).map Part.emit =
          arguments.map pipeExpression := by
      conv_rhs => rw [← List.zipIdx_map_fst 2 arguments]
      rw [List.map_map, List.map_map]
      rfl
    simp only [expression, parts, entry, finish, pipeParts, List.map_append, ← argumentOrder_map,
      harguments, List.foldlM_append, pipeExpression_call, pipeArguments_eq, pipeCallee_eq,
      List.map_cons, List.map_nil, List.foldlM_cons, List.foldlM_nil, bind_assoc, bind_pure]
  | assignment object property computed right =>
    cases hname : staticName property computed with
    | some name =>
      obtain ⟨rfl, rfl⟩ := staticName_eq_some.mp hname
      simp only [expression, parts, entry, finish, pipeParts, pipeAssigned, hname, pipeExpression,
        List.append_nil, List.map_cons, List.map_nil, List.foldlM_cons, List.foldlM_nil, bind_assoc,
        pure_bind, bind_pure]
      rfl
    | none =>
      have hcomputed : pipeExpression (.assignmentExpression true
          (.memberExpression object property computed) right) ctx = (do
            let ctx ← pipeAssigned right ctx
            let ctx ← pipeExpression object ctx
            let ctx ← pipeExpression property ctx
            pure (ctx.addInstruction .objCstore)) := by
        simp only [pipeAssigned, bind_assoc, pure_bind]
        cases computed with
        | true => rfl
        | false =>
          cases property with
          | identifier name => cases hname
          | _ => rfl
      simp only [expression, parts, entry, finish, pipeParts, hname, hcomputed, List.map_append,
        List.map_cons, List.map_nil, List.foldlM_append, List.foldlM_cons, List.foldlM_nil,
        bind_assoc, bind_pure]

/-! ## Runs -/

/-- The machine runs through some parts, one after the other.  A piece of the
schedule is the place of a part and the number of steps that it takes. -/
inductive Activation.Schedules (act : Activation) :
    List Part → PipeContext → PipeContext → List (ℕ × ℕ) → Config → Config → Prop
  | nil (ctx : PipeContext) (config : Config) : Schedules act [] ctx ctx [] config config
  | cons {part : Part} {parts : List Part} {ctx ctx₁ ctx' : PipeContext} {n : ℕ}
      {schedule : List (ℕ × ℕ)} {config config₁ config' : Config} {ops values : List JSValue} :
      part.emit ctx = .ok ctx₁ → act.On ctx.code.length ops config →
      Run.iterate (step act.host) n config = some config₁ →
      act.On ctx₁.code.length (values ++ ops) config₁ →
      Schedules act parts ctx₁ ctx' schedule config₁ config' →
      Schedules act (part :: parts) ctx ctx' ((part.place, n) :: schedule) config config'

namespace Activation.Schedules

variable {act : Activation} {parts : List Part} {ctx ctx' : PipeContext}
  {schedule : List (ℕ × ℕ)} {config config' : Config}

theorem emits (h : act.Schedules parts ctx ctx' schedule config config') :
    pipeParts parts ctx = .ok ctx' := by
  induction h with
  | nil => rfl
  | cons hemit _ _ _ _ ih =>
    rw [pipeParts, List.map_cons, List.foldlM_cons, hemit]
    exact ih

theorem places (h : act.Schedules parts ctx ctx' schedule config config') :
    schedule.map Prod.fst = parts.map Part.place := by
  induction h with
  | nil => rfl
  | cons _ _ _ _ _ ih => rw [List.map_cons, List.map_cons, ih]

theorem run (h : act.Schedules parts ctx ctx' schedule config config') :
    Run.iterate (step act.host) (schedule.map Prod.snd).sum config = some config' := by
  induction h with
  | nil => rfl
  | cons _ _ hrun _ _ ih =>
    rw [List.map_cons, List.sum_cons, Run.iterate_add, hrun, Option.bind_some, ih]

end Activation.Schedules

/-- A run of the code of an expression, up to the instructions behind its parts. -/
structure Activation.Performs (act : Activation) (e : Sequenced) (ctx ctx' : PipeContext)
    (schedule : List (ℕ × ℕ)) (config config' : Config) : Prop where
  placed : act.Placed ctx (e.finish ctx')
  runs : act.Schedules (e.parts ctx) (e.entry ctx) ctx' schedule config config'

/-! ## The order of effects -/

variable {ε : Type*}

/-- The effects of a run come in the order of the language. -/
def Activation.InOrder (act : Activation) (effect : Config → Option ε) (schedule : List (ℕ × ℕ))
    (config : Config) : Prop :=
  (Run.labelled (step act.host) effect schedule config).Pairwise fun a b => a.1 ≤ b.1

/-- No two parts have effects that change places.  Parts from 2 on are the arguments
of a call. -/
def Sequenced.Apart (ctx : PipeContext) (effectful : ℕ → Prop) : Sequenced → Prop
  | .call _ id _ =>
    (∀ i, 2 ≤ i → effectful i → ¬ effectful 0 ∧ ¬ effectful 1) ∧
      (id ∈ ctx.reversed ∨ ∀ i j, 2 ≤ i → 2 ≤ j → effectful i → effectful j → i = j)
  | .assignment .. => effectful 2 → ¬ effectful 0 ∧ ¬ effectful 1

variable {act : Activation} {e : Sequenced} {ctx ctx' : PipeContext} {schedule : List (ℕ × ℕ)}
  {config config' : Config}

/-- On a strictly ascending list. -/
theorem pairwise_reverse_iff {l : List ℕ} (h : l.Pairwise (· < ·)) (P : ℕ → Prop) :
    l.reverse.Pairwise (fun i j => P i → P j → i ≤ j) ↔
      ∀ i ∈ l, ∀ j ∈ l, P i → P j → i = j := by
  rw [List.pairwise_reverse]
  constructor
  · intro hpairwise
    have hsame : l.Pairwise fun i j => P i → P j → i = j :=
      h.imp₂ (fun i j hlt hle hi hj => absurd (hle hj hi) (Nat.not_le_of_lt hlt)) hpairwise
    have : Std.Symm fun i j => P i → P j → i = j := ⟨fun _ _ h hj hi => (h hi hj).symm⟩
    exact fun i hi j hj => hsame.forall_of_forall (fun _ _ _ _ => rfl) hi hj
  · intro hall
    exact List.pairwise_of_forall_mem_list fun i hi j hj hPj hPi => (hall j hj i hi hPj hPi).le

theorem mem_argumentOrder {α : Type} {ctx : PipeContext} {id : ℕ} {items : List α} {a : α} :
    a ∈ argumentOrder ctx id items ↔ a ∈ items := by
  unfold argumentOrder
  split
  · rfl
  · exact List.mem_reverse

/-- The places of the arguments of a call, in the order in which their code stands. -/
theorem places_call (callee : Expression) (id : ℕ) (arguments : List Expression)
    (ctx : PipeContext) : ((Sequenced.call callee id arguments).parts ctx).map Part.place =
      argumentOrder ctx id (List.range' 2 arguments.length) ++ [0, 1] := by
  have harguments : ((arguments.zipIdx 2).map fun (argument, place) =>
      (⟨place, pipeExpression argument⟩ : Part)).map Part.place =
        List.range' 2 arguments.length := by
    rw [List.map_map, ← List.zipIdx_map_snd 2 arguments]
    rfl
  rw [Sequenced.parts, List.map_append, ← argumentOrder_map, harguments]
  rfl

theorem places_assignment (object property : Expression) (computed : Bool) (right : Expression)
    (ctx : PipeContext) :
    ((Sequenced.assignment object property computed right).parts ctx).map Part.place = [2, 0] ∨
    ((Sequenced.assignment object property computed right).parts ctx).map Part.place = [2, 0, 1] := by
  cases hname : staticName property computed with
  | some name =>
    left
    simp only [Sequenced.parts, hname, List.map_cons, List.map_nil, List.append_nil]
  | none =>
    right
    simp only [Sequenced.parts, hname, List.map_cons, List.map_nil, List.cons_append,
      List.nil_append]

theorem places_nodup (e : Sequenced) (ctx : PipeContext) :
    ((e.parts ctx).map Part.place).Nodup := by
  cases e with
  | call callee id arguments =>
    rw [places_call]
    refine List.Nodup.append ?_ (by decide) ?_
    · unfold argumentOrder
      split
      · exact List.nodup_range'
      · exact List.nodup_reverse.mpr List.nodup_range'
    · intro place hargument hcallee
      rw [mem_argumentOrder, List.mem_range'_1] at hargument
      simp only [List.mem_cons, List.not_mem_nil, or_false] at hcallee
      omega
  | assignment object property computed right =>
    rcases places_assignment object property computed right ctx with h | h <;> rw [h] <;> decide

/-- The arguments of a call are in order if their array was reversed before, or if
at most one of them has effects. -/
theorem argumentOrder_pairwise_iff {id n : ℕ} {effectful : ℕ → Prop}
    (hplaces : ∀ i, 2 ≤ i → effectful i → i ∈ List.range' 2 n) :
    (argumentOrder ctx id (List.range' 2 n)).Pairwise
        (fun i j => effectful i → effectful j → i ≤ j) ↔
      (id ∈ ctx.reversed ∨ ∀ i j, 2 ≤ i → 2 ≤ j → effectful i → effectful j → i = j) := by
  have hascending : (List.range' 2 n).Pairwise (· < ·) := List.pairwise_lt_range'
  by_cases hreversed : id ∈ ctx.reversed
  · rw [argumentOrder, if_pos hreversed]
    exact iff_of_true (hascending.imp fun hlt _ _ => hlt.le) (.inl hreversed)
  · rw [argumentOrder, if_neg hreversed, pairwise_reverse_iff hascending, or_iff_right hreversed]
    constructor
    · intro hall i j hi hj heffect heffect'
      exact hall i (hplaces i hi heffect) j (hplaces j hj heffect') heffect heffect'
    · intro hall i hi j hj
      exact hall i j (List.mem_range'_1.mp hi).1 (List.mem_range'_1.mp hj).1

theorem apart_iff (e : Sequenced) {effectful : ℕ → Prop}
    (hplaces : ∀ i, effectful i → i ∈ (e.parts ctx).map Part.place) :
    ((e.parts ctx).map Part.place).Pairwise (fun i j => effectful i → effectful j → i ≤ j) ↔
      e.Apart ctx effectful := by
  cases e with
  | call callee id arguments =>
    rw [places_call] at hplaces ⊢
    have hargument : ∀ i, 2 ≤ i → effectful i → i ∈ List.range' 2 arguments.length := by
      intro i hi heffect
      have hmem := hplaces i heffect
      rw [List.mem_append, mem_argumentOrder] at hmem
      refine hmem.resolve_right fun hcallee => ?_
      simp only [List.mem_cons, List.not_mem_nil, or_false] at hcallee
      omega
    have hcallee : [0, 1].Pairwise fun i j => effectful i → effectful j → i ≤ j := by simp
    have hacross : (∀ i ∈ argumentOrder ctx id (List.range' 2 arguments.length), ∀ j ∈ [0, 1],
          effectful i → effectful j → i ≤ j) ↔
        ∀ i, 2 ≤ i → effectful i → ¬ effectful 0 ∧ ¬ effectful 1 := by
      constructor
      · intro hall i hi heffect
        have hle := hall i (mem_argumentOrder.mpr (hargument i hi heffect))
        exact ⟨fun h => absurd (hle 0 (by simp) heffect h) (by omega),
          fun h => absurd (hle 1 (by simp) heffect h) (by omega)⟩
      · intro hall i hi j hj heffect heffect'
        obtain ⟨hreceiver, hcalled⟩ :=
          hall i (List.mem_range'_1.mp (mem_argumentOrder.mp hi)).1 heffect
        simp only [List.mem_cons, List.not_mem_nil, or_false] at hj
        rcases hj with rfl | rfl
        · exact absurd heffect' hreceiver
        · exact absurd heffect' hcalled
    rw [List.pairwise_append, argumentOrder_pairwise_iff hargument, and_iff_right hcallee, hacross,
      and_comm]
    rfl
  | assignment object property computed right =>
    rcases places_assignment object property computed right ctx with h | h
    · rw [h] at hplaces ⊢
      have hkey : ¬ effectful 1 := fun h1 => absurd (hplaces 1 h1) (by decide)
      simp [Sequenced.Apart, hkey]
    · rw [h]
      constructor
      · intro hpairwise heffect
        rw [List.pairwise_cons] at hpairwise
        exact ⟨fun h => absurd (hpairwise.1 0 (by simp) heffect h) (by decide),
          fun h => absurd (hpairwise.1 1 (by simp) heffect h) (by decide)⟩
      · intro hapart
        rw [List.pairwise_cons]
        refine ⟨fun j hj heffect heffect' => ?_, by simp⟩
        obtain ⟨hobject, hkey⟩ := hapart heffect
        simp only [List.mem_cons, List.not_mem_nil, or_false] at hj
        rcases hj with rfl | rfl
        · exact absurd heffect' hobject
        · exact absurd heffect' hkey

/-- **Evaluation order.**  A run of the compiled expression performs its effects in
the order of the language if and only if no two of its parts have effects that
change places. -/
theorem inOrder_iff (effect : Config → Option ε)
    (h : act.Performs e ctx ctx' schedule config config') :
    pipeExpression e.expression ctx = .ok (e.finish ctx') ∧
      (act.InOrder effect schedule config ↔
        e.Apart ctx (Run.Seen (step act.host) effect schedule config)) := by
  refine ⟨?_, ?_⟩
  · rw [e.expression_emission, h.runs.emits]
    rfl
  have hplaces := h.runs.places
  have hseen : ∀ i, Run.Seen (step act.host) effect schedule config i →
      i ∈ (e.parts ctx).map Part.place := by
    rintro i ⟨event, hevent⟩
    exact hplaces ▸ Run.mem_labels hevent
  have hdistinct : (schedule.map Prod.fst).Nodup := hplaces ▸ places_nodup e ctx
  refine (Run.labelled_pairwise_iff Nat.le_refl h.runs.run hdistinct).trans ?_
  rw [hplaces]
  exact apart_iff e hseen

/-! ## Two arguments that assign to one variable -/

/-- `this(a = null, a = true)` -/
def assignTwice : Sequenced :=
  .call .thisExpression 0
    [.assignmentExpression true (.identifier (jsString "a")) .nullLiteral,
      .assignmentExpression true (.identifier (jsString "a")) (.booleanLiteral true)]

/-- Its code, which assigns `true` first. -/
def assignTwiceTarget : Target where
  module := JSModule.ofCode [cString "a"]
    [some .ldTrue, some .dup, some (.storeLocal 0), some .ldNull, some .dup, some (.storeLocal 0),
      some .ldUndf, some .ldThis, some (.call 2)] one_string_lt (by decide)
  strings := [jsString "a"]
  code := [.ldTrue, .dup, .storeLocal 0, .ldNull, .dup, .storeLocal 0, .ldUndf, .ldThis, .call 2]
  instructions_eq := rfl

def assignTwiceConfig : ℕ → Config :=
  configOf assignTwiceTarget
    { Heap.empty with
      scopes := [rootScope [(cString "this", .func 0), (cString "a", .undefined)]]
      functions := [⟨0, .native (some 0)⟩] } 0

/-- An assignment to a variable, with the value that it gets. -/
def localStore (config : Config) : Option JSValue := do
  let vm ← config.vm?
  let module ← vm.heap.modules[vm.module]?
  match module.dataSection.instructions[vm.stats.instructionCounter]? with
  | some (some (.storeLocal _)) => vm.operands.head?
  | _ => none

/-- The operands behind each part. -/
theorem assignTwice_on :
    (activationOf assignTwiceTarget).On 0 [] (assignTwiceConfig 0) ∧
    (activationOf assignTwiceTarget).On 3 ([JSValue.boolean true] ++ []) (assignTwiceConfig 3) ∧
    (activationOf assignTwiceTarget).On 6 ([JSValue.null] ++ ([JSValue.boolean true] ++ []))
      (assignTwiceConfig 6) ∧
    (activationOf assignTwiceTarget).On 7 ([JSValue.undefined] ++ ([JSValue.null] ++ ([JSValue.boolean true] ++ [])))
      (assignTwiceConfig 7) ∧
    (activationOf assignTwiceTarget).On 8
      ([JSValue.func 0] ++ ([JSValue.undefined] ++ ([JSValue.null] ++ ([JSValue.boolean true] ++ [])))) (assignTwiceConfig 8) := by
  refine ⟨?_, ?_, ?_, ?_, ?_⟩ <;> exact ⟨_, rfl, ⟨_, rfl, rfl⟩, rfl, rfl, by decide⟩

theorem assignTwice_run {m n : ℕ} (h : m + n ≤ 8) :
    Run.iterate (step (activationOf assignTwiceTarget).host) n (assignTwiceConfig m) =
      some (assignTwiceConfig (m + n)) :=
  configOf_run (k := 8) rfl h

/-- The second argument, the first one, the receiver and the callee. -/
def assignTwiceSchedule : List (ℕ × ℕ) := [(3, 3), (2, 3), (0, 1), (1, 1)]

def assignTwiceContext : PipeContext :=
  (pipeParts (assignTwice.parts .empty) (assignTwice.entry .empty)).toOption.getD .empty

theorem assignTwice_performs : (activationOf assignTwiceTarget).Performs assignTwice .empty
    assignTwiceContext assignTwiceSchedule (assignTwiceConfig 0) (assignTwiceConfig 8) where
  placed := ⟨agree_extended ⟨[], rfl⟩ (Nat.le_refl _), List.prefix_rfl, Nat.le_refl _,
    Nat.le_refl _⟩
  runs := by
    obtain ⟨hon₀, hon₃, hon₆, hon₇, hon₈⟩ := assignTwice_on
    refine .cons rfl hon₀ (assignTwice_run (by decide)) hon₃ ?_
    refine .cons rfl hon₃ (assignTwice_run (by decide)) hon₆ ?_
    refine .cons rfl hon₆ (assignTwice_run (by decide)) hon₇ ?_
    exact .cons rfl hon₇ (assignTwice_run (by decide)) hon₈ (.nil _ _)

/-- The language assigns `null` first. -/
theorem assignTwice_order : Run.labelled (step (activationOf assignTwiceTarget).host) localStore
    assignTwiceSchedule (assignTwiceConfig 0) = [(3, .boolean true), (2, .null)] := rfl

theorem inOrder_iff_assignTwice :
    pipeExpression assignTwice.expression .empty = .ok (assignTwice.finish assignTwiceContext) ∧
      ((activationOf assignTwiceTarget).InOrder localStore assignTwiceSchedule
          (assignTwiceConfig 0) ↔
        assignTwice.Apart .empty (Run.Seen (step (activationOf assignTwiceTarget).host) localStore
          assignTwiceSchedule (assignTwiceConfig 0))) :=
  inOrder_iff localStore assignTwice_performs

theorem performs_out_of_order :
    ¬ ∀ (act : Activation) (e : Sequenced) (ctx ctx' : PipeContext) (schedule : List (ℕ × ℕ))
        (config config' : Config) (effect : Config → Option JSValue),
      act.Performs e ctx ctx' schedule config config' → act.InOrder effect schedule config := by
  intro hclaim
  have horder := hclaim _ _ _ _ _ _ _ localStore assignTwice_performs
  rw [Activation.InOrder, assignTwice_order] at horder
  simp at horder

end AtomixJS.Compiler
