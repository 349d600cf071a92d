import AtomixJS.Compiler.Classes
import AtomixJS.Compiler.Execution
import AtomixJS.Compiler.Quiet
import AtomixJS.Core.Objects

/-!
# Exports

The forms of export declarations, and what the code that `pipe` emits for them does to the
exports object of the module.

Most forms are emitted in two parts.  The prologue is the declaration itself; it is the
same code as without the export.  Behind it, a list of pairs is exported, each one an
expression that `pipe` reads, which is a name or a string, and the name that it is exported
under.  A default export and a function take the value from the top of the stack instead.
-/

namespace AtomixJS.Compiler

/-! ## Declarations -/

/-- A specifier of an export from another module.  An imported name is an identifier or
a string literal. -/
inductive ReexportSpecifier
  | named (isString : Bool) (imported exported : JSString)
  | all (exported : JSString)
  | default (exported : JSString)

/-- An export declaration as `pipe` finds it.  The names of a list of specifiers are those
of local bindings if there is no source. -/
inductive ExportNode
  | declaration (declaration : Declaration)
  | specifiers (specifiers : List (JSString × JSString))
  | reexport (source : JSString) (specifiers : List ReexportSpecifier)
  | default (declaration : DefaultDeclaration)

/-- An export declaration of the source. -/
inductive ExportForm
  | variableDeclaration (declarations : List Declarator)
  | functionDeclaration (function : FunctionNode)
  | classDeclaration (arrays : ClassArrays) (node : ClassNode)
  | specifiers (specifiers : List (JSString × JSString))
  | reexport (source : JSString) (specifiers : List ReexportSpecifier)
  | defaultExpression (expression : Expression)
  | defaultFunction (function : FunctionNode)
  | defaultClass (arrays : ClassArrays) (node : ClassNode)

/-- The visitor `ClassDeclaration`, at a class that is exported. -/
def exportedClass (arrays : ClassArrays) (node : ClassNode) : Except String Declaration := do
  match ← classDeclaration arrays node with
  | .declaration declaration => pure declaration
  | _ => .error "TypeError"

/-- What the transformation leaves. -/
def ExportForm.transformed : ExportForm → Except String ExportNode
  | .variableDeclaration declarations => .ok (.declaration (.variableDeclaration declarations))
  | .functionDeclaration f => .ok (.declaration (.functionDeclaration f))
  | .specifiers list => .ok (.specifiers list)
  | .reexport source list => .ok (.reexport source list)
  | .defaultExpression e => .ok (.default (.expression e))
  | .defaultFunction f => .ok (.default (.declaration (.functionDeclaration f)))
  | .classDeclaration arrays n => do
    let d ← exportedClass arrays n
    pure (.declaration d)
  | .defaultClass arrays n => do
    let d ← exportedClass arrays n
    pure (.default (.declaration d))

def ReexportSpecifier.node : ReexportSpecifier → Specifier
  | .named isString imported exported =>
    .exportSpecifier (if isString then .stringLiteral imported else .identifier imported) exported
  | .all exported => .exportNamespaceSpecifier exported
  | .default _ => .exportDefaultSpecifier

/-- The node of the syntax tree.  Nothing in it depends on the source. -/
def ExportNode.statement : ExportNode → Statement
  | .declaration d => .exportNamedDeclaration (some d) []
  | .specifiers list => .exportNamedDeclaration none
    (list.map fun specifier => .exportSpecifier (.identifier specifier.1) specifier.2)
  | .reexport _ list => .exportNamedDeclaration none (list.map ReexportSpecifier.node)
  | .default d => .exportDefaultDeclaration d

/-! ## What a declaration exports -/

/-- What an exported name stands for. -/
inductive Origin
  /-- a binding of the module -/
  | binding (name : JSString)
  /-- an export of the source -/
  | remote (name : JSString)
  /-- the exports of the source -/
  | remotes
  /-- what the default expression or the function without a name comes to -/
  | value

def Declarator.exported? : Declarator → Option JSString
  | .mk (.identifier name) _ => some name
  | _ => none

def FunctionNode.name? : FunctionNode → Option JSString
  | .mk id _ _ => id

def ReexportSpecifier.export : ReexportSpecifier → JSString × Origin
  | .named _ imported exported => (exported, .remote imported)
  | .all exported => (exported, .remotes)
  | .default exported => (exported, .remote (jsString "default"))

/-- The exported names, with what they stand for. -/
def ExportNode.exports : ExportNode → List (JSString × Origin)
  | .declaration (.variableDeclaration declarations) =>
    (declarations.filterMap Declarator.exported?).map fun name => (name, .binding name)
  | .declaration (.functionDeclaration function) =>
    function.name?.toList.map fun name => (name, .binding name)
  | .specifiers list => list.map fun specifier => (specifier.2, .binding specifier.1)
  | .reexport _ list => list.map ReexportSpecifier.export
  | .default (.expression _) => [(jsString "default", .value)]
  | .default (.declaration (.functionDeclaration function)) =>
    [(jsString "default", (function.name?.map Origin.binding).getD .value)]
  | .default (.declaration (.variableDeclaration declarations)) =>
    (declarations.filterMap Declarator.exported?).map fun name => (jsString "default", .binding name)
  | .declaration (.other _) | .default (.declaration (.other _)) => []

/-- The names under which something is exported. -/
def ExportNode.names (node : ExportNode) : List JSString := node.exports.map Prod.fst

/-- The name of the function that is declared by the instruction in front of the `EXPORT`. -/
def ExportNode.function? : ExportNode → Option JSString
  | .declaration (.functionDeclaration function)
  | .default (.declaration (.functionDeclaration function)) => function.name?
  | _ => none

/-! ## The two parts of the code -/

/-- The code in front of the exports.  For a function with a name there is none: that code
declares what is exported. -/
def ExportNode.prologue : ExportNode → PipeContext → Except String PipeContext
  | .declaration (.variableDeclaration declarations), ctx
  | .default (.declaration (.variableDeclaration declarations)), ctx =>
    pipeDeclarators declarations ctx
  | .default (.declaration (.functionDeclaration (.mk none params body))), ctx =>
    pipeFunction (.mk none params body) ctx
  | .default (.expression expression), ctx => pipeExpression expression ctx
  | _, ctx => .ok ctx

/-- How many values the prologue leaves. -/
def ExportNode.left : ExportNode → ℕ
  | .default (.expression _)
  | .default (.declaration (.functionDeclaration (.mk none _ _))) => 1
  | _ => 0

def ReexportSpecifier.read? : ReexportSpecifier → Option (Expression × JSString)
  | .named isString imported exported =>
    some (if isString then .stringLiteral imported else .identifier imported, exported)
  | .all exported => some (.identifier exported, exported)
  | .default _ => none

/-- What is read and exported behind the prologue, with the exported names. -/
def ExportNode.reads : ExportNode → List (Expression × JSString)
  | .declaration (.variableDeclaration declarations) =>
    (declarations.filterMap Declarator.exported?).map fun name => (.identifier name, name)
  | .specifiers list => list.map fun specifier => (.identifier specifier.1, specifier.2)
  | .reexport _ list => list.filterMap ReexportSpecifier.read?
  | _ => []

/-- The emission of the pairs. -/
def pipeReads (pairs : List (Expression × JSString)) (ctx : PipeContext) :
    Except String PipeContext :=
  pairs.foldlM (fun ctx pair => do
    let ctx ← pipeExpression pair.1 ctx
    pure (ctx.addNamed .exportAs pair.2)) ctx

variable {ctx ctx' ctx₁ : PipeContext}

theorem pipeReads_cons {pair : Expression × JSString} {pairs : List (Expression × JSString)} :
    pipeReads (pair :: pairs) ctx = .ok ctx' ↔ ∃ ctx₁, pipeExpression pair.1 ctx = .ok ctx₁ ∧
      pipeReads pairs (ctx₁.addNamed .exportAs pair.2) = .ok ctx' := by
  unfold pipeReads
  simp only [List.foldlM_cons, Fallible.bind_eq_ok, Fallible.pure_eq_ok]
  constructor
  · rintro ⟨_, ⟨ctx₁, hread, rfl⟩, hrest⟩
    exact ⟨ctx₁, hread, hrest⟩
  · rintro ⟨ctx₁, hread, hrest⟩
    exact ⟨_, ⟨ctx₁, hread, rfl⟩, hrest⟩

theorem extends_reads {pairs : List (Expression × JSString)} (h : pipeReads pairs ctx = .ok ctx') :
    Extends ctx ctx' := by
  induction pairs generalizing ctx with
  | nil =>
    obtain rfl := Except.ok.inj h
    exact .refl ctx
  | cons pair pairs ih =>
    obtain ⟨ctx₁, hread, hrest⟩ := pipeReads_cons.mp h
    exact ((extends_node (n := .expression pair.1) hread).trans (.addNamed ctx₁ _ _)).trans (ih hrest)

theorem reads_of_declarators {declarations : List Declarator}
    (h : declarations.foldlM pipeExportDeclarator ctx = .ok ctx') :
    pipeReads ((declarations.filterMap Declarator.exported?).map fun name =>
      (.identifier name, name)) ctx = .ok ctx' := by
  induction declarations generalizing ctx with
  | nil => exact h
  | cons declarator declarations ih =>
    simp only [List.foldlM_cons, Fallible.bind_eq_ok] at h
    obtain ⟨ctx₁, hfirst, hrest⟩ := h
    obtain ⟨id, init⟩ := declarator
    cases id with
    | identifier name =>
      obtain rfl := Except.ok.inj hfirst
      exact pipeReads_cons.mpr ⟨_, rfl, ih hrest⟩
    | objectPattern _ => cases hfirst
    | other _ => cases hfirst

theorem reads_of_specifiers {specifiers : List (JSString × JSString)}
    (h : pipeSpecifiers (specifiers.map fun specifier =>
      .exportSpecifier (.identifier specifier.1) specifier.2) (fun _ => .error "TypeError") ctx =
      .ok ctx') :
    pipeReads (specifiers.map fun specifier => (.identifier specifier.1, specifier.2)) ctx =
      .ok ctx' := by
  induction specifiers generalizing ctx with
  | nil => exact h
  | cons specifier specifiers ih =>
    simp only [List.map_cons, pipeSpecifiers, Fallible.bind_eq_ok] at h
    obtain ⟨ctx₁, hfirst, hrest⟩ := h
    exact pipeReads_cons.mpr ⟨ctx₁, hfirst, ih hrest⟩

theorem reads_of_reexport {specifiers : List ReexportSpecifier}
    (h : pipeSpecifiers (specifiers.map ReexportSpecifier.node) (fun _ => .error "TypeError") ctx =
      .ok ctx') : pipeReads (specifiers.filterMap ReexportSpecifier.read?) ctx = .ok ctx' := by
  induction specifiers generalizing ctx with
  | nil => exact h
  | cons specifier specifiers ih =>
    match specifier with
    | .named isString imported exported =>
      simp only [List.map_cons, ReexportSpecifier.node, pipeSpecifiers, Fallible.bind_eq_ok] at h
      obtain ⟨ctx₁, hfirst, hrest⟩ := h
      exact pipeReads_cons.mpr ⟨ctx₁, hfirst, ih hrest⟩
    | .all exported => exact pipeReads_cons.mpr ⟨_, rfl, ih h⟩
    | .default exported => cases h

/-! ## The exports object -/

/-- An object holds a value under a name. -/
def Exported (heap : Heap) (obj : ObjectRef) (name : JSString) (v : JSValue) : Prop :=
  ∃ key : CString, key.map (·.toUInt16) = name ∧ heap.own obj (.string key) = some v

/-- An object holds no accessor under a name. -/
def NoAccessor (heap : Heap) (obj : ObjectRef) (name : JSString) : Prop :=
  ∀ key : CString, key.map (·.toUInt16) = name →
    ∀ getter setter, heap.own obj (.string key) ≠ some (.gsBox getter setter)

variable {act : Activation} {heap : Heap} {obj : ObjectRef} {name : JSString} {v v' : JSValue}
  {vm : VM} {pc : ℕ} {ops : List JSValue} {refs : List ScopeRef} {env : Env} {e : Expression}

theorem Exported.unique (h : Exported heap obj name v) (h' : Exported heap obj name v') :
    v = v' := by
  obtain ⟨key, hkey, hown⟩ := h
  obtain ⟨key', hkey', hown'⟩ := h'
  obtain rfl := toUInt16_inj (hkey.trans hkey'.symm)
  exact Option.some.inj (hown.symm.trans hown')

/-- What `pipe` reads has a value in these bindings. -/
inductive Reads (env : Env) : Expression → JSValue → Prop
  | undefined : Reads env (.identifier (jsString "undefined")) .undefined
  | binding {name : JSString} {v : JSValue} : name ≠ jsString "undefined" →
      env.lookup name = some v → Reads env (.identifier name) v
  | string {value : JSString} {key : CString} : key.map (·.toUInt16) = value →
      Reads env (.stringLiteral value) (.string key)

theorem Reads.unique (h : Reads env e v) (h' : Reads env e v') : v = v' := by
  cases h with
  | undefined =>
    cases h' with
    | undefined => rfl
    | binding hne => exact absurd rfl hne
  | binding hne hlookup =>
    cases h' with
    | undefined => exact absurd rfl hne
    | binding _ hlookup' => exact Option.some.inj (hlookup.symm.trans hlookup')
  | string hkey =>
    cases h' with
    | string hkey' => rw [toUInt16_inj (hkey.trans hkey'.symm)]

/-! ## One export -/

/-- The value of what is read comes on top. -/
theorem reads_run (hrun : pipeExpression e ctx = .ok ctx₁) (hplaced : act.Placed ctx ctx₁)
    (hreads : Reads env e v) (h : Stands act.target vm ctx.code.length ops refs env)
    (hroom : ops.length < stackSize) :
    ∃ vm', Run.Through (step act.host) act.InCode 1 (act.config vm) (act.config vm') ∧
      Stands act.target vm' ctx₁.code.length (v :: ops) refs env ∧ vm'.heap = vm.heap := by
  have hat : act.At ctx.code.length ops refs env (act.config vm) := ⟨vm, rfl, h⟩
  have hfree : ∀ {vm : VM}, Stands act.target vm (ctx.code.length + 1) ops refs env →
      vm.room = .ok () := fun hstands => if_neg (by rw [hstands.stackCounter]; omega)
  -- every handler leaves the heap and appends the value
  have hstep : ∀ {instruction : Instruction}, act.Has ctx.code.length instruction →
      instruction.opcode ≠ .ret → ctx₁.code.length = ctx.code.length + 1 →
      (∀ vm, Stands act.target vm (ctx.code.length + 1) ops refs env →
        execSlot act.host instruction.loaded vm = Prog.ofExcept (vm.append v)) →
      ∃ vm', Run.Through (step act.host) act.InCode 1 (act.config vm) (act.config vm') ∧
        Stands act.target vm' ctx₁.code.length (v :: ops) refs env ∧ vm'.heap = vm.heap := by
    intro instruction hhas hret hlength hexec
    have hexecutes := Activation.executes hhas hret h.holds
    have hstands := h.setCounter (ctx.code.length + 1)
    obtain ⟨vm', happend, hheap, hstands'⟩ := hstands.append_heap hroom v
    have hnext := step_of_executes act.host hexecutes act.frames
    rw [h.counter, hexec _ hstands, happend] at hnext
    exact ⟨vm', .single (hat.inCode hhas) hnext, hlength ▸ hstands', hheap⟩
  cases hreads with
  | undefined =>
    obtain rfl : ctx.addInstruction .ldUndf = ctx₁ := Except.ok.inj hrun
    refine hstep hplaced.added (by decide) (addInstruction_length _ _) fun vm hstands => ?_
    show Prog.ofExcept (vm.push .undefined) = _
    rw [VM.push, hfree hstands]
    rfl
  | @binding name _ hne hlookup =>
    have hlocal : pipeIdentifier name ctx = ctx.addNamed .loadLocal name := if_neg hne
    obtain rfl : ctx.addNamed .loadLocal name = ctx₁ := hlocal.symm.trans (Except.ok.inj hrun)
    obtain ⟨hhas, hname⟩ := hplaced.named
    refine hstep hhas (by rintro ⟨⟩) (addInstruction_length _ _) fun vm hstands => ?_
    obtain ⟨key, hload, hkey⟩ := hstands.loadStr hname
    have hfound := hstands.bindings.lookup hkey
    rw [hlookup] at hfound
    show Prog.ofExcept (instLoadLocal (UInt16.ofNat _) vm) = _
    rw [instLoadLocal_eq (hstands.stackCounter ▸ hroom), hload, Fallible.ok_bind,
      scopeContains_of_chain hstands.chain, scopeGet_of_chain hstands.chain, hfound]
    rfl
  | @string value key hkey =>
    obtain rfl : ctx.addNamed .ldString value = ctx₁ := Except.ok.inj hrun
    obtain ⟨hhas, hname⟩ := hplaced.named
    refine hstep hhas (by rintro ⟨⟩) (addInstruction_length _ _) fun vm hstands => ?_
    obtain ⟨key', hload, hkey'⟩ := hstands.loadStr hname
    obtain rfl := toUInt16_inj (hkey'.trans hkey.symm)
    show Prog.ofExcept (instLdString (UInt16.ofNat _) vm) = _
    rw [instLdString, hfree hstands]
    simp only [Fallible.ok_bind, hload]

/-- The top of the stack is stored in the exports object. -/
theorem exportAs_run (hplaced : act.Placed ctx (ctx.addNamed .exportAs name))
    (h : Stands act.target vm ctx.code.length (v :: ops) refs env)
    (hlt : act.target.module.exports < vm.heap.objects.length)
    (hopen : NoAccessor vm.heap act.target.module.exports name) :
    ∃ vm' key, Run.Through (step act.host) act.InCode 1 (act.config vm) (act.config vm') ∧
      Stands act.target vm' (ctx.addNamed .exportAs name).code.length ops refs env ∧
      key.map (·.toUInt16) = name ∧
      vm'.heap = vm.heap.putProperty act.target.module.exports (.string key) v := by
  obtain ⟨hhas, hname⟩ := hplaced.named
  have hat : act.At ctx.code.length (v :: ops) refs env (act.config vm) := ⟨vm, rfl, h⟩
  have hexecutes := Activation.executes hhas (fun h => nomatch h) h.holds
  have hstands := h.setCounter (ctx.code.length + 1)
  obtain ⟨key, hload, hkey⟩ := hstands.drop.loadStr hname
  have hwrite := objectWriteProperty_of_own hlt (hopen key hkey) v
  have hnext := step_of_executes act.host hexecutes act.frames
  have hcurrent : ((vm.setCounter (ctx.code.length + 1)).drop 1).currentModule =
      .ok act.target.module := by
    rw [VM.currentModule, hstands.drop.module_eq]
  have hneed : (vm.setCounter (ctx.code.length + 1)).need 1 = .ok () :=
    if_neg (by rw [hstands.stackCounter, List.length_cons]; omega)
  have hexec : execSlot act.host (Instruction.loaded (.exportAs (ctx.registerString name).1))
      (vm.setCounter (ctx.code.length + 1)) =
      .done { (vm.setCounter (ctx.code.length + 1)).drop 1 with
        heap := vm.heap.putProperty act.target.module.exports (.string key) v } := by
    show instExport act.host (UInt16.ofNat _) _ = _
    rw [instExport, hneed]
    simp only [Fallible.ok_bind, slot_top hstands.operands hstands.counter_le, hload, hcurrent]
    show Prog.after (objectWriteProperty vm.heap _ _ _) _ = _
    rw [hwrite]
    rfl
  rw [h.counter, hexec] at hnext
  refine ⟨_, key, .single (hat.inCode hhas) hnext, ?_, hkey, rfl⟩
  rw [show (ctx.addNamed .exportAs name).code.length = ctx.code.length + 1 from
    addInstruction_length _ _]
  exact hstands.drop.setHeap rfl hstands.chain hstands.bindings

/-! ## All exports -/

/-- The machine is in front of exports under the given names: there is room for a value, and
no accessor is in the way. -/
structure Ready (target : Target) (vm : VM) (pc : ℕ) (ops : List JSValue) (refs : List ScopeRef)
    (env : Env) (names : List JSString) : Prop where
  stands : Stands target vm pc ops refs env
  exports_lt : target.module.exports < vm.heap.objects.length
  isOpen : ∀ name ∈ names, NoAccessor vm.heap target.module.exports name

/-- The exports object is as it was but for the given names. -/
def KeepsOthers (heap heap' : Heap) (obj : ObjectRef) (names : List JSString) : Prop :=
  ∀ key : CString, key.map (·.toUInt16) ∉ names →
    heap'.own obj (.string key) = heap.own obj (.string key)

theorem putProperty_exported {key : CString} (hlt : obj < heap.objects.length)
    (hkey : key.map (·.toUInt16) = name) : Exported (heap.putProperty obj (.string key) v) obj name v := by
  refine ⟨key, hkey, ?_⟩
  rw [own_putProperty hlt, Store.write, if_pos ⟨rfl, rfl⟩]

theorem putProperty_keepsOthers {key : CString} (hlt : obj < heap.objects.length)
    (hkey : key.map (·.toUInt16) = name) :
    KeepsOthers heap (heap.putProperty obj (.string key) v) obj [name] := by
  intro key' hkey'
  rw [own_putProperty hlt, Store.write, if_neg]
  rintro ⟨-, heq⟩
  obtain rfl := PropertyKey.string.inj heq
  exact hkey' (List.mem_singleton.mpr hkey)

theorem KeepsOthers.noAccessor {heap' : Heap} {names : List JSString}
    (h : KeepsOthers heap heap' obj names) (hnot : name ∉ names) (hopen : NoAccessor heap obj name) :
    NoAccessor heap' obj name := by
  intro key hkey getter setter
  rw [h key (hkey ▸ hnot)]
  exact hopen key hkey getter setter

theorem KeepsOthers.exported {heap' : Heap} {names : List JSString}
    (h : KeepsOthers heap heap' obj names) (hnot : name ∉ names) (hexported : Exported heap obj name v) :
    Exported heap' obj name v := by
  obtain ⟨key, hkey, hown⟩ := hexported
  exact ⟨key, hkey, (h key (hkey ▸ hnot)).trans hown⟩

/-- The run lemma: the machine goes through the pairs, and each name holds what was read
for it. -/
theorem pipeReads_run {pairs : List (Expression × JSString)} (hrun : pipeReads pairs ctx = .ok ctx')
    (hplaced : act.Placed ctx ctx') (hreads : ∀ pair ∈ pairs, ∃ v, Reads env pair.1 v)
    (hnodup : (pairs.map Prod.snd).Nodup) (hroom : ops.length < stackSize)
    (h : Ready act.target vm ctx.code.length ops refs env (pairs.map Prod.snd)) :
    ∃ n vm', Run.Through (step act.host) act.InCode n (act.config vm) (act.config vm') ∧
      Stands act.target vm' ctx'.code.length ops refs env ∧
      (∀ pair ∈ pairs, ∃ v, Reads env pair.1 v ∧
        Exported vm'.heap act.target.module.exports pair.2 v) ∧
      KeepsOthers vm.heap vm'.heap act.target.module.exports (pairs.map Prod.snd) := by
  induction pairs generalizing ctx vm with
  | nil =>
    obtain rfl := Except.ok.inj hrun
    exact ⟨0, vm, .refl _, h.stands, fun _ hmem => absurd hmem List.not_mem_nil, fun _ _ => rfl⟩
  | cons pair pairs ih =>
    obtain ⟨ctx₁, hread, hrest⟩ := pipeReads_cons.mp hrun
    obtain ⟨v, hv⟩ := hreads pair List.mem_cons_self
    obtain ⟨hnot, hnodup'⟩ := List.nodup_cons.mp hnodup
    have hextends := extends_node (n := .expression pair.1) hread
    have hothers := (Extends.addNamed ctx₁ .exportAs pair.2).trans (extends_reads hrest)
    -- the pair in front: read, then export
    obtain ⟨vm₁, hfirst, hstands₁, hheap₁⟩ := reads_run hread (hplaced.first hothers) hv h.stands hroom
    have hlt₁ : act.target.module.exports < vm₁.heap.objects.length := hheap₁ ▸ h.exports_lt
    obtain ⟨vm₂, key, hsecond, hstands₂, hkey, hheap₂⟩ := exportAs_run
      ((hplaced.second hextends).first (extends_reads hrest)) hstands₁ hlt₁
      (hheap₁ ▸ h.isOpen pair.2 List.mem_cons_self)
    rw [hheap₁] at hheap₂
    have hkeeps : KeepsOthers vm.heap vm₂.heap act.target.module.exports [pair.2] :=
      hheap₂ ▸ putProperty_keepsOthers h.exports_lt hkey
    have hexported : Exported vm₂.heap act.target.module.exports pair.2 v :=
      hheap₂ ▸ putProperty_exported h.exports_lt hkey
    have hready : Ready act.target vm₂ (ctx₁.addNamed .exportAs pair.2).code.length ops refs env
        (pairs.map Prod.snd) := by
      refine ⟨hstands₂, ?_, fun name hname => ?_⟩
      · rw [hheap₂, putProperty_length]
        exact h.exports_lt
      · refine hkeeps.noAccessor (fun heq => ?_) (h.isOpen name (List.mem_cons_of_mem _ hname))
        obtain rfl := List.mem_singleton.mp heq
        exact hnot hname
    obtain ⟨n, vm', hthird, hstands', hvalues, hkeeps'⟩ := ih hrest
      (hplaced.second (hextends.trans (Extends.addNamed ctx₁ .exportAs pair.2)))
      (fun p hp => hreads p (List.mem_cons_of_mem _ hp)) hnodup' hready
    refine ⟨_, vm', (hfirst.trans hsecond).trans hthird, hstands', fun p hp => ?_, fun key hkey => ?_⟩
    · rcases List.mem_cons.mp hp with rfl | hp
      · exact ⟨v, hv, hkeeps'.exported hnot hexported⟩
      · exact hvalues p hp
    · rw [List.map_cons, List.mem_cons, not_or] at hkey
      rw [hkeeps' key hkey.2, hkeeps key (fun heq => hkey.1 (List.mem_singleton.mp heq))]

/-! ## Functions -/

theorem lookup_declare {env' : Env} (h : env.declare name v = some env') :
    env'.lookup name = some v := by
  cases env with
  | nil => cases h
  | cons scope rest =>
    obtain rfl := Option.some.inj h
    rw [Env.lookup, List.findSome?_cons, Function.update_self]

theorem Matches.congr {heap' : Heap} (h : Matches heap refs env)
    (hsame : ∀ ref ∈ refs, heap'.binding ref = heap.binding ref) : Matches heap' refs env := by
  induction h with
  | nil => exact .nil
  | @cons ref scope refs env hbinds _ ih =>
    refine .cons (fun key => ?_) (ih fun r hr => hsame r (List.mem_cons_of_mem _ hr))
    rw [hsame ref List.mem_cons_self]
    exact hbinds key

theorem own_of_objects {heap' : Heap} (h : heap.objects <+: heap'.objects)
    (hlt : obj < heap.objects.length) : heap'.own obj = heap.own obj := by
  obtain ⟨new, hnew⟩ := h
  funext key
  unfold Heap.own
  rw [← hnew, List.getElem?_append_left hlt]

theorem Stands.funcDecl {target : Target} {idx : ℕ} (size : UInt16)
    (h : Stands target vm pc ops refs env) (hname : target.strings[idx]? = some name)
    (hroom : ops.length < stackSize) :
    ∃ vm' function env', instFuncDecl (some (UInt16.ofNat idx)) size vm = .ok vm' ∧
      env.declare name (.func function) = some env' ∧
      Stands target vm' (pc + size.toNat) (.func function :: ops) refs env' ∧
      vm.heap.objects <+: vm'.heap.objects := by
  obtain ⟨key, hload, hkey⟩ := h.loadStr hname
  obtain ⟨rest, hrefs⟩ : ∃ rest, refs = vm.scope :: rest := by
    cases h.chain with
    | last => exact ⟨[], rfl⟩
    | next => exact ⟨_, rfl⟩
  have hscope : vm.scope < vm.heap.scopes.length :=
    h.chain.lt_length (hrefs ▸ List.mem_cons_self)
  obtain ⟨vm', function, hexec, hmodule, hscope', hcounter, hoperands, hheap⟩ :=
    instFuncDecl_named size (h.stackCounter ▸ hroom) hscope hload
  -- the heap with the new function, before it is declared
  obtain ⟨hscopes, hmodules⟩ := functionCreateFunction_keeps vm.heap vm.scope vm.module
    vm.stats.instructionCounter (vm.stats.instructionCounter + size.toNat)
  have hobjects := functionCreateFunction_objects vm.heap vm.scope vm.module
    vm.stats.instructionCounter (vm.stats.instructionCounter + size.toNat)
  generalize functionCreateFunction _ _ _ _ _ = created at hheap hscopes hmodules hobjects
  have hextends : vm.heap.scopes <+: created.1.scopes := hscopes ▸ List.prefix_append _ _
  obtain ⟨hchain, hsame⟩ := Heap.SameBindings.of_extended hextends refs h.chain
  have hmatches := h.bindings.congr hsame
  obtain ⟨env', hdeclare⟩ : ∃ env', env.declare name (.func function) = some env' := by
    rw [hrefs] at hmatches
    cases hmatches with
    | cons => exact ⟨_, rfl⟩
  refine ⟨vm', function, env', hexec, hdeclare, ⟨h.loads, ?_, ?_, ?_, hroom, ?_, ?_⟩, ?_⟩
  · rw [hmodule, hheap]
    show created.1.modules[vm.module]? = _
    rw [hmodules]
    exact h.module_eq
  · rw [hcounter, h.counter]
  · rw [hoperands, h.operands]
  · rw [hscope', hheap]
    exact putBinding_chain _ hchain
  · rw [hheap]
    subst hrefs
    exact hmatches.declare hchain.nodup (Nat.lt_of_lt_of_le hscope hextends.length_le) hkey hdeclare
  · rw [hheap]
    exact hobjects

/-- A function declaration: the name is declared, and the function is on top. -/
theorem funcDecl_run {params : List (Option JSString)} {body : Block} {names : List JSString}
    (hrun : pipeFunction (.mk (some name) params body) ctx = .ok ctx') (hplaced : act.Placed ctx ctx')
    (hroom : ops.length < stackSize)
    (h : Ready act.target vm ctx.code.length ops refs env names) :
    ∃ vm' function env', Run.Through (step act.host) act.InCode 1 (act.config vm) (act.config vm') ∧
      env.declare name (.func function) = some env' ∧
      Ready act.target vm' ctx'.code.length (.func function :: ops) refs env' names ∧
      vm.heap.objects <+: vm'.heap.objects := by
  obtain ⟨idx, hlt, hget, hstring⟩ := funcDecl_emitted hrun
  have hhas := hplaced.get (Nat.le_refl _) hget
  have hat : act.At ctx.code.length ops refs env (act.config vm) := ⟨vm, rfl, h.stands⟩
  have hsize : (UInt16.ofNat (ctx'.code.length - ctx.code.length - 1)).toNat =
      ctx'.code.length - ctx.code.length - 1 := by
    have hbound := hplaced.lt h.stands.loads
    rw [UInt16.toNat_ofNat', Nat.mod_eq_of_lt (by omega)]
  obtain ⟨vm', function, env', hexec, hdeclare, hstands, hobjects⟩ :=
    (h.stands.setCounter (ctx.code.length + 1)).funcDecl
      (UInt16.ofNat (ctx'.code.length - ctx.code.length - 1)) (hplaced.string hstring) hroom
  have hend : ctx.code.length + 1 + (UInt16.ofNat (ctx'.code.length - ctx.code.length - 1)).toNat =
      ctx'.code.length := by omega
  rw [hend] at hstands
  have hstep := step_of_executes act.host
    (Activation.executes hhas (fun h => nomatch h) h.stands.holds) act.frames
  rw [h.stands.counter] at hstep
  refine ⟨vm', function, env', .single (hat.inCode hhas) (hstep.trans ?_), hdeclare, ⟨hstands, ?_, ?_⟩,
    hobjects⟩
  · exact congrArg (fun result => some (Config.mk (Prog.ofExcept result) (act.frame :: act.frames)))
      hexec
  · exact Nat.lt_of_lt_of_le h.exports_lt hobjects.length_le
  · intro name hname key hkey getter setter
    rw [own_of_objects hobjects h.exports_lt]
    exact h.isOpen name hname key hkey getter setter

end AtomixJS.Compiler
