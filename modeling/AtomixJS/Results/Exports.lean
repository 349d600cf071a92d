import AtomixJS.Compiler.Exports
import AtomixJS.Results.StackDiscipline

/-!
# Exported values

An export should leave in the exports object what the local binding, the default
expression or the export of the other module has at that time.  `pipe` reads every name in
a list of specifiers as a local binding, also that of a re-export, and it reads the name
`undefined` as the value.  A class in a default export has become a variable declaration,
which leaves nothing to export.  All other forms carry the right values.
-/

namespace AtomixJS.Compiler

open SyntaxNode (Accepted Disciplined Within)

/-! ## What the machine should do -/

/-- What an origin comes to: in the bindings, in the exports of the source, or on top of
the stack. -/
inductive Origin.Has (heap : Heap) (source : ObjectRef) (env : Env) (top : List JSValue) :
    Origin → JSValue → Prop
  | binding {name : JSString} {v : JSValue} : env.lookup name = some v →
      Has heap source env top (.binding name) v
  | remote {name : JSString} {v : JSValue} : Exported heap source name v →
      Has heap source env top (.remote name) v
  | remotes : Has heap source env top .remotes (.object source)
  | value {v : JSValue} : top = [v] → Has heap source env top .value v

def Declarator.init? : Declarator → Option Expression
  | .mk _ init => init

/-- The expressions that are evaluated in the prologue. -/
def ExportNode.expressions : ExportNode → List Expression
  | .declaration (.variableDeclaration declarations)
  | .default (.declaration (.variableDeclaration declarations)) =>
    declarations.filterMap Declarator.init?
  | .default (.expression e) => [e]
  | _ => []

/-- The bindings when the declaration has been executed: a function has declared its
name. -/
def ExportNode.Binds (node : ExportNode) (env env' : Env) : Prop :=
  match node.function? with
  | none => env' = env
  | some name => ∃ function, env.declare name (.func function) = some env'

/-- From whatever state the machine comes to the exports in, it goes through them and
leaves under every name what the name stands for. -/
def ExportsRight (act : Activation) (node : ExportNode) (ctx ctx' : PipeContext) : Prop :=
  ∀ start, node.prologue ctx = .ok start →
    ∀ (vm : VM) (top ops : List JSValue) (refs : List ScopeRef) (env : Env) (source : ObjectRef),
      top.length = node.left → ops.length < stackSize →
      Ready act.target vm start.code.length (top ++ ops) refs env node.names →
      (node.function? = none → ∀ entry ∈ node.exports, ∃ v, entry.2.Has vm.heap source env top v) →
      ∃ n vm' env', Run.Through (step act.host) (act.InPart start.code.length ctx'.code.length) n
          (act.config vm) (act.config vm') ∧
        Stands act.target vm' ctx'.code.length ops refs env' ∧ node.Binds env env' ∧
        (∀ entry ∈ node.exports, ∃ v, entry.2.Has vm.heap source env' top v ∧
          Exported vm'.heap act.target.module.exports entry.1 v) ∧
        KeepsOthers vm.heap vm'.heap act.target.module.exports node.names

/-- The exports of a declaration carry the right values, and its code takes nothing from
the stack that it has not put there. -/
structure CarriesRight (act : Activation) (node : ExportNode) (ctx ctx' : PipeContext) : Prop where
  balanced : Region ctx ctx' 0 0
  disciplined : ∀ e ∈ node.expressions, ∀ m, Evaluated e m → Disciplined (.expression m)
  exports : ExportsRight act node ctx ctx'

/-- Nothing that is evaluated with an expression is an assignment to a pattern, for which
`pipe` emits nothing. -/
def Expression.NoPattern (e : Expression) : Prop := ∀ m, Evaluated e m → m.assignsPattern = false

/-- The declarations that are emitted rightly. -/
def ExportForm.Sound : ExportForm → Prop
  | .variableDeclaration declarations =>
    jsString "undefined" ∉ declarations.filterMap Declarator.exported? ∧
    ∀ e ∈ declarations.filterMap Declarator.init?, e.NoPattern
  | .functionDeclaration _ | .defaultFunction _ => True
  | .classDeclaration _ node => node.id ≠ some (jsString "undefined")
  | .specifiers list => ∀ specifier ∈ list, specifier.1 ≠ jsString "undefined"
  | .reexport _ list => list = []
  | .defaultExpression e => e.NoPattern
  | .defaultClass _ _ => False

variable {act : Activation} {node : ExportNode} {ctx ctx' start : PipeContext} {e m : Expression}

/-! ## The stack -/

theorem Evaluated.trans {k : Expression} (h : Evaluated e m) (h' : Evaluated m k) :
    Evaluated e k := by
  induction h with
  | self e => exact h'
  | child hc _ ih => exact .child hc (ih h')

theorem raises_of_noPattern (h : e.NoPattern) : Raises (pipeExpression e) 0 1 := by
  have hall : ∀ n : SyntaxNode, ∀ e, n = .expression e → e.NoPattern →
      Raises (pipeExpression e) 0 1 := by
    intro n
    induction n using SyntaxNode.induction with
    | h n ih =>
      rintro e rfl h
      refine raises_expression (fun c hc => ?_) (fun f _ => raises_function f) (h e (.self e))
      exact ih (.expression c) hc c rfl fun m hm => h m (.child hc hm)
  exact hall _ e rfl h

theorem disciplined_of_noPattern (h : e.NoPattern) (hm : Evaluated e m) :
    Disciplined (.expression m) := by
  have hraises : Raises (pipeExpression m) 0 1 := raises_of_noPattern fun k hk => h k (hm.trans hk)
  have hsound : SyntaxNode.Sound (.expression m) := hraises
  exact hsound.disciplined

theorem noPattern_of_disciplined (haccepted : Accepted (.expression e))
    (h : ∀ m, Evaluated e m → Disciplined (.expression m)) : e.NoPattern := by
  intro m hm
  by_contra hpattern
  exact leaks_assignment (Bool.of_not_eq_false hpattern) (haccepted.within hm.within) (h m hm)

/-! ## The parts of the code -/

/-- Variables and lists of specifiers: what is exported is read. -/
def ExportNode.isReading : ExportNode → Bool
  | .declaration (.variableDeclaration _) | .specifiers _ | .reexport _ _ => true
  | _ => false

theorem ExportNode.left_of_isReading (h : node.isReading = true) :
    node.left = 0 ∧ node.function? = none := by
  match node with
  | .declaration (.variableDeclaration _) | .specifiers _ | .reexport _ _ => exact ⟨rfl, rfl⟩

theorem reading_emitted (node : ExportNode) (h : node.isReading = true)
    (hrun : pipeStatement node.statement ctx = .ok ctx') :
    ∃ start, node.prologue ctx = .ok start ∧ pipeReads node.reads start = .ok ctx' := by
  match node with
  | .declaration (.variableDeclaration declarations) =>
    simp only [ExportNode.statement, pipeStatement, pipeDeclaration, Fallible.bind_eq_ok] at hrun
    obtain ⟨ctx₁, hdeclared, ctx₂, hexported, hnone⟩ := hrun
    obtain rfl := Except.ok.inj hnone
    exact ⟨ctx₁, hdeclared, reads_of_declarators hexported⟩
  | .specifiers list =>
    simp only [ExportNode.statement, pipeStatement] at hrun
    exact ⟨ctx, rfl, reads_of_specifiers hrun⟩
  | .reexport source list =>
    simp only [ExportNode.statement, pipeStatement] at hrun
    exact ⟨ctx, rfl, reads_of_reexport hrun⟩

theorem prologue_extends (h : node.prologue ctx = .ok start) : Extends ctx start := by
  match node with
  | .declaration (.variableDeclaration declarations)
  | .default (.declaration (.variableDeclaration declarations)) =>
    exact extends_node (n := .declaration (.variableDeclaration declarations)) h
  | .default (.declaration (.functionDeclaration (.mk none params body))) =>
    exact extends_node (n := .function (.mk none params body)) h
  | .default (.expression e) => exact extends_node (n := .expression e) h
  | .default (.declaration (.functionDeclaration (.mk (some _) _ _)))
  | .default (.declaration (.other _)) | .declaration (.functionDeclaration _)
  | .declaration (.other _) | .specifiers _ | .reexport _ _ =>
    obtain rfl := Except.ok.inj h
    exact .refl ctx

/-! ## Bindings that are read -/

/-- The binding that the name stands for is read. -/
def Faithful (pair : Expression × JSString) (entry : JSString × Origin) : Prop :=
  pair.2 = entry.1 ∧ ∃ name, pair.1 = .identifier name ∧ entry.2 = .binding name ∧
    name ≠ jsString "undefined"

theorem Faithful.reads_iff {pair : Expression × JSString} {entry : JSString × Origin} {heap : Heap}
    {source : ObjectRef} {env : Env} {top : List JSValue} {v : JSValue} (h : Faithful pair entry) :
    Reads env pair.1 v ↔ entry.2.Has heap source env top v := by
  obtain ⟨-, name, hread, horigin, hne⟩ := h
  rw [hread, horigin]
  constructor
  · rintro (_ | ⟨_, hlookup⟩)
    · exact absurd rfl hne
    · exact .binding hlookup
  · rintro ⟨hlookup⟩
    exact .binding hne hlookup

theorem exportsRight_of_faithful (hnames : node.reads.map Prod.snd = node.names)
    (hpairs : ∀ pair ∈ node.reads, ∃ entry ∈ node.exports, Faithful pair entry)
    (hentries : ∀ entry ∈ node.exports, ∃ pair ∈ node.reads, Faithful pair entry)
    (hreading : node.isReading = true) (hrun : pipeStatement node.statement ctx = .ok ctx')
    (hplaced : act.Placed ctx ctx') (hnodup : node.names.Nodup) : ExportsRight act node ctx ctx' := by
  obtain ⟨hleft, hfunction⟩ := ExportNode.left_of_isReading hreading
  obtain ⟨start₀, hprologue₀, hreads⟩ := reading_emitted node hreading hrun
  intro start hprologue vm top ops refs env source htop hroom hready hhas
  obtain rfl := Except.ok.inj (hprologue₀.symm.trans hprologue)
  obtain rfl : top = [] := List.length_eq_zero_iff.mp (htop.trans hleft)
  have hplaced' := (hplaced.second (prologue_extends hprologue₀)).restrict
  have hvalues : ∀ pair ∈ node.reads, ∃ v, Reads env pair.1 v := by
    intro pair hpair
    obtain ⟨entry, hentry, hfaithful⟩ := hpairs pair hpair
    obtain ⟨v, hv⟩ := hhas hfunction entry hentry
    exact ⟨v, hfaithful.reads_iff.mpr hv⟩
  obtain ⟨n, vm', hthrough, hstands, hexported, hkeeps⟩ := pipeReads_run hreads hplaced' hvalues
    (hnames ▸ hnodup) hroom (hnames ▸ hready)
  refine ⟨n, vm', env, hthrough, hstands, ?_, fun entry hentry => ?_, hnames ▸ hkeeps⟩
  · rw [ExportNode.Binds, hfunction]
  · obtain ⟨pair, hpair, hfaithful⟩ := hentries entry hentry
    obtain ⟨v, hv, hexport⟩ := hexported pair hpair
    exact ⟨v, hfaithful.reads_iff.mp hv, hfaithful.1 ▸ hexport⟩

/-! ## Values on the stack -/

/-- What the prologue of a default export has left is exported. -/
theorem exportsRight_of_left {name : JSString} (hleft : node.left = 1)
    (hexports : node.exports = [(name, .value)]) (hfunction : node.function? = none)
    (hrun : ∃ start, node.prologue ctx = .ok start ∧ ctx' = start.addNamed .exportAs name)
    (hplaced : act.Placed ctx ctx') : ExportsRight act node ctx ctx' := by
  obtain ⟨start₀, hprologue₀, rfl⟩ := hrun
  intro start hprologue vm top ops refs env source htop hroom hready hhas
  obtain rfl := Except.ok.inj (hprologue₀.symm.trans hprologue)
  obtain ⟨v, rfl⟩ := List.length_eq_one_iff.mp (htop.trans hleft)
  have hplaced' := (hplaced.second (prologue_extends hprologue₀)).restrict
  have hopen := hready.isOpen name (by rw [ExportNode.names, hexports]; exact List.mem_cons_self)
  obtain ⟨vm', key, hthrough, hstands, hkey, hheap⟩ :=
    exportAs_run hplaced' hready.stands hready.exports_lt hopen
  refine ⟨1, vm', env, hthrough, hstands, ?_, fun entry hentry => ?_, ?_⟩
  · rw [ExportNode.Binds, hfunction]
  · rw [hexports] at hentry
    obtain rfl := List.mem_singleton.mp hentry
    exact ⟨v, .value rfl, hheap ▸ putProperty_exported hready.exports_lt hkey⟩
  · rw [ExportNode.names, hexports, hheap]
    exact putProperty_keepsOthers hready.exports_lt hkey

/-- A function with a name is declared and exported. -/
theorem exportsRight_of_function {name exported : JSString} {params : List (Option JSString)}
    {body : Block} (hleft : node.left = 0) (hexports : node.exports = [(exported, .binding name)])
    (hfunction : node.function? = some name) (hprologue : node.prologue ctx = .ok ctx)
    (hrun : ∃ ctx₁, pipeFunction (.mk (some name) params body) ctx = .ok ctx₁ ∧
      ctx' = ctx₁.addNamed .exportAs exported)
    (hplaced : act.Placed ctx ctx') : ExportsRight act node ctx ctx' := by
  obtain ⟨ctx₁, hfunc, rfl⟩ := hrun
  intro start hstart vm top ops refs env source htop hroom hready _
  obtain rfl := Except.ok.inj (hprologue.symm.trans hstart)
  obtain rfl : top = [] := List.length_eq_zero_iff.mp (htop.trans hleft)
  have hextends := extends_node (n := .function (.mk (some name) params body)) hfunc
  have hplaced' := hplaced.restrict
  obtain ⟨vm₁, function, env', hfirst, hdeclare, hready₁, hobjects⟩ :=
    funcDecl_run hfunc (hplaced'.first (.addNamed ctx₁ _ exported)) hroom hready
  have hopen := hready₁.isOpen exported
    (by rw [ExportNode.names, hexports]; exact List.mem_cons_self)
  obtain ⟨vm', key, hsecond, hstands, hkey, hheap⟩ :=
    exportAs_run (hplaced'.second hextends) hready₁.stands hready₁.exports_lt hopen
  refine ⟨_, vm', env', hfirst.trans hsecond, hstands, ?_, fun entry hentry => ?_, ?_⟩
  · rw [ExportNode.Binds, hfunction]
    exact ⟨function, hdeclare⟩
  · rw [hexports] at hentry
    obtain rfl := List.mem_singleton.mp hentry
    exact ⟨_, .binding (lookup_declare hdeclare),
      hheap ▸ putProperty_exported hready₁.exports_lt hkey⟩
  · intro key' hkey'
    rw [ExportNode.names, hexports] at hkey'
    rw [hheap]
    exact (putProperty_keepsOthers hready₁.exports_lt hkey key' hkey').trans
      (congrFun (own_of_objects hobjects hready.exports_lt) _)

/-! ## A state that tells values apart -/

theorem objectBucketSize_pos : 0 < objectBucketSize := by decide

/-- A dictionary that holds one value under all keys of a list. -/
def dictOf (keys : List CString) (v : JSValue) : JSDict :=
  keys.foldr (fun key dict => dictPut dict key v) (dictCreateDict objectBucketSize objectBucketSize_pos)

theorem dictGet_dictOf {keys : List CString} {key : CString} {v : JSValue} (h : key ∈ keys) :
    dictGet (dictOf keys v) key = some v := by
  induction keys with
  | nil => exact absurd h List.not_mem_nil
  | cons key' keys ih =>
    show dictGet (dictPut (dictOf keys v) key' v) key = some v
    rw [dictGet_put]
    split
    · rfl
    · next hne => exact ih ((List.mem_cons.mp h).resolve_left hne)

theorem bytesOf_map (key : CString) : bytesOf (key.map (·.toUInt16)) = key := by
  have hunit : ∀ c ∈ key, ((·.toUInt8) ∘ (·.toUInt16) : UInt8 → UInt8) c = id c := by
    intro c _
    simp
  rw [bytesOf, List.map_map, List.map_congr_left hunit, List.map_id]

namespace Target

variable (target : Target)

/-- The names that the code of the target can read. -/
def Knows (name : JSString) : Prop := name = jsString "undefined" ∨ name ∈ target.strings

def keys : List CString := (jsString "undefined" :: target.strings).map bytesOf

/-- Every name is bound to `true`, and every name is exported as `null` by the object behind
the exports of the module. -/
def exporter (pc : ℕ) : VM where
  module := 0
  globalScope := 0
  scope := 0
  stats :=
    { instructionCounter := pc, stackCounter := 0, stackStart := 0, stack := fun _ => .undefined }
  heap :=
    { Heap.empty with
      scopes := [⟨none, dictOf target.keys (.boolean true)⟩]
      objects := List.replicate (target.module.exports + 1) ⟨none, dictOf [] .null⟩ ++
        [⟨none, dictOf target.keys .null⟩]
      modules := [target.module] }

/-- The other object. -/
def source : ObjectRef := target.module.exports + 1

def exporterEnv : Env := [fun name => (target.exporter 0).heap.binding 0 (bytesOf name)]

variable {target}

theorem Knows.bytes {name : JSString} (h : target.Knows name) (hloads : target.Loads) :
    (bytesOf name).map (·.toUInt16) = name ∧ bytesOf name ∈ target.keys := by
  constructor
  · rcases h with rfl | hmem
    · decide
    · obtain ⟨i, hi⟩ := List.getElem?_of_mem hmem
      obtain ⟨loaded, _, rfl⟩ := hloads.strings_eq i name hi
      rw [bytesOf_map]
  · refine List.mem_map_of_mem ?_
    rcases h with rfl | hmem
    · exact List.mem_cons_self
    · exact List.mem_cons_of_mem _ hmem

theorem lookup_exporterEnv {name : JSString} (h : target.Knows name) (hloads : target.Loads) :
    target.exporterEnv.lookup name = some (.boolean true) := by
  have hbinding : (target.exporter 0).heap.binding 0 (bytesOf name) = some (.boolean true) :=
    dictGet_dictOf (h.bytes hloads).2
  rw [Env.lookup, exporterEnv, List.findSome?_cons]
  dsimp only
  rw [hbinding]

theorem exported_source {name : JSString} (pc : ℕ) (h : target.Knows name) (hloads : target.Loads) :
    Exported (target.exporter pc).heap target.source name .null := by
  obtain ⟨hkey, hmem⟩ := h.bytes hloads
  refine ⟨bytesOf name, hkey, ?_⟩
  have hobject : (target.exporter pc).heap.objects[target.source]? =
      some ⟨none, dictOf target.keys .null⟩ := by
    have hlength : (List.replicate (target.module.exports + 1)
        (⟨none, dictOf [] .null⟩ : JSObject)).length = target.source := List.length_replicate
    show (List.replicate _ _ ++ _)[target.source]? = _
    rw [← hlength, List.getElem?_concat_length]
  rw [Heap.own, hobject]
  exact dictGet_dictOf hmem

theorem exporter_stands (hloads : target.Loads) (pc : ℕ) :
    Stands target (target.exporter pc) pc [] [0] target.exporterEnv where
  loads := hloads
  module_eq := rfl
  counter := rfl
  operands := rfl
  size := Nat.zero_le _
  chain := .last rfl rfl
  bindings := by
    refine .cons (fun key => ?_) .nil
    show _ = (target.exporter 0).heap.binding 0 (bytesOf (key.map (·.toUInt16)))
    rw [bytesOf_map]
    rfl

theorem exporter_ready (hloads : target.Loads) (pc : ℕ) (names : List JSString) :
    Ready target (target.exporter pc) pc [] [0] target.exporterEnv names where
  stands := exporter_stands hloads pc
  exports_lt := by
    show _ < (List.replicate _ _ ++ _).length
    rw [List.length_append, List.length_replicate]
    omega
  isOpen := by
    intro name _ key _ getter setter hown
    have hobject : (target.exporter pc).heap.objects[target.module.exports]? =
        some ⟨none, dictOf [] .null⟩ := by
      show (List.replicate _ _ ++ _)[target.module.exports]? = _
      rw [List.getElem?_append_left (by rw [List.length_replicate]; exact Nat.lt_succ_self _),
        List.getElem?_replicate, if_pos (Nat.lt_succ_self _)]
    rw [Heap.own, hobject] at hown
    have hempty : dictGet (dictOf [] .null) key = none := dictGet_create _ (by decide) key
    cases hempty.symm.trans hown

end Target

/-! ## Names that are not read -/

theorem reads_known {pairs : List (Expression × JSString)} {pair : Expression × JSString}
    {name : JSString} (hrun : pipeReads pairs ctx = .ok ctx') (hpair : pair ∈ pairs)
    (hread : pair.1 = .identifier name ∨ pair.1 = .stringLiteral name) :
    name = jsString "undefined" ∨ name ∈ ctx'.stable.strings := by
  induction pairs generalizing ctx with
  | nil => exact absurd hpair List.not_mem_nil
  | cons first pairs ih =>
    obtain ⟨ctx₁, hfirst, hrest⟩ := pipeReads_cons.mp hrun
    rcases List.mem_cons.mp hpair with rfl | hpair
    · by_cases hundefined : name = jsString "undefined"
      · exact .inl hundefined
      · have hadded : ∃ named, ctx₁ = ctx.addNamed named name := by
          rcases hread with hread | hread
          · rw [hread] at hfirst
            exact ⟨.loadLocal, (Except.ok.inj hfirst).symm.trans (if_neg hundefined)⟩
          · rw [hread] at hfirst
            exact ⟨.ldString, (Except.ok.inj hfirst).symm⟩
        obtain ⟨named, rfl⟩ := hadded
        have hextends := (Extends.addNamed (ctx.addNamed named name) .exportAs pair.2).trans
          (extends_reads hrest)
        have hmem := List.mem_of_getElem? (ctx.stable.registerString_getElem? name)
        exact .inr (hextends.strings.subset hmem)
    · exact ih hrest hpair

/-- What is read in that state is neither `null` nor an object. -/
theorem reads_exporter {target : Target} {name : JSString} (h : target.Knows name)
    (hloads : target.Loads) (he : e = .identifier name ∨ e = .stringLiteral name) :
    ∃ v, Reads target.exporterEnv e v ∧ v ≠ .null ∧ ∀ obj, v ≠ .object obj := by
  rcases he with rfl | rfl
  · by_cases hundefined : name = jsString "undefined"
    · exact ⟨.undefined, hundefined ▸ .undefined, nofun, nofun⟩
    · exact ⟨.boolean true, .binding hundefined (Target.lookup_exporterEnv h hloads), nofun, nofun⟩
  · exact ⟨_, .string (h.bytes hloads).1, nofun, nofun⟩

theorem Activation.not_inPart {lower : ℕ} {vm : VM} {target : Target} {pc : ℕ} {ops : List JSValue}
    {refs : List ScopeRef} {env : Env} (h : Stands target vm pc ops refs env) :
    ¬ act.InPart lower pc (act.config vm) := by
  rintro ⟨vm', heq, -, hlt⟩
  obtain rfl : vm = vm' := Prog.done.inj (congrArg Config.prog heq)
  rw [h.counter] at hlt
  exact Nat.lt_irrefl _ hlt

/-- In that state, something else is read than what a name stands for. -/
theorem not_exportsRight (hreading : node.isReading = true)
    (hrun : pipeStatement node.statement ctx = .ok ctx') (hplaced : act.Placed ctx ctx')
    (hloads : act.target.Loads) (hnames : node.reads.map Prod.snd = node.names)
    (hnodup : node.names.Nodup)
    (hreads : ∀ pair ∈ node.reads, ∃ v, Reads act.target.exporterEnv pair.1 v)
    (hhas : ∀ entry ∈ node.exports, ∃ v,
      entry.2.Has (act.target.exporter 0).heap act.target.source act.target.exporterEnv [] v)
    (pair : Expression × JSString) (entry : JSString × Origin) (hpair : pair ∈ node.reads)
    (hentry : entry ∈ node.exports) (hsame : pair.2 = entry.1)
    (hother : ∀ v, Reads act.target.exporterEnv pair.1 v →
      ¬ entry.2.Has (act.target.exporter 0).heap act.target.source act.target.exporterEnv [] v) :
    ¬ ExportsRight act node ctx ctx' := by
  intro hright
  obtain ⟨hleft, hfunction⟩ := ExportNode.left_of_isReading hreading
  obtain ⟨start, hprologue, hpairs⟩ := reading_emitted node hreading hrun
  have hready := Target.exporter_ready hloads start.code.length node.names
  have hroom : ([] : List JSValue).length < stackSize := by decide
  obtain ⟨n, vm₁, env', hthrough₁, hstands₁, hbinds, hexported₁, -⟩ := hright start hprologue
    (act.target.exporter start.code.length) [] [] [0] act.target.exporterEnv act.target.source
    hleft.symm hroom hready fun _ => hhas
  obtain rfl : env' = act.target.exporterEnv := by
    rwa [ExportNode.Binds, hfunction] at hbinds
  have hplaced' := (hplaced.second (prologue_extends hprologue)).restrict
  obtain ⟨n', vm₂, hthrough₂, hstands₂, hexported₂, -⟩ :=
    pipeReads_run hpairs hplaced' hreads (hnames ▸ hnodup) hroom (hnames ▸ hready)
  -- both runs end at the end of the code
  have hend := hthrough₁.unique hthrough₂ (Activation.not_inPart hstands₁)
    (Activation.not_inPart hstands₂)
  obtain rfl : vm₁ = vm₂ := Prog.done.inj (congrArg Config.prog hend)
  obtain ⟨v, hv, hholds⟩ := hexported₁ entry hentry
  obtain ⟨w, hw, hholds'⟩ := hexported₂ pair hpair
  obtain rfl := hholds.unique (hsame ▸ hholds')
  exact hother v hw hv

/-! ## Variables and specifiers -/

theorem knows_of_reads {pairs : List (Expression × JSString)} {pair : Expression × JSString}
    {name : JSString} (hrun : pipeReads pairs start = .ok ctx') (hplaced : act.Placed ctx ctx')
    (hpair : pair ∈ pairs) (hread : pair.1 = .identifier name ∨ pair.1 = .stringLiteral name) :
    act.target.Knows name :=
  (reads_known hrun hpair hread).imp_right fun hmem => hplaced.strings.subset hmem

theorem accepted_expressions (node : ExportNode) (hrun : pipeStatement node.statement ctx = .ok ctx')
    (he : e ∈ node.expressions) : Accepted (.expression e) := by
  have hdeclarators : ∀ declarations : List Declarator,
      Accepted (.declaration (.variableDeclaration declarations)) →
      e ∈ declarations.filterMap Declarator.init? → Accepted (.expression e) := by
    intro declarations haccepted he
    obtain ⟨⟨id, init⟩, hd, hinit⟩ := List.mem_filterMap.mp he
    have hdeclarator := haccepted.child (List.mem_map_of_mem hd)
    exact hdeclarator.child (List.mem_map_of_mem (Option.mem_toList.mpr hinit))
  have haccepted : Accepted (.statement node.statement) := ⟨ctx, ctx', hrun⟩
  match node with
  | .declaration (.variableDeclaration declarations) =>
    exact hdeclarators declarations (haccepted.child List.mem_cons_self) he
  | .default (.declaration (.variableDeclaration declarations)) =>
    exact hdeclarators declarations (haccepted.child List.mem_cons_self) he
  | .default (.expression e') =>
    obtain rfl := List.mem_singleton.mp he
    exact haccepted.child List.mem_cons_self

/-- Only identifiers are exported, and their declarators leave nothing. -/
theorem raises_exported {declarations : List Declarator}
    (hexported : declarations.foldlM pipeExportDeclarator ctx = .ok ctx')
    (h : ∀ e ∈ declarations.filterMap Declarator.init?, e.NoPattern) :
    Raises (pipeDeclarators declarations) 0 0 := by
  refine raises_declarators fun d hd => ?_
  obtain ⟨name, hname⟩ : ∃ name, d.exported? = some name := by
    clear h
    induction declarations generalizing ctx with
    | nil => exact absurd hd List.not_mem_nil
    | cons first declarations ih =>
      simp only [List.foldlM_cons, Fallible.bind_eq_ok] at hexported
      obtain ⟨ctx₁, hfirst, hrest⟩ := hexported
      rcases List.mem_cons.mp hd with rfl | hd
      · obtain ⟨id, init⟩ := d
        cases id with
        | identifier name => exact ⟨name, rfl⟩
        | objectPattern _ => cases hfirst
        | other _ => cases hfirst
      · exact ih hrest hd
  obtain ⟨id, init⟩ := d
  cases id with
  | identifier name =>
    exact raises_declarator (.identifier name) fun e he =>
      raises_of_noPattern (h e (List.mem_filterMap.mpr ⟨_, hd, he⟩))
  | objectPattern _ => cases hname
  | other _ => cases hname

theorem carries_variables {declarations : List Declarator}
    (hrun : pipeStatement (ExportNode.declaration (.variableDeclaration declarations)).statement ctx =
      .ok ctx') (hplaced : act.Placed ctx ctx') (hloads : act.target.Loads)
    (hnodup : (ExportNode.declaration (.variableDeclaration declarations)).names.Nodup) :
    CarriesRight act (.declaration (.variableDeclaration declarations)) ctx ctx' ↔
      (ExportForm.variableDeclaration declarations).Sound := by
  set node := ExportNode.declaration (.variableDeclaration declarations) with hnode
  have hnames : node.reads.map Prod.snd = node.names := by
    simp only [hnode, ExportNode.reads, ExportNode.names, ExportNode.exports, List.map_map]
    rfl
  constructor
  · intro h
    refine ⟨fun hmem => ?_, fun e he =>
      noPattern_of_disciplined (accepted_expressions node hrun he) (h.disciplined e he)⟩
    obtain ⟨start, _, hpairs⟩ := reading_emitted node rfl hrun
    have hknows : ∀ name ∈ declarations.filterMap Declarator.exported?, act.target.Knows name := by
      intro name hname
      have hpair : ((.identifier name, name) : Expression × JSString) ∈ node.reads :=
        List.mem_map_of_mem hname
      exact knows_of_reads hpairs hplaced hpair (.inl rfl)
    refine not_exportsRight rfl hrun hplaced hloads hnames hnodup (fun pair hpair => ?_)
      (fun entry hentry => ?_) (.identifier (jsString "undefined"), jsString "undefined")
      (jsString "undefined", .binding (jsString "undefined"))
      (List.mem_map_of_mem hmem) (List.mem_map_of_mem hmem) rfl (fun v hv hv' => ?_) h.exports
    · obtain ⟨name, hname, rfl⟩ := List.mem_map.mp hpair
      obtain ⟨v, hv, -⟩ := reads_exporter (hknows name hname) hloads (.inl rfl)
      exact ⟨v, hv⟩
    · obtain ⟨name, hname, rfl⟩ := List.mem_map.mp hentry
      exact ⟨_, .binding (Target.lookup_exporterEnv (hknows name hname) hloads)⟩
    · obtain rfl := hv.unique .undefined
      obtain ⟨hlookup⟩ := hv'
      rw [Target.lookup_exporterEnv (hknows _ hmem) hloads] at hlookup
      cases hlookup
  · rintro ⟨hundefined, hpattern⟩
    have hdistinct : ∀ name ∈ declarations.filterMap Declarator.exported?,
        Faithful (.identifier name, name) (name, .binding name) := fun name hname =>
      ⟨rfl, name, rfl, rfl, fun heq => hundefined (heq ▸ hname)⟩
    refine ⟨?_, fun e he m hm => disciplined_of_noPattern (hpattern e he) hm, ?_⟩
    · have hparts := hrun
      simp only [hnode, ExportNode.statement, pipeStatement, Fallible.bind_eq_ok] at hparts
      obtain ⟨ctx₁, _, ctx₂, hexported, _⟩ := hparts
      refine (keeps_exportNamed (fun d hd => ?_) (fun e he => absurd he List.not_mem_nil)
        (fun d hd hmem => absurd hmem List.not_mem_nil) hrun).balanced
      obtain rfl := Option.some.inj hd
      exact raises_exported hexported hpattern
    · refine exportsRight_of_faithful hnames (fun pair hpair => ?_) (fun entry hentry => ?_) rfl hrun
        hplaced hnodup
      · obtain ⟨name, hname, rfl⟩ := List.mem_map.mp hpair
        exact ⟨_, List.mem_map_of_mem hname, hdistinct name hname⟩
      · obtain ⟨name, hname, rfl⟩ := List.mem_map.mp hentry
        exact ⟨_, List.mem_map_of_mem hname, hdistinct name hname⟩

theorem carries_specifiers {list : List (JSString × JSString)}
    (hrun : pipeStatement (ExportNode.specifiers list).statement ctx = .ok ctx')
    (hplaced : act.Placed ctx ctx') (hloads : act.target.Loads)
    (hnodup : (ExportNode.specifiers list).names.Nodup) :
    CarriesRight act (.specifiers list) ctx ctx' ↔ (ExportForm.specifiers list).Sound := by
  set node := ExportNode.specifiers list with hnode
  have hnames : node.reads.map Prod.snd = node.names := by
    simp only [hnode, ExportNode.reads, ExportNode.names, ExportNode.exports, List.map_map]
    rfl
  constructor
  · rintro h ⟨name, exported⟩ hmem rfl
    obtain ⟨start, _, hpairs⟩ := reading_emitted node rfl hrun
    have hknows : ∀ specifier ∈ list, act.target.Knows specifier.1 := by
      intro specifier hspecifier
      have hpair : ((.identifier specifier.1, specifier.2) : Expression × JSString) ∈ node.reads :=
        List.mem_map_of_mem hspecifier
      exact knows_of_reads hpairs hplaced hpair (.inl rfl)
    refine not_exportsRight rfl hrun hplaced hloads hnames hnodup (fun pair hpair => ?_)
      (fun entry hentry => ?_) (.identifier (jsString "undefined"), exported)
      (exported, .binding (jsString "undefined"))
      (List.mem_map_of_mem hmem) (List.mem_map_of_mem hmem) rfl (fun v hv hv' => ?_) h.exports
    · obtain ⟨specifier, hspecifier, rfl⟩ := List.mem_map.mp hpair
      obtain ⟨v, hv, -⟩ := reads_exporter (hknows specifier hspecifier) hloads (.inl rfl)
      exact ⟨v, hv⟩
    · obtain ⟨specifier, hspecifier, rfl⟩ := List.mem_map.mp hentry
      exact ⟨_, .binding (Target.lookup_exporterEnv (hknows specifier hspecifier) hloads)⟩
    · obtain rfl := hv.unique .undefined
      obtain ⟨hlookup⟩ := hv'
      rw [Target.lookup_exporterEnv (hknows _ hmem) hloads] at hlookup
      cases hlookup
  · intro hsound
    have hfaithful : ∀ specifier ∈ list,
        Faithful (.identifier specifier.1, specifier.2) (specifier.2, .binding specifier.1) :=
      fun specifier hspecifier => ⟨rfl, _, rfl, rfl, hsound specifier hspecifier⟩
    refine ⟨?_, fun e he => absurd he List.not_mem_nil, ?_⟩
    · refine (keeps_exportNamed (fun d hd => absurd hd (Option.not_mem_none d)) (fun e he => ?_) (fun d hd => absurd hd (Option.not_mem_none d))
        hrun).balanced
      obtain ⟨specifier, hspecifier, he⟩ := List.mem_flatMap.mp he
      obtain ⟨specifier, -, rfl⟩ := List.mem_map.mp hspecifier
      cases List.mem_singleton.mp he
      intro ctx ctx' hrun
      obtain rfl := Except.ok.inj hrun
      exact passes_identifier _ ctx
    · refine exportsRight_of_faithful hnames (fun pair hpair => ?_) (fun entry hentry => ?_) rfl hrun
        hplaced hnodup
      · obtain ⟨specifier, hspecifier, rfl⟩ := List.mem_map.mp hpair
        exact ⟨_, List.mem_map_of_mem hspecifier, hfaithful specifier hspecifier⟩
      · obtain ⟨specifier, hspecifier, rfl⟩ := List.mem_map.mp hentry
        exact ⟨_, List.mem_map_of_mem hspecifier, hfaithful specifier hspecifier⟩

/-! ## Exports of another module -/

/-- Without a default specifier, every specifier reads something and exports it. -/
theorem reexport_accepted {list : List ReexportSpecifier}
    (hrun : pipeSpecifiers (list.map ReexportSpecifier.node) (fun _ => .error "TypeError") ctx =
      .ok ctx') : ∀ specifier ∈ list, ∃ pair, specifier.read? = some pair ∧
        pair.2 = specifier.export.1 := by
  induction list generalizing ctx with
  | nil => exact fun _ hmem => absurd hmem List.not_mem_nil
  | cons first list ih =>
    intro specifier hspecifier
    cases first with
    | named isString imported exported =>
      simp only [List.map_cons, ReexportSpecifier.node, pipeSpecifiers, Fallible.bind_eq_ok] at hrun
      obtain ⟨ctx₁, _, hrest⟩ := hrun
      rcases List.mem_cons.mp hspecifier with rfl | hspecifier
      · exact ⟨_, rfl, rfl⟩
      · exact ih hrest specifier hspecifier
    | all exported =>
      rcases List.mem_cons.mp hspecifier with rfl | hspecifier
      · exact ⟨_, rfl, rfl⟩
      · exact ih hrun specifier hspecifier
    | default exported => cases hrun

theorem reexport_names {list : List ReexportSpecifier}
    (h : ∀ specifier ∈ list, ∃ pair, specifier.read? = some pair ∧
      pair.2 = specifier.export.1) :
    (list.filterMap ReexportSpecifier.read?).map Prod.snd =
      (list.map ReexportSpecifier.export).map Prod.fst := by
  induction list with
  | nil => rfl
  | cons specifier list ih =>
    obtain ⟨pair, hread, hname⟩ := h specifier List.mem_cons_self
    rw [List.filterMap_cons_some hread, List.map_cons, List.map_cons, List.map_cons, hname,
      ih fun s hs => h s (List.mem_cons_of_mem _ hs)]

theorem carries_reexport {source : JSString} {list : List ReexportSpecifier}
    (hrun : pipeStatement (ExportNode.reexport source list).statement ctx = .ok ctx')
    (hplaced : act.Placed ctx ctx') (hloads : act.target.Loads)
    (hnodup : (ExportNode.reexport source list).names.Nodup) :
    CarriesRight act (.reexport source list) ctx ctx' ↔ list = [] := by
  set node := ExportNode.reexport source list with hnode
  have hparts : pipeSpecifiers (list.map ReexportSpecifier.node) (fun _ => .error "TypeError") ctx =
      .ok ctx' := by
    rw [← hrun, hnode, ExportNode.statement, pipeStatement]
  have haccepted := reexport_accepted hparts
  have hnames : node.reads.map Prod.snd = node.names := reexport_names haccepted
  have hpairs : pipeReads node.reads ctx = .ok ctx' := reads_of_reexport hparts
  constructor
  · intro h
    by_contra hne
    obtain ⟨first, hfirst⟩ := List.exists_mem_of_ne_nil _ hne
    -- what a specifier reads, and that it is not what it stands for
    have hspecifier : ∀ specifier ∈ list, ∃ pair, specifier.read? = some pair ∧
        pair.2 = specifier.export.1 ∧ (∃ v, Reads act.target.exporterEnv pair.1 v ∧
          ¬ specifier.export.2.Has (act.target.exporter 0).heap act.target.source
            act.target.exporterEnv [] v) ∧
        ∃ v, specifier.export.2.Has (act.target.exporter 0).heap act.target.source
          act.target.exporterEnv [] v := by
      intro specifier hmem
      obtain ⟨pair, hread, hname⟩ := haccepted specifier hmem
      have hpair : pair ∈ node.reads := List.mem_filterMap.mpr ⟨specifier, hmem, hread⟩
      refine ⟨pair, hread, hname, ?_⟩
      cases specifier with
      | named isString imported exported =>
        obtain rfl := Option.some.inj hread
        have he : (if isString then Expression.stringLiteral imported else .identifier imported) =
            .identifier imported ∨ (if isString then Expression.stringLiteral imported
              else .identifier imported) = .stringLiteral imported := by
          cases isString with
          | true => exact .inr rfl
          | false => exact .inl rfl
        have hknows := knows_of_reads hpairs hplaced hpair he
        have hnull := Target.exported_source 0 hknows hloads
        obtain ⟨v, hv, hneNull, -⟩ := reads_exporter hknows hloads he
        refine ⟨⟨v, hv, ?_⟩, .null, .remote hnull⟩
        intro hhas
        cases hhas with
        | remote hremote => exact hneNull (hremote.unique hnull)
      | all exported =>
        obtain rfl := Option.some.inj hread
        have hknows := knows_of_reads hpairs hplaced hpair (.inl rfl)
        obtain ⟨v, hv, -, hneObject⟩ := reads_exporter hknows hloads (.inl rfl)
        refine ⟨⟨v, hv, ?_⟩, _, .remotes⟩
        intro hhas
        cases hhas with
        | remotes => exact hneObject _ rfl
      | default exported => cases hread
    obtain ⟨pair, hread, hname, ⟨v, hv, hother⟩, -⟩ := hspecifier first hfirst
    refine not_exportsRight rfl hrun hplaced hloads hnames hnodup (fun pair hpair => ?_)
      (fun entry hentry => ?_) pair first.export (List.mem_filterMap.mpr ⟨first, hfirst, hread⟩)
      (List.mem_map_of_mem hfirst) hname (fun w hw => hv.unique hw ▸ hother) h.exports
    · obtain ⟨specifier, hmem, hread'⟩ := List.mem_filterMap.mp hpair
      obtain ⟨pair', hread'', -, ⟨v, hv, -⟩, -⟩ := hspecifier specifier hmem
      obtain rfl := Option.some.inj (hread'.symm.trans hread'')
      exact ⟨v, hv⟩
    · obtain ⟨specifier, hmem, rfl⟩ := List.mem_map.mp hentry
      obtain ⟨_, _, _, _, hhas⟩ := hspecifier specifier hmem
      exact hhas
  · rintro rfl
    refine ⟨?_, fun e he => absurd he List.not_mem_nil, ?_⟩
    · obtain rfl := Except.ok.inj hparts
      exact (Passes.refl ctx 0).emits.balanced
    · exact exportsRight_of_faithful hnames (fun pair hpair => absurd hpair List.not_mem_nil)
        (fun entry hentry => absurd hentry List.not_mem_nil) rfl hrun hplaced hnodup

/-! ## Default exports and functions -/

theorem carries_defaultExpression
    (hrun : pipeStatement (ExportNode.default (.expression e)).statement ctx = .ok ctx')
    (hplaced : act.Placed ctx ctx') :
    CarriesRight act (.default (.expression e)) ctx ctx' ↔ e.NoPattern := by
  constructor
  · intro h
    exact noPattern_of_disciplined
      (accepted_expressions (.default (.expression e)) hrun (List.mem_singleton_self e))
      (h.disciplined e (List.mem_singleton_self e))
  · intro h
    simp only [ExportNode.statement, pipeStatement, Fallible.bind_eq_ok, Fallible.pure_eq_ok] at hrun
    obtain ⟨start, hvalue, rfl⟩ := hrun
    refine ⟨((raises_of_noPattern h hvalue).trans (passes_export _)).emits.balanced,
      fun e' he m hm => ?_, ?_⟩
    · obtain rfl := List.mem_singleton.mp he
      exact disciplined_of_noPattern h hm
    · exact exportsRight_of_left rfl rfl rfl ⟨start, hvalue, rfl⟩ hplaced

theorem carries_defaultFunction {f : FunctionNode}
    (hrun : pipeStatement (ExportNode.default (.declaration (.functionDeclaration f))).statement ctx =
      .ok ctx') (hplaced : act.Placed ctx ctx') :
    CarriesRight act (.default (.declaration (.functionDeclaration f))) ctx ctx' := by
  simp only [ExportNode.statement, pipeStatement, pipeDeclaration, Fallible.bind_eq_ok,
    Fallible.pure_eq_ok] at hrun
  obtain ⟨start, hfunction, rfl⟩ := hrun
  refine ⟨((raises_function f hfunction).trans (passes_export _)).emits.balanced,
    fun e he => absurd he List.not_mem_nil, ?_⟩
  obtain ⟨id, params, body⟩ := f
  cases id with
  | none => exact exportsRight_of_left rfl rfl rfl ⟨start, hfunction, rfl⟩ hplaced
  | some name => exact exportsRight_of_function rfl rfl rfl rfl ⟨start, hfunction, rfl⟩ hplaced

theorem carries_function {f : FunctionNode}
    (hrun : pipeStatement (ExportNode.declaration (.functionDeclaration f)).statement ctx = .ok ctx')
    (hplaced : act.Placed ctx ctx') :
    CarriesRight act (.declaration (.functionDeclaration f)) ctx ctx' := by
  simp only [ExportNode.statement, pipeStatement, pipeDeclaration, Fallible.bind_eq_ok] at hrun
  obtain ⟨ctx₁, hfunction, ctx₂, hexported, hnone⟩ := hrun
  obtain rfl := Except.ok.inj hnone
  obtain ⟨id, params, body⟩ := f
  cases id with
  | none => cases hexported
  | some name =>
    obtain rfl := Except.ok.inj hexported
    refine ⟨((raises_function _ hfunction).trans (passes_export _)).emits.balanced,
      fun e he => absurd he List.not_mem_nil, ?_⟩
    exact exportsRight_of_function rfl rfl rfl rfl ⟨ctx₁, hfunction, rfl⟩ hplaced

/-! ## Classes -/

/-- An exported class has become a variable that is initialised with a call. -/
theorem exportedClass_eq_ok {arrays : ClassArrays} {n : ClassNode} {d : Declaration}
    (h : exportedClass arrays n = .ok d) :
    ∃ id f k, n.id = some id ∧ d = .variableDeclaration
      [.mk (.identifier id) (some (.callExpression (.functionExpression f) k []))] := by
  unfold exportedClass classDeclaration transformClass at h
  cases hid : n.id with
  | none =>
    rw [hid] at h
    cases h
  | some id =>
    rw [hid] at h
    simp only [Fallible.bind_eq_ok, Fallible.pure_eq_ok] at h
    obtain ⟨_, ⟨_, ⟨_, _, _, _, rfl⟩, rfl⟩, h⟩ := h
    exact ⟨id, _, _, rfl, (Except.ok.inj h).symm⟩

/-- The call of a function without arguments: its body is not evaluated in place. -/
theorem noPattern_call {f : FunctionNode} {k : ℕ} :
    (Expression.callExpression (.functionExpression f) k []).NoPattern := by
  intro m hm
  cases hm with
  | self => rfl
  | child hc hm =>
    cases List.mem_singleton.mp hc
    cases hm with
    | self => rfl
    | child hc => cases List.mem_singleton.mp hc

theorem not_carries_defaultClass {id : JSString} {f : FunctionNode} {k : ℕ}
    (hrun : pipeStatement (ExportNode.default (.declaration (.variableDeclaration
      [.mk (.identifier id) (some (.callExpression (.functionExpression f) k []))]))).statement ctx =
      .ok ctx') :
    ¬ CarriesRight act (.default (.declaration (.variableDeclaration
      [.mk (.identifier id) (some (.callExpression (.functionExpression f) k []))]))) ctx ctx' := by
  intro h
  refine leaks_exportDefault ?_ hrun h.balanced
  refine raises_declarators fun d hd => ?_
  cases List.mem_singleton.mp hd
  refine raises_declarator (.identifier id) fun e he => ?_
  obtain rfl := Option.some.inj he
  exact raises_of_noPattern noPattern_call

/-! ## All forms -/

/-- The exports of a declaration carry the right values exactly when its form is sound:
it exports no binding of the name `undefined` by reading it, nothing of another module, and
no class as the default, and evaluates no assignment to a pattern. -/
theorem carriesRight_iff {form : ExportForm} (hform : form.transformed = .ok node)
    (hrun : pipeStatement node.statement ctx = .ok ctx') (hplaced : act.Placed ctx ctx')
    (hloads : act.target.Loads) (hnodup : node.names.Nodup) :
    CarriesRight act node ctx ctx' ↔ form.Sound := by
  cases form with
  | variableDeclaration declarations =>
    obtain rfl := Except.ok.inj hform
    exact carries_variables hrun hplaced hloads hnodup
  | functionDeclaration f =>
    obtain rfl := Except.ok.inj hform
    exact iff_of_true (carries_function hrun hplaced) trivial
  | classDeclaration arrays n =>
    obtain ⟨d, hd, hnode⟩ := Fallible.bind_eq_ok.mp hform
    obtain rfl := Except.ok.inj hnode
    obtain ⟨id, f, k, hid, rfl⟩ := exportedClass_eq_ok hd
    rw [carries_variables hrun hplaced hloads hnodup]
    have hsound : (ExportForm.classDeclaration arrays n).Sound ↔ id ≠ jsString "undefined" := by
      show n.id ≠ _ ↔ _
      rw [hid, Ne, Option.some.injEq]
    rw [hsound]
    constructor
    · rintro ⟨hnot, -⟩ rfl
      exact hnot (List.mem_singleton_self _)
    · refine fun hne => ⟨fun hmem => hne (List.mem_singleton.mp hmem).symm, fun e he => ?_⟩
      obtain rfl := List.mem_singleton.mp he
      exact noPattern_call
  | specifiers list =>
    obtain rfl := Except.ok.inj hform
    exact carries_specifiers hrun hplaced hloads hnodup
  | reexport source list =>
    obtain rfl := Except.ok.inj hform
    exact carries_reexport hrun hplaced hloads hnodup
  | defaultExpression e =>
    obtain rfl := Except.ok.inj hform
    exact carries_defaultExpression hrun hplaced
  | defaultFunction f =>
    obtain rfl := Except.ok.inj hform
    exact iff_of_true (carries_defaultFunction hrun hplaced) trivial
  | defaultClass arrays n =>
    obtain ⟨d, hd, hnode⟩ := Fallible.bind_eq_ok.mp hform
    obtain rfl := Except.ok.inj hnode
    obtain ⟨id, f, k, _, rfl⟩ := exportedClass_eq_ok hd
    exact iff_of_false (not_carries_defaultClass hrun) not_false

/-! ## A local binding and an export of the same name -/

/-- The code of `export { a };`, and also that of `export { a } from "./m";` -/
private def exportTarget : Target where
  module := JSModule.ofCode [cString "a"] [some (.loadLocal 0), some (.exportAs 0)] one_string_lt
    (by decide)
  strings := [jsString "a"]
  code := [.loadLocal 0, .exportAs 0]
  instructions_eq := rfl

private theorem exportTarget_loads : exportTarget.Loads := by
  refine ⟨by decide, by decide, fun i s hs => ?_⟩
  cases i with
  | zero =>
    obtain rfl := Option.some.inj hs
    exact ⟨cString "a", by decide, by decide⟩
  | succ i => cases hs

private def localNode : ExportNode := .specifiers [(jsString "a", jsString "a")]

private def remoteNode : ExportNode :=
  .reexport (jsString "./m") [.named false (jsString "a") (jsString "a")]

/-- `export { a };` exports the binding. -/
theorem carriesRight_local : ∃ ctx', pipeStatement localNode.statement .empty = .ok ctx' ∧
    CarriesRight (activationOf exportTarget) localNode .empty ctx' := by
  have hform : (ExportForm.specifiers [(jsString "a", jsString "a")]).transformed = .ok localNode := rfl
  refine ⟨_, rfl, (carriesRight_iff hform rfl
    ⟨agree_extended ⟨[], rfl⟩ (Nat.le_refl _), List.prefix_rfl, Nat.le_refl _, Nat.le_refl _⟩
    exportTarget_loads (List.nodup_singleton _)).mpr ?_⟩
  intro specifier hspecifier
  obtain rfl := List.mem_singleton.mp hspecifier
  decide

/-- `export { a } from "./m";` exports the local binding as well. -/
theorem not_carriesRight_remote : ∃ ctx', pipeStatement remoteNode.statement .empty = .ok ctx' ∧
    ¬ CarriesRight (activationOf exportTarget) remoteNode .empty ctx' := by
  refine ⟨_, rfl, fun h => ?_⟩
  have hnodup : remoteNode.names.Nodup := List.nodup_singleton _
  have hnil := (carries_reexport rfl
    ⟨agree_extended ⟨[], rfl⟩ (Nat.le_refl _), List.prefix_rfl, Nat.le_refl _, Nat.le_refl _⟩
    exportTarget_loads hnodup).mp h
  cases hnil

end AtomixJS.Compiler
