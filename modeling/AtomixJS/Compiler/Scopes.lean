import AtomixJS.Compiler.Node
import AtomixJS.Lib.Store
import Mathlib.Data.Set.Basic

/-!
# The scopes of generated code

Names are looked up when the code runs, in a chain of scopes.  Which scopes there are
follows from the tree: a function has one for its parameters, a block that is not
virtual has one, and the program runs in that of the module.

`Declares` are the names that a node declares in the scope it is executed in: `pipe`
emits `ALLOC_LOCAL` for a variable, and `FUNC_DECL` for every function that has a name,
whether it is a declaration or an expression.  `Inside` lists the scopes between a node
and a node in it, the innermost one first.
-/

namespace AtomixJS.Compiler

/-! ## Names -/

def PatternProperty.bound? : PatternProperty → Option JSString
  | .objectProperty _ value => value
  | .restElement => none

/-- The operands of `ALLOC_LOCAL` for a declarator. -/
def DeclaratorId.names : DeclaratorId → List JSString
  | .identifier name => [name]
  | .objectPattern properties => properties.filterMap PatternProperty.bound?
  | .other _ => []

namespace SyntaxNode

/-- A node whose children run in a scope of their own. -/
def opensScope : SyntaxNode → Bool
  | .program _ | .function _ | .block (.mk false _) => true
  | _ => false

/-- The node declares a name in the scope it is executed in. -/
inductive Declares : SyntaxNode → JSString → Prop
  | declarator {id : DeclaratorId} {init : Option Expression} {name : JSString} :
      name ∈ id.names → Declares (.declarator (.mk id init)) name
  | function {name : JSString} {params : List (Option JSString)} {body : Block} :
      Declares (.function (.mk (some name) params body)) name
  | child {n c : SyntaxNode} {name : JSString} : n.opensScope = false → c ∈ n.children →
      Declares c name → Declares n name

/-- The names in the scope that a node opens. -/
def scopeNames : SyntaxNode → Set JSString
  | .function (.mk _ params body) => {name | some name ∈ params ∨ Declares (.block body) name}
  | .program body | .block (.mk _ body) => {name | ∃ item ∈ body, Declares (.item item) name}
  | _ => ∅

/-- The scope that a node opens, if it opens one. -/
def opened (n : SyntaxNode) : List (Set JSString) := if n.opensScope then [n.scopeNames] else []

/-- The scopes around a node in another one. -/
inductive Inside : SyntaxNode → List (Set JSString) → SyntaxNode → Prop
  | self (n : SyntaxNode) : Inside n [] n
  | child {n c m : SyntaxNode} {scopes : List (Set JSString)} : c ∈ n.children →
      Inside c scopes m → Inside n (scopes ++ n.opened) m

variable {n m l : SyntaxNode} {scopes scopes' : List (Set JSString)} {name : JSString}

theorem Inside.trans (h : Inside n scopes m) (h' : Inside m scopes' l) :
    Inside n (scopes' ++ scopes) l := by
  induction h with
  | self n =>
    rw [List.append_nil]
    exact h'
  | child hc _ ih =>
    rw [← List.append_assoc]
    exact .child hc (ih h')

/-- A child of a node that opens no scope is in the same scopes. -/
theorem Inside.same {c : SyntaxNode} (hn : n.opensScope = false) (hc : c ∈ n.children) :
    Inside n [] c := by
  have h := Inside.child hc (.self c)
  rwa [opened, hn] at h

theorem declares_item_iff {item : Statement} :
    Declares (.item item) name ↔ Declares (.statement item) name := by
  constructor
  · intro h
    cases h with
    | child _ hc hdeclares =>
      rwa [List.mem_singleton.mp hc] at hdeclares
  · exact .child rfl (List.mem_singleton_self _)

/-- A block with a scope of its own declares nothing outside of it. -/
theorem not_declares_block {body : List Statement} :
    ¬ Declares (.block (.mk false body)) name := by
  intro h
  cases h with
  | child hopens => cases hopens

end SyntaxNode

end AtomixJS.Compiler
