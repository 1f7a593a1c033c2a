import ShiftReduce.Table.Filling

/-!
SLR(1) parsing tables.

A table holds the sets and the automaton of its grammar, a row for every state, and the conflicts
in which a reduction gave way. Outside it is known by the codes of its rows and by the reductions
that they number.
-/

namespace ShiftReduce

structure Table where
  sets : Sets
  collection : Collection
  rows : List Row
  conflicts : List Conflict
  deriving DecidableEq

inductive TableError where
  | undeclared (u : Undeclared)
  /-- Filling the rows of so many states came to a halt. -/
  | halted (states : Nat) (h : Halt)
  deriving DecidableEq

/-- The names of the symbols that a numbered production reduces, and that of its head. -/
structure Reduction where
  number : Nat
  body : List String
  head : String
  deriving DecidableEq

namespace Grammar

def table (g : Grammar) : Except TableError Table :=
  match g.sets with
  | .error e => .error (.undeclared e)
  | .ok sets =>
    let collection := g.collection
    match fillRows sets 0 [] (collection.states.zip collection.transitions) with
    | .error h => .error (.halted collection.size h)
    | .ok (rows, conflicts) => .ok ⟨sets, collection, rows, conflicts⟩

def reductions (g : Grammar) : List Reduction :=
  g.productions.filterMap fun p =>
    p.number?.map fun n => ⟨n, p.body.map Symbol.name, p.head⟩

end Grammar

namespace Table

def grammar (t : Table) : Grammar := t.sets.grammar

/-- The transitions on nonterminals. -/
def gotos (t : Table) : List Transitions :=
  t.collection.transitions.map fun row => row.filter fun entry => entry.1.isNonterminal

def action? (t : Table) (state : Nat) (name : String) : Option Action :=
  match t.rows[state]? with
  | some row => Row.named? row name
  | none => none

def codes (t : Table) : List (Dictionary String Code) :=
  t.rows.map Row.codes

/-- The codes as texts, those of a state under the text of a shift to it. -/
def exported (t : Table) : Dictionary String (Dictionary String String) :=
  Dictionary.ofList (t.codes.mapIdx fun k row =>
    ((Code.shift k).text, row.map fun entry => (entry.1, entry.2.text)))

def reductions (t : Table) : List Reduction := t.grammar.reductions

end Table

end ShiftReduce
