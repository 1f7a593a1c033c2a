import ShiftReduce.Follow

/-!
The FIRST and FOLLOW sets of a grammar, and questions about them.

A question names a symbol or gives the symbol itself. A bare name is classified first; that of the
synthetic start symbol stands for that symbol.
-/

namespace ShiftReduce

structure Sets where
  grammar : Grammar
  first : Facts
  follow : Facts
  deriving DecidableEq

namespace Grammar

def sets (g : Grammar) : Except Undeclared Sets :=
  match g.firstFacts with
  | .error e => .error e
  | .ok first =>
    match g.followFacts first with
    | .error e => .error e
    | .ok follow => .ok ⟨g, first, follow⟩

end Grammar

inductive QueryError where
  | unknownNonterminal (name : String)
  | undeclared (u : Undeclared)
  deriving DecidableEq

namespace QueryError

def message : QueryError → String
  | unknownNonterminal name => "Unknown non-terminal: " ++ name
  | undeclared u => u.name

end QueryError

namespace Sets

def firstOf (s : Sets) (symbols : List Symbol) : Except Undeclared (List Symbol) :=
  firstOfString s.grammar.names s.first symbols

def nonterminal (s : Sets) (name : String) : Except QueryError Nonterminal :=
  match s.grammar.nonterminal? name with
  | some n => .ok n
  | none => .error (.unknownNonterminal name)

def resolve (s : Sets) : Designator → Except QueryError Symbol
  | .symbol (.nonterminal n) => (s.nonterminal n).map Nonterminal.symbol
  | .symbol other => .ok other
  | .name n =>
    if n = Symbol.startName then (s.nonterminal n).map Nonterminal.symbol
    else match Symbol.ofName n with
      | .nonterminal m => (s.nonterminal m).map Nonterminal.symbol
      | .token m => .ok ((Dictionary.get? s.grammar.tokens m).getD (.token m))
      | other => .ok other

def firstSet (s : Sets) (d : Designator) : Except QueryError (List Symbol) :=
  match s.resolve d with
  | .error e => .error e
  | .ok symbol =>
    match firstOfSymbol s.grammar.names s.first symbol with
    | .error e => .error (.undeclared e)
    | .ok found => .ok found

/-- Only the name counts here, whatever the kind of the symbol. -/
def followSet (s : Sets) (d : Designator) : Except QueryError (List Symbol) :=
  (s.nonterminal d.text).map fun n => s.follow.of n.name

/-- The bodies of a nonterminal without epsilon. -/
def alternatives (s : Sets) (d : Designator) : Except QueryError (List (List String)) :=
  (s.nonterminal d.text).map fun n =>
    n.productions.map fun p => p.reducedBody.map Symbol.name

end Sets

/-- The names of some symbols, sorted and each once. -/
def sortedNames (symbols : List Symbol) : List String :=
  ((Symbol.sort symbols).map Symbol.name).eraseDups

end ShiftReduce
