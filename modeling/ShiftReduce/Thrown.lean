import ShiftReduce.Table.Build

/-!
What is thrown where a grammar is not loaded or a table not made.

The message of a format error shows the value at fault. When that value has no text, the error does
not come about, and what its text threw is thrown instead.
-/

namespace ShiftReduce

inductive Thrown where
  /-- The grammar is malformed. -/
  | format (message : String)
  | conflict (c : Clash)
  /-- A nonterminal has no FIRST or FOLLOW set. -/
  | noSet (u : Undeclared)
  | unknownNonterminal (name : String)
  /-- A list is empty of which the first is taken. -/
  | outOfRange
  /-- What is taken for granted does not hold. -/
  | unfounded
  | raised (r : Raised)
  deriving DecidableEq

def FormatError.thrown (limits : Limits) (e : FormatError) : Thrown :=
  match e.message limits with
  | .ok message => .format message
  | .error r => .raised r

def Refusal.thrown (limits : Limits) : Refusal → Thrown
  | format e => e.thrown limits
  | raised r => .raised r

def ReadError.thrown (limits : Limits) : ReadError → Thrown
  | refused r => r.thrown limits
  | noHeads => .outOfRange

def LoadError.thrown (limits : Limits) : LoadError → Thrown
  | read e => e.thrown limits
  | duplicate _ => .unfounded
  | raised r => .raised r

def TableError.thrown : TableError → Thrown
  | undeclared u => .noSet u
  | halted _ h =>
    match h.obstacle with
    | .clash c => .conflict c
    | .unknownHead name => .unknownNonterminal name
    | .unnumbered _ | .innerEndOfInput _ | .noTransition _ => .unfounded

def BuildError.thrown (limits : Limits) : BuildError → Thrown
  | load e => e.thrown limits
  | table e => e.thrown

namespace Source

/-- The grammar of a source, or what is thrown where texts are made within some limits. -/
def tryLoad (limits : Limits) (s : Source) : Except Thrown Grammar :=
  s.load.mapError (LoadError.thrown limits)

def tryTable (limits : Limits) (s : Source) : Except Thrown Table :=
  s.table.mapError (BuildError.thrown limits)

end Source

end ShiftReduce
