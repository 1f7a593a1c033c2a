import ShiftReduce.First

/-!
FOLLOW sets.

For an occurrence of a nonterminal in a body, FIRST of the rest of the body belongs to its FOLLOW
set, and when the rest can vanish also the FOLLOW set of the head. The passes run over all
occurrences in the order of the productions. A head that is not one of the grammar has no set to
take over.
-/

namespace ShiftReduce

/-- A nonterminal in a body of `head`, with the rest of the body. -/
structure Occurrence where
  head : String
  name : String
  rest : List Symbol
  deriving DecidableEq

def occurrences (head : String) : List Symbol → List Occurrence
  | [] => []
  | .nonterminal n :: rest => ⟨head, n, rest⟩ :: occurrences head rest
  | _ :: rest => occurrences head rest

namespace Grammar

def occurrences (g : Grammar) : List Occurrence :=
  g.augmentedProductions.flatMap fun p => ShiftReduce.occurrences p.head p.body

/-- What an occurrence takes over from its head when the rest of the body can vanish. The FOLLOW set
of a head has nothing to add to itself. -/
def inherited (g : Grammar) (f : Facts) (o : Occurrence) : Except Undeclared (List Symbol) :=
  if o.head = o.name then .ok []
  else if o.head ∈ g.names then .ok (f.of o.head)
  else .error ⟨o.head⟩

def addFollow (g : Grammar) (first : Facts) (f : Facts) (o : Occurrence) :
    Except Undeclared Facts :=
  if o.name ∈ g.names then
    match firstOfString g.names first o.rest with
    | .error e => .error e
    | .ok found =>
      match if .epsilon ∈ found then g.inherited f o else .ok [] with
      | .error e => .error e
      | .ok more => .ok (f.addAll o.name (found.filter (· ≠ .epsilon) ++ more))
  else .error ⟨o.name⟩

def followPass (g : Grammar) (first : Facts) (f : Facts) : Except Undeclared Facts :=
  g.occurrences.foldlM (addFollow g first) f

def followFacts (g : Grammar) (first : Facts) : Except Undeclared Facts :=
  saturate (fun f => g.factCount - f.length) (g.followPass first) []

end Grammar

end ShiftReduce
