import ShiftReduce.Source.Declared
import ShiftReduce.Source.Reader

/-!
Where a grammar comes from: a value that says it, nonterminals that refer to one another, or a
source that throws when it is asked for them.
-/

namespace ShiftReduce

inductive Source where
  | written (value : Datum)
  /-- A mapping that throws behind some of its entries when it is gone through. -/
  | broken (entries : List (Datum × Datum)) (stop : Raised)
  | declared (s : DeclaredSource)
  | failing (r : Raised)

inductive LoadError where
  | read (e : ReadError)
  | duplicate (d : DuplicateName)
  | raised (r : Raised)

namespace Source

/-- The grammar of a source. A mapping that breaks off does so while its heads are checked. -/
def load : Source → Except LoadError Grammar
  | written value => (Grammar.ofDatum value).mapError .read
  | broken entries stop =>
    match entries.mapM fun entry => Mapping.readHead entry.1 entry.2 with
    | .error r => .error (.read (.refused r))
    | .ok _ => .error (.raised stop)
  | declared s => s.load.mapError .duplicate
  | failing r => .error (.raised r)

end Source

end ShiftReduce
