import ShiftReduce.Datum
import ShiftReduce.Symbol

/-!
What can be wrong with a written grammar, and how it is told.
-/

namespace ShiftReduce

inductive FormatError where
  | notMapping (kind : String)
  | noProductions
  | headNotText (head : Datum)
  | headNotNonterminal (head : String)
  | alternativesNotSequence (head : String) (alternatives : Datum)
  | noAlternatives (head : String)
  | alternativeNotText (head : String) (alternative : Datum)
  | emptyAlternative (head : String)
  | epsilonNotAlone (head alternative : String)
  | reservedSymbol (name head alternative : String)
  | undefinedNonterminal (name head alternative : String)
  | duplicateAlternative (head alternative : String)

namespace FormatError

/-- An alternative after its head, as it was written. -/
def written (head alternative : String) : String :=
  head ++ " ::= " ++ alternative

/-- The message, if the value that it shows has a text. -/
def message (limits : Limits) : FormatError → Except Raised String
  | notMapping kind =>
    .ok ("Grammar must be a mapping of heads to alternatives, got " ++ Text.quote kind)
  | noProductions => .ok "Grammar has no productions"
  | headNotText head =>
    (head.render limits limits.depth).map fun shown => "Head must be a string, got " ++ shown
  | headNotNonterminal head =>
    .ok ("Head is not a non-terminal name (must start with an upper case letter): " ++
      Text.quote head)
  | alternativesNotSequence head alternatives =>
    (alternatives.render limits limits.depth).map fun shown =>
      "Alternatives of " ++ head ++ " must be a sequence of strings, got " ++ shown
  | noAlternatives head => .ok ("Non-terminal " ++ head ++ " has no alternatives")
  | alternativeNotText head alternative =>
    (alternative.render limits limits.depth).map fun shown =>
      "Alternative of " ++ head ++ " must be a string, got " ++ shown
  | emptyAlternative head =>
    .ok ("Empty alternative for " ++ head ++ " (use " ++ Text.quote Symbol.epsilonName ++
      " for the empty string)")
  | epsilonNotAlone head alternative =>
    .ok (Text.quote Symbol.epsilonName ++ " must be the only symbol of an alternative: " ++
      written head alternative)
  | reservedSymbol name head alternative =>
    .ok ("Reserved symbol " ++ Text.quote name ++ " used in alternative: " ++
      written head alternative)
  | undefinedNonterminal name head alternative =>
    .ok ("Undefined non-terminal " ++ name ++ " in alternative: " ++ written head alternative)
  | duplicateAlternative head alternative =>
    .ok ("Duplicate alternative for " ++ head ++ ": " ++ Text.quote alternative)

end FormatError

/-- Why a mapping is not read: for what is wrong with it, or because one of its values throws. -/
inductive Refusal where
  | format (e : FormatError)
  | raised (r : Raised)

end ShiftReduce
