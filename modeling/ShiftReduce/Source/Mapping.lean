import ShiftReduce.Grammar
import ShiftReduce.Source.Format
import ShiftReduce.Text.Blank

/-!
Grammars written as a mapping of heads to alternatives.

A head is the name of a nonterminal, its alternatives a sequence of texts, and an alternative a
list of names between blanks. All heads are checked before any alternative is read, so an
alternative may name a head that comes later. The first head is the start symbol. A sequence that
throws is left at that point.
-/

namespace ShiftReduce

abbrev Mapping := Dictionary Datum Datum

/-- What a mapping says: its declarations in order, and the tokens in order of first use. -/
structure Reading where
  declarations : List Declaration
  tokens : List Symbol
  deriving DecidableEq

namespace Mapping

def ofDatum : Datum → Except FormatError Mapping
  | .mapping [] => .error .noProductions
  | .mapping entries => .ok (Dictionary.ofList entries)
  | other => .error (.notMapping other.kind)

def readHead (head alternatives : Datum) : Except Refusal (String × Members) :=
  match head with
  | .text name =>
    if (Symbol.ofName name).isNonterminal then
      match alternatives.sequence? with
      | none => .error (.format (.alternativesNotSequence name alternatives))
      | some (.error r) => .error (.raised r)
      | some (.ok ⟨[], none⟩) => .error (.format (.noAlternatives name))
      | some (.ok found) => .ok (name, found)
    else .error (.format (.headNotNonterminal name))
  | other => .error (.format (.headNotText other))

/-- The symbol that a name stands for in an alternative which has `count` names. -/
def readName (heads : List String) (head alternative : String) (count : Nat) (name : String) :
    Except FormatError Symbol :=
  match Symbol.ofName name with
  | .epsilon =>
    if count = 1 then .ok .epsilon else .error (.epsilonNotAlone head alternative)
  | .endOfInput => .error (.reservedSymbol name head alternative)
  | .nonterminal n =>
    if n ∈ heads then .ok (.nonterminal n)
    else .error (.undefinedNonterminal name head alternative)
  | other =>
    if name = Symbol.startName then .error (.reservedSymbol name head alternative) else .ok other

def readBody (heads : List String) (head alternative : String) :
    Except FormatError (List Symbol) :=
  match Text.words alternative with
  | [] => .error (.emptyAlternative head)
  | names => names.mapM (readName heads head alternative names.length)

/-- Read the alternatives that follow those already `known`; none may occur twice. -/
def readBodies (heads : List String) (head : String) (known : List (List Symbol)) :
    List Datum → Except FormatError (List (List Symbol))
  | [] => .ok known
  | .text alternative :: rest =>
    match readBody heads head alternative with
    | .error e => .error e
    | .ok body =>
      if body ∈ known then .error (.duplicateAlternative head alternative)
      else readBodies heads head (known ++ [body]) rest
  | other :: _ => .error (.alternativeNotText head other)

def readDeclaration (heads : List String) (entry : String × Members) :
    Except Refusal Declaration :=
  match readBodies heads entry.1 [] entry.2.members, entry.2.stop with
  | .error e, _ => .error (.format e)
  | .ok _, some r => .error (.raised r)
  | .ok bodies, none => .ok ⟨entry.1, bodies⟩

def isToken : Symbol → Bool
  | .token _ => true
  | _ => false

/-- The tokens of some declarations in order of first use. -/
def tokensOf (declarations : List Declaration) : List Symbol :=
  ((declarations.flatMap fun d => d.bodies.flatten).filter isToken).eraseDups

def read (m : Mapping) : Except Refusal Reading := do
  let entries ← m.mapM fun entry => readHead entry.1 entry.2
  let heads := entries.map (·.1)
  let declarations ← entries.mapM (readDeclaration heads)
  return ⟨declarations, tokensOf declarations⟩

end Mapping

namespace Grammar

/-- The grammar with a list of tokens and all its declarations numbered, the first of which is the
start symbol. -/
def ofDeclarations (start : Declaration) (others : List Declaration) (tokens : List Symbol) :
    Grammar :=
  let first := Nonterminal.number 1 start
  let more := Nonterminal.numberAll (1 + start.bodies.length) others
  ⟨first, more, Dictionary.ofList (tokens.map fun t => (t.name, t)), .named (first :: more)⟩

end Grammar

end ShiftReduce
