import ShiftReduce.Source.Mapping

/-!
Reading a mapping that may change.

A reader refers to a mapping and reads it when something is first asked of it; the answers are kept
and do not follow later changes. Nonterminals and tokens are kept apart, each under the serial
number of the reading that they come from. A reading that fails leaves the reader as it was, except
that a mapping without heads leaves an empty list of tokens.
-/

namespace ShiftReduce

inductive ReadError where
  | refused (r : Refusal)
  /-- The mapping has lost all its heads since it was accepted. -/
  | noHeads

structure Serial (α : Type) where
  number : Nat
  value : α
  deriving DecidableEq

/-- The declarations of a grammar, the start symbol first. -/
structure Declarations where
  start : Declaration
  others : List Declaration
  deriving DecidableEq

structure Reader where
  mapping : Mapping
  readings : Nat
  nonterminals : Option (Serial Declarations)
  tokens : Option (Serial (List Symbol))

namespace Reader

def ofMapping (m : Mapping) : Reader := ⟨m, 0, none, none⟩

def ofDatum (d : Datum) : Except FormatError Reader :=
  (Mapping.ofDatum d).map ofMapping

def read (r : Reader) : Except ReadError (Serial Declarations × Serial (List Symbol)) × Reader :=
  match r.mapping.read with
  | .error e => (.error (.refused e), r)
  | .ok reading =>
    let n := r.readings + 1
    let tokens : Serial (List Symbol) := ⟨n, reading.tokens⟩
    match reading.declarations with
    | [] => (.error .noHeads, ⟨r.mapping, n, r.nonterminals, some tokens⟩)
    | start :: others =>
      let nonterminals : Serial Declarations := ⟨n, ⟨start, others⟩⟩
      (.ok (nonterminals, tokens), ⟨r.mapping, n, some nonterminals, some tokens⟩)

def getNonterminals (r : Reader) : Except ReadError (Serial Declarations) × Reader :=
  match r.nonterminals with
  | some kept => (.ok kept, r)
  | none => (r.read.1.map (·.1), r.read.2)

def getTokens (r : Reader) : Except ReadError (Serial (List Symbol)) × Reader :=
  match r.tokens with
  | some kept => (.ok kept, r)
  | none => (r.read.1.map (·.2), r.read.2)

/-- The grammar of the nonterminals and tokens that are kept, or else read now. -/
def load (r : Reader) : Except ReadError Grammar × Reader :=
  match r.getNonterminals with
  | (.error e, r) => (.error e, r)
  | (.ok nonterminals, r) =>
    match r.getTokens with
    | (.error e, r) => (.error e, r)
    | (.ok tokens, r) =>
      (.ok (.ofDeclarations nonterminals.value.start nonterminals.value.others tokens.value), r)

/-- Give a head its alternatives, and the number of heads after it. -/
def assign (r : Reader) (head alternatives : Datum) : Nat × Reader :=
  let m := Dictionary.insert r.mapping head alternatives
  (m.length, ⟨m, r.readings, r.nonterminals, r.tokens⟩)

/-- Remove a head, if it is there. -/
def remove? (r : Reader) (head : Datum) : Option (Nat × Reader) :=
  (Dictionary.erase? r.mapping head).map fun m =>
    (m.length, ⟨m, r.readings, r.nonterminals, r.tokens⟩)

end Reader

namespace Grammar

/-- The grammar that a value says. -/
def ofDatum (d : Datum) : Except ReadError Grammar :=
  match Reader.ofDatum d with
  | .error e => .error (.refused (.format e))
  | .ok r => r.load.1

end Grammar

end ShiftReduce
