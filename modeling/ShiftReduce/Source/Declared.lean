import ShiftReduce.Grammar

/-!
Grammars given as nonterminals that refer to one another.

A nonterminal in a body is one of the given ones and not just a name, and several of them may have
one name. The head of a production need not be the nonterminal that lists it. Nonterminals that are
not listed stay out of the grammar, the start symbol excepted, but bodies may refer to them.
-/

namespace ShiftReduce

/-- The place with a number, counted round and round. -/
def place {n : Nat} (k : Nat) : Fin (n + 1) := Fin.ofNat (n + 1) k

/-- What stands in a body: one of so many nonterminals, or a symbol of another kind. -/
inductive Reference (count : Nat) where
  | nonterminal (place : Fin count)
  | other (s : Symbol) (h : s.isNonterminal = false)

/-- A production as it is given. Its body is not empty. -/
structure Draft (count : Nat) where
  head : String
  first : Reference count
  rest : List (Reference count)

/-- A nonterminal as it is given. -/
structure Outline (count : Nat) where
  name : String
  drafts : List (Draft count)

structure DeclaredSource where
  count : Nat
  outlines : Vector (Outline count) count
  listed : List (Fin count)
  start : Fin count
  tokens : List Symbol

/-- Two nonterminals of a grammar have one name. -/
structure DuplicateName where
  name : String
  deriving DecidableEq

namespace Reference

variable {count : Nat}

def symbol (names : Fin count → String) : Reference count → Symbol
  | nonterminal k => .nonterminal (names k)
  | other s _ => s

def place? : Reference count → Option Nat
  | nonterminal k => some k
  | other _ _ => none

def token (name : String) : Reference count := other (.token name) rfl

end Reference

namespace Draft

variable {count : Nat}

def body (d : Draft count) : List (Reference count) := d.first :: d.rest

def make? (head : String) : List (Reference count) → Option (Draft count)
  | [] => none
  | first :: rest => some ⟨head, first, rest⟩

end Draft

namespace DeclaredSource

def name (s : DeclaredSource) (k : Fin s.count) : String := s.outlines[k].name

def drafts (s : DeclaredSource) (k : Fin s.count) : List (Draft s.count) := s.outlines[k].drafts

def production (s : DeclaredSource) (number : Option Nat) (d : Draft s.count) : Production :=
  ⟨⟨d.head, d.body.map (Reference.symbol s.name)⟩, .given number (d.body.map Reference.place?)⟩

/-- A nonterminal of the grammar, whose productions are numbered consecutively. -/
def number (s : DeclaredSource) (n : Nat) (k : Fin s.count) : Nonterminal :=
  ⟨s.name k, (s.drafts k).mapIdx fun i d => s.production (some (n + i)) d⟩

def numberAll (s : DeclaredSource) (n : Nat) : List (Fin s.count) → List Nonterminal
  | [] => []
  | k :: rest => s.number n k :: s.numberAll (n + (s.drafts k).length) rest

/-- A nonterminal that is not in the grammar. -/
def outside (s : DeclaredSource) (k : Fin s.count) : Nonterminal :=
  ⟨s.name k, (s.drafts k).map (s.production none)⟩

/-- The nonterminals that make up the grammar besides the start symbol. -/
def others (s : DeclaredSource) : List (Fin s.count) := s.listed.filter (· ≠ s.start)

/-- The nonterminals of the grammar, the start symbol first. -/
def members (s : DeclaredSource) : List (Fin s.count) := s.start :: s.others

/-- What a reference leads to: a nonterminal of the grammar, or one that stays out of it. -/
def referent (s : DeclaredSource) (k : Fin s.count) : Nonterminal :=
  ((s.members.zip (s.numberAll 1 s.members)).lookup k).getD (s.outside k)

/-- Number the start symbol and the others in order, and keep the rest in scope. -/
def assemble (s : DeclaredSource) : Grammar where
  start := s.number 1 s.start
  others := s.numberAll (1 + (s.drafts s.start).length) s.others
  tokens := Dictionary.ofList (s.tokens.map fun t => (t.name, t))
  scope := .placed ((List.finRange s.count).map s.referent)

def duplicate? : List String → Option String
  | [] => none
  | name :: rest => if name ∈ rest then some name else duplicate? rest

def load (s : DeclaredSource) : Except DuplicateName Grammar :=
  match duplicate? (s.assemble.nonterminals.map Nonterminal.name) with
  | some name => .error ⟨name⟩
  | none => .ok s.assemble

end DeclaredSource

end ShiftReduce
