import ShiftReduce.Symbol

/-!
Productions.

A rule is a head with a body. A production is a rule together with its place in a grammar: the one
that augments it, the n-th of its numbered productions, or none. One that was given with references
to nonterminals keeps the places of these. The empty body is written as epsilon alone.
-/

namespace ShiftReduce

structure Rule where
  head : String
  body : List Symbol
  deriving DecidableEq

inductive Origin where
  | augmented
  | numbered (n : Nat)
  /-- In no numbered list of productions, so that nothing can be reduced by it. -/
  | unlisted
  /-- Given with the places of the nonterminals that the symbols of the body refer to, and with a
  number if it is to be reduced. -/
  | given (number : Option Nat) (places : List (Option Nat))
  deriving DecidableEq

structure Production extends Rule where
  origin : Origin
  deriving DecidableEq

namespace Rule

def isEpsilon (r : Rule) : Bool :=
  r.body == [Symbol.epsilon]

def text (r : Rule) : String :=
  r.head ++ " ::= " ++ " ".intercalate (r.body.map Symbol.name) ++ "."

/-- The body with every epsilon removed. -/
def reducedBody (r : Rule) : List Symbol :=
  r.body.filter (· ≠ .epsilon)

end Rule

namespace Production

def number? (p : Production) : Option Nat :=
  match p.origin with
  | .numbered n => some n
  | .given number _ => number
  | _ => none

/-- Number the bodies of one head consecutively. -/
def numberFrom (n : Nat) (head : String) : List (List Symbol) → List Production
  | [] => []
  | body :: rest => ⟨⟨head, body⟩, .numbered n⟩ :: numberFrom (n + 1) head rest

end Production

end ShiftReduce
