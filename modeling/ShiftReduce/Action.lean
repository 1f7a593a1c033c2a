import ShiftReduce.Dictionary
import ShiftReduce.Production

/-!
Actions of a parsing table, and the codes they have outside it.

A shift on a nonterminal is a goto. Only a numbered production can be reduced.
-/

namespace ShiftReduce

inductive Code where
  | shift (state : Nat)
  | reduce (number : Nat)
  | accept
  deriving DecidableEq

def Code.text : Code → String
  | shift state => "e" ++ toString state
  | reduce number => "r" ++ toString number
  | accept => "ac"

inductive Action where
  | shift (state : Nat)
  | reduce (number : Nat) (rule : Rule)
  | accept
  deriving DecidableEq

namespace Action

def reduce? (p : Production) : Option Action :=
  p.number?.map fun n => reduce n p.toRule

def code : Action → Code
  | shift state => .shift state
  | reduce number _ => .reduce number
  | accept => .accept

/-- Reductions are the same when their rules are, whatever their numbers. -/
def Same : Action → Action → Prop
  | shift m, shift n => m = n
  | reduce _ r, reduce _ q => r = q
  | accept, accept => True
  | _, _ => False

instance : (a b : Action) → Decidable (a.Same b)
  | shift m, shift n => inferInstanceAs (Decidable (m = n))
  | reduce _ r, reduce _ q => inferInstanceAs (Decidable (r = q))
  | accept, accept => inferInstanceAs (Decidable True)
  | shift _, reduce _ _ | shift _, accept | reduce _ _, shift _ | reduce _ _, accept
  | accept, shift _ | accept, reduce _ _ => inferInstanceAs (Decidable False)

def text : Action → String
  | shift state => "[shift " ++ toString state ++ "]"
  | reduce _ rule => "[reduce " ++ rule.text ++ "]"
  | accept => "[accept]"

end Action

/-- A row of a parsing table, its cells in the order in which they were first filled. -/
abbrev Row := Dictionary Symbol Action

namespace Row

/-- The codes by name: an entry stands at the place of the first symbol of its name and is that of
the last. -/
def codes (r : Row) : Dictionary String Code :=
  Dictionary.ofList (r.map fun cell => (cell.1.name, cell.2.code))

/-- The action of the first symbol of a name. -/
def named? (r : Row) (name : String) : Option Action :=
  (r.find? fun cell => cell.1.name = name).map fun cell => cell.2

end Row

end ShiftReduce
