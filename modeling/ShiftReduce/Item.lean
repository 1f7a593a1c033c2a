import ShiftReduce.Production

/-!
LR(0) items: productions with a dot in the body.

Items are compared by `core`, the rule and the position of the dot; the origin of the production
plays no part. The item of an epsilon production is complete with the dot before its only symbol.
-/

namespace ShiftReduce

structure Item where
  production : Production
  dot : Nat
  deriving DecidableEq

namespace Item

def make? (p : Production) (dot : Nat) : Option Item :=
  if dot ≤ p.body.length then some ⟨p, dot⟩ else none

def core (i : Item) : Rule × Nat := (i.production.toRule, i.dot)

def before (i : Item) : List Symbol := i.production.body.take i.dot

def after (i : Item) : List Symbol := i.production.body.drop i.dot

def isComplete (i : Item) : Bool :=
  i.dot == i.production.body.length || i.production.isEpsilon

/-- The symbol after the dot, unless the item is complete. -/
def next? (i : Item) : Option Symbol :=
  if i.isComplete then none else i.production.body[i.dot]?

/-- The place of the nonterminal that the symbol after the dot refers to, if the production was given
with places. -/
def place? (i : Item) : Option Nat :=
  match i.production.origin with
  | .given _ places => places[i.dot]?.join
  | _ => none

/-- The dot moved over one symbol. -/
def advance (i : Item) : Item := ⟨i.production, i.dot + 1⟩

def advance? (i : Item) : Option Item :=
  if i.isComplete then none else some i.advance

def text (i : Item) : String :=
  let words := i.before.map Symbol.name ++ "*" :: i.after.map Symbol.name
  "[" ++ i.production.head ++ " ::= " ++ " ".intercalate words ++ ".]"

end Item

end ShiftReduce
