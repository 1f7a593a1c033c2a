import ShiftReduce.ItemSet

/-!
The canonical collection of LR(0) item sets.

State 0 is the closure of the start item. The states are explored in order, and each of them on the
symbols after its dots in order; a set that is not yet there becomes the next state. Nothing
follows the end of input. There are no more states than sets of items.
-/

namespace ShiftReduce

/-- A place in a list of some length; a negative number counts from the end. -/
def indexFromEnd? (length : Nat) (i : Int) : Option Nat :=
  let place := if i < 0 then i + length else i
  if 0 ≤ place ∧ place < length then some place.toNat else none

/-- The targets of a state's transitions. -/
abbrev Transitions := Dictionary Symbol Nat

structure Collection where
  states : List ItemSet
  transitions : List Transitions
  deriving DecidableEq

namespace Collection

/-- The number of a set among the states. -/
def find? (states : List ItemSet) (s : ItemSet) : Option Nat :=
  states.findIdx? fun t => decide (s.Same t)

/-- Follow a state on some symbols: the states with those that are new, and the transitions. -/
def connect (g : Grammar) (s : ItemSet) : List ItemSet → List Symbol → List ItemSet × Transitions
  | states, [] => (states, [])
  | states, x :: rest =>
    let target := s.goto g x
    match find? states target with
    | some n =>
      let (more, transitions) := connect g s states rest
      (more, (x, n) :: transitions)
    | none =>
      let (more, transitions) := connect g s (states ++ [target]) rest
      (more, (x, states.length) :: transitions)

/-- Explore the states from the first that has no transitions yet. -/
def explore (g : Grammar) : Nat → List ItemSet → List Transitions → Collection
  | 0, states, done => ⟨states, done⟩
  | bound + 1, states, done =>
    match states[done.length]? with
    | none => ⟨states, done⟩
    | some s =>
      let (more, transitions) := connect g s states (s.symbols.filter (· ≠ .endOfInput))
      explore g bound more (done ++ [transitions])

def size (c : Collection) : Nat := c.states.length

def index? (c : Collection) (s : ItemSet) : Option Nat := find? c.states s

def goto? (c : Collection) (state : Nat) (x : Symbol) : Option Nat :=
  match c.transitions[state]? with
  | some row => Dictionary.get? row x
  | none => none

end Collection

namespace Grammar

def startItem (g : Grammar) : Item := ⟨g.startProduction, 0⟩

def startState (g : Grammar) : ItemSet := (ItemSet.ofItems [g.startItem]).close g

/-- How many items the productions of the grammar have. -/
def itemCount (g : Grammar) : Nat :=
  (g.startProduction :: g.expandable).foldr (fun p n => p.body.length + 1 + n) 0

def collection (g : Grammar) : Collection :=
  Collection.explore g (Nat.pow 2 g.itemCount) [g.startState] []

end Grammar

end ShiftReduce
