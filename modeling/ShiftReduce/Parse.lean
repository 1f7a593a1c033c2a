import ShiftReduce.Table.Basic
import ShiftReduce.Text.Quoted

/-!
Shift-reduce parsing by the codes of a table.

Symbols are known by their names here. The stack holds states, the top first; a shift reads a name
and a reduction replaces as many states as its body has symbols by the state of the goto of its
head. The body that is epsilon alone has none.
-/

namespace ShiftReduce

/-- What a parser knows of a table. -/
structure Codes where
  rows : List (Dictionary String Code)
  reductions : List Reduction
  deriving DecidableEq

def Table.parser (t : Table) : Codes := ⟨t.codes, t.reductions⟩

inductive ParseError where
  | noAction (state : Nat) (name : String)
  | noRow (state : Nat)
  | noReduction (number : Nat)
  | noGoto (head : String)
  /-- The goto of a head is acceptance. -/
  | acceptingGoto
  | endOfNames
  | emptyStack
  deriving DecidableEq

def ParseError.message : ParseError → String
  | noAction state name => "no action in state " ++ toString state ++ " on " ++ Text.quote name
  | noRow state => Text.quote (Code.shift state).text
  | noReduction number => Text.quote (Code.reduce number).text
  | noGoto head => Text.quote head
  | acceptingGoto => "invalid literal for int() with base 10: " ++ Text.quote "c"
  | endOfNames => "list index out of range"
  | emptyStack => "list index out of range"

structure Configuration where
  stack : List Nat
  input : List String
  deriving DecidableEq

inductive Step where
  | next (code : Code) (c : Configuration)
  | accepted
  | failed (e : ParseError)
  deriving DecidableEq

namespace Reduction

def size (r : Reduction) : Nat :=
  if r.body = [Symbol.epsilonName] then 0 else r.body.length

end Reduction

/-- Without so many states from the top. When there are fewer, the missing ones are counted from
the top once more, and all states above that place go. -/
def pop (stack : List Nat) (count : Nat) : List Nat :=
  if count ≤ stack.length then stack.drop count else stack.drop (count - stack.length)

namespace Codes

def row (t : Codes) (stack : List Nat) : Except ParseError (Nat × Dictionary String Code) :=
  match stack with
  | [] => .error .emptyStack
  | state :: _ =>
    match t.rows[state]? with
    | some row => .ok (state, row)
    | none => .error (.noRow state)

/-- The state that is entered on a head, which is the number in its cell. -/
def target (t : Codes) (stack : List Nat) (head : String) : Except ParseError Nat :=
  match t.row stack with
  | .error e => .error e
  | .ok (_, row) =>
    match Dictionary.get? row head with
    | some (.shift state) => .ok state
    | some (.reduce number) => .ok number
    | some .accept => .error .acceptingGoto
    | none => .error (.noGoto head)

def step (t : Codes) (c : Configuration) : Step :=
  match c.input with
  | [] => .failed .endOfNames
  | name :: rest =>
    match t.row c.stack with
    | .error e => .failed e
    | .ok (state, row) =>
      match Dictionary.get? row name with
      | none => .failed (.noAction state name)
      | some .accept => .accepted
      | some (.shift n) => .next (.shift n) ⟨n :: c.stack, rest⟩
      | some (.reduce n) =>
        match t.reductions.find? (·.number = n) with
        | none => .failed (.noReduction n)
        | some r =>
          let stack := pop c.stack r.size
          match t.target stack r.head with
          | .error e => .failed e
          | .ok state => .next (.reduce n) ⟨state :: stack, c.input⟩

def start (names : List String) : Configuration :=
  ⟨[0], names ++ [Symbol.endOfInputName]⟩

end Codes

inductive Outcome where
  | accepted (trace : List Code)
  | failed (e : ParseError)
  | unfinished
  deriving DecidableEq

namespace Codes

/-- Take at most so many steps after those of the trace, which is kept in reverse. -/
def runFrom (t : Codes) (trace : List Code) : Nat → Configuration → Outcome
  | 0, _ => .unfinished
  | limit + 1, c =>
    match t.step c with
    | .accepted => .accepted (Code.accept :: trace).reverse
    | .failed e => .failed e
    | .next code c => runFrom t (code :: trace) limit c

/-- The codes of the actions taken over some names, acceptance included. -/
def run (t : Codes) (limit : Nat) (names : List String) : Outcome :=
  t.runFrom [] limit (start names)

end Codes

end ShiftReduce
