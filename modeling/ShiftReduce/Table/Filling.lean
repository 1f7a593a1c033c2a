import ShiftReduce.Action
import ShiftReduce.Collection
import ShiftReduce.Sets

/-!
Filling the rows of a parsing table.

The items of a state are taken in order. A complete item asks for a reduction on every symbol of
FOLLOW of its head, the end of input after a dot for acceptance, and any other symbol after a dot
for a shift. A shift or acceptance takes the cell of a reduction, whichever comes first, and the
conflict is recorded; two different reductions of one cell cannot both be had.
-/

namespace ShiftReduce

/-- A shift or acceptance that was preferred to a reduction. -/
structure Conflict where
  state : Nat
  symbol : Symbol
  action : Action
  rule : Rule
  deriving DecidableEq

/-- Two different reductions in one cell. -/
structure Clash where
  state : Nat
  symbol : Symbol
  kept : Rule
  refused : Rule
  deriving DecidableEq

def Clash.message (c : Clash) : String :=
  "Grammar is not SLR(1): reduce/reduce conflict in state " ++ toString c.state ++ " on " ++
    c.symbol.name ++ " between " ++ c.kept.text ++ " and " ++ c.refused.text

inductive Obstacle where
  | clash (c : Clash)
  /-- A production without a number would have to be reduced. -/
  | unnumbered (p : Production)
  /-- The end of input stands after a dot in another production than the start. -/
  | innerEndOfInput (p : Production)
  | noTransition (symbol : Symbol)
  /-- The head of a production to be reduced is not one of the grammar. -/
  | unknownHead (name : String)
  deriving DecidableEq

/-- A row and the conflicts of the table as far as they have come. -/
structure Filling where
  row : Row
  conflicts : List Conflict
  deriving DecidableEq

/-- Where filling a table ended, with the conflicts recorded before. -/
structure Halt where
  state : Nat
  conflicts : List Conflict
  obstacle : Obstacle
  deriving DecidableEq

namespace Filling

def put (f : Filling) (state : Nat) (x : Symbol) (action : Action) : Filling :=
  let row := Dictionary.insert f.row x action
  match Dictionary.get? f.row x with
  | some (.reduce _ rule) => ⟨row, f.conflicts ++ [⟨state, x, action, rule⟩]⟩
  | _ => ⟨row, f.conflicts⟩

def reduceOn (f : Filling) (state number : Nat) (rule : Rule) (x : Symbol) : Except Halt Filling :=
  match Dictionary.get? f.row x with
  | none => .ok ⟨Dictionary.insert f.row x (.reduce number rule), f.conflicts⟩
  | some (.reduce _ kept) =>
    if kept = rule then .ok f
    else .error ⟨state, f.conflicts, .clash ⟨state, x, kept, rule⟩⟩
  | some action => .ok ⟨f.row, f.conflicts ++ [⟨state, x, action, rule⟩]⟩

/-- Fill the cells that an item asks for. -/
def place (s : Sets) (transitions : Transitions) (state : Nat) (f : Filling) (i : Item) :
    Except Halt Filling :=
  match i.next? with
  | none =>
    match i.production.number? with
    | none => .error ⟨state, f.conflicts, .unnumbered i.production⟩
    | some n =>
      if i.production.head ∈ s.grammar.names then
        (Symbol.sort (s.follow.of i.production.head)).foldlM
          (fun f x => f.reduceOn state n i.production.toRule x) f
      else .error ⟨state, f.conflicts, .unknownHead i.production.head⟩
  | some .endOfInput =>
    if i.production.origin = .augmented then .ok (f.put state .endOfInput .accept)
    else .error ⟨state, f.conflicts, .innerEndOfInput i.production⟩
  | some x =>
    match Dictionary.get? transitions x with
    | some target => .ok (f.put state x (.shift target))
    | none => .error ⟨state, f.conflicts, .noTransition x⟩

end Filling

/-- Fill the rows of some states, the first of which has the number `state`. -/
def fillRows (s : Sets) (state : Nat) (conflicts : List Conflict) :
    List (ItemSet × Transitions) → Except Halt (List Row × List Conflict)
  | [] => .ok ([], conflicts)
  | (items, transitions) :: rest =>
    match items.items.foldlM (Filling.place s transitions state) ⟨[], conflicts⟩ with
    | .error e => .error e
    | .ok f =>
      match fillRows s (state + 1) f.conflicts rest with
      | .error e => .error e
      | .ok (rows, conflicts) => .ok (f.row :: rows, conflicts)

end ShiftReduce
