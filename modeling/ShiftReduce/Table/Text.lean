import ShiftReduce.Table.Basic

/-!
The text of a parsing table: the tokens, the nonterminals with their sets and productions, a
summary, and the states with their items, gotos and actions.
-/

namespace ShiftReduce

/-- Blanks in front, up to a width. -/
def padLeft (width : Nat) (s : String) : String :=
  String.ofList (List.replicate (width - s.length) ' ') ++ s

/-- Blanks behind, up to a width. -/
def padRight (width : Nat) (s : String) : String :=
  s ++ String.ofList (List.replicate (width - s.length) ' ')

/-- A noun with its number. -/
def counted (n : Nat) (noun : String) : String :=
  toString n ++ " " ++ noun ++ if n = 1 then "" else "s"

/-- Sorted by name, in braces. -/
def braced (symbols : List Symbol) : String :=
  "\x7b" ++ ", ".intercalate ((Symbol.sort symbols).map Symbol.name) ++ "\x7d"

namespace Production

def line (p : Production) : String :=
  match p.number? with
  | some n => "      r" ++ padRight 3 (toString n) ++ " " ++ p.text
  | none => "           " ++ p.text

end Production

namespace Table

def nonterminalLines (s : Sets) (n : Nonterminal) : List String :=
  ["  " ++ n.name,
    "    First set: " ++ braced (s.first.of n.name),
    "    Follow set: " ++ braced (s.follow.of n.name),
    "    Productions:"] ++ n.productions.map Production.line

def summary (t : Table) : String :=
  "slrtable.Table: " ++ ", ".intercalate
    [counted t.grammar.nonterminals.length "non-terminal",
      counted t.grammar.productions.length "production",
      counted t.rows.length "state",
      counted t.conflicts.length "shift/reduce conflict"]

def gotoLine (entry : Symbol × Nat) : String :=
  "    " ++ padLeft 15 entry.1.name ++ " : " ++ toString entry.2

/-- A cell, marked when a conflict was settled in it. -/
def cellLine (conflicts : List Conflict) (state : Nat) (cell : Symbol × Action) : String :=
  let mark := if conflicts.any fun c => c.state = state && c.symbol = cell.1 then "XXX" else "   "
  let action := match cell.2 with
    | .shift target => padRight 6 "shift" ++ " " ++ toString target
    | .reduce _ rule => padRight 6 "reduce" ++ " " ++ rule.text
    | .accept => padRight 6 "accept"
  mark ++ " " ++ padLeft 15 cell.1.name ++ " : " ++ action

def stateLines (conflicts : List Conflict) (state : Nat) (items : ItemSet)
    (transitions : Transitions) (row : Row) : List String :=
  let number := toString state
  let indent := String.ofList (List.replicate (number.length + 10) ' ')
  ["  " ++ String.ofList (List.replicate 78 '='),
    "  State " ++ number ++ ":" ++ if state = 0 then " (start state)" else ""] ++
  items.items.map (fun i => indent ++ i.text) ++
  "    Goto:" :: (transitions.filter fun entry => entry.1.isNonterminal).map gotoLine ++
  "    Action:" ::
    (row.filter fun cell => !cell.1.isNonterminal).map (cellLine conflicts state)

def statesLines (conflicts : List Conflict) (state : Nat) :
    List (ItemSet × Transitions × Row) → List String
  | [] => []
  | (items, transitions, row) :: rest =>
    stateLines conflicts state items transitions row ++ statesLines conflicts (state + 1) rest

def text (t : Table) : String :=
  let states := t.collection.states.zip (t.collection.transitions.zip t.rows)
  "\n".intercalate <|
    "Tokens:" :: t.grammar.tokens.map (fun entry => "  " ++ entry.2.name) ++
    "Non-terminals:" :: t.grammar.augmentedNonterminals.flatMap (nonterminalLines t.sets) ++
    t.summary :: "Parsing tables:" :: statesLines t.conflicts 0 states

end Table

end ShiftReduce
