import ShiftReduce.Table.Build
import ShiftReduce.Table.Text

/-!
What is told while a table is being made.

A plus is written for every state of the collection, a dot when the row of a state is begun, and a
state with a symbol in brackets for a conflict in which a reduction gave way. The lines are told
up to the point at which making the table ended.
-/

namespace ShiftReduce

namespace Transcript

def announce (s : String) : String := "slrtable.Table: " ++ s

def reading : String := announce "Reading grammar...\n"

def computing : String := announce "Computing FIRST and FOLLOW sets...\n"

def generating (states : Nat) : String :=
  announce "Generating LR(0) itemset collection...  " ++
    String.ofList (List.replicate states '+') ++ "\n" ++
    announce "Generating SLR(1) parsing table (" ++ counted states "state" ++ ")...  "

def conflictMark (c : Conflict) : String :=
  "[" ++ toString c.state ++ ":" ++ c.symbol.name ++ "]"

/-- The marks of the first `count` rows. -/
def rowMarks (conflicts : List Conflict) (count : Nat) : String :=
  String.join ((List.range count).map fun state =>
    "." ++ String.join ((conflicts.filter (·.state = state)).map conflictMark))

def ofTable (t : Table) (log : Option String) : String :=
  let writing := match log with
    | some file => announce ("Writing log to '" ++ file ++ "'...\n")
    | none => ""
  reading ++ computing ++ generating t.collection.size ++ rowMarks t.conflicts t.rows.length ++
    "\n" ++ writing ++ t.summary ++ "\n"

/-- A clash of reductions ends its line. -/
def ending : Obstacle → String
  | .clash _ => "\n"
  | _ => ""

def ofError : BuildError → String
  | .load _ => reading
  | .table (.undeclared _) => reading ++ computing
  | .table (.halted states h) =>
    reading ++ computing ++ generating states ++ rowMarks h.conflicts (h.state + 1) ++
      ending h.obstacle

end Transcript

end ShiftReduce
