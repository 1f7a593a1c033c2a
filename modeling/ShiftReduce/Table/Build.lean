import ShiftReduce.Source
import ShiftReduce.Table.Basic

/-!
From a source to the parsing table of its grammar.
-/

namespace ShiftReduce

inductive BuildError where
  | load (e : LoadError)
  | table (e : TableError)

namespace Source

def table (s : Source) : Except BuildError Table :=
  match s.load with
  | .error e => .error (.load e)
  | .ok g => g.table.mapError .table

end Source

end ShiftReduce
