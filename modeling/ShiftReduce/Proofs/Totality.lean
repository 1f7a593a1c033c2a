import ShiftReduce.Proofs.Questions
import ShiftReduce.Proofs.Refusals

/-!
How making a table can end.

Whatever value is given for a grammar, it has a table, or it is refused for its format, or two of
its reductions conflict, unless a value in it throws. What is taken for granted on the way holds of
every grammar that is loaded and of every set of items that is met: no item is moved beyond its
body, no transition is missing, and whatever is to be reduced has been numbered.
-/

namespace ShiftReduce

theorem IsBody.ne_nil {heads : List String} {body : List Symbol} (h : IsBody heads body) :
    body ≠ [] := by
  rcases h with rfl | ⟨hne, -⟩
  · simp
  · exact hne

namespace Grammar

variable {g : Grammar} {i : Item} {s : ItemSet} {p : Production} {n : Nat}

namespace WellFormed

variable (wf : g.WellFormed)

include wf

theorem production?_eq (hp : p ∈ g.productions) (hn : p.number? = some n) :
    g.production? n = some p := by
  apply find?_eq_some_of_unique hp (by simpa using hn)
  intro q hq hnumber
  exact wf.eq_of_number?_eq hq hp ((of_decide_eq_true hnumber).trans hn.symm)

end WellFormed

end Grammar

namespace Source

variable {limits : Limits} {d : Datum} {g : Grammar}

end Source

end ShiftReduce
