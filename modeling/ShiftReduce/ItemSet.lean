import ShiftReduce.Closure

/-!
Sets of LR(0) items.

The kernel holds the items a set was made from and the rest what its closure added, both in the
order in which they came; the order of the items fixes the order of the symbols after their dots,
and so that of the transitions. Two sets are the same when they hold the same items.
-/

namespace ShiftReduce

structure ItemSet where
  kernel : List Item
  added : List Item
  deriving DecidableEq

namespace ItemSet

def ofItems (items : List Item) : ItemSet := ⟨fresh [] items, []⟩

def items (s : ItemSet) : List Item := s.kernel ++ s.added

def cores (s : ItemSet) : List (Rule × Nat) := s.items.map Item.core

def Same (s t : ItemSet) : Prop := s.cores ⊆ t.cores ∧ t.cores ⊆ s.cores

instance (s t : ItemSet) : Decidable (s.Same t) :=
  inferInstanceAs (Decidable ((∀ c ∈ s.cores, c ∈ t.cores) ∧ ∀ c ∈ t.cores, c ∈ s.cores))

/-- The symbols after the dots, in the order of the items and each once. -/
def symbols (s : ItemSet) : List Symbol :=
  (s.items.filterMap Item.next?).eraseDups

def close (g : Grammar) (s : ItemSet) : ItemSet :=
  ⟨s.kernel, s.added ++ g.closeQueue s.cores s.items⟩

/-- The items with a symbol after the dot. -/
def on (s : ItemSet) (x : Symbol) : List Item :=
  s.items.filter fun i => i.next? = some x

/-- The closed set after a symbol. -/
def goto (g : Grammar) (s : ItemSet) (x : Symbol) : ItemSet :=
  (ofItems ((s.on x).map Item.advance)).close g

def goto? (g : Grammar) (s : ItemSet) (x : Symbol) : Option ItemSet :=
  if s.on x = [] then none else some (s.goto g x)

def text (s : ItemSet) : String :=
  let row (items : List Item) := ", ".intercalate (items.map Item.text)
  "ItemSet(kernel: " ++ row s.kernel ++ ", added: " ++ row s.added ++ ")"

end ItemSet

end ShiftReduce
