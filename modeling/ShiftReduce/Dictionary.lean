/-!
Dictionaries as lists of entries in the order in which their keys were first inserted.

A key that is inserted again keeps its place, and the key already there stays; only the value is
replaced.
-/

namespace ShiftReduce

universe u v

abbrev Dictionary (α : Type u) (β : Type v) := List (α × β)

namespace Dictionary

variable {α : Type u} {β : Type v} [BEq α]

def get? (d : Dictionary α β) (key : α) : Option β :=
  List.lookup key d

def insert : Dictionary α β → α → β → Dictionary α β
  | [], key, value => [(key, value)]
  | (k, v) :: rest, key, value =>
    if k == key then (k, value) :: rest else (k, v) :: insert rest key value

def ofList (entries : List (α × β)) : Dictionary α β :=
  entries.foldl (fun d e => insert d e.1 e.2) []

/-- Without the entry of a key; nothing when there is none. -/
def erase? (d : Dictionary α β) (key : α) : Option (Dictionary α β) :=
  if d.any (·.1 == key) then some (d.filter fun e => !(e.1 == key)) else none

theorem get?_cons [LawfulBEq α] (k : α) (v : β) (d : Dictionary α β) (key : α) :
    get? ((k, v) :: d) key = if key == k then some v else get? d key := by
  rw [get?, List.lookup_cons]
  split <;> simp_all [get?]

theorem get?_insert [LawfulBEq α] (d : Dictionary α β) (key : α) (value : β) (k : α) :
    get? (insert d key value) k = if k == key then some value else get? d k := by
  induction d with
  | nil => rw [insert, get?_cons]
  | cons e rest ih =>
    obtain ⟨k', v'⟩ := e
    by_cases h : k' == key
    · have hkey : k' = key := eq_of_beq h
      rw [insert, if_pos h, get?_cons, get?_cons, hkey]
      split <;> rfl
    · rw [insert, if_neg h, get?_cons, get?_cons, ih]
      by_cases hk : k == k'
      · have hne : ¬ (k == key) = true := by rwa [eq_of_beq hk]
        rw [if_pos hk, if_neg hne, if_pos hk]
      · rw [if_neg hk, if_neg hk]

end Dictionary

end ShiftReduce
