import ShiftReduce.ItemSet

/-!
Item sets that are filled item by item.

Beside its items a set keeps their cores, the items under the symbols after their dots, and the key
by which sets are compared, once it has been asked for. An item that is new goes into all of them
and the key is dropped; one that is there already changes nothing.
-/

namespace ShiftReduce

/-- Whether an item belongs to those that a set is made from or is added to close it. -/
inductive Part where
  | kernel
  | added
  deriving DecidableEq

def ItemSet.extend (s : ItemSet) (part : Part) (items : List Item) : ItemSet :=
  match part with
  | .kernel => ⟨s.kernel ++ items, s.added⟩
  | .added => ⟨s.kernel, s.added ++ items⟩

structure IndexedSet extends ItemSet where
  members : List (Rule × Nat)
  /-- The items under the symbol after the dot, both in the order in which they came. -/
  index : Dictionary Symbol (List Item)
  cached : Option (List (Rule × Nat))
  deriving DecidableEq

namespace IndexedSet

def empty : IndexedSet := ⟨⟨[], []⟩, [], [], none⟩

def contains (s : IndexedSet) (i : Item) : Bool := s.members.contains i.core

theorem contains_iff {s : IndexedSet} {i : Item} : s.contains i = true ↔ i.core ∈ s.members :=
  List.contains_iff_mem

def enter (index : Dictionary Symbol (List Item)) (i : Item) : Dictionary Symbol (List Item) :=
  match i.next? with
  | none => index
  | some x =>
    match Dictionary.get? index x with
    | some known => Dictionary.insert index x (known ++ [i])
    | none => Dictionary.insert index x [i]

/-- The set with an item that is new to it. -/
def append? (s : IndexedSet) (part : Part) (i : Item) : Option IndexedSet :=
  if s.contains i then none
  else some ⟨s.extend part [i], i.core :: s.members, enter s.index i, none⟩

/-- The set with those of some items that are new to it, and these items. -/
def appendAll (part : Part) (s : IndexedSet) : List Item → IndexedSet × List Item
  | [] => (s, [])
  | i :: rest =>
    match s.append? part i with
    | none => appendAll part s rest
    | some t =>
      let (u, new) := appendAll part t rest
      (u, i :: new)

def ofItems (items : List Item) : IndexedSet := (appendAll .kernel empty items).1

theorem appendAll_new (part : Part) (s : IndexedSet) (items : List Item) :
    (appendAll part s items).2 = fresh s.members items ∧
      (appendAll part s items).1.members =
        ((fresh s.members items).map Item.core).reverse ++ s.members := by
  induction items generalizing s with
  | nil => exact ⟨rfl, rfl⟩
  | cons i rest ih =>
    by_cases hi : i.core ∈ s.members
    · rw [appendAll, append?, if_pos (contains_iff.mpr hi), fresh, if_pos hi]
      exact ih s
    · rw [appendAll, append?, if_neg (mt contains_iff.mp hi), fresh, if_neg hi]
      obtain ⟨hnew, hmembers⟩ := ih ⟨s.extend part [i], i.core :: s.members, enter s.index i, none⟩
      exact ⟨congrArg (i :: ·) hnew, by simpa using hmembers⟩

theorem unseen_appendAll (g : Grammar) (s : IndexedSet) (i : Item) :
    g.unseen (appendAll .added s (g.leadsTo i)).1.members +
      (appendAll .added s (g.leadsTo i)).2.length ≤ g.unseen s.members := by
  obtain ⟨hnew, hmembers⟩ := appendAll_new .added s (g.leadsTo i)
  have hbound := unseen_fresh g s.members (g.expansion_subset i)
  have hunseen : ∀ cores : List (Rule × Nat),
      g.unseen (cores.reverse ++ s.members) = g.unseen (cores ++ s.members) := by
    intro cores
    exact List.countP_congr fun p _ => by simp
  rw [hnew, hmembers, hunseen]
  exact hbound

/-- Work off a queue of items: what they lead to is added, and what is new joins the queue. -/
def closeQueue (g : Grammar) (s : IndexedSet) : List Item → IndexedSet
  | [] => s
  | i :: queue =>
    let more := appendAll .added s (g.leadsTo i)
    closeQueue g more.1 (queue ++ more.2)
termination_by queue => g.unseen s.members + queue.length
decreasing_by
  have := unseen_appendAll g s i
  simp only [List.length_append, List.length_cons]
  omega

def close (g : Grammar) (s : IndexedSet) : IndexedSet := s.closeQueue g s.items

def symbols (s : IndexedSet) : List Symbol := s.index.map Prod.fst

/-- The items with a symbol after the dot. -/
def on (s : IndexedSet) (x : Symbol) : List Item := (Dictionary.get? s.index x).getD []

def goto? (g : Grammar) (s : IndexedSet) (x : Symbol) : Option IndexedSet :=
  if s.on x = [] then none else some ((ofItems ((s.on x).map Item.advance)).close g)

/-- The key, which is kept until the next item is added. -/
def key (s : IndexedSet) : List (Rule × Nat) × IndexedSet :=
  match s.cached with
  | some known => (known, s)
  | none => (s.members, ⟨s.toItemSet, s.members, s.index, some s.members⟩)

def Same (s t : IndexedSet) : Prop := s.key.1 ⊆ t.key.1 ∧ t.key.1 ⊆ s.key.1

instance (s t : IndexedSet) : Decidable (s.Same t) :=
  inferInstanceAs (Decidable ((∀ c ∈ s.key.1, c ∈ t.key.1) ∧ ∀ c ∈ t.key.1, c ∈ s.key.1))

end IndexedSet

end ShiftReduce
