/-!
Grammar symbols and the classes that their names belong to.

Two symbols are equal when they are of the same kind and have the same name; they are ordered by
name alone.
-/

namespace ShiftReduce

inductive Symbol where
  | nonterminal (name : String)
  | token (name : String)
  /-- A symbol of no particular kind; it behaves like a token that equals no token. -/
  | plain (name : String)
  | epsilon
  | endOfInput
  deriving DecidableEq

namespace Symbol

def epsilonName : String := "epsilon"

def endOfInputName : String := "$"

/-- The name of the synthetic start symbol of an augmented grammar. -/
def startName : String := "<S'>"

def name : Symbol → String
  | nonterminal n => n
  | token n => n
  | plain n => n
  | epsilon => epsilonName
  | endOfInput => endOfInputName

def isNonterminal : Symbol → Bool
  | nonterminal _ => true
  | _ => false

/-- The two reserved names stand for themselves, a name that begins with A to Z is that of a
nonterminal, and any other is that of a token. -/
def ofName (n : String) : Symbol :=
  if n = epsilonName then epsilon
  else if n = endOfInputName then endOfInput
  else match n.toList with
    | c :: _ => if 'A' ≤ c ∧ c ≤ 'Z' then nonterminal n else token n
    | [] => token n

instance : LT Symbol := ⟨fun a b => a.name < b.name⟩

instance (a b : Symbol) : Decidable (a < b) :=
  inferInstanceAs (Decidable (a.name < b.name))

/-- Put a symbol before the first whose name is not less. -/
def insertByName (s : Symbol) : List Symbol → List Symbol
  | [] => [s]
  | t :: rest => if s.name ≤ t.name then s :: t :: rest else t :: insertByName s rest

/-- Sorted by name; symbols of one name keep their order. -/
def sort (symbols : List Symbol) : List Symbol :=
  symbols.foldr insertByName []

theorem mem_insertByName {s t : Symbol} {symbols : List Symbol} :
    t ∈ insertByName s symbols ↔ t = s ∨ t ∈ symbols := by
  induction symbols with
  | nil => simp [insertByName]
  | cons u rest ih =>
    unfold insertByName
    split
    · simp
    · simp only [List.mem_cons, ih]
      exact or_left_comm

@[simp] theorem mem_sort {t : Symbol} {symbols : List Symbol} :
    t ∈ sort symbols ↔ t ∈ symbols := by
  induction symbols with
  | nil => simp [sort]
  | cons s rest ih =>
    simp only [sort, List.foldr_cons] at ih ⊢
    rw [mem_insertByName, ih, List.mem_cons]

theorem insertByName_perm (s : Symbol) (symbols : List Symbol) :
    (insertByName s symbols).Perm (s :: symbols) := by
  induction symbols with
  | nil => exact .refl _
  | cons t rest ih =>
    unfold insertByName
    split
    · exact .refl _
    · exact (ih.cons t).trans (.swap s t rest)

theorem sort_perm (symbols : List Symbol) : (sort symbols).Perm symbols := by
  induction symbols with
  | nil => exact .refl _
  | cons s rest ih => exact (insertByName_perm s (sort rest)).trans (ih.cons s)

theorem pairwise_insertByName {symbols : List Symbol} (s : Symbol)
    (h : symbols.Pairwise fun a b => a.name ≤ b.name) :
    (insertByName s symbols).Pairwise fun a b => a.name ≤ b.name := by
  induction symbols with
  | nil => exact List.pairwise_singleton _ _
  | cons t rest ih =>
    obtain ⟨ht, hrest⟩ := List.pairwise_cons.mp h
    unfold insertByName
    split
    · rename_i hle
      refine List.pairwise_cons.mpr ⟨?_, h⟩
      intro u hu
      rcases List.mem_cons.mp hu with rfl | hu
      · exact hle
      · exact String.le_trans hle (ht u hu)
    · rename_i hle
      refine List.pairwise_cons.mpr ⟨?_, ih hrest⟩
      intro u hu
      rcases mem_insertByName.mp hu with rfl | hu
      · exact (String.le_total _ _).resolve_left hle
      · exact ht u hu

theorem pairwise_sort (symbols : List Symbol) :
    (sort symbols).Pairwise fun a b => a.name ≤ b.name := by
  induction symbols with
  | nil => exact List.Pairwise.nil
  | cons s rest ih => exact pairwise_insertByName s ih

@[simp] theorem name_ofName (n : String) : (ofName n).name = n := by
  unfold ofName
  split
  · rename_i h; exact h.symm
  · split
    · rename_i h; exact h.symm
    · split
      · split <;> rfl
      · rfl

end Symbol

/-- What stands in a question about a symbol: the symbol itself or only its name. -/
inductive Designator where
  | symbol (s : Symbol)
  | name (n : String)
  deriving DecidableEq

namespace Designator

def text : Designator → String
  | symbol s => s.name
  | name n => n

/-- Symbols are ordered among themselves and names among themselves; there is no order between a
symbol and a name. -/
def lt? : Designator → Designator → Option Bool
  | symbol a, symbol b => some (decide (a < b))
  | name m, name n => some (decide (m < n))
  | _, _ => none

end Designator

end ShiftReduce
