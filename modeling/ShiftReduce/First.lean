import ShiftReduce.Grammar
import ShiftReduce.Saturation

/-!
FIRST sets.

What is known of the FIRST or FOLLOW sets of a grammar is a list of facts, a fact being that a
symbol belongs to the set of a nonterminal. The facts about FIRST are found by passes over the
productions of all nonterminals, each of which sees what the productions before it have brought,
until a pass brings nothing new. A nonterminal that is not one of the augmented grammar has no set
to look at.
-/

namespace ShiftReduce

abbrev Facts := List (String × Symbol)

namespace Facts

/-- The set of a nonterminal, in the order in which its members were found. -/
def of (f : Facts) (name : String) : List Symbol :=
  f.filterMap fun fact => if fact.1 = name then some fact.2 else none

def add (f : Facts) (name : String) (s : Symbol) : Facts :=
  if (name, s) ∈ f then f else f ++ [(name, s)]

def addAll (f : Facts) (name : String) (symbols : List Symbol) : Facts :=
  symbols.foldl (fun f s => add f name s) f

@[simp] theorem mem_of {f : Facts} {name : String} {s : Symbol} :
    s ∈ of f name ↔ (name, s) ∈ f := by
  simp only [of, List.mem_filterMap, Option.ite_none_right_eq_some, Option.some.injEq]
  constructor
  · rintro ⟨⟨n, t⟩, h, rfl, rfl⟩
    exact h
  · intro h
    exact ⟨(name, s), h, rfl, rfl⟩

@[simp] theorem mem_add {f : Facts} {name : String} {s : Symbol} {fact : String × Symbol} :
    fact ∈ add f name s ↔ fact ∈ f ∨ fact = (name, s) := by
  unfold add
  split
  · constructor
    · exact .inl
    · rintro (h | rfl)
      · exact h
      · assumption
  · simp

@[simp] theorem mem_addAll {f : Facts} {name : String} {symbols : List Symbol}
    {fact : String × Symbol} :
    fact ∈ addAll f name symbols ↔ fact ∈ f ∨ ∃ s ∈ symbols, fact = (name, s) := by
  induction symbols generalizing f with
  | nil => simp [addAll]
  | cons s rest ih =>
    simp only [addAll, List.foldl_cons] at ih ⊢
    rw [ih, mem_add]
    simp only [List.mem_cons, exists_eq_or_imp, or_assoc]

end Facts

/-- A nonterminal that is not one of the augmented grammar. -/
structure Undeclared where
  name : String
  deriving DecidableEq

/-- The set of a symbol, which is itself unless it is a nonterminal. -/
def firstOfSymbol (names : List String) (f : Facts) : Symbol → Except Undeclared (List Symbol)
  | .nonterminal n => if n ∈ names then .ok (f.of n) else .error ⟨n⟩
  | s => .ok [s]

/-- The FIRST set of a string of symbols. Epsilon is in it when every symbol can vanish; what
follows a symbol that cannot is not looked at. -/
def firstOfString (names : List String) (f : Facts) : List Symbol → Except Undeclared (List Symbol)
  | [] => .ok [.epsilon]
  | s :: rest =>
    match firstOfSymbol names f s with
    | .error e => .error e
    | .ok found =>
      if .epsilon ∈ found then
        match firstOfString names f rest with
        | .error e => .error e
        | .ok more =>
          let visible := found.filter (· ≠ .epsilon)
          .ok (visible ++ more.filter (· ∉ visible))
      else .ok found

namespace Grammar

/-- How many facts there can be: one for each nonterminal and each symbol of a body or epsilon. -/
def factCount (g : Grammar) : Nat :=
  g.names.length * ((g.augmentedProductions.flatMap fun p => p.body).length + 1)

/-- What a production brings is about the nonterminal that it belongs to. -/
def addFirst (g : Grammar) (f : Facts) (o : String × Production) : Except Undeclared Facts :=
  (firstOfString g.names f o.2.body).map (f.addAll o.1)

def firstPass (g : Grammar) (f : Facts) : Except Undeclared Facts :=
  g.owned.foldlM (addFirst g) f

def firstFacts (g : Grammar) : Except Undeclared Facts :=
  saturate (fun f => g.factCount - f.length) g.firstPass []

end Grammar

end ShiftReduce
