import ShiftReduce.Dictionary
import ShiftReduce.Item

/-!
Grammars.

The start nonterminal comes first and the productions are numbered from 1 in the order of the
nonterminals. Augmenting adds the synthetic start symbol with the production that leads from it to
the start nonterminal and the end of input; it takes no number. A production belongs to the
nonterminal that lists it, whatever its own head is.
-/

namespace ShiftReduce

/-- A nonterminal and the bodies of its productions, before they are numbered. -/
structure Declaration where
  name : String
  bodies : List (List Symbol)
  deriving DecidableEq

structure Nonterminal where
  name : String
  productions : List Production
  deriving DecidableEq

namespace Nonterminal

def symbol (n : Nonterminal) : Symbol := .nonterminal n.name

def number (n : Nat) (d : Declaration) : Nonterminal :=
  ⟨d.name, Production.numberFrom n d.name d.bodies⟩

/-- Number the productions of several declarations through. -/
def numberAll (n : Nat) : List Declaration → List Nonterminal
  | [] => []
  | d :: rest => number n d :: numberAll (n + d.bodies.length) rest

def unlisted (d : Declaration) : Nonterminal :=
  ⟨d.name, d.bodies.map fun body => ⟨⟨d.name, body⟩, .unlisted⟩⟩

end Nonterminal

/-- What the nonterminals in bodies stand for. -/
inductive Scope where
  /-- For the first of these that has their name. -/
  | named (among : List Nonterminal)
  /-- For the one of these that their production refers to. -/
  | placed (among : List Nonterminal)
  deriving DecidableEq

namespace Scope

def nonterminals : Scope → List Nonterminal
  | named among => among
  | placed among => among

/-- The nonterminal that a name after the dot stands for. -/
def find? (s : Scope) (i : Item) (name : String) : Option Nonterminal :=
  match s with
  | named among => among.find? (·.name = name)
  | placed among => i.place?.bind fun k => among[k]?

theorem mem_of_find? {s : Scope} {i : Item} {name : String} {n : Nonterminal}
    (h : s.find? i name = some n) : n ∈ s.nonterminals := by
  cases s with
  | named among => exact List.mem_of_find?_eq_some h
  | placed among =>
    obtain ⟨k, -, hk⟩ := Option.bind_eq_some_iff.mp h
    exact List.mem_of_getElem? hk

end Scope

structure Grammar where
  start : Nonterminal
  others : List Nonterminal
  tokens : Dictionary String Symbol
  scope : Scope
  deriving DecidableEq

namespace Grammar

def nonterminals (g : Grammar) : List Nonterminal := g.start :: g.others

def productions (g : Grammar) : List Production :=
  g.nonterminals.flatMap Nonterminal.productions

def startProduction (g : Grammar) : Production :=
  ⟨⟨Symbol.startName, [g.start.symbol, .endOfInput]⟩, .augmented⟩

def syntheticStart (g : Grammar) : Nonterminal :=
  ⟨Symbol.startName, [g.startProduction]⟩

def augmentedNonterminals (g : Grammar) : List Nonterminal :=
  g.syntheticStart :: g.nonterminals

def augmentedProductions (g : Grammar) : List Production :=
  g.startProduction :: g.productions

/-- The productions of the augmented grammar, each with the name of the nonterminal that it belongs
to. -/
def owned (g : Grammar) : List (String × Production) :=
  g.augmentedNonterminals.flatMap fun n => n.productions.map (n.name, ·)

/-- The names of the nonterminals of the augmented grammar. -/
def names (g : Grammar) : List String :=
  g.augmentedNonterminals.map Nonterminal.name

def production? (g : Grammar) (n : Nat) : Option Production :=
  g.productions.find? (·.number? = some n)

/-- The nonterminal of the augmented grammar that has a name, the synthetic start symbol before
any other. -/
def nonterminal? (g : Grammar) (name : String) : Option Nonterminal :=
  g.augmentedNonterminals.find? (·.name = name)

/-- The productions of the nonterminal after the dot. In the production that augments the grammar
it is the start nonterminal, whatever the scope says. -/
def expansion (g : Grammar) (i : Item) : List Production :=
  match i.next? with
  | some (.nonterminal name) =>
    if i.production.origin = .augmented then g.start.productions
    else match g.scope.find? i name with
      | some n => n.productions
      | none => []
  | _ => []

/-- Every production that an expansion can contain. -/
def expandable (g : Grammar) : List Production :=
  g.start.productions ++ g.scope.nonterminals.flatMap Nonterminal.productions

theorem expansion_subset (g : Grammar) (i : Item) : g.expansion i ⊆ g.expandable := by
  unfold expansion expandable
  intro p hp
  split at hp
  · split at hp
    · exact List.mem_append_left _ hp
    · split at hp
      · rename_i n hn
        exact List.mem_append_right _ (List.mem_flatMap.mpr ⟨n, Scope.mem_of_find? hn, hp⟩)
      · simp at hp
  · simp at hp

def productionsText (ps : List Production) : String :=
  "\n".intercalate (ps.map fun p => p.text)

end Grammar

end ShiftReduce
