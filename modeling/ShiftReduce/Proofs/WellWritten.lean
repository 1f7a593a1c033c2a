import ShiftReduce.Proofs.Dictionaries
import ShiftReduce.Proofs.Outcomes
import ShiftReduce.Proofs.WellFormed
import ShiftReduce.Source

/-!
What a value has to be to say a grammar, and what is wrong with one that does not.

Both are said of the value alone, without reading it: what is sound of heads, names and
alternatives, and which fault is the first of those that are not.
-/

namespace ShiftReduce

namespace Symbol

/-- A name that begins with one of the letters A to Z. -/
def IsCapital (name : String) : Prop :=
  ∃ c ∈ name.toList.head?, 'A' ≤ c ∧ c ≤ 'Z'

instance (name : String) : Decidable (IsCapital name) :=
  match h : name.toList.head? with
  | none => isFalse fun ⟨_, hc, _⟩ => by simp [h] at hc
  | some c => decidable_of_iff ('A' ≤ c ∧ c ≤ 'Z') (by simp [IsCapital, h])

variable {name : String}

theorem IsCapital.not_reserved (h : IsCapital name) :
    name ≠ epsilonName ∧ name ≠ endOfInputName ∧ name ≠ startName := by
  refine ⟨?_, ?_, ?_⟩
  all_goals
    rintro rfl
    revert h
    decide

theorem ofName_of_isCapital (h : IsCapital name) : ofName name = nonterminal name := by
  obtain ⟨hepsilon, hend, -⟩ := h.not_reserved
  obtain ⟨c, hc, hrange⟩ := h
  rw [ofName, if_neg hepsilon, if_neg hend]
  obtain ⟨rest, hrest⟩ := List.head?_eq_some_iff.mp hc
  rw [hrest]
  exact if_pos hrange

theorem ofName_of_not_isCapital (hepsilon : name ≠ epsilonName) (hend : name ≠ endOfInputName)
    (h : ¬ IsCapital name) : ofName name = token name := by
  rw [ofName, if_neg hepsilon, if_neg hend]
  cases hname : name.toList with
  | nil => rfl
  | cons c rest =>
    refine if_neg fun hrange => h ⟨c, ?_, hrange⟩
    rw [hname]
    rfl

theorem isNonterminal_ofName : (ofName name).isNonterminal = true ↔ IsCapital name := by
  refine ⟨fun h => ?_, fun h => by rw [ofName_of_isCapital h]; rfl⟩
  by_contra hcapital
  by_cases hepsilon : name = epsilonName
  · subst hepsilon
    simp [isNonterminal] at h
  · by_cases hend : name = endOfInputName
    · subst hend
      simp [isNonterminal] at h
    · rw [ofName_of_not_isCapital hepsilon hend hcapital] at h
      cases h

theorem ofName_injective : Function.Injective ofName :=
  Function.LeftInverse.injective name_ofName

end Symbol

/-- The name that a value is, if it is a text. -/
def Datum.text? : Datum → Option String
  | text s => some s
  | _ => none

namespace Mapping

/-- All names that are heads of a mapping. -/
def heads (m : Mapping) : List String :=
  m.filterMap fun e => e.1.text?

/-- An entry whose key is a nonterminal's name, and whose value is a sequence that tells its length,
which is not 0. -/
structure IsHead (entry : Datum × Datum) (head : String × Members) : Prop where
  key_eq : entry.1 = .text head.1
  isCapital : Symbol.IsCapital head.1
  sequence?_eq : entry.2.sequence? = some (.ok head.2)
  ne_empty : head.2 ≠ ⟨[], none⟩

inductive HeadFault (entry : Datum × Datum) : Refusal → Prop where
  | notText (h : ∀ name, entry.1 ≠ .text name) : HeadFault entry (.format (.headNotText entry.1))
  | notCapital {name : String} (hkey : entry.1 = .text name) (h : ¬ Symbol.IsCapital name) :
    HeadFault entry (.format (.headNotNonterminal name))
  | notSequence {name : String} (hkey : entry.1 = .text name) (hcapital : Symbol.IsCapital name)
      (h : entry.2.sequence? = none) :
    HeadFault entry (.format (.alternativesNotSequence name entry.2))
  | unmeasured {name : String} {r : Raised} (hkey : entry.1 = .text name)
      (hcapital : Symbol.IsCapital name) (h : entry.2.sequence? = some (.error r)) :
    HeadFault entry (.raised r)
  | noAlternatives {name : String} (hkey : entry.1 = .text name)
      (hcapital : Symbol.IsCapital name) (h : entry.2.sequence? = some (.ok ⟨[], none⟩)) :
    HeadFault entry (.format (.noAlternatives name))

/-- A name that may stand in an alternative of `count` names, given the heads of the mapping. -/
structure IsName (heads : List String) (count : Nat) (name : String) : Prop where
  alone : name = Symbol.epsilonName → count = 1
  ne_endOfInput : name ≠ Symbol.endOfInputName
  ne_start : name ≠ Symbol.startName
  defined : Symbol.IsCapital name → name ∈ heads

inductive NameFault (heads : List String) (head alternative : String) (count : Nat) :
    String → FormatError → Prop where
  | notAlone (h : count ≠ 1) : NameFault heads head alternative count Symbol.epsilonName
      (.epsilonNotAlone head alternative)
  | endOfInput : NameFault heads head alternative count Symbol.endOfInputName
      (.reservedSymbol Symbol.endOfInputName head alternative)
  | start : NameFault heads head alternative count Symbol.startName
      (.reservedSymbol Symbol.startName head alternative)
  | undefined {name : String} (hcapital : Symbol.IsCapital name) (h : name ∉ heads) :
    NameFault heads head alternative count name (.undefinedNonterminal name head alternative)

/-- A text with at least one name between its blanks, all of which may stand there. -/
def IsAlternative (heads : List String) (s : String) : Prop :=
  Text.words s ≠ [] ∧ ∀ name ∈ Text.words s, IsName heads (Text.words s).length name

inductive TextFault (heads : List String) (head s : String) : FormatError → Prop where
  | empty (h : Text.words s = []) : TextFault heads head s (.emptyAlternative head)
  | name {e : FormatError}
      (h : FirstFault (IsName heads (Text.words s).length)
        (NameFault heads head s (Text.words s).length) (Text.words s) e) : TextFault heads head s e

/-- What is wrong with an alternative that comes after some which have the names `earlier`. -/
inductive AlternativeFault (heads : List String) (head : String) (earlier : List (List String)) :
    Datum → FormatError → Prop where
  | notText {alternative : Datum} (h : ∀ s, alternative ≠ .text s) :
    AlternativeFault heads head earlier alternative (.alternativeNotText head alternative)
  | text {s : String} {e : FormatError} (h : TextFault heads head s e) :
    AlternativeFault heads head earlier (.text s) e
  | duplicate {s : String} (hs : IsAlternative heads s) (h : Text.words s ∈ earlier) :
    AlternativeFault heads head earlier (.text s) (.duplicateAlternative head s)

/-- Texts that are alternatives, no two of which have the same names. -/
structure AreAlternatives (heads : List String) (texts : List String) : Prop where
  isAlternative : ∀ s ∈ texts, IsAlternative heads s
  nodup : (texts.map Text.words).Nodup

/-- What is wrong with the first of the alternatives of a head that cannot stand there, or what is
thrown behind the last when all of them can. -/
inductive AlternativesFault (heads : List String) (head : String) (found : Members) :
    Refusal → Prop where
  | alternative {texts : List String} {alternative : Datum} {later : List Datum} {e : FormatError}
      (hmembers : found.members = texts.map .text ++ alternative :: later)
      (htexts : AreAlternatives heads texts)
      (h : AlternativeFault heads head (texts.map Text.words) alternative e) :
    AlternativesFault heads head found (.format e)
  | stopped {texts : List String} {r : Raised} (hmembers : found.members = texts.map .text)
      (htexts : AreAlternatives heads texts) (h : found.stop = some r) :
    AlternativesFault heads head found (.raised r)

def SoundHead (entry : Datum × Datum) : Prop :=
  ∃ head, IsHead entry head

def SoundAlternatives (heads : List String) (entry : Datum × Datum) : Prop :=
  ∃ texts : List String, entry.2.sequence? = some (.ok ⟨texts.map .text, none⟩) ∧
    AreAlternatives heads texts

/-- What is wrong with the alternatives of an entry whose head is sound. -/
def EntryFault (heads : List String) (entry : Datum × Datum) (r : Refusal) : Prop :=
  ∃ head, IsHead entry head ∧ AlternativesFault heads head.1 head.2 r

/-- Every entry is a head with its alternatives. -/
structure WellWritten (m : Mapping) : Prop where
  soundHead : ∀ entry ∈ m, SoundHead entry
  soundAlternatives : ∀ entry ∈ m, SoundAlternatives m.heads entry

/-- What is wrong with a mapping; all heads are looked at before any alternative is. -/
inductive Fault (m : Mapping) (r : Refusal) : Prop where
  | head (h : FirstFault SoundHead HeadFault m r)
  | alternative (hheads : ∀ entry ∈ m, SoundHead entry)
      (h : FirstFault (SoundAlternatives m.heads) (EntryFault m.heads) m r)

end Mapping

namespace Datum

/-- The mapping that a value is, if it has entries. -/
def IsMapping (d : Datum) (m : Mapping) : Prop :=
  ∃ entries, d = .mapping entries ∧ entries ≠ [] ∧ Dictionary.ofList entries = m

/-- What is wrong with a value that says no grammar. -/
inductive Fault : Datum → Refusal → Prop where
  | notMapping {d : Datum} (h : ∀ entries, d ≠ .mapping entries) :
    Fault d (.format (.notMapping d.kind))
  | noProductions : Fault (.mapping []) (.format .noProductions)
  | mapping {d : Datum} {m : Mapping} {r : Refusal} (hm : d.IsMapping m) (h : m.Fault r) :
    Fault d r

end Datum

end ShiftReduce
