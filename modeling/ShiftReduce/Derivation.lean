import ShiftReduce.Grammar

/-!
Derivations in an augmented grammar.

A form is a string of symbols. In a step one nonterminal gives way to the body of one of its
productions, epsilon standing for the empty string; in a rightmost derivation it is always the last
nonterminal of the form.
-/

namespace ShiftReduce

abbrev Form := List Symbol

def Form.IsTerminal (form : Form) : Prop := ∀ s ∈ form, s.isNonterminal = false

namespace Grammar

inductive Produces (g : Grammar) : Form → Form → Prop where
  | step {p : Production} (left right : Form) : p ∈ g.augmentedProductions →
      Produces g (left ++ .nonterminal p.head :: right) (left ++ p.reducedBody ++ right)

inductive Derives (g : Grammar) : Form → Form → Prop where
  | refl (form : Form) : Derives g form form
  | tail {a b c : Form} : Derives g a b → g.Produces b c → Derives g a c

/-- Rightmost derivations, with the productions of their steps in order. -/
inductive RightmostDerives (g : Grammar) : List Production → Form → Form → Prop where
  | refl (form : Form) : RightmostDerives g [] form form
  | step {p : Production} {ps : List Production} {left right form : Form} :
      p ∈ g.augmentedProductions → Form.IsTerminal right →
      RightmostDerives g ps (left ++ p.reducedBody ++ right) form →
      RightmostDerives g (p :: ps) (left ++ .nonterminal p.head :: right) form

variable {g : Grammar}

theorem Derives.trans {a b c : Form} (hab : g.Derives a b) (hbc : g.Derives b c) :
    g.Derives a c := by
  induction hbc with
  | refl => exact hab
  | tail _ step ih => exact .tail ih step

theorem Produces.append {a b : Form} (h : g.Produces a b) (left right : Form) :
    g.Produces (left ++ a ++ right) (left ++ b ++ right) := by
  obtain ⟨l, r, hp⟩ := h
  have := Produces.step (left ++ l) (r ++ right) hp
  simpa only [List.append_assoc, List.cons_append] using this

theorem Derives.append {a b : Form} (h : g.Derives a b) (left right : Form) :
    g.Derives (left ++ a ++ right) (left ++ b ++ right) := by
  induction h with
  | refl => exact .refl _
  | tail _ step ih => exact .tail ih (step.append left right)

theorem RightmostDerives.derives {ps : List Production} {a b : Form}
    (h : g.RightmostDerives ps a b) : g.Derives a b := by
  induction h with
  | refl => exact .refl _
  | step hp _ _ ih => exact (Derives.tail (.refl _) (.step _ _ hp)).trans ih

end Grammar

end ShiftReduce
