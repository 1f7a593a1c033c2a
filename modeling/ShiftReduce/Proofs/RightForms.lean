import ShiftReduce.Proofs.FollowSets

/-!
Right forms and their handles.

A right form is what rightmost derivations lead to from the synthetic start symbol. Behind its last
nonterminal there are tokens and the end of input. Its handle is the body that the last step of the
derivation has put there.
-/

namespace ShiftReduce

/-- Tokens, and possibly the end of input behind them. -/
def Form.IsInput (form : Form) : Prop :=
  ∃ names : List String, form = names.map Symbol.token ∨
    form = names.map Symbol.token ++ [.endOfInput]

theorem Form.IsInput.isTerminal {form : Form} (h : form.IsInput) : form.IsTerminal := by
  obtain ⟨names, rfl | rfl⟩ := h
  · exact isTerminal_tokens names
  · exact (isTerminal_tokens names).append (by simp [Form.IsTerminal, Symbol.isNonterminal])

namespace Grammar

/-- Every nonterminal derives a string of tokens. -/
def Productive (g : Grammar) : Prop :=
  ∀ n ∈ g.heads, ∃ names : List String, g.Derives [.nonterminal n] (names.map Symbol.token)

/-- A rightmost derivation from the synthetic start symbol whose last step puts the body of a
production between `left` and `right`. -/
structure Handle (g : Grammar) (p : Production) (left right : Form) : Prop where
  derives : ∃ ps, g.RightmostDerives ps [.nonterminal Symbol.startName]
    (left ++ .nonterminal p.head :: right)
  step : g.RightmostDerives [p] (left ++ .nonterminal p.head :: right)
    (left ++ p.reducedBody ++ right)
  isInput : right.IsInput

variable {g : Grammar} {p : Production} {left right form : Form} {name : String}

/-- The synthetic start symbol alone, or symbols of bodies with the end of input behind them. -/
def Sentential (g : Grammar) (form : Form) : Prop :=
  form = [.nonterminal Symbol.startName] ∨
    ∃ front, form = front ++ [.endOfInput] ∧ ∀ s ∈ front, s.Occurs g.heads

/-- What stands around a nonterminal of such a form. -/
theorem Sentential.split (h : g.Sentential (left ++ .nonterminal name :: right)) :
    left = [] ∧ name = Symbol.startName ∧ right = [] ∨
      ∃ rest, right = rest ++ [.endOfInput] ∧
        ∀ s ∈ left ++ .nonterminal name :: rest, s.Occurs g.heads := by
  rcases h with hstart | ⟨front, hform, hfront⟩
  · cases left with
    | nil =>
      obtain ⟨hname, hright⟩ := List.cons.inj hstart
      exact .inl ⟨rfl, Symbol.nonterminal.inj hname, hright⟩
    | cons y left => simp at hstart
  · rcases append_eq_append_cons hform.symm with ⟨rest, rfl, rfl⟩ | ⟨rest, -, hrest⟩
    · exact .inr ⟨rest, rfl, hfront⟩
    · have hmem : Symbol.nonterminal name ∈ [Symbol.endOfInput] := by simp [hrest]
      simp at hmem

/-- Symbols of bodies that are terminal are tokens. -/
theorem exists_tokens {heads : List String} (h : ∀ s ∈ form, s.Occurs heads)
    (hterminal : form.IsTerminal) : ∃ names : List String, form = names.map Symbol.token := by
  induction form with
  | nil => exact ⟨[], rfl⟩
  | cons s rest ih =>
    obtain ⟨names, hnames⟩ := ih (fun t ht => h t (List.mem_cons_of_mem _ ht))
      fun t ht => hterminal t (List.mem_cons_of_mem _ ht)
    have hs := hterminal s List.mem_cons_self
    have hoccurs := h s List.mem_cons_self
    cases s with
    | token name => exact ⟨name :: names, by rw [List.map_cons, hnames]⟩
    | nonterminal => cases hs
    | _ => exact hoccurs.elim

/-- Where every nonterminal derives a string of tokens, every form yields a terminal string. -/
theorem Productive.exists_yields (h : g.Productive)
    (hform : ∀ n, .nonterminal n ∈ form → n ∈ g.heads) : ∃ ps word, g.Yields form ps word := by
  induction form with
  | nil => exact ⟨[], [], .nil⟩
  | cons s rest ih =>
    obtain ⟨ps, word, hrest⟩ := ih fun n hn => hform n (List.mem_cons_of_mem _ hn)
    cases hs : s.isNonterminal with
    | false => exact ⟨ps, s :: word, .terminal hs hrest⟩
    | true =>
      cases s with
      | nonterminal n =>
        obtain ⟨names, hnames⟩ := h n (hform n List.mem_cons_self)
        obtain ⟨qs, hqs⟩ := Yields.exists_of_derives hnames (Form.isTerminal_tokens names)
        exact ⟨_, _, hqs.append hrest⟩
      | _ => cases hs

theorem Handle.mem (h : g.Handle p left right) : p ∈ g.augmentedProductions := by
  have hstep := h.step
  generalize left ++ .nonterminal p.head :: right = a at hstep
  cases hstep with
  | step hp _ _ => exact hp

theorem Handle.exists_derives (h : g.Handle p left right) :
    ∃ ps, g.RightmostDerives ps [.nonterminal Symbol.startName]
      (left ++ p.reducedBody ++ right) := by
  obtain ⟨ps, hps⟩ := h.derives
  exact ⟨_, hps.trans h.step⟩

namespace WellFormed

variable (wf : g.WellFormed)

include wf

theorem sentential_of_derives (h : g.Derives [.nonterminal Symbol.startName] form) :
    g.Sentential form := by
  induction h with
  | refl => exact .inl rfl
  | tail _ hstep ih =>
    cases hstep with | @step p left right hp
    rcases ih.split with ⟨rfl, hhead, rfl⟩ | ⟨rest, rfl, hoccurs⟩
    · obtain rfl := wf.eq_startProduction_of_head hp hhead
      refine .inr ⟨[.nonterminal g.start.name], rfl, ?_⟩
      intro s hs
      rw [List.mem_singleton.mp hs]
      exact ⟨g.start_mem_heads, wf.ofName_of_mem_heads g.start_mem_heads⟩
    · have hhead : p.head ∈ g.heads := (hoccurs (.nonterminal p.head) (by simp)).1
      have hp := wf.mem_productions_of_head hp hhead
      refine .inr ⟨left ++ p.reducedBody ++ rest, by simp, ?_⟩
      intro s hs
      simp only [List.mem_append] at hs
      rcases hs with (hs | hs) | hs
      · exact hoccurs s (by simp [hs])
      · exact (wf.isBody p hp).occurs hs
      · exact hoccurs s (by simp [hs])

/-- Apart from the synthetic start symbol itself, what is derived from it is derived from the start
symbol, with the end of input behind. -/
theorem derives_start_of_derives (h : g.Derives [.nonterminal Symbol.startName] form) :
    form = [.nonterminal Symbol.startName] ∨
      ∃ front, form = front ++ [.endOfInput] ∧ g.Derives [g.start.symbol] front := by
  induction h with
  | refl => exact .inl rfl
  | tail hder hstep ih =>
    cases hstep with | @step p left right hp
    rcases (wf.sentential_of_derives hder).split with ⟨rfl, hhead, rfl⟩ | ⟨rest, rfl, -⟩
    · obtain rfl := wf.eq_startProduction_of_head hp hhead
      exact .inr ⟨[g.start.symbol], rfl, .refl _⟩
    · rcases ih with hstart | ⟨front, hfront, hder⟩
      · have hlength := congrArg List.length hstart
        simp only [List.length_append, List.length_cons, List.length_nil] at hlength
        omega
      · rw [← List.cons_append, ← List.append_assoc] at hfront
        obtain ⟨rfl, -⟩ := List.append_inj' hfront rfl
        exact .inr ⟨left ++ p.reducedBody ++ rest, by simp, hder.tail (.step left rest hp)⟩

/-- Behind the last nonterminal of a right form there are tokens and the end of input. -/
theorem isInput_of_derives
    (h : g.Derives [.nonterminal Symbol.startName] (left ++ .nonterminal name :: right))
    (hright : right.IsTerminal) : right.IsInput := by
  rcases (wf.sentential_of_derives h).split with ⟨-, -, rfl⟩ | ⟨rest, rfl, hoccurs⟩
  · exact ⟨[], .inl rfl⟩
  · have hrest : ∀ s ∈ rest, s.Occurs g.heads := fun s hs => hoccurs s (by simp [hs])
    have hrest : ∃ names : List String, rest = names.map Symbol.token :=
      exists_tokens hrest fun s hs => hright s (List.mem_append_left _ hs)
    obtain ⟨names, rfl⟩ := hrest
    exact ⟨names, .inr rfl⟩

theorem handle {ps : List Production} (hp : p ∈ g.augmentedProductions)
    (h : g.RightmostDerives ps [.nonterminal Symbol.startName]
      (left ++ .nonterminal p.head :: right)) (hright : right.IsTerminal) : g.Handle p left right :=
  ⟨⟨ps, h⟩, .step hp hright (.refl _), wf.isInput_of_derives h.derives hright⟩

end WellFormed

end Grammar

end ShiftReduce
