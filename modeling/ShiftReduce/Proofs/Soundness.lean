import ShiftReduce.Proofs.Safety

/-!
What is accepted can be derived.

The reductions of a parser, read backwards, derive what has been read from the form that the stack
spells. A name of a nonterminal in the input is shifted over its goto and then stands for that
nonterminal, so that the derivation need not rewrite the last nonterminal of a form; but what it
has passed on its way from the right it leaves alone.
-/

namespace ShiftReduce

namespace Grammar

/-- Derivations in which everything behind the nonterminal of a step is already the end of the last
form and stays, with the productions of the steps in order. -/
inductive Settles (g : Grammar) : List Production → Form → Form → Prop where
  | refl (form : Form) : Settles g [] form form
  | step {p : Production} {ps : List Production} {left right form : Form} :
      p ∈ g.augmentedProductions → Settles g ps (left ++ p.reducedBody) form →
      Settles g (p :: ps) (left ++ .nonterminal p.head :: right) (form ++ right)

variable {g : Grammar} {p : Production} {ps : List Production} {a b : Form}

theorem Settles.append_right (h : g.Settles ps a b) (c : Form) :
    g.Settles ps (a ++ c) (b ++ c) := by
  cases h with
  | refl => exact .refl _
  | @step p ps left right form hp h =>
    have hstep : g.Settles (p :: ps) (left ++ .nonterminal p.head :: (right ++ c))
        (form ++ (right ++ c)) := .step hp h
    simpa using hstep

theorem Settles.derives (h : g.Settles ps a b) : g.Derives a b := by
  induction h with
  | refl => exact .refl _
  | @step p ps left right form hp _ ih =>
    have hstep := (Produces.step left right hp).derives
    exact hstep.trans (ih.append_right right)

/-- Up to a form of terminals such a derivation is rightmost. -/
theorem Settles.rightmostDerives (h : g.Settles ps a b) (hb : Form.IsTerminal b) :
    g.RightmostDerives ps a b := by
  induction h with
  | refl => exact .refl _
  | step hp _ ih =>
    have hright : Form.IsTerminal _ := fun s hs => hb s (List.mem_append_right _ hs)
    have hform : Form.IsTerminal _ := fun s hs => hb s (List.mem_append_left _ hs)
    exact .step hp hright ((ih hform).append_right hright)

/-- What a parser has done after some codes: the stack spells a form, from which the reductions
read backwards derive the input that has been read. -/
structure Parsed (g : Grammar) (t : Table) (names : List String) (codes : List Code)
    (c : Configuration) : Prop where
  ne_nil : c.input ≠ []
  derivation : ∃ form consumed ps, g.Spells c.stack form ∧
    names ++ [Symbol.endOfInputName] = consumed ++ c.input ∧
    List.Forall₂ t.Reduces (Code.numbers codes).reverse ps ∧
    g.Settles ps form (consumed.map Symbol.ofName)

theorem parsed_start (g : Grammar) (t : Table) (names : List String) :
    g.Parsed t names [] (Codes.start names) where
  ne_nil := by simp [Codes.start]
  derivation := ⟨[], [], [], .bottom, rfl, .nil, .refl _⟩

section Table

variable {t : Table} {names : List String} {codes : List Code} {code : Code}
  {c c' : Configuration} (wf : g.WellFormed) (ht : g.table = .ok t)

include wf ht

theorem Parsed.step (h : g.Parsed t names codes c) (hstep : t.parser.step c = .next code c') :
    g.Parsed t names (codes ++ [code]) c' := by
  obtain ⟨hne, form, consumed, ps, hspells, hnames, hreduces, hsettles⟩ := h
  obtain ⟨stack, input⟩ := c
  obtain ⟨k, below, rfl⟩ := hspells.exists_cons
  obtain ⟨name, rest, rfl⟩ := List.exists_cons_of_ne_nil hne
  have hmoves := wf.moves ht hspells name rest
  rw [hstep] at hmoves
  cases hmoves with
  | shift hgoto =>
    have hsuffix : name :: rest <:+ names ++ [Symbol.endOfInputName] := ⟨consumed, hnames.symm⟩
    refine ⟨(wf.suffix_of_shift hsuffix hgoto).2, _, consumed ++ [name], ps,
      .push hspells hgoto, by simpa using hnames, by simpa using hreduces, ?_⟩
    simpa using hsettles.append_right [Symbol.ofName name]
  | @reduce p left m n target stack hp hnumber hform hleft hgoto =>
    refine ⟨hne, _, consumed, p :: ps, .push hleft hgoto, hnames, ?_, ?_⟩
    · simpa using ⟨wf.reduces ht hp hnumber, hreduces⟩
    · subst hform
      have hfirst : g.Settles (p :: ps) (left ++ [.nonterminal p.head])
          (consumed.map Symbol.ofName ++ []) :=
        .step (mem_augmentedProductions.mpr (.inr hp)) hsettles
      simpa using hfirst

theorem parsed_of_takes (h : t.parser.Takes (Codes.start names) codes c) :
    g.Parsed t names codes c :=
  h.keeps (P := g.Parsed t names) (fun ha hstep => ha.step wf ht hstep) (g.parsed_start t names)

end Table

end Grammar

theorem Symbol.eq_endOfInputName {name : String} (h : ofName name = .endOfInput) :
    name = endOfInputName := by
  have := congrArg Symbol.name h
  rwa [name_ofName] at this

theorem append_singleton_eq_append_cons {α : Type} {a b rest : List α} {x : α} (hx : x ∉ a)
    (h : a ++ [x] = b ++ x :: rest) : b = a := by
  rcases append_eq_append_cons h with ⟨more, rfl, -⟩ | ⟨more, rfl, hmore⟩
  · simp at hx
  · have hnil : more = [] := by
      have := congrArg List.length hmore
      simp only [List.length_append, List.length_cons, List.length_nil] at this
      exact List.length_eq_zero_iff.mp (by omega)
    rw [hnil, List.append_nil]

/-- What the parser of a table accepts is derived from the start symbol, a name of a nonterminal
standing for it, and the reductions read backwards are the steps of a derivation that proceeds from
the right. -/
theorem Source.parser_sound {d : Datum} {t : Table} (ht : (Source.written d).table = .ok t)
    {names : List String} (hend : Symbol.endOfInputName ∉ names) {limit : Nat} {trace : List Code}
    (h : t.parser.run limit names = .accepted trace) :
    t.grammar.Derives [t.grammar.start.symbol] (names.map Symbol.ofName) ∧
    ∃ ps, List.Forall₂ t.Reduces (Code.numbers trace).reverse ps ∧
      t.grammar.Settles ps [t.grammar.start.symbol] (names.map Symbol.ofName) ∧
      (Form.IsTerminal (names.map Symbol.ofName) →
        t.grammar.RightmostDerives ps [t.grammar.start.symbol] (names.map Symbol.ofName)) := by
  obtain ⟨g, -, wf, ht⟩ := Source.table_ok ht
  obtain ⟨codes, ⟨stack, input⟩, htakes, haccept, rfl⟩ := Codes.takes_of_accepted h
  obtain ⟨hne, form, consumed, ps, hspells, hnames, hreduces, hsettles⟩ :=
    Grammar.parsed_of_takes wf ht htakes
  obtain ⟨k, below, rfl⟩ := hspells.exists_cons
  obtain ⟨name, rest, rfl⟩ := List.exists_cons_of_ne_nil hne
  have hmoves := wf.moves ht hspells name rest
  rw [haccept] at hmoves
  cases hmoves with
  | accepted hname hform =>
    obtain rfl := Symbol.eq_endOfInputName hname
    obtain rfl := append_singleton_eq_append_cons hend hnames
    subst hform
    rw [Grammar.grammar_of_table ht]
    refine ⟨hsettles.derives, ps, by simpa using hreduces, hsettles, hsettles.rightmostDerives⟩

set_option maxRecDepth 100000 in
theorem Source.balanced_sound : ∃ t trace, (written balanced).table = .ok t ∧
    t.parser.run 30 ["(", ")"] = .accepted trace ∧
    t.grammar.Derives [t.grammar.start.symbol] [.token "(", .token ")"] := by
  have h : Except.passes
      (fun t => decide (t.parser.run 30 ["(", ")"] =
        .accepted [.shift 2, .reduce 2, .shift 4, .reduce 2, .reduce 1, .accept]))
      (written balanced).table = true := by
    decide +kernel
  obtain ⟨t, ht, hrun⟩ := Except.exists_of_passes h
  have hrun := of_decide_eq_true hrun
  obtain ⟨hderives, -⟩ := Source.parser_sound ht (by decide) hrun
  exact ⟨t, _, ht, hrun, hderives⟩

namespace Grammar

variable {g : Grammar} {p : Production} {ps : List Production} {a : Form} {s : Symbol}

/-- The last symbol of a form is rewritten first when it is a nonterminal. -/
theorem RightmostDerives.head_eq {n : String}
    (h : g.RightmostDerives (p :: ps) (a ++ [.nonterminal n]) b) : p.head = n := by
  generalize hform : a ++ [.nonterminal n] = form at h
  cases h with
  | @step _ _ left right _ _ hright _ =>
    rcases List.eq_nil_or_concat' right with rfl | ⟨front, s, rfl⟩
    · have := (List.append_inj' hform rfl).2
      simpa using this.symm
    · rw [← List.cons_append, ← List.append_assoc] at hform
      have hlast := List.singleton_inj.mp (List.append_inj' hform rfl).2
      have hterminal := hright s (by simp)
      rw [← hlast] at hterminal
      cases hterminal

/-- After the first step from a single symbol the body stands there. -/
theorem RightmostDerives.of_singleton (h : g.RightmostDerives (p :: ps) [s] b) :
    g.RightmostDerives ps p.reducedBody b := by
  generalize hform : [s] = form at h
  cases h with
  | @step _ _ left right _ _ _ hrest =>
    have hlength := congrArg List.length hform
    simp only [List.length_append, List.length_cons, List.length_nil] at hlength
    obtain rfl : left = [] := List.length_eq_zero_iff.mp (by omega)
    obtain rfl : right = [] := List.length_eq_zero_iff.mp (by omega)
    simpa using hrest

end Grammar

/-- Sums of identifiers. -/
def Source.sums : Datum :=
  .mapping [(.text "E", .list [.text "E + T", .text "T"]), (.text "T", .list [.text "id"])]

set_option maxRecDepth 100000 in
/-- With the name of a nonterminal in the input the derivation need not be rightmost. -/
theorem Source.sums_not_rightmost : ∃ t trace, (written sums).table = .ok t ∧
    t.parser.run 30 ["id", "+", "T"] = .accepted trace ∧
    ∀ ps, List.Forall₂ t.Reduces (Code.numbers trace).reverse ps →
      ¬ t.grammar.RightmostDerives ps [t.grammar.start.symbol]
        (["id", "+", "T"].map Symbol.ofName) := by
  have h : Except.passes
      (fun t => decide ((t.parser.run 30 ["id", "+", "T"] =
        .accepted [.shift 3, .reduce 3, .reduce 2, .shift 4, .shift 5, .reduce 1, .accept]) ∧
          ∀ p ∈ t.grammar.productions,
            (p.number? = some 1 →
              p.reducedBody = [.nonterminal "E", .token "+", .nonterminal "T"]) ∧
            (p.number? = some 2 → p.head = "E")))
      (written sums).table = true := by
    decide +kernel
  obtain ⟨t, ht, htest⟩ := Except.exists_of_passes h
  obtain ⟨hrun, hproductions⟩ := of_decide_eq_true htest
  refine ⟨t, _, ht, hrun, ?_⟩
  intro ps hps hder
  -- After the sum the nonterminal before the plus is rewritten, and not the one behind it.
  obtain ⟨p, more, hp, hmore, rfl⟩ := List.forall₂_cons_left_iff.mp hps
  obtain ⟨q, more, hq, -, rfl⟩ := List.forall₂_cons_left_iff.mp hmore
  have hbody := (hproductions p hp.mem).1 hp.number
  have hhead := (hproductions q hq.mem).2 hq.number
  have hrest := hder.of_singleton
  rw [hbody] at hrest
  have hlast := hrest.head_eq (a := [.nonterminal "E", .token "+"])
  rw [hhead] at hlast
  exact absurd hlast (by decide)

end ShiftReduce
