import ShiftReduce.Proofs.Completeness

/-!
Words with one parse tree only.

A rightmost derivation is kept with its steps, and a parse tree with the trees below its
productions, so that two derivations of a word can be told apart. Both are determined by the
productions they use, in order; and a table without conflicts reduces a word in one way.
-/

namespace ShiftReduce

namespace Grammar

variable {g : Grammar} {a b : Form} {ps : List Production} {steps more : List (Production × Form)}

/-- A rightmost derivation with its steps: the production applied, and the form that it makes. -/
inductive RightmostPath (g : Grammar) : Form → List (Production × Form) → Form → Prop where
  | refl (form : Form) : RightmostPath g form [] form
  | step {p : Production} {left right form : Form} {steps : List (Production × Form)} :
      p ∈ g.augmentedProductions → Form.IsTerminal right →
      RightmostPath g (left ++ p.reducedBody ++ right) steps form →
      RightmostPath g (left ++ .nonterminal p.head :: right)
        ((p, left ++ p.reducedBody ++ right) :: steps) form

theorem RightmostPath.rightmostDerives (h : g.RightmostPath a steps b) :
    g.RightmostDerives (steps.map Prod.fst) a b := by
  induction h with
  | refl => exact .refl _
  | step hp hright _ ih => exact .step hp hright ih

theorem RightmostDerives.exists_path (h : g.RightmostDerives ps a b) :
    ∃ steps, g.RightmostPath a steps b ∧ steps.map Prod.fst = ps := by
  induction h with
  | refl => exact ⟨[], .refl _, rfl⟩
  | step hp hright _ ih =>
    obtain ⟨steps, hsteps, rfl⟩ := ih
    exact ⟨_, .step hp hright hsteps, rfl⟩

/-- There is one place at which a form can be split before its last nonterminal. -/
theorem last_nonterminal_unique {left right left' right' : Form} {m n : String}
    (h : left ++ .nonterminal m :: right = left' ++ .nonterminal n :: right')
    (hright : right.IsTerminal) (hright' : right'.IsTerminal) :
    left = left' ∧ m = n ∧ right = right' := by
  rcases append_eq_append_cons h with ⟨rest, rfl, rfl⟩ | ⟨rest, rfl, hrest⟩
  · cases hright' (.nonterminal m) (by simp)
  · cases rest with
    | nil =>
      obtain ⟨hname, hright⟩ := List.cons.inj hrest
      exact ⟨by simp, Symbol.nonterminal.inj hname, hright⟩
    | cons y rest =>
      obtain ⟨-, rfl⟩ := List.cons.inj hrest
      cases hright (.nonterminal n) (by simp)

/-- The productions of a rightmost derivation determine its steps. -/
theorem RightmostPath.eq_of_productions {c : Form} (h : g.RightmostPath a steps b)
    (h' : g.RightmostPath a more c) (hps : steps.map Prod.fst = more.map Prod.fst) :
    steps = more := by
  induction h generalizing more with
  | refl => exact (List.map_eq_nil_iff.mp hps.symm).symm
  | @step p left right form steps hp hright _ ih =>
    generalize hform : left ++ .nonterminal p.head :: right = start at h'
    cases h' with
    | refl => simp at hps
    | @step q left' right' _ more hq hright' hmore =>
      obtain ⟨rfl, hrest⟩ := List.cons.inj hps
      obtain ⟨rfl, -, rfl⟩ := last_nonterminal_unique hform hright hright'
      rw [ih hmore hrest]

end Grammar

/-- Parse trees side by side. A tree is a terminal, or a production over the trees of its body. -/
inductive Forest where
  | nil
  | leaf (s : Symbol) (rest : Forest)
  | node (p : Production) (below rest : Forest)

namespace Forest

/-- The symbols at the roots. -/
def roots : Forest → Form
  | nil => []
  | leaf s rest => s :: rest.roots
  | node p _ rest => .nonterminal p.head :: rest.roots

/-- The symbols at the leaves. -/
def word : Forest → Form
  | nil => []
  | leaf s rest => s :: rest.word
  | node _ below rest => below.word ++ rest.word

/-- The productions from left to right, each after those below it. -/
def productions : Forest → List Production
  | nil => []
  | leaf _ rest => rest.productions
  | node p below rest => below.productions ++ p :: rest.productions

/-- The productions are those of a grammar, with their bodies right below them. -/
inductive Grows (g : Grammar) : Forest → Prop where
  | nil : Grows g nil
  | leaf {s : Symbol} {rest : Forest} : s.isNonterminal = false → Grows g rest →
      Grows g (leaf s rest)
  | node {p : Production} {below rest : Forest} : p ∈ g.augmentedProductions →
      below.roots = p.reducedBody → Grows g below → Grows g rest → Grows g (node p below rest)

/-- The parse trees of a form over a word. -/
structure Parses (g : Grammar) (form word : Form) (f : Forest) : Prop where
  grows : f.Grows g
  roots_eq : f.roots = form
  word_eq : f.word = word

variable {g : Grammar} {f f' : Forest} {form w : Form} {ps : List Production}

theorem Grows.yields (h : f.Grows g) : g.Yields f.roots f.productions f.word := by
  induction h with
  | nil => exact .nil
  | leaf hs _ ih => exact .terminal hs ih
  | node hp hbelow _ _ ihbelow ihrest => exact .node hp (hbelow ▸ ihbelow) ihrest

theorem exists_parses (h : g.Yields form ps w) : ∃ f, Parses g form w f ∧ f.productions = ps := by
  induction h with
  | nil => exact ⟨.nil, ⟨.nil, rfl, rfl⟩, rfl⟩
  | @terminal s _ _ _ hs _ ih =>
    obtain ⟨rest, ⟨hrest, rfl, rfl⟩, rfl⟩ := ih
    exact ⟨.leaf s rest, ⟨.leaf hs hrest, rfl, rfl⟩, rfl⟩
  | @node p _ _ _ _ _ hp _ _ ihbelow ihrest =>
    obtain ⟨below, ⟨hbelow, hroots, rfl⟩, rfl⟩ := ihbelow
    obtain ⟨rest, ⟨hrest, rfl, rfl⟩, rfl⟩ := ihrest
    exact ⟨.node p below rest, ⟨.node hp hroots hbelow hrest, rfl, rfl⟩, rfl⟩

/-- The roots and the productions determine the trees. Read from the right, the productions say
what the last tree is before they come to those in front of it. -/
theorem eq_of_productions (hf : f.Grows g) (hf' : f'.Grows g) (hroots : f.roots = f'.roots)
    {done done' : List Production} (h : done ++ f.productions = done' ++ f'.productions) :
    f = f' ∧ done = done' := by
  induction hf generalizing f' done done' with
  | nil =>
    cases hf' with
    | nil => exact ⟨rfl, by simpa [productions] using h⟩
    | leaf => simp [roots] at hroots
    | node => simp [roots] at hroots
  | @leaf s rest hs _ ih =>
    cases hf' with
    | nil => simp [roots] at hroots
    | leaf hs' hrest' =>
      obtain ⟨rfl, hrest⟩ := List.cons.inj hroots
      obtain ⟨rfl, rfl⟩ := ih hrest' hrest h
      exact ⟨rfl, rfl⟩
    | node =>
      obtain ⟨rfl, -⟩ := List.cons.inj hroots
      cases hs
  | @node p below rest hp hbelow _ _ ihbelow ihrest =>
    cases hf' with
    | nil => simp [roots] at hroots
    | leaf hs' _ =>
      obtain ⟨rfl, -⟩ := List.cons.inj hroots
      cases hs'
    | @node q below' rest' hq hbelow' hbelowGrows hrestGrows =>
      obtain ⟨-, hroots⟩ := List.cons.inj hroots
      have hsplit : (done ++ below.productions ++ [p]) ++ rest.productions =
          (done' ++ below'.productions ++ [q]) ++ rest'.productions := by
        simpa [productions] using h
      obtain ⟨rfl, hprefix⟩ := ihrest hrestGrows hroots hsplit
      obtain ⟨hfront, hlast⟩ := List.append_inj' hprefix rfl
      obtain rfl : p = q := List.singleton_inj.mp hlast
      obtain ⟨rfl, rfl⟩ := ihbelow hbelowGrows (hbelow.trans hbelow'.symm) hfront
      exact ⟨rfl, rfl⟩

end Forest

namespace Grammar.WellFormed

variable {g : Grammar} {t : Table} {ps qs : List Production} {names : List String}
  (wf : g.WellFormed) (ht : g.table = .ok t)

include wf ht

/-- A number says which production it is that of. -/
theorem rightUnique_reduces : Relator.RightUnique t.Reduces := by
  have hgrammar := grammar_of_table ht
  intro n p q hp hq
  exact wf.eq_of_number?_eq (hgrammar ▸ hp.mem) (hgrammar ▸ hq.mem)
    (hp.number.trans hq.number.symm)

/-- The parser completes the bodies of a word in one order only. -/
theorem productions_unique (hfree : t.conflicts = [])
    (hps : g.Yields [g.start.symbol] ps (names.map Symbol.token))
    (hqs : g.Yields [g.start.symbol] qs (names.map Symbol.token)) : ps = qs := by
  obtain ⟨least, trace, hrun, -, -, hnumbers⟩ := wf.accepts ht hfree hps
  obtain ⟨least', trace', hrun', -, -, hnumbers'⟩ := wf.accepts ht hfree hqs
  have hsame : Outcome.accepted trace = .accepted trace' := by
    rw [← hrun (max least least') (Nat.le_max_left _ _),
      hrun' (max least least') (Nat.le_max_right _ _)]
  cases hsame
  exact (wf.rightUnique_reduces ht).forall₂ hnumbers hnumbers'

end Grammar.WellFormed

/-- A grammar that has a table without conflicts is unambiguous: a word of tokens that the start
symbol derives has one rightmost derivation and one parse tree. -/
theorem Source.unambiguous_of_conflictFree {d : Datum} {t : Table}
    (ht : (Source.written d).table = .ok t) (hfree : t.conflicts = []) {names : List String}
    (h : t.grammar.Derives [t.grammar.start.symbol] (names.map Symbol.token)) :
    (∃! steps, t.grammar.RightmostPath [t.grammar.start.symbol] steps (names.map Symbol.token)) ∧
    ∃! f, Forest.Parses t.grammar [t.grammar.start.symbol] (names.map Symbol.token) f := by
  obtain ⟨g, -, wf, ht⟩ := Source.table_ok ht
  rw [Grammar.grammar_of_table ht] at h ⊢
  have hword := Form.isTerminal_tokens names
  obtain ⟨ps, hps⟩ := Grammar.Yields.exists_of_derives h hword
  have hunique : ∀ {qs}, g.Yields [g.start.symbol] qs (names.map Symbol.token) → qs = ps :=
    fun hqs => wf.productions_unique ht hfree hqs hps
  constructor
  · obtain ⟨steps, hsteps, hproductions⟩ := hps.rightmostDerives.exists_path
    refine ⟨steps, hsteps, ?_⟩
    intro more hmore
    apply hmore.eq_of_productions hsteps
    have hyields := Grammar.Yields.of_rightmostDerives hmore.rightmostDerives hword
    rw [hproductions, ← hunique hyields, List.reverse_reverse]
  · obtain ⟨f, hf, hproductions⟩ := Forest.exists_parses hps
    refine ⟨f, hf, ?_⟩
    rintro f' ⟨hgrows, hroots, hwordEq⟩
    have hyields : g.Yields [g.start.symbol] f'.productions (names.map Symbol.token) := by
      rw [← hroots, ← hwordEq]
      exact hgrows.yields
    have hsame : [] ++ f'.productions = [] ++ f.productions := by
      rw [hunique hyields, hproductions]
    exact (Forest.eq_of_productions hgrows hf.grows (hroots.trans hf.roots_eq.symm) hsame).1

set_option maxRecDepth 100000 in
theorem Source.balanced_unambiguous : ∃ t, (written balanced).table = .ok t ∧
    ∃! f, Forest.Parses t.grammar [.nonterminal "S"] [.token "(", .token ")"] f := by
  have h : Except.passes (fun t => decide (t.conflicts = [] ∧ t.grammar.start.name = "S" ∧
      enclosing ∈ t.grammar.augmentedProductions ∧ ending ∈ t.grammar.augmentedProductions))
      (written balanced).table = true := by
    decide +kernel
  obtain ⟨t, ht, htest⟩ := Except.exists_of_passes h
  obtain ⟨hfree, hname, henclosing, hending⟩ := of_decide_eq_true htest
  have hbody : t.grammar.Yields enclosing.reducedBody [ending, ending] [.token "(", .token ")"] :=
    .terminal rfl (.node hending .nil (.terminal rfl (.node hending .nil .nil)))
  have hyields : t.grammar.Yields [.nonterminal "S"] [ending, ending, enclosing]
      [.token "(", .token ")"] :=
    .node henclosing hbody .nil
  have hstart : t.grammar.start.symbol = .nonterminal "S" := congrArg Symbol.nonterminal hname
  have hderives : t.grammar.Derives [t.grammar.start.symbol] (["(", ")"].map Symbol.token) := by
    rw [hstart]
    exact hyields.derives
  obtain ⟨-, hunique⟩ := Source.unambiguous_of_conflictFree ht hfree hderives
  rw [hstart] at hunique
  exact ⟨t, ht, hunique⟩

end ShiftReduce
