import ShiftReduce.Proofs.Loading
import ShiftReduce.Proofs.SimpleLR

/-!
What the questions about FIRST and FOLLOW answer.

In the grammar of a mapping every question about its symbols has an answer. FIRST of a form holds
what can come in front of the forms derived from it, and epsilon when it can vanish; FOLLOW of a
nonterminal holds what can come right behind it. Neither holds a nonterminal, and FOLLOW does not
hold epsilon.
-/

namespace ShiftReduce

/-- A token or the end of input, which is all that an input is made of. -/
def Symbol.IsInput (s : Symbol) : Prop := (∃ n, s = .token n) ∨ s = .endOfInput

namespace Symbol

variable {heads : List String} {s : Symbol}

theorem IsInput.isNonterminal_eq_false (h : s.IsInput) : s.isNonterminal = false := by
  rcases h with ⟨n, rfl⟩ | rfl
  · rfl
  · rfl

theorem IsInput.ne_epsilon (h : s.IsInput) : s ≠ .epsilon := by
  rcases h with ⟨n, rfl⟩ | rfl
  · simp
  · simp

theorem Occurs.isInput (h : s.Occurs heads) (hs : s.isNonterminal = false) : s.IsInput := by
  cases s with
  | nonterminal n => cases hs
  | token n => exact .inl ⟨n, rfl⟩
  | _ => exact h.elim

end Symbol

namespace Grammar

/-- The symbols that a form may consist of: the nonterminals of the augmented grammar, tokens, the
end of input, and epsilon. -/
def HasSymbol (g : Grammar) : Symbol → Prop
  | .nonterminal n => n ∈ g.names
  | .plain _ => False
  | _ => True

/-- What can come in front of the forms derived from a form, and epsilon when it can vanish. -/
structure IsFirst (g : Grammar) (form : Form) (found : List Symbol) : Prop where
  mem_iff : ∀ x : Symbol, x.IsInput →
    (x ∈ found ↔ ∃ rest, g.Derives form.visible (x :: rest))
  epsilon_mem_iff : .epsilon ∈ found ↔ g.Derives form.visible []
  cases : ∀ x ∈ found, x.IsInput ∨ x = .epsilon

/-- What can come right behind a nonterminal, in forms derived from any nonterminal or, unless
there are useless ones, from the synthetic start symbol. -/
structure IsFollow (g : Grammar) (n : String) (found : List Symbol) : Prop where
  mem_iff : ∀ x, x ∈ found ↔ x.IsInput ∧ ∃ h ∈ g.names, ∃ left right,
    g.Derives [.nonterminal h] (left ++ .nonterminal n :: x :: right)
  mem_iff_of_reachable : (∀ m ∈ g.heads, g.Reachable m) → ∀ x, x ∈ found ↔
    x.IsInput ∧ ∃ left right,
      g.Derives [.nonterminal Symbol.startName] (left ++ .nonterminal n :: x :: right)
  epsilon_not_mem : .epsilon ∉ found
  nonterminal_not_mem : ∀ m, .nonterminal m ∉ found

variable {g : Grammar} {s : Sets} {form a b : Form} {found : List Symbol} {n : String} {x : Symbol}

namespace WellFormed

variable (wf : g.WellFormed)

include wf

/-- A derivation brings nonterminals and what an input is made of. -/
theorem cases_of_derives (h : g.Derives a b)
    (ha : ∀ x ∈ a, x.isNonterminal = true ∨ x.IsInput) :
    ∀ x ∈ b, x.isNonterminal = true ∨ x.IsInput := by
  apply h.forall_mem (P := fun x => x.isNonterminal = true ∨ x.IsInput) ha
  intro p hp x hx
  rcases wf.mem_reducedBody hp hx with hoccurs | ⟨rfl, -⟩
  · cases hx : x.isNonterminal with
    | true => exact .inl rfl
    | false => exact .inr (hoccurs.isInput hx)
  · exact .inr (.inr rfl)

theorem isInput_of_first (hform : ∀ x ∈ form, g.HasSymbol x) (h : g.First form x) :
    x.IsInput ∨ x = .epsilon := by
  rcases h with ⟨hx, -⟩ | ⟨-, hterminal, rest, hder⟩
  · exact .inr hx
  · have hvisible : ∀ y ∈ form.visible, y.isNonterminal = true ∨ y.IsInput := by
      intro y hy
      obtain ⟨hy, hne⟩ := List.mem_filter.mp hy
      cases y with
      | nonterminal m => exact .inl rfl
      | token m => exact .inr (.inl ⟨m, rfl⟩)
      | endOfInput => exact .inr (.inr rfl)
      | epsilon => simp at hne
      | plain m => exact (hform _ hy).elim
    rcases wf.cases_of_derives hder hvisible x List.mem_cons_self with hx | hx
    · rw [hx] at hterminal
      cases hterminal
    · exact .inl hx

theorem isInput_of_follows (h : g.Follows n x) : x.IsInput := by
  obtain ⟨hterminal, head, -, left, right, hder⟩ := h
  have hhead : ∀ y ∈ [Symbol.nonterminal head], y.isNonterminal = true ∨ y.IsInput := by
    intro y hy
    rw [List.mem_singleton.mp hy]
    exact .inl rfl
  rcases wf.cases_of_derives hder hhead x (by simp) with hx | hx
  · rw [hx] at hterminal
    cases hterminal
  · exact hx

theorem isFirst_of_mem_iff (hform : ∀ x ∈ form, g.HasSymbol x)
    (h : ∀ x, x ∈ found ↔ g.First form x) : g.IsFirst form found where
  mem_iff x hx := by
    rw [h x]
    constructor
    · rintro (⟨heq, -⟩ | ⟨-, -, hder⟩)
      · exact absurd heq hx.ne_epsilon
      · exact hder
    · exact fun hder => .inr ⟨hx.ne_epsilon, hx.isNonterminal_eq_false, hder⟩
  epsilon_mem_iff := by simp [h, First]
  cases x hx := wf.isInput_of_first hform ((h x).mp hx)

theorem isFollow_of_mem_iff (h : ∀ x, x ∈ found ↔ g.Follows n x) : g.IsFollow n found where
  mem_iff x := by
    rw [h x]
    constructor
    · exact fun hx => ⟨wf.isInput_of_follows hx, hx.2⟩
    · exact fun hx => ⟨hx.1.isNonterminal_eq_false, hx.2⟩
  mem_iff_of_reachable hall x := by
    rw [h x]
    constructor
    · intro hx
      exact ⟨wf.isInput_of_follows hx, ((follows_iff_followsFromStart hall).mp hx).2⟩
    · intro hx
      exact (follows_iff_followsFromStart hall).mpr ⟨hx.1.isNonterminal_eq_false, hx.2⟩
  epsilon_not_mem hx := (wf.isInput_of_follows ((h _).mp hx)).ne_epsilon rfl
  nonterminal_not_mem m hx := by
    have hterminal := ((h _).mp hx).1
    cases hterminal

omit wf in
theorem exists_nonterminal? (hn : n ∈ g.names) :
    ∃ m, g.nonterminal? n = some m ∧ m.name = n := by
  obtain ⟨m, hm, hname⟩ := List.mem_map.mp hn
  cases hfind : g.nonterminal? n with
  | none => exact absurd (by simpa using hname) (List.find?_eq_none.mp hfind m hm)
  | some k => exact ⟨k, rfl, by simpa using List.find?_some hfind⟩

section Sets

variable (h : g.sets = .ok s)

include h

theorem exists_firstOf (hform : ∀ x ∈ form, g.HasSymbol x) :
    ∃ found, s.firstOf form = .ok found ∧ g.IsFirst form found := by
  have hnames : ∀ n, .nonterminal n ∈ form → n ∈ s.grammar.names := by
    intro n hn
    rw [(sets_ok h).1]
    exact hform _ hn
  obtain ⟨found, hfound⟩ := exists_firstOfString hnames s.first
  refine ⟨found, hfound, wf.isFirst_of_mem_iff hform ?_⟩
  intro x
  rw [mem_firstOfString hfound, starts_first_iff wf.declared h]

omit wf in
theorem nonterminal_eq_ok (hn : n ∈ g.names) : ∃ m, s.nonterminal n = .ok m ∧ m.name = n := by
  obtain ⟨m, hm, hname⟩ := exists_nonterminal? hn
  refine ⟨m, ?_, hname⟩
  rw [Sets.nonterminal, (sets_ok h).1, hm]

/-- A nonterminal is found by itself and by its name. -/
theorem resolve_eq_ok (hn : n ∈ g.names) {d : Designator}
    (hd : d = .symbol (.nonterminal n) ∨ d = .name n) : s.resolve d = .ok (.nonterminal n) := by
  obtain ⟨m, hm, rfl⟩ := nonterminal_eq_ok h hn
  have hresolved : (s.nonterminal m.name).map Nonterminal.symbol = .ok (.nonterminal m.name) := by
    rw [hm]
    rfl
  rcases hd with rfl | rfl
  · exact hresolved
  · simp only [Sets.resolve]
    split
    · exact hresolved
    · rename_i hne
      have hhead : m.name ∈ g.heads := (List.mem_cons.mp hn).resolve_left hne
      rw [wf.ofName_of_mem_heads hhead]
      exact hresolved

theorem exists_firstSet (hn : n ∈ g.names) {d : Designator}
    (hd : d = .symbol (.nonterminal n) ∨ d = .name n) :
    ∃ found, s.firstSet d = .ok found ∧ g.IsFirst [.nonterminal n] found := by
  refine ⟨s.first.of n, ?_, wf.isFirst_of_mem_iff (by simpa [HasSymbol] using hn) ?_⟩
  · simp [Sets.firstSet, wf.resolve_eq_ok h hn hd, firstOfSymbol, (sets_ok h).1, hn]
  · intro x
    rw [Facts.mem_of, ← Facts.starts_singleton, starts_first_iff wf.declared h]

omit wf in
theorem followSet_eq_ok (hn : n ∈ g.names) {d : Designator} (hd : d.text = n) :
    s.followSet d = .ok (s.follow.of n) := by
  obtain ⟨m, hm, hname⟩ := nonterminal_eq_ok h hn
  rw [Sets.followSet, hd, hm, ← hname]
  rfl

theorem exists_followSet (hn : n ∈ g.names) {d : Designator} (hd : d.text = n) :
    ∃ found, s.followSet d = .ok found ∧ g.IsFollow n found := by
  refine ⟨s.follow.of n, followSet_eq_ok h hn hd, wf.isFollow_of_mem_iff ?_⟩
  intro x
  rw [Facts.mem_of, mem_follow_iff wf.declared h]

end Sets

end WellFormed

end Grammar

/-- FIRST is answered for every form over the symbols of a mapping's grammar, by what the form
derives, and for every nonterminal, given by itself or by its name. -/
theorem Source.first_exact {d : Datum} {g : Grammar} (h : (Source.written d).load = .ok g) :
    ∃ s, g.sets = .ok s ∧
      (∀ form : Form, (∀ x ∈ form, g.HasSymbol x) →
        ∃ found, s.firstOf form = .ok found ∧ g.IsFirst form found) ∧
      ∀ n ∈ g.names, ∀ question, question = .symbol (.nonterminal n) ∨ question = .name n →
        ∃ found, s.firstSet question = .ok found ∧ g.IsFirst [.nonterminal n] found := by
  have wf := Source.load_wellFormed h
  obtain ⟨s, hs⟩ := Grammar.exists_sets wf.declared
  refine ⟨s, hs, ?_, ?_⟩
  · exact fun form hform => wf.exists_firstOf hs hform
  · exact fun n hn question hquestion => wf.exists_firstSet hs hn hquestion

/-- Left recursion hidden behind a nonterminal that can vanish, and a nonterminal that derives
nothing. -/
def Source.hidden : Datum :=
  .mapping [(.text "S", .list [.text "A S b", .text "c"]),
    (.text "A", .list [.text "epsilon", .text "a A"]), (.text "U", .list [.text "U u"])]

set_option maxRecDepth 100000 in
theorem Source.hidden_first : ∃ g, (Source.written hidden).load = .ok g ∧
    (∃ rest, g.Derives [.nonterminal "A", .nonterminal "S"] (.token "c" :: rest)) ∧
    ¬ g.Derives [.nonterminal "A", .nonterminal "S"] [] := by
  have h : Except.passes (fun g => decide ("A" ∈ g.names ∧ "S" ∈ g.names) && Except.passes
      (fun s => Except.passes (fun found => decide (.token "c" ∈ found ∧ .epsilon ∉ found))
        (s.firstOf [.nonterminal "A", .nonterminal "S"])) g.sets)
      (Source.written hidden).load = true := by
    decide +kernel
  obtain ⟨g, hg, htest⟩ := Except.exists_of_passes h
  obtain ⟨hnames, htest⟩ := Bool.and_eq_true_iff.mp htest
  obtain ⟨hA, hS⟩ := of_decide_eq_true hnames
  obtain ⟨s, hs, hfirst, -⟩ := Source.first_exact hg
  obtain ⟨found, hfound, hexact⟩ :=
    hfirst [.nonterminal "A", .nonterminal "S"] (by simpa [Grammar.HasSymbol] using ⟨hA, hS⟩)
  rw [hs] at htest
  simp only [Except.passes, hfound, decide_eq_true_eq] at htest
  refine ⟨g, hg, ?_, ?_⟩
  · exact (hexact.mem_iff _ (.inl ⟨"c", rfl⟩)).mp htest.1
  · exact fun hvanish => htest.2 (hexact.epsilon_mem_iff.mpr hvanish)

/-- FOLLOW is answered for every nonterminal of a mapping's grammar, by what derivations show
behind it. -/
theorem Source.follow_exact {d : Datum} {g : Grammar} (h : (Source.written d).load = .ok g) :
    ∃ s, g.sets = .ok s ∧ ∀ n ∈ g.names, ∀ question : Designator, question.text = n →
      ∃ found, s.followSet question = .ok found ∧ g.IsFollow n found := by
  have wf := Source.load_wellFormed h
  obtain ⟨s, hs⟩ := Grammar.exists_sets wf.declared
  exact ⟨s, hs, fun n hn question hquestion => wf.exists_followSet hs hn hquestion⟩

set_option maxRecDepth 100000 in
theorem Source.balanced_follow : ∃ g, (Source.written balanced).load = .ok g ∧
    ∃ left right, g.Derives [.nonterminal Symbol.startName]
      (left ++ .nonterminal "S" :: .token ")" :: right) := by
  have h : Except.passes (fun g => decide (g.start.name = "S" ∧ g.others = []) && Except.passes
      (fun s => Except.passes (fun found => decide (.token ")" ∈ found))
        (s.followSet (.name "S"))) g.sets)
      (Source.written balanced).load = true := by
    decide +kernel
  obtain ⟨g, hg, htest⟩ := Except.exists_of_passes h
  obtain ⟨hshape, htest⟩ := Bool.and_eq_true_iff.mp htest
  obtain ⟨hstart, hothers⟩ := of_decide_eq_true hshape
  have hheads : g.heads = ["S"] := by
    simp [Grammar.heads, Grammar.nonterminals, hothers, hstart]
  obtain ⟨s, hs, hfollow⟩ := Source.follow_exact hg
  obtain ⟨found, hfound, hexact⟩ :=
    hfollow "S" (by simp [Grammar.names_eq, hheads]) (.name "S") rfl
  rw [hs] at htest
  simp only [Except.passes, hfound, decide_eq_true_eq] at htest
  have hreachable : ∀ n ∈ g.heads, g.Reachable n := by
    intro n hn
    rw [hheads, List.mem_singleton] at hn
    rw [hn, ← hstart]
    exact g.reachable_start
  exact ⟨g, hg, ((hexact.mem_iff_of_reachable hreachable _).mp htest).2⟩

end ShiftReduce
