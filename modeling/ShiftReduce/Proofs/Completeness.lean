import ShiftReduce.Proofs.Safety

/-!
What can be derived is accepted by a table without conflicts.

The run follows the tree of the derivation. An item of the top state with a form behind its dot
takes the parser over the word that the form yields: terminals are shifted, and for a nonterminal
the closure has an item of its production, which is complete when the word of the body has been
read. What comes next is then in FOLLOW of the head, so that the reduction stands in its cell.
-/

namespace ShiftReduce

/-- What may come next where a form is left over in a body of some head. -/
def Sets.Ahead (s : Sets) (head : String) (form : Form) (x : Symbol) : Prop :=
  x ≠ .epsilon ∧ (s.first.Starts form x ∨ s.first.Starts form .epsilon ∧ (head, x) ∈ s.follow)

namespace Grammar

variable {g : Grammar} {t : Table} {k : Nat} {s : ItemSet} {i : Item} {form word : Form}
  {ps : List Production} {head : String} {x : Symbol}

namespace WellFormed

variable (wf : g.WellFormed)

include wf

theorem named_of_yields (h : g.Yields form ps word) (hform : ∀ s ∈ form, Symbol.ofName s.name = s) :
    ∀ s ∈ word, Symbol.ofName s.name = s := by
  induction h with
  | nil => exact hform
  | terminal _ _ ih =>
    intro s hs
    rcases List.mem_cons.mp hs with rfl | hs
    · exact hform s List.mem_cons_self
    · exact ih (fun s hs => hform s (List.mem_cons_of_mem _ hs)) s hs
  | node hp _ _ hu hv =>
    intro s hs
    rcases List.mem_append.mp hs with hs | hs
    · exact hu (fun s hs => wf.ofName_name_of_mem_reducedBody hp hs) s hs
    · exact hv (fun s hs => hform s (List.mem_cons_of_mem _ hs)) s hs

/-- In front of the word of a form and what comes next stands what may come next there. -/
theorem ahead_of_yields {s : Sets} (hs : g.sets = .ok s) {tail : Form}
    (h : g.Yields form ps word) (hform : .epsilon ∉ form) (hx : s.Ahead head tail x) :
    ∃ y rest, word ++ [x] = y :: rest ∧ s.Ahead head (form ++ tail) y := by
  have hderives := h.derives
  have hvisible := Form.visible_eq_self hform
  cases word with
  | nil =>
    have hvanish : s.first.Starts form .epsilon :=
      (starts_first_iff wf.declared hs).mpr (.inl ⟨rfl, by rwa [hvisible]⟩)
    refine ⟨x, [], rfl, hx.1, ?_⟩
    rcases hx.2 with hstarts | ⟨hstarts, hfollow⟩
    · exact .inl (Facts.starts_append.mpr (.inr ⟨hvanish, hstarts⟩))
    · exact .inr ⟨Facts.starts_append.mpr (.inr ⟨hvanish, hstarts⟩), hfollow⟩
  | cons y rest =>
    have hterminal : y.isNonterminal = false := h.isTerminal y List.mem_cons_self
    have hne : y ≠ .epsilon := by
      rintro rfl
      exact hderives.epsilon_not_mem hform List.mem_cons_self
    have hstarts : s.first.Starts form y :=
      (starts_first_iff wf.declared hs).mpr (.inr ⟨hne, hterminal, rest, by rwa [hvisible]⟩)
    exact ⟨y, rest ++ [x], rfl, hne, .inl (Facts.starts_append.mpr (.inl ⟨hstarts, hne⟩))⟩

/-- Behind a nonterminal of a body comes a symbol of its FOLLOW. -/
theorem exists_next {s : Sets} (hs : g.sets = .ok s) {p : Production}
    (hp : p ∈ g.augmentedProductions) {left tail : Form} {n : String}
    (hbody : p.reducedBody = left ++ .nonterminal n :: (form ++ tail))
    (h : g.Yields form ps word) (hx : s.Ahead p.head tail x) (hname : Symbol.ofName x.name = x) :
    ∃ y rest, word ++ [x] = y :: rest ∧ Symbol.ofName y.name = y ∧ (n, y) ∈ s.follow ∧
      y ≠ .epsilon := by
  have hform : ∀ a ∈ form, a ∈ p.reducedBody := by
    intro a ha
    rw [hbody]
    exact List.mem_append_right _ (List.mem_cons_of_mem _ (List.mem_append_left _ ha))
  have hepsilon : .epsilon ∉ form := fun h => Rule.ne_epsilon_of_mem_reducedBody (hform _ h) rfl
  obtain ⟨y, rest, hy, hne, hahead⟩ := wf.ahead_of_yields hs h hepsilon hx
  refine ⟨y, rest, hy, ?_, ?_, hne⟩
  · have hmem : y ∈ word ++ [x] := hy ▸ List.mem_cons_self
    rcases List.mem_append.mp hmem with hmem | hmem
    · refine wf.named_of_yields h ?_ y hmem
      exact fun a ha => wf.ofName_name_of_mem_reducedBody hp (hform a ha)
    · rwa [List.mem_singleton.mp hmem]
  · exact follow_closed hs p hp left n _ hbody y hne hahead

/-- Moving over the symbol after a dot. -/
theorem exists_advance {y : Symbol} (hs : g.collection.states[k]? = some s) (hi : i ∈ s.items)
    (hdrop : i.production.reducedBody.drop i.dot = y :: form) (hne : y ≠ .endOfInput) :
    ∃ n t, g.collection.goto? k y = some n ∧ g.collection.states[n]? = some t ∧
      i.advance ∈ t.items ∧ i.advance.production.reducedBody.drop i.advance.dot = form := by
  have hitem := wf.hasItem_of_state hs hi
  have hnext := wf.next?_of_drop_eq_cons hitem hdrop
  obtain ⟨n, hn⟩ := exists_goto? hs ⟨i, hi, hnext⟩ hne
  obtain ⟨-, t, -, ht, -⟩ := wf.goto?_eq_some hn
  exact ⟨n, t, hn, ht, wf.advance_mem hn hs ht hi hnext,
    (List.cons.inj ((wf.drop_eq_cons hitem hnext).symm.trans hdrop)).2⟩

end WellFormed

/-- From the item on top of a stack the parser reads the word of a form behind the dot, and pushes a
state for every symbol of the form. -/
def Reads (g : Grammar) (t : Table) (i : Item) (stack : List Nat) (form : Form)
    (ps : List Production) (word : Form) (rest : List String) : Prop :=
  ∃ codes pushed m below s,
    t.parser.Takes ⟨stack, word.map Symbol.name ++ rest⟩ codes ⟨pushed ++ stack, rest⟩ ∧
    List.Forall₂ t.Reduces (Code.numbers codes) ps ∧ Code.shifts codes = word.length ∧
    pushed.length = form.length ∧ pushed ++ stack = m :: below ∧
    g.collection.states[m]? = some s ∧ ⟨i.production, i.dot + form.length⟩ ∈ s.items

theorem Reads.nil {stack : List Nat} {rest : List String}
    (hs : g.collection.states[k]? = some s) (hi : i ∈ s.items) :
    g.Reads t i (k :: stack) [] [] [] rest :=
  ⟨[], [], k, stack, s, .refl _, .nil, rfl, rfl, rfl, hs, hi⟩

/-- Reading on behind the first symbol of a form. -/
theorem Reads.cons {stack : List Nat} {rest : List String} {n : Nat} {y : Symbol} {u v : Form}
    {qs : List Production} {codes : List Code}
    (hfirst : t.parser.Takes ⟨k :: stack, (u ++ v).map Symbol.name ++ rest⟩ codes
      ⟨n :: k :: stack, v.map Symbol.name ++ rest⟩)
    (hnumbers : List.Forall₂ t.Reduces (Code.numbers codes) ps)
    (hshifts : Code.shifts codes = u.length)
    (h : g.Reads t i.advance (n :: k :: stack) form qs v rest) :
    g.Reads t i (k :: stack) (y :: form) (ps ++ qs) (u ++ v) rest := by
  obtain ⟨more, pushed, m, below, s, htakes, hqs, hmore, hpushed, htop, hs, hi⟩ := h
  refine ⟨codes ++ more, pushed ++ [n], m, below, s, ?_, ?_, ?_, ?_, ?_, hs, ?_⟩
  · simpa using hfirst.trans htakes
  · simpa using List.rel_append hnumbers hqs
  · simp [hshifts, hmore]
  · simp [hpushed]
  · simpa using htop
  · rw [List.length_cons, Nat.add_comm form.length, ← Nat.add_assoc]
    exact hi

namespace WellFormed

variable (wf : g.WellFormed) (ht : g.table = .ok t) (hfree : t.conflicts = [])

include wf ht hfree

/-- When the body of a production has been read, a symbol of FOLLOW makes the parser reduce it. -/
theorem takes_of_reads {p : Production} {stack : List Nat} {n : Nat} {rest : List String}
    (hbody : g.Reads t ⟨p, 0⟩ (k :: stack) p.reducedBody ps word (x.name :: rest))
    (hgoto : g.collection.goto? k (.nonterminal p.head) = some n)
    (hfollow : (p.head, x) ∈ t.sets.follow) :
    ∃ codes, t.parser.Takes ⟨k :: stack, word.map Symbol.name ++ x.name :: rest⟩ codes
        ⟨n :: k :: stack, x.name :: rest⟩ ∧
      List.Forall₂ t.Reduces (Code.numbers codes) (ps ++ [p]) ∧
      Code.shifts codes = word.length := by
  obtain ⟨codes, pushed, m, below, s, htakes, hnumbers, hshifts, hpushed, htop, hs, hi⟩ := hbody
  rw [Nat.zero_add] at hi
  have hitem := wf.hasItem_of_state hs hi
  have hcomplete := (wf.next?_eq_none_iff_dot_eq hitem).mpr rfl
  have hp := wf.mem_productions_of_complete hs hi hcomplete
  obtain ⟨number, hnumber⟩ := wf.exists_number hp
  have hreduces := wf.reduces ht hp hnumber
  have hcell := wf.cell?_of_complete ht hfree hs hi hcomplete hnumber hfollow
  have hpop : (m :: below).drop (p.reduction number).size = k :: stack := by
    rw [wf.size_reduction hp, ← htop, ← hpushed, List.drop_left]
  have hstep : t.parser.step ⟨pushed ++ k :: stack, x.name :: rest⟩ =
      .next (.reduce number) ⟨n :: k :: stack, x.name :: rest⟩ := by
    rw [htop]
    exact Codes.step_reduce hcell hreduces.known hpop (wf.cell?_of_goto? ht hgoto)
  refine ⟨codes ++ [.reduce number], htakes.trans (.single hstep), ?_, by simpa using hshifts⟩
  simpa using List.rel_append hnumbers (.cons hreduces .nil)

/-- A parser with a conflict-free table reads what a form behind a dot yields. -/
theorem reads (h : g.Yields form ps word) {k : Nat} {stack : List Nat} {s : ItemSet} {i : Item}
    {tail : Form} {x : Symbol} {rest : List String} (hs : g.collection.states[k]? = some s)
    (hi : i ∈ s.items) (hdrop : i.production.reducedBody.drop i.dot = form ++ tail)
    (hend : .endOfInput ∉ form) (hx : Symbol.ofName x.name = x)
    (hahead : t.sets.Ahead i.production.head tail x) :
    g.Reads t i (k :: stack) form ps word (x.name :: rest) := by
  induction h generalizing k stack s i tail x rest with
  | nil => exact .nil hs hi
  | @terminal y form word ps _ _ ih =>
    obtain ⟨n, u, hn, hu, hi, hdrop⟩ :=
      wf.exists_advance hs hi hdrop fun h => hend (h ▸ List.mem_cons_self)
    have hstep := Codes.step_shift (wf.cell?_of_goto? ht hn) stack
      (word.map Symbol.name ++ x.name :: rest)
    have hrest : g.Reads t i.advance (n :: k :: stack) form ps word (x.name :: rest) :=
      ih hu hi hdrop (fun h => hend (List.mem_cons_of_mem _ h)) hx hahead
    have hcons : g.Reads t i (k :: stack) (y :: form) ([] ++ ps) ([y] ++ word) (x.name :: rest) :=
      .cons (.single hstep) .nil rfl hrest
    exact hcons
  | @node p form u v ps qs hp _ hform ihbody ihform =>
    have hitem := wf.hasItem_of_state hs hi
    have hnext := wf.next?_of_drop_eq_cons hitem hdrop
    have hp := wf.mem_productions_of_head hp (wf.mem_heads_of_next? hitem hnext)
    have hbody : i.production.reducedBody =
        i.production.reducedBody.take i.dot ++ .nonterminal p.head :: (form ++ tail) := by
      rw [← List.cons_append, ← hdrop, List.take_append_drop]
    -- The body is read up to a symbol of FOLLOW of its head, and reduced.
    obtain ⟨y, more, hy, hyname, hfollow, hne⟩ :=
      wf.exists_next (Grammar.table_ok ht).1 hitem.mem hbody hform hahead hx
    have hinput : v.map Symbol.name ++ x.name :: rest =
        y.name :: (more.map Symbol.name ++ rest) := by
      simpa using congrArg (fun l => l.map Symbol.name ++ rest) hy
    have hcanonical := wf.canonical_iff.mpr ⟨s, List.mem_of_getElem? hs, rfl⟩
    have hentry : (⟨p, 0⟩ : Item) ∈ s.items :=
      hcanonical.expand hi (mem_augmentedProductions.mpr (.inr hp)) hnext
    have hwhole : p.reducedBody.drop 0 = p.reducedBody ++ [] := by simp
    have hbodyReads : g.Reads t ⟨p, 0⟩ (k :: stack) p.reducedBody ps u
        (y.name :: (more.map Symbol.name ++ rest)) :=
      ihbody hs hentry hwhole (fun h => ((wf.isBody p hp).occurs h).ne_endOfInput rfl) hyname
        ⟨hne, .inr ⟨rfl, hfollow⟩⟩
    obtain ⟨n, w, hn, hw, hi, hdrop⟩ := wf.exists_advance hs hi hdrop (by simp)
    obtain ⟨codes, htakes, hnumbers, hshifts⟩ :=
      wf.takes_of_reads ht hfree hbodyReads hn hfollow
    -- Behind the nonterminal the parser reads on from its goto.
    have hrest : g.Reads t i.advance (n :: k :: stack) form qs v (x.name :: rest) :=
      ihform hw hi hdrop (fun h => hend (List.mem_cons_of_mem _ h)) hx hahead
    rw [← hinput] at htakes
    rw [List.append_cons]
    exact .cons (by simpa using htakes) hnumbers hshifts hrest

/-- What the start symbol yields is accepted, with a reduction for every production. -/
theorem accepts {names : List String}
    (h : g.Yields [g.start.symbol] ps (names.map Symbol.token)) :
    ∃ least trace, (∀ limit, least ≤ limit → t.parser.run limit names = .accepted trace) ∧
      trace.getLast? = some .accept ∧ Code.shifts trace = names.length ∧
      List.Forall₂ t.Reduces (Code.numbers trace) ps := by
  have hfirst := g.collection_explored.1.first
  have hstart := wf.startItem_mem_startState
  have hbody : g.startItem.production.reducedBody.drop 0 = [g.start.symbol] ++ [.endOfInput] := rfl
  have hahead : t.sets.Ahead Symbol.startName [.endOfInput] .endOfInput :=
    ⟨by simp, .inl (.inl ⟨List.mem_singleton_self _, by simp⟩)⟩
  have hreads : g.Reads t g.startItem [0] [g.start.symbol] ps (names.map Symbol.token)
      [Symbol.endOfInputName] :=
    wf.reads ht hfree h hfirst hstart hbody (by simp [Nonterminal.symbol])
      (x := .endOfInput) Symbol.ofName_endOfInputName hahead
  obtain ⟨codes, pushed, m, below, s, htakes, hnumbers, hshifts, -, htop, hs, hi⟩ := hreads
  have hnext := wf.next?_eq (wf.hasItem_of_state hs hi)
  have hasks : g.Asks t.sets.follow m .endOfInput .accept := ⟨s, hs, _, hi, .accept hnext⟩
  have hcell : t.parser.cell? m Symbol.endOfInputName = some .accept :=
    wf.cell?_of_asks ht (a := .accept) (by simpa using hasks) rfl
  have haccept : t.parser.step ⟨pushed ++ [0], [Symbol.endOfInputName]⟩ = .accepted := by
    rw [htop]
    exact Codes.step_accept hcell
  have htakes : t.parser.Takes (Codes.start names) codes
      ⟨pushed ++ [0], [Symbol.endOfInputName]⟩ := by
    simpa [Codes.start, Symbol.name, Function.comp_def] using htakes
  obtain ⟨least, hrun⟩ := Codes.exists_runFrom htakes haccept []
  refine ⟨least, _, hrun, by simp, by simpa using hshifts, ?_⟩
  simpa using hnumbers

end WellFormed

end Grammar

/-- A parser with a table without conflicts accepts every word that the start symbol derives. It
shifts each name of the word once, and its reductions read backwards are the productions of any
rightmost derivation. -/
theorem Source.parser_complete {d : Datum} {t : Table} (ht : (Source.written d).table = .ok t)
    (hfree : t.conflicts = []) {names : List String}
    (h : t.grammar.Derives [t.grammar.start.symbol] (names.map Symbol.token)) :
    ∃ least trace, (∀ limit, least ≤ limit → t.parser.run limit names = .accepted trace) ∧
      trace.getLast? = some .accept ∧ Code.shifts trace = names.length ∧
      ∀ ps, t.grammar.RightmostDerives ps [t.grammar.start.symbol] (names.map Symbol.token) →
        List.Forall₂ t.Reduces (Code.numbers trace).reverse ps := by
  obtain ⟨g, -, wf, ht⟩ := Source.table_ok ht
  rw [Grammar.grammar_of_table ht] at h ⊢
  have hword : Form.IsTerminal (names.map Symbol.token) := by
    simp [Form.IsTerminal, Symbol.isNonterminal]
  obtain ⟨qs, hqs⟩ := Grammar.Yields.exists_of_derives h hword
  obtain ⟨least, trace, hrun, hlast, hshifts, -⟩ := wf.accepts ht hfree hqs
  refine ⟨least, trace, hrun, hlast, hshifts, ?_⟩
  intro ps hps
  obtain ⟨least', trace', hrun', -, -, hnumbers⟩ :=
    wf.accepts ht hfree (Grammar.Yields.of_rightmostDerives hps hword)
  -- There is only one run.
  have hsame : trace = trace' := by
    have h := hrun (max least least') (Nat.le_max_left _ _)
    rw [hrun' (max least least') (Nat.le_max_right _ _)] at h
    cases h
    rfl
  rw [hsame]
  simpa using List.forall₂_reverse_iff.mpr hnumbers

set_option maxRecDepth 100000 in
theorem Source.balanced_complete : ∃ t, (written balanced).table = .ok t ∧ ∃ limit trace,
    t.parser.run limit ["(", ")"] = .accepted trace ∧ Code.shifts trace = 2 ∧
    (Code.numbers trace).length = 3 := by
  let nested : Production :=
    ⟨⟨"S", [.token "(", .nonterminal "S", .token ")", .nonterminal "S"]⟩, .numbered 1⟩
  let empty : Production := ⟨⟨"S", [.epsilon]⟩, .numbered 2⟩
  have h : Except.passes (fun t => decide (t.conflicts = [] ∧ t.grammar.start.name = "S" ∧
      nested ∈ t.grammar.augmentedProductions ∧ empty ∈ t.grammar.augmentedProductions))
      (written balanced).table = true := by
    decide +kernel
  obtain ⟨t, ht, htest⟩ := Except.exists_of_passes h
  obtain ⟨hfree, hname, hnested, hempty⟩ := of_decide_eq_true htest
  have hrightmost : t.grammar.RightmostDerives [nested, empty, empty] [t.grammar.start.symbol]
      (["(", ")"].map Symbol.token) := by
    rw [Nonterminal.symbol, hname]
    have hclosed : Form.IsTerminal [.token ")"] := by simp [Form.IsTerminal, Symbol.isNonterminal]
    have hnil : Form.IsTerminal [] := by simp [Form.IsTerminal]
    refine @Grammar.RightmostDerives.step _ nested _ [] [] _ hnested hnil ?_
    refine @Grammar.RightmostDerives.step _ empty _ [.token "(", .nonterminal "S", .token ")"] [] _
      hempty hnil ?_
    refine @Grammar.RightmostDerives.step _ empty _ [.token "("] [.token ")"] _ hempty hclosed ?_
    exact .refl _
  obtain ⟨least, trace, hrun, -, hshifts, hreductions⟩ :=
    Source.parser_complete ht hfree hrightmost.derives
  have hlength := (hreductions _ hrightmost).length_eq
  rw [List.length_reverse] at hlength
  exact ⟨t, ht, least, trace, hrun least (Nat.le_refl _), hshifts, hlength⟩

end ShiftReduce
