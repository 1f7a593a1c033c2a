import ShiftReduce.Proofs.Stack

/-!
Safety of the parser of a table.

A stack that spells a form has a row on top. The codes of the row are there because of items of the
state: a shift follows a transition, acceptance has the start symbol alone on the stack, and a
reduction finds the body of its production and a goto under it. So a step keeps the stack, and the
only way in which it can fail is a missing action.
-/

namespace ShiftReduce

namespace Grammar

/-- What a step does to a stack that spells a form, when a name comes next. -/
inductive Moves (g : Grammar) (k : Nat) (stack : List Nat) (form : Form) (name : String)
    (rest : List String) : Step → Prop where
  | failed : Moves g k stack form name rest (.failed (.noAction k name))
  | accepted : Symbol.ofName name = .endOfInput → form = [g.start.symbol] →
      Moves g k stack form name rest .accepted
  | shift {n : Nat} : g.collection.goto? k (Symbol.ofName name) = some n →
      Moves g k stack form name rest (.next (.shift n) ⟨n :: k :: stack, rest⟩)
  | reduce {p : Production} {left : Form} {m n target : Nat} {below : List Nat} :
      p ∈ g.productions → p.number? = some n → form = left ++ p.reducedBody →
      g.Spells (m :: below) left →
      g.collection.goto? m (.nonterminal p.head) = some target →
      Moves g k stack form name rest (.next (.reduce n) ⟨target :: m :: below, name :: rest⟩)

variable {g : Grammar} {t : Table} {k n : Nat} {stack : List Nat} {form : Form} {name : String}
  {rest : List String} {x : Symbol}

namespace WellFormed

variable (wf : g.WellFormed) (ht : g.table = .ok t)

include wf ht

/-- A transition stands in the cell of its symbol. -/
theorem cell?_of_goto? (h : g.collection.goto? k x = some n) :
    t.parser.cell? k x.name = some (.shift n) := by
  obtain ⟨s, -, hs, -, ⟨i, hi, hx⟩, -⟩ := wf.goto?_eq_some h
  have hasks : g.Asks t.sets.follow k x (.shift n) := ⟨s, hs, i, hi, .shift hx h⟩
  exact wf.cell?_of_asks ht (by rwa [wf.ofName_name_of_asks ht hasks]) rfl

theorem goto?_of_cell? (h : t.parser.cell? k name = some (.shift n)) :
    g.collection.goto? k (Symbol.ofName name) = some n := by
  obtain ⟨x, a, hx, ⟨s, hs, i, hi, ha⟩, hcode⟩ := wf.asks_of_cell? ht h
  cases ha with
  | shift _ hgoto =>
    cases hcode
    rw [hx, hgoto]
  | accept | reduce => cases hcode

theorem form_of_accept (hspells : g.Spells (k :: stack) form)
    (h : t.parser.cell? k name = some .accept) :
    Symbol.ofName name = .endOfInput ∧ form = [g.start.symbol] := by
  obtain ⟨x, a, hx, ⟨s, hs, i, hi, ha⟩, hcode⟩ := wf.asks_of_cell? ht h
  cases ha with
  | accept hend => exact ⟨hx, wf.form_of_next?_endOfInput hspells hs hi hend⟩
  | shift | reduce => cases hcode

/-- What is there for the reduction in a cell of the top state. -/
theorem reduction_of_cell? (hspells : g.Spells (k :: stack) form)
    (h : t.parser.cell? k name = some (.reduce n)) : ∃ p ∈ g.productions, ∃ left m below target,
      t.parser.reductions.find? (·.number = n) = some (p.reduction n) ∧ p.number? = some n ∧
      form = left ++ p.reducedBody ∧ (k :: stack).drop (p.reduction n).size = m :: below ∧
      g.Spells (m :: below) left ∧ g.collection.goto? m (.nonterminal p.head) = some target := by
  obtain ⟨s, hs, i, hi, hx, hnumber⟩ := wf.complete_of_cell? ht h
  have hp := wf.mem_productions_of_complete hs hi hx
  obtain ⟨left, m, below, target, hform, hdrop, hleft, hgoto⟩ :=
    wf.exists_goto?_of_complete hspells hs hi hx
  refine ⟨i.production, hp, left, m, below, target, ?_, hnumber, hform, ?_, hleft, hgoto⟩
  · have hreductions : t.parser.reductions = g.reductions :=
      congrArg Grammar.reductions (grammar_of_table ht)
    rw [hreductions, wf.find?_reduction hp hnumber]
  · rw [wf.size_reduction hp, hdrop]

theorem moves (hspells : g.Spells (k :: stack) form) (name : String) (rest : List String) :
    g.Moves k stack form name rest (t.parser.step ⟨k :: stack, name :: rest⟩) := by
  cases hcell : t.parser.cell? k name with
  | none =>
    obtain ⟨s, hs⟩ := wf.exists_state hspells
    obtain ⟨row, hrow⟩ := wf.exists_codes ht hs
    rw [Codes.step_noAction hrow hcell]
    exact .failed
  | some code =>
    cases code with
    | shift n =>
      rw [Codes.step_shift hcell]
      exact .shift (wf.goto?_of_cell? ht hcell)
    | accept =>
      rw [Codes.step_accept hcell]
      obtain ⟨hname, hform⟩ := wf.form_of_accept ht hspells hcell
      exact .accepted hname hform
    | reduce n =>
      obtain ⟨p, hp, left, m, below, target, hfind, hnumber, hform, hdrop, hleft, hgoto⟩ :=
        wf.reduction_of_cell? ht hspells hcell
      rw [Codes.step_reduce hcell hfind hdrop (wf.cell?_of_goto? ht hgoto)]
      exact .reduce hp hnumber hform hleft hgoto

end WellFormed

/-- A configuration that a parser comes to: the stack spells a form, and at least the end of the
input is left. -/
structure Driven (g : Grammar) (names : List String) (c : Configuration) : Prop where
  spells : ∃ form, g.Spells c.stack form
  suffix : c.input <:+ names ++ [Symbol.endOfInputName]
  ne_nil : c.input ≠ []

variable {names : List String} {c : Configuration} {code : Code} {codes : List Code}

theorem driven_start (g : Grammar) (names : List String) : g.Driven names (Codes.start names) where
  spells := ⟨[], .bottom⟩
  suffix := List.suffix_refl _
  ne_nil := by simp [Codes.start]

theorem Driven.exists_cons (h : g.Driven names c) : ∃ k stack name rest form,
    c = ⟨k :: stack, name :: rest⟩ ∧ g.Spells (k :: stack) form := by
  obtain ⟨stack, input⟩ := c
  obtain ⟨⟨form, hform⟩, -, hne⟩ := h
  obtain ⟨k, below, rfl⟩ := hform.exists_cons
  obtain ⟨name, rest, rfl⟩ := List.exists_cons_of_ne_nil hne
  exact ⟨k, below, name, rest, form, rfl, hform⟩

/-- The end of input is not shifted, so that something is left after a shift. -/
theorem WellFormed.suffix_of_shift (wf : g.WellFormed)
    (h : name :: rest <:+ names ++ [Symbol.endOfInputName])
    (hgoto : g.collection.goto? k (Symbol.ofName name) = some n) :
    rest <:+ names ++ [Symbol.endOfInputName] ∧ rest ≠ [] := by
  refine ⟨(List.suffix_cons name rest).trans h, ?_⟩
  rintro rfl
  have hname : name = Symbol.endOfInputName := by
    obtain ⟨before, hbefore⟩ := h
    exact List.singleton_inj.mp (List.append_inj' hbefore rfl).2
  rw [hname, Symbol.ofName_endOfInputName, wf.goto?_endOfInput] at hgoto
  cases hgoto

section Table

variable (wf : g.WellFormed) (ht : g.table = .ok t)

include wf ht

theorem Driven.step (h : g.Driven names c) {c' : Configuration}
    (hstep : t.parser.step c = .next code c') : g.Driven names c' := by
  obtain ⟨k, stack, name, rest, form, rfl, hform⟩ := h.exists_cons
  have hmoves := wf.moves ht hform name rest
  rw [hstep] at hmoves
  cases hmoves with
  | shift hgoto =>
    obtain ⟨hsuffix, hne⟩ := wf.suffix_of_shift h.suffix hgoto
    exact ⟨⟨_, .push hform hgoto⟩, hsuffix, hne⟩
  | reduce hp _ _ hleft hgoto => exact ⟨⟨_, .push hleft hgoto⟩, h.suffix, h.ne_nil⟩

theorem driven_of_takes (h : t.parser.Takes (Codes.start names) codes c) : g.Driven names c :=
  h.keeps (P := fun _ c => g.Driven names c) (fun ha hstep => ha.step wf ht hstep)
    (g.driven_start names)

end Table

end Grammar

/-- What a parser relies on before a step. -/
structure Codes.Safe (t : Codes) (names : List String) (c : Configuration) : Prop where
  /-- The state on top of the stack has a row. -/
  row : ∃ state stack row, c.stack = state :: stack ∧ t.rows[state]? = some row
  bottom : c.stack.getLast? = some 0
  /-- The end of the input has not been read. -/
  input : ∃ name rest, c.input = name :: rest ∧ c.input <:+ names ++ [Symbol.endOfInputName]
  /-- A reduction is one of the table, finds its states above the bottom, and leaves a state with a
  shift on its head. -/
  reduction : ∀ state name number, c.stack.head? = some state → c.input.head? = some name →
    t.cell? state name = some (.reduce number) → ∃ r,
      t.reductions.find? (·.number = number) = some r ∧ r.size < c.stack.length ∧
      ∃ top target, (c.stack.drop r.size).head? = some top ∧
        t.cell? top r.head = some (.shift target)
  failure : ∀ e, t.step c = .failed e → ∃ state name, e = .noAction state name

theorem Grammar.WellFormed.safe_of_driven {g : Grammar} {t : Table} (wf : g.WellFormed)
    (ht : g.table = .ok t) {names : List String} {c : Configuration} (h : g.Driven names c) :
    t.parser.Safe names c := by
  obtain ⟨k, stack, name, rest, form, rfl, hform⟩ := h.exists_cons
  refine ⟨?_, hform.getLast?, ⟨name, rest, rfl, h.suffix⟩, ?_, ?_⟩
  · obtain ⟨s, hs⟩ := wf.exists_state hform
    obtain ⟨row, hrow⟩ := wf.exists_codes ht hs
    exact ⟨k, stack, row, rfl, hrow⟩
  · intro state name' number hstate hname hcell
    obtain rfl : k = state := Option.some.inj hstate
    obtain ⟨p, hp, left, m, below, target, hfind, -, -, hdrop, -, hgoto⟩ :=
      wf.reduction_of_cell? ht hform hcell
    refine ⟨_, hfind, ?_, m, target, by simp [hdrop], wf.cell?_of_goto? ht hgoto⟩
    have := congrArg List.length hdrop
    simp only [List.length_drop, List.length_cons] at this ⊢
    omega
  · intro e hfail
    have hmoves := wf.moves ht hform name rest
    rw [hfail] at hmoves
    cases hmoves
    exact ⟨k, name, rfl⟩

/-- Over any names the parser of a table is safe before every step, and a run of it fails only for
a missing action. -/
theorem Source.parser_safe {d : Datum} {t : Table} (ht : (Source.written d).table = .ok t)
    (names : List String) :
    (∀ codes c, t.parser.Takes (Codes.start names) codes c → t.parser.Safe names c) ∧
    ∀ limit e, t.parser.run limit names = .failed e → ∃ state name, e = .noAction state name := by
  obtain ⟨g, -, wf, ht⟩ := Source.table_ok ht
  have hsafe : ∀ codes c, t.parser.Takes (Codes.start names) codes c → t.parser.Safe names c :=
    fun codes c h => wf.safe_of_driven ht (Grammar.driven_of_takes wf ht h)
  refine ⟨hsafe, ?_⟩
  intro limit e h
  obtain ⟨codes, c, htakes, hfail⟩ := Codes.takes_of_failed h
  exact (hsafe codes c htakes).failure e hfail

set_option maxRecDepth 100000 in
theorem Source.balanced_parser_safe : ∃ t, (written balanced).table = .ok t ∧
    t.parser.Safe ["("] (Codes.start ["("]) ∧
    ∃ e, t.parser.run 30 ["("] = .failed e ∧ ∃ state name, e = .noAction state name := by
  have h : Except.passes
      (fun t => decide (t.parser.run 30 ["("] = .failed (.noAction 3 Symbol.endOfInputName)))
      (written balanced).table = true := by
    decide +kernel
  obtain ⟨t, ht, hrun⟩ := Except.exists_of_passes h
  have hrun := of_decide_eq_true hrun
  obtain ⟨hsafe, hfailed⟩ := Source.parser_safe ht ["("]
  exact ⟨t, ht, hsafe [] _ (.refl _), _, hrun, hfailed 30 _ hrun⟩

end ShiftReduce
