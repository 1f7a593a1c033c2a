import ShiftReduce.Proofs.Soundness
import ShiftReduce.Proofs.ViablePrefixes

/-!
The correct-prefix property.

What the stack of a parser spells is a prefix of a form that the start symbol derives: every item
of the top state has its place in such a form. The spelled form derives what has been read, so that
this is a prefix of a derived form as well, and a name is only shifted where it may come next. It
holds with and without conflicts, and on whatever names reductions have been made.
-/

namespace ShiftReduce

namespace Grammar

/-- The start symbol derives the form with something behind it. -/
def IsCorrectPrefix (g : Grammar) (form : Form) : Prop :=
  ∃ more, g.Derives [g.start.symbol] (form ++ more)

/-- An item continues a form that ends where its dot is, when its production is applied somewhere in
a derived form. -/
def Continues (g : Grammar) (form : Form) (i : Item) : Prop :=
  ∃ left right,
    g.Derives [.nonterminal Symbol.startName]
      (left ++ .nonterminal i.production.head :: right) ∧
    form = left ++ i.production.reducedBody.take i.dot

variable {g : Grammar} {p : Production} {a b form : Form} {i : Item} {k l n : Nat}
  {stack : List Nat} {s : ItemSet} {x y : Symbol}

theorem IsCorrectPrefix.of_derives (h : g.IsCorrectPrefix a) (hab : g.Derives a b) :
    g.IsCorrectPrefix b := by
  obtain ⟨more, hmore⟩ := h
  exact ⟨more, hmore.trans (hab.append_right more)⟩

theorem Spells.walk?_eq (h : g.Spells (k :: stack) form) : g.collection.walk? form = some k := by
  generalize hstack : k :: stack = whole at h
  induction h generalizing k stack with
  | bottom =>
    cases hstack
    rfl
  | push _ hgoto ih =>
    cases hstack
    exact Collection.walk?_concat.mpr ⟨_, ih rfl, hgoto⟩

namespace WellFormed

variable (wf : g.WellFormed)

include wf

/-- In a state that is entered on a symbol the dots that are not in front are behind that symbol. -/
theorem before_of_goto? (hgoto : g.collection.goto? k x = some n)
    (hs : g.collection.states[n]? = some s) (hi : i ∈ s.items) (hdot : 0 < i.dot) :
    i.before.getLast? = some x := by
  obtain ⟨before, -, hcarrier⟩ := wf.carrier_of_goto? hgoto hs
  have hclosure : i ∈ g.Closure (advanced before.carrier x) := hcarrier ▸ hi
  cases hclosure with
  | kernel hi =>
    obtain ⟨j, -, hx, rfl⟩ := hi
    rw [Item.before_advance hx, List.getLast?_concat]
  | expand => exact absurd hdot (Nat.lt_irrefl 0)

/-- All transitions to a state are on one symbol. -/
theorem symbol_unique_of_goto? (hx : g.collection.goto? k x = some n)
    (hy : g.collection.goto? l y = some n) : x = y := by
  obtain ⟨s, t, hs, ht, ⟨i, hi, hix⟩, -⟩ := wf.goto?_eq_some hx
  have hlast := wf.before_of_goto? hy ht (wf.advance_mem hx hs ht hi hix) (Nat.succ_pos _)
  rw [Item.before_advance hix, List.getLast?_concat] at hlast
  exact Option.some.inj hlast

theorem occurs_of_goto? (h : g.collection.goto? k x = some n) : x.Occurs g.heads := by
  obtain ⟨s, -, hs, -, ⟨i, hi, hx⟩, hne, -⟩ := wf.goto?_eq_some h
  have hitem := wf.hasItem_of_state hs hi
  rcases wf.mem_reducedBody hitem.mem (wf.mem_of_next? hitem hx) with hoccurs | ⟨hend, -⟩
  · exact hoccurs
  · exact absurd hend hne

/-- A stack spells one form. -/
theorem form_unique_of_spells (ha : g.Spells stack a) (hb : g.Spells stack b) : a = b := by
  induction ha generalizing b with
  | bottom =>
    cases hb
    rfl
  | push _ hgoto ih =>
    cases hb with
    | push hb hgoto' => rw [ih hb, wf.symbol_unique_of_goto? hgoto hgoto']

theorem occurs_of_spells (h : g.Spells stack form) : ∀ x ∈ form, x.Occurs g.heads := by
  induction h with
  | bottom => simp
  | push _ hgoto ih =>
    intro x hx
    rcases List.mem_append.mp hx with hx | hx
    · exact ih x hx
    · rw [List.mem_singleton.mp hx]
      exact wf.occurs_of_goto? hgoto

/-- A beginning of what the synthetic start symbol derives, made of symbols of bodies, is one of
what the start symbol derives. -/
theorem isCorrectPrefix_of_derives (hoccurs : ∀ x ∈ form, x.Occurs g.heads)
    (h : g.Derives [.nonterminal Symbol.startName] (form ++ b)) : g.IsCorrectPrefix form := by
  rcases wf.derives_start_of_derives h with hstart | ⟨front, hfront, hder⟩
  · cases form with
    | nil => exact ⟨[g.start.symbol], .refl _⟩
    | cons y rest =>
      obtain ⟨rfl, -⟩ := List.cons.inj hstart
      exact absurd (hoccurs _ List.mem_cons_self).1 wf.startName_not_mem_heads
  · rcases append_eq_append_cons hfront with ⟨rest, rfl, -⟩ | ⟨rest, rfl, -⟩
    · exact ((hoccurs .endOfInput (by simp)).elim)
    · exact ⟨rest, hder⟩

/-- Every item of the state at the end of a path continues the form of the path. -/
theorem continues_of_walk? (hwalk : g.collection.walk? form = some k)
    (hs : g.collection.states[k]? = some s) (hi : i ∈ s.items) : g.Continues form i := by
  refine wf.forall_items_of_walk? (P := g.Continues) ?start ?advance ?expand hwalk hs hi
  case start => exact ⟨[], [], .refl _, rfl⟩
  case advance =>
    rintro form j x hj hx ⟨left, right, hder, rfl⟩
    refine ⟨left, right, hder, ?_⟩
    rw [wf.take_dot_advance hj hx, List.append_assoc]
  case expand =>
    rintro form j p hj hp hx ⟨left, right, hder, rfl⟩
    have hbody := hder.tail (.step left right hj.mem)
    rw [← wf.take_append_cons_drop hj hx] at hbody
    refine ⟨left ++ j.production.reducedBody.take j.dot,
      j.production.reducedBody.drop (j.dot + 1) ++ right, ?_, by simp⟩
    simpa using hbody

/-- What a stack spells is a correct prefix. -/
theorem isCorrectPrefix_of_spells (h : g.Spells stack form) : g.IsCorrectPrefix form := by
  obtain ⟨k, below, rfl⟩ := h.exists_cons
  obtain ⟨s, i, hs, hi⟩ := wf.exists_item_of_walk? h.walk?_eq
  obtain ⟨left, right, hder, hform⟩ := wf.continues_of_walk? h.walk?_eq hs hi
  have hbody := hder.tail (.step left right (wf.hasItem_of_state hs hi).mem)
  rw [← List.take_append_drop i.dot i.production.reducedBody, ← List.append_assoc left,
    ← hform, List.append_assoc] at hbody
  exact wf.isCorrectPrefix_of_derives (wf.occurs_of_spells h) hbody

/-- What has been read is derived from what the stack spells, and the end of input is left. -/
theorem exists_consumed_of_takes {t : Table} (ht : g.table = .ok t) {names : List String}
    {codes : List Code} {c : Configuration} (h : t.parser.Takes (Codes.start names) codes c) :
    ∃ consumed rest form, names = consumed ++ rest ∧ c.input = rest ++ [Symbol.endOfInputName] ∧
      consumed.length = Code.shifts codes ∧ g.Spells c.stack form ∧
      g.Derives form (consumed.map Symbol.ofName) := by
  obtain ⟨consumed, hinput, hshifts⟩ := h.input_eq
  obtain ⟨hne, form, consumed', ps, hspells, hnames, -, hsettles⟩ := parsed_of_takes wf ht h
  obtain rfl : consumed = consumed' := List.append_cancel_right (hinput.symm.trans hnames)
  obtain ⟨rest, last, hlast⟩ := (List.eq_nil_or_concat' c.input).resolve_left hne
  rw [hlast, ← List.append_assoc] at hnames
  obtain ⟨hnames, hend⟩ := List.append_inj' hnames rfl
  rw [← hend] at hlast
  exact ⟨consumed, rest, form, hnames, hlast, hshifts, hspells, hsettles.derives⟩

end WellFormed

end Grammar

/-- In every configuration that the parser of a table comes to over any names, the stack spells one
form. It derives the names that have been read, one for each shift, a name of a nonterminal
standing for it; and it is a prefix of a form that the start symbol derives. So is what has been
read when a name has been shifted. -/
theorem Source.parser_correctPrefix {d : Datum} {t : Table}
    (ht : (Source.written d).table = .ok t) {names : List String} {codes : List Code}
    {c : Configuration} (h : t.parser.Takes (Codes.start names) codes c) :
    ∃ consumed rest, names = consumed ++ rest ∧ c.input = rest ++ [Symbol.endOfInputName] ∧
      consumed.length = Code.shifts codes ∧
      (∃! form, t.grammar.Spells c.stack form) ∧
      (∀ form, t.grammar.Spells c.stack form →
        t.grammar.Derives form (consumed.map Symbol.ofName) ∧ t.grammar.IsCorrectPrefix form) ∧
      ∀ n c', t.parser.step c = .next (.shift n) c' → ∃ name more, rest = name :: more ∧
        t.grammar.IsCorrectPrefix ((consumed ++ [name]).map Symbol.ofName) := by
  obtain ⟨g, -, wf, ht⟩ := Source.table_ok ht
  rw [Grammar.grammar_of_table ht]
  obtain ⟨consumed, rest, form, hnames, hinput, hshifts, hspells, hderives⟩ :=
    wf.exists_consumed_of_takes ht h
  refine ⟨consumed, rest, hnames, hinput, hshifts, ⟨form, hspells, ?_⟩, ?_, ?_⟩
  · exact fun other hother => wf.form_unique_of_spells hother hspells
  · intro other hother
    obtain rfl := wf.form_unique_of_spells hother hspells
    exact ⟨hderives, wf.isCorrectPrefix_of_spells hspells⟩
  · intro n c' hstep
    obtain ⟨_, name, -, hname⟩ | ⟨_, hreduce, -⟩ := Codes.input_of_step hstep
    · obtain ⟨consumed', more, form', hnames', hinput', -, hspells', hderives'⟩ :=
        wf.exists_consumed_of_takes ht (h.trans (.single hstep))
      rw [hinput, hinput', ← List.cons_append] at hname
      obtain rfl : rest = name :: more := List.append_cancel_right hname
      rw [hnames, List.append_cons] at hnames'
      refine ⟨name, more, rfl, ?_⟩
      rw [List.append_cancel_right hnames']
      exact (wf.isCorrectPrefix_of_spells hspells').of_derives hderives'
    · cases hreduce

set_option maxRecDepth 100000 in
/-- A closing parenthesis too many is not shifted, but it makes the parser reduce what is before
it. -/
theorem Source.balanced_correctPrefix : ∃ t c, (written balanced).table = .ok t ∧
    t.parser.Takes (Codes.start ["(", ")", ")"])
      [.shift 2, .reduce 2, .shift 4, .reduce 2, .reduce 1] c ∧
    c.input = [")", Symbol.endOfInputName] ∧ ∃ form, t.grammar.Spells c.stack form ∧
      t.grammar.Derives form [.token "(", .token ")"] ∧ t.grammar.IsCorrectPrefix form := by
  have h : Except.passes
      (fun t => decide (
        t.parser.step ⟨[0], ["(", ")", ")", "$"]⟩ = .next (.shift 2) ⟨[2, 0], [")", ")", "$"]⟩ ∧
        t.parser.step ⟨[2, 0], [")", ")", "$"]⟩ = .next (.reduce 2) ⟨[3, 2, 0], [")", ")", "$"]⟩ ∧
        t.parser.step ⟨[3, 2, 0], [")", ")", "$"]⟩ = .next (.shift 4) ⟨[4, 3, 2, 0], [")", "$"]⟩ ∧
        t.parser.step ⟨[4, 3, 2, 0], [")", "$"]⟩ =
          .next (.reduce 2) ⟨[5, 4, 3, 2, 0], [")", "$"]⟩ ∧
        t.parser.step ⟨[5, 4, 3, 2, 0], [")", "$"]⟩ = .next (.reduce 1) ⟨[1, 0], [")", "$"]⟩))
      (written balanced).table = true := by
    decide +kernel
  obtain ⟨t, ht, htest⟩ := Except.exists_of_passes h
  obtain ⟨h₁, h₂, h₃, h₄, h₅⟩ := of_decide_eq_true htest
  have htakes : t.parser.Takes (Codes.start ["(", ")", ")"])
      [.shift 2, .reduce 2, .shift 4, .reduce 2, .reduce 1] ⟨[1, 0], [")", "$"]⟩ :=
    .head h₁ (.head h₂ (.head h₃ (.head h₄ (.single h₅))))
  obtain ⟨consumed, rest, hnames, hinput, -, ⟨form, hspells, -⟩, hall, -⟩ :=
    Source.parser_correctPrefix ht htakes
  obtain ⟨hderives, hprefix⟩ := hall form hspells
  have hrest : [")"] ++ [Symbol.endOfInputName] = rest ++ [Symbol.endOfInputName] := hinput
  obtain rfl := List.append_cancel_right hrest
  have hconsumed : ["(", ")"] ++ [")"] = consumed ++ [")"] := hnames
  obtain rfl := List.append_cancel_right hconsumed
  exact ⟨t, _, ht, htakes, rfl, form, hspells, hderives, hprefix⟩

end ShiftReduce
