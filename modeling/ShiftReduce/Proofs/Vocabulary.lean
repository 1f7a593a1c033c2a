import ShiftReduce.Proofs.Registry

/-!
Symbols that are told by their names.

The nonterminals of a mapping begin with a capital letter, its tokens do not, no token has a reserved
name, and the synthetic start symbol is the only one that has its name. So no two symbols share a
name, and a table gives the answers by names that it gives by symbols: the first symbol of a name in
a row is also the last.
-/

namespace ShiftReduce

namespace Symbol

/-- The symbol of an augmented grammar that has a name. -/
def called (name : String) : Symbol :=
  if name = startName then nonterminal name else ofName name

variable {x y : Symbol}

theorem called_name (hx : ofName x.name = x) (hne : x.name ≠ startName) : called x.name = x := by
  rw [called, if_neg hne, hx]

theorem xor_lt_of_name_ne (h : x.name ≠ y.name) : Xor (x < y) (y < x) := by
  rcases Std.lt_trichotomy x.name y.name with hlt | heq | hlt
  · exact .inl ⟨hlt, String.lt_asymm hlt⟩
  · exact absurd heq h
  · exact .inr ⟨hlt, String.lt_asymm hlt⟩

end Symbol

/-- No two states have the same text. -/
theorem Code.shift_text_injective : Function.Injective fun k => (shift k).text := by
  intro k l h
  have hdigits : Nat.toDigits 10 k = Nat.toDigits 10 l := by
    rw [← Nat.toList_repr, ← Nat.toList_repr]
    exact congrArg String.toList ((String.append_right_inj "e").mp h)
  rw [← Nat.ofDigitChars_ten_toDigits (n := k), hdigits, Nat.ofDigitChars_ten_toDigits]

namespace Grammar

/-- The symbols of the augmented grammar, with epsilon and the end of input. -/
def vocabulary (g : Grammar) : List Symbol :=
  g.augmentedNonterminals.map Nonterminal.symbol ++ g.tokens.map Prod.snd ++
    [.epsilon, .endOfInput]

/-- Names tell the symbols apart and put them in order. -/
structure ToldByName (g : Grammar) : Prop where
  eq_iff : ∀ x ∈ g.vocabulary, ∀ y ∈ g.vocabulary, x = y ↔ x.name = y.name
  ordered : ∀ x ∈ g.vocabulary, ∀ y ∈ g.vocabulary, x ≠ y → Xor (x < y) (y < x)

variable {g : Grammar}

theorem toldByName_of_called (h : ∀ x ∈ g.vocabulary, Symbol.called x.name = x) :
    g.ToldByName := by
  have heq : ∀ x ∈ g.vocabulary, ∀ y ∈ g.vocabulary, x = y ↔ x.name = y.name := by
    intro x hx y hy
    refine ⟨congrArg Symbol.name, fun hname => ?_⟩
    rw [← h x hx, ← h y hy, hname]
  exact ⟨heq, fun x hx y hy hne =>
    Symbol.xor_lt_of_name_ne fun hname => hne ((heq x hx y hy).mpr hname)⟩

end Grammar

theorem Source.called_name_of_mem {d : Datum} {g : Grammar} {x : Symbol}
    (h : (written d).load = .ok g) (hx : x ∈ g.vocabulary) : Symbol.called x.name = x := by
  have wf := load_wellFormed h
  obtain ⟨m, -, hsays⟩ := load_eq_ok.mp h
  simp only [Grammar.vocabulary, List.mem_append, List.mem_cons, List.not_mem_nil, or_false] at hx
  obtain (hx | hx) | rfl | rfl := hx
  · obtain ⟨n, hn, rfl⟩ := List.mem_map.mp hx
    rcases List.mem_cons.mp hn with rfl | hn
    · rfl
    · have hhead : n.name ∈ g.heads := List.mem_map_of_mem hn
      exact Symbol.called_name (wf.ofName_name n hn)
        fun heq => wf.startName_not_mem_heads (heq ▸ hhead)
  · obtain ⟨entry, hentry, rfl⟩ := List.mem_map.mp hx
    obtain ⟨n, rfl, hoccurs⟩ := hsays.token_of_mem hentry
    exact Symbol.called_name hoccurs.ofName_name hoccurs.name_ne_startName
  · decide
  · decide

namespace Table

/-- What is exported of a row: its entries in order, by the name of the symbol and with the code of
the action as text. Asked for an action by name the table answers what stands there. -/
structure Exports (t : Table) (k : Nat) (row : Row) (entries : Dictionary String String) :
    Prop where
  known : Dictionary.get? t.exported (Code.shift k).text = some entries
  entries_eq : entries = row.map fun cell => (cell.1.name, cell.2.code.text)
  none_iff : ∀ name, t.action? k name = none ↔ name ∉ entries.map Prod.fst
  code_eq : ∀ name a, t.action? k name = some a →
    Dictionary.get? entries name = some a.code.text

variable {t : Table} {k : Nat} {found : Dictionary String Code} {row : Row}

theorem distinct_exported (t : Table) : Dictionary.Distinct (t.codes.mapIdx fun k row =>
    ((Code.shift k).text, row.map fun entry => (entry.1, entry.2.text))) := by
  apply List.pairwise_iff_getElem.mpr
  intro k l hk hl hlt
  simp only [List.getElem_mapIdx, beq_eq_false_iff_ne]
  exact fun h => absurd (Code.shift_text_injective h) hlt.ne

theorem get?_exported (h : t.codes[k]? = some found) :
    Dictionary.get? t.exported (Code.shift k).text =
      some (found.map fun entry => (entry.1, entry.2.text)) := by
  have hdistinct := t.distinct_exported
  obtain ⟨hk, rfl⟩ := List.getElem?_eq_some_iff.mp h
  rw [exported, hdistinct.ofList_eq, ← hdistinct.mem_iff]
  exact List.mem_mapIdx.mpr ⟨k, hk, rfl⟩

/-- A row without two symbols of one name. -/
theorem exports_of_named (hrow : t.rows[k]? = some row) (hnamed : row.Named)
    (hdistinct : Dictionary.Distinct row) :
    t.Exports k row (row.map fun cell => (cell.1.name, cell.2.code.text)) := by
  have haction : ∀ name, t.action? k name = row.named? name := by
    intro name
    simp [action?, hrow]
  have hget := row.get?_map_name fun a => a.code.text
  refine ⟨?_, rfl, ?_, ?_⟩
  · have hcodes : t.codes[k]? = some (row.map fun cell => (cell.1.name, cell.2.code)) := by
      rw [codes, List.getElem?_map, hrow, Option.map_some, hnamed.codes_eq hdistinct]
    rw [get?_exported hcodes, List.map_map]
    rfl
  · intro name
    rw [haction, ← Option.map_eq_none_iff (f := fun a => a.code.text), ← hget]
    exact Dictionary.get?_eq_none_iff
  · intro name a ha
    rw [hget, ← haction, ha, Option.map_some]

end Table

/-- Names tell the symbols of a mapping apart. So a table answers by names what it holds by symbols,
and what is exported has the same entries in the same order. -/
theorem Source.names_agree {d : Datum} {t : Table} (h : (written d).table = .ok t) :
    t.grammar.ToldByName ∧ ∀ k s, t.collection.states[k]? = some s →
      ∃ row entries, t.rows[k]? = some row ∧ t.Exports k row entries := by
  obtain ⟨g, hg, wf, ht⟩ := table_ok h
  rw [Grammar.grammar_of_table ht]
  refine ⟨Grammar.toldByName_of_called fun x hx => called_name_of_mem hg hx, ?_⟩
  intro k s hs
  rw [(Grammar.table_ok ht).2.1] at hs
  obtain ⟨hk, -⟩ := List.getElem?_eq_some_iff.mp hs
  rw [← wf.length_rows ht] at hk
  have hrow := List.getElem?_eq_getElem hk
  exact ⟨_, _, hrow, Table.exports_of_named hrow (wf.named ht hrow) (wf.distinct ht hrow)⟩

/-- Names that are like each other and like those that are reserved. -/
def Source.alike : Datum :=
  .mapping [(.text "E", .list [.text "e E", .text "Epsilon"]),
    (.text "Epsilon", .list [.text "<S>", .text "epsilon"])]

/-- What is exported of the first state of these names. -/
def Source.alikeEntries : Dictionary String String :=
  [("E", "e1"), ("e", "e2"), ("Epsilon", "e3"), ("<S>", "e4"), ("$", "r4")]

set_option maxRecDepth 100000 in
theorem Source.alike_names : ∃ t row, (written alike).table = .ok t ∧ t.grammar.ToldByName ∧
    t.rows[0]? = some row ∧ t.Exports 0 row alikeEntries := by
  have h : Except.passes (fun t => decide (t.collection.states[0]?.isSome = true ∧
      Dictionary.get? t.exported (Code.shift 0).text = some alikeEntries))
      (written alike).table = true := by
    decide +kernel
  obtain ⟨t, ht, htest⟩ := Except.exists_of_passes h
  obtain ⟨hstate, hentries⟩ := of_decide_eq_true htest
  obtain ⟨s, hs⟩ := Option.isSome_iff_exists.mp hstate
  obtain ⟨hnames, hrows⟩ := Source.names_agree ht
  obtain ⟨row, entries, hrow, hexports⟩ := hrows 0 s hs
  obtain rfl := Option.some.inj (hexports.known.symm.trans hentries)
  exact ⟨t, row, ht, hnames, hrow, hexports⟩

end ShiftReduce
