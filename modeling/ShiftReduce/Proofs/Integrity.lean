import ShiftReduce.Proofs.BreadthFirst
import ShiftReduce.Proofs.Soundness

/-!
The codes of a table refer to what is there.

A transition leads to an item that has been moved, so never to state 0, where all dots are in
front. The start item is in state 0 only; so only one state has its dot before the end of input,
the one behind the start symbol, and that symbol is the first to be followed.
-/

namespace ShiftReduce

/-- Shifts lead to rows and reductions are known, and one cell accepts. -/
structure Codes.Intact (c : Codes) (start : String) : Prop where
  /-- A row has one cell for a name. -/
  distinct : ∀ row ∈ c.rows, Dictionary.Distinct row
  shift : ∀ k name n, c.cell? k name = some (.shift n) → 1 ≤ n ∧ n < c.rows.length
  reduce : ∀ k name n, c.cell? k name = some (.reduce n) →
    ∃ r, c.reductions.find? (·.number = n) = some r
  accept : ∀ k name, c.cell? k name = some .accept ↔ k = 1 ∧ name = Symbol.endOfInputName
  start : c.cell? 0 start = some (.shift 1)

theorem Item.advance_injective : Function.Injective Item.advance := by
  intro i j h
  obtain ⟨hp, hdot⟩ := Item.mk.inj h
  exact congrArg₂ Item.mk hp (Nat.succ.inj hdot)

namespace Grammar

variable {g : Grammar} {t : Table} {k n : Nat} {s : ItemSet} {i : Item} {x : Symbol}
  {name : String}

@[simp] theorem next?_startItem (g : Grammar) : g.startItem.next? = some g.start.symbol := rfl

@[simp] theorem next?_advance_startItem (g : Grammar) :
    g.startItem.advance.next? = some .endOfInput := rfl

/-- The start symbol is the first that is followed. -/
theorem getElem?_symbols_startState (g : Grammar) :
    g.startState.symbols[0]? = some g.start.symbol := by
  have hitems : g.startState.items =
      g.startItem :: g.closeQueue (ItemSet.ofItems [g.startItem]).cores [g.startItem] := by
    rw [startState, ItemSet.items_close]
    rfl
  rw [ItemSet.symbols, hitems, List.filterMap_cons_some g.next?_startItem, List.eraseDups_cons]
  rfl

namespace WellFormed

variable (wf : g.WellFormed)

include wf

theorem eq_of_next?_endOfInput (hi : g.HasItem i) (hx : i.next? = some .endOfInput) :
    i = g.startItem.advance := by
  obtain ⟨hp, hdot⟩ := wf.production_of_next?_endOfInput hi hx
  exact congrArg₂ Item.mk hp hdot

/-- No transition leads back to state 0. -/
theorem pos_of_goto? (hgoto : g.collection.goto? k x = some n) : 0 < n := by
  obtain ⟨s, t, hs, ht, ⟨i, hi, hx⟩, -⟩ := wf.goto?_eq_some hgoto
  refine Nat.pos_of_ne_zero ?_
  rintro rfl
  have hdot := wf.dot_eq_zero_of_first ht (wf.advance_mem hgoto hs ht hi hx)
  exact Nat.succ_ne_zero _ hdot

/-- State 1 is behind the start symbol. -/
theorem goto?_start : g.collection.goto? 0 g.start.symbol = some 1 := by
  have hfirst := g.collection_explored.1.first
  obtain ⟨n, hn⟩ := exists_goto? hfirst
    ⟨_, wf.startItem_mem_startState, g.next?_startItem⟩ (by simp [Nonterminal.symbol])
  rcases Nat.eq_or_lt_of_le (wf.pos_of_goto? hn) with rfl | hlt
  · exact hn
  · -- The edge is the first of all, so no state with a lower number has an earlier one.
    have hedge : toLex (0, 0) ∈ g.collection.edgesTo n :=
      ⟨_, _, hfirst, g.getElem?_symbols_startState, hn⟩
    obtain ⟨q, -, hless⟩ := g.inOrder_collection.ordered 1 n _ Nat.one_pos hlt hedge
    exact absurd hless (by simp [Prod.Lex.lt_iff])

theorem eq_zero_of_startItem (hs : g.collection.states[k]? = some s)
    (hi : g.startItem ∈ s.items) : k = 0 := by
  have hcanonical := wf.canonical_iff.mpr ⟨s, List.mem_of_getElem? hs, rfl⟩
  rcases wf.parent_of_dot_eq_zero hcanonical hi rfl with ⟨-, hcarrier⟩ | ⟨hp, -⟩
  · apply wf.number_eq_of_carrier_eq hs g.collection_explored.1.first
    rw [hcarrier, wf.carrier_startState]
  · exact absurd rfl (wf.head_ne_startName hp)

/-- The dot of the start item is before the end of input in state 1 only. -/
theorem eq_one_of_advance_startItem (hs : g.collection.states[k]? = some s)
    (hi : g.startItem.advance ∈ s.items) : k = 1 := by
  obtain ⟨hk, -⟩ := List.getElem?_eq_some_iff.mp hs
  have hpos : 0 < k := by
    refine Nat.pos_of_ne_zero ?_
    rintro rfl
    exact Nat.succ_ne_zero _ (wf.dot_eq_zero_of_first hs hi)
  obtain ⟨p, ⟨before, y, hbefore, -, hgoto⟩, -⟩ := g.inOrder_collection.parent k hpos hk
  obtain ⟨before', hbefore', hcarrier⟩ := wf.carrier_of_goto? hgoto hs
  obtain rfl : before = before' := Option.some.inj (hbefore.symm.trans hbefore')
  have hclosure : g.Closure (advanced before.carrier y) g.startItem.advance := hcarrier ▸ hi
  generalize hmoved : g.startItem.advance = i at hclosure
  cases hclosure with
  | expand => exact absurd (congrArg Item.dot hmoved) (Nat.succ_ne_zero _)
  | kernel hi =>
    obtain ⟨j, hj, hx, rfl⟩ := hi
    obtain rfl : g.startItem = j := Item.advance_injective hmoved
    obtain rfl : g.start.symbol = y := Option.some.inj hx
    rw [wf.eq_zero_of_startItem hbefore hj, wf.goto?_start] at hgoto
    exact (Option.some.inj hgoto).symm

theorem advance_startItem_mem (hs : g.collection.states[1]? = some s) :
    g.startItem.advance ∈ s.items :=
  wf.advance_mem wf.goto?_start g.collection_explored.1.first hs wf.startItem_mem_startState
    g.next?_startItem

section Table

variable (ht : g.table = .ok t)

include ht

theorem cell?_eq_accept_iff : t.parser.cell? k name = some .accept ↔
    k = 1 ∧ name = Symbol.endOfInputName := by
  constructor
  · intro h
    obtain ⟨x, a, hx, ⟨s, hs, i, hi, ha⟩, hcode⟩ := wf.asks_of_cell? ht h
    cases ha with
    | shift | reduce => cases hcode
    | accept hend =>
      obtain rfl := wf.eq_of_next?_endOfInput (wf.hasItem_of_state hs hi) hend
      exact ⟨wf.eq_one_of_advance_startItem hs hi, Symbol.eq_endOfInputName hx⟩
  · rintro ⟨rfl, rfl⟩
    obtain ⟨-, s, -, hs, -⟩ := wf.goto?_eq_some wf.goto?_start
    have hasks : g.Asks t.sets.follow 1 .endOfInput .accept :=
      ⟨s, hs, _, wf.advance_startItem_mem hs, .accept g.next?_advance_startItem⟩
    exact wf.cell?_of_asks ht (a := .accept) (by simpa using hasks) rfl

theorem intact : t.parser.Intact g.start.name where
  distinct := by
    intro row hrow
    obtain ⟨row, -, rfl⟩ := List.mem_map.mp hrow
    exact Dictionary.distinct_ofList _
  shift k name n h := by
    have hgoto := wf.goto?_of_cell? ht h
    refine ⟨wf.pos_of_goto? hgoto, ?_⟩
    have hlength : t.parser.rows.length = g.collection.size := by
      rw [Table.parser, Table.codes, List.length_map, wf.length_rows ht]
      rfl
    exact hlength ▸ (exists_edge hgoto).1
  reduce k name n h := by
    obtain ⟨s, hs, i, hi, hx, hn⟩ := wf.complete_of_cell? ht h
    have hp := wf.mem_productions_of_complete hs hi hx
    exact ⟨_, (wf.reduces ht hp hn).known⟩
  accept k name := wf.cell?_eq_accept_iff ht
  start := wf.cell?_of_goto? ht wf.goto?_start

end Table

end WellFormed

end Grammar

/-- In a table no transition leads to state 0, every reduction is known by its number, and the only
cell that accepts is that of the end of input in the state behind the start symbol. -/
theorem Source.codes_intact {d : Datum} {t : Table} (h : (Source.written d).table = .ok t) :
    t.parser.Intact t.grammar.start.name := by
  obtain ⟨g, -, wf, ht⟩ := Source.table_ok h
  rw [Grammar.grammar_of_table ht]
  exact wf.intact ht

/-- The start symbol and another nonterminal produce each other. -/
def Source.circular : Datum :=
  .mapping [(.text "S", .list [.text "A", .text "a"]), (.text "A", .list [.text "S"])]

set_option maxRecDepth 100000 in
/-- Behind the start symbol acceptance is preferred to going around once more. -/
theorem Source.circular_codes : ∃ t, (written circular).table = .ok t ∧ t.conflicts ≠ [] ∧
    t.grammar.start.name = "S" ∧ t.parser.Intact "S" := by
  have h : Except.passes (fun t => decide (t.conflicts ≠ [] ∧ t.grammar.start.name = "S"))
      (written circular).table = true := by
    decide +kernel
  obtain ⟨t, ht, htest⟩ := Except.exists_of_passes h
  obtain ⟨hconflicts, hname⟩ := of_decide_eq_true htest
  exact ⟨t, ht, hconflicts, hname, hname ▸ Source.codes_intact ht⟩

end ShiftReduce
