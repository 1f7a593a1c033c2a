import ShiftReduce.Proofs.Questions

/-!
What every cell of a parsing table holds.

A symbol after a dot of the state has its cell for the shift, the end of input after the dot of the
start item for acceptance. Any other cell holds the reduction of the one complete item that has the
symbol in FOLLOW of its head, or nothing at all. The order of the items plays no part in this, and
neither does the order in which FOLLOW is gone through.
-/

namespace ShiftReduce

namespace ItemSet

/-- A token or nonterminal is after a dot. -/
def Shifts (s : ItemSet) (x : Symbol) : Prop :=
  x ≠ .endOfInput ∧ ∃ i ∈ s.items, i.next? = some x

/-- An item is complete, and a symbol is in FOLLOW of its head. -/
structure Completes (follow : String → Symbol → Prop) (s : ItemSet) (x : Symbol) (i : Item) :
    Prop where
  mem : i ∈ s.items
  complete : i.isComplete = true
  follow : follow i.production.head x

/-- Two different items of the kind are rivals. -/
theorem Completes.rivals {follow : String → Symbol → Prop} {s : ItemSet} {x : Symbol} {i j : Item}
    (hi : s.Completes follow x i) (hj : s.Completes follow x j) (hne : i ≠ j) :
    s.Rivals follow i j x :=
  ⟨hi.mem, hj.mem, hne, hi.complete, hj.complete, hi.follow, hj.follow⟩

end ItemSet

namespace Grammar

/-- The end of input is after the dot of the start item. -/
def Accepts (g : Grammar) (s : ItemSet) (x : Symbol) : Prop :=
  x = .endOfInput ∧ (⟨g.startProduction, 1⟩ : Item) ∈ s.items

/-- What the items of a state say about the cell of a symbol. -/
structure HasContent (g : Grammar) (k : Nat) (s : ItemSet) (x : Symbol) (cell : Option Action) :
    Prop where
  shift : s.Shifts x → ∃ n, g.collection.goto? k x = some n ∧ cell = some (.shift n)
  accept : g.Accepts s x → cell = some .accept
  reduce : ¬ s.Shifts x → ¬ g.Accepts s x → ∀ i, s.Completes g.Follows x i →
    (∃ n, i.production.number? = some n ∧ cell = some (.reduce n i.production.toRule)) ∧
      ∀ j, s.Completes g.Follows x j → j = i
  absent : ¬ s.Shifts x → ¬ g.Accepts s x → (∀ i, ¬ s.Completes g.Follows x i) → cell = none

variable {g : Grammar} {t : Table} {k n : Nat} {s : ItemSet} {row : Row} {x : Symbol} {a : Action}
  {cell other : Option Action} {transitions : Transitions}

/-- The items of a state leave one content for every cell. -/
theorem HasContent.eq (h : g.HasContent k s x cell) (h' : g.HasContent k s x other) :
    cell = other := by
  by_cases hshifts : s.Shifts x
  · obtain ⟨n, hn, rfl⟩ := h.shift hshifts
    obtain ⟨m, hm, rfl⟩ := h'.shift hshifts
    rw [Option.some.inj (hn.symm.trans hm)]
  · by_cases haccepts : g.Accepts s x
    · rw [h.accept haccepts, h'.accept haccepts]
    · by_cases hcompletes : ∃ i, s.Completes g.Follows x i
      · obtain ⟨i, hi⟩ := hcompletes
        obtain ⟨⟨n, hn, rfl⟩, -⟩ := h.reduce hshifts haccepts i hi
        obtain ⟨⟨m, hm, rfl⟩, -⟩ := h'.reduce hshifts haccepts i hi
        rw [Option.some.inj (hn.symm.trans hm)]
      · have hnone := not_exists.mp hcompletes
        rw [h.absent hshifts haccepts hnone, h'.absent hshifts haccepts hnone]

/-- What a state is asked for but reductions is asked for by an item with the symbol after its
dot. -/
theorem exists_next_of_asks {follow : Facts} (hs : g.collection.states[k]? = some s)
    (ha : g.Asks follow k x a) (hgo : a.isReduction = false) : ∃ i ∈ s.items, i.next? = some x := by
  obtain ⟨s', hs', i, hi, hx⟩ := exists_of_asks ha hgo
  obtain rfl : s = s' := Option.some.inj (hs.symm.trans hs')
  exact ⟨i, hi, hx⟩

namespace WellFormed

variable (wf : g.WellFormed)

include wf

/-- Where nothing is shifted or accepted, no item has the symbol after its dot. -/
theorem next?_ne_some (hs : g.collection.states[k]? = some s) (hshifts : ¬ s.Shifts x)
    (haccepts : ¬ g.Accepts s x) : ∀ i ∈ s.items, i.next? ≠ some x := by
  intro i hi hx
  by_cases hend : x = .endOfInput
  · subst hend
    obtain ⟨hp, hdot⟩ := wf.production_of_next?_endOfInput (wf.hasItem_of_state hs hi) hx
    have hstart : i = ⟨g.startProduction, 1⟩ := by rw [← hp, ← hdot]
    exact haccepts ⟨rfl, hstart ▸ hi⟩
  · exact hshifts ⟨hend, i, hi, hx⟩

omit wf in
/-- The keys of a row of transitions are different. -/
theorem distinct_transitions (hrow : g.collection.transitions[k]? = some transitions) :
    Dictionary.Distinct transitions := by
  obtain ⟨s, -, hkeys, -⟩ := g.collection_explored.1.row k transitions hrow
  apply Dictionary.distinct_of_nodup
  rw [hkeys]
  exact s.nodup_symbols.filter _

section Table

variable (ht : g.table = .ok t)

include ht

/-- Where no item has a symbol after its dot, a complete item has its reduction in the cell. -/
theorem cell_of_completes {i : Item} (hs : g.collection.states[k]? = some s)
    (hrow : t.rows[k]? = some row) (hnext : ∀ j ∈ s.items, j.next? ≠ some x)
    (hi : s.Completes g.Follows x i) : ∃ n, i.production.number? = some n ∧
      Dictionary.get? row x = some (.reduce n i.production.toRule) := by
  have hix := (wf.complete_iff hs hi.mem).mpr hi.complete
  obtain ⟨n, hn⟩ := wf.exists_number (wf.mem_productions_of_complete hs hi.mem hix)
  have hfollow := (mem_follow_iff wf.declared (table_ok ht).1).mpr hi.follow
  refine ⟨n, hn, wf.cell_of_reductions ht hrow ⟨s, hs, i, hi.mem, .reduce hix hn hfollow⟩ ?_⟩
  intro b hb
  by_contra hgo
  obtain ⟨j, hj, hjx⟩ := exists_next_of_asks hs hb (by simpa using hgo)
  exact hnext j hj hjx

/-- There is only one such item, since two of them would clash. -/
theorem completes_unique {i j : Item} (hs : g.collection.states[k]? = some s)
    (hnext : ∀ l ∈ s.items, l.next? ≠ some x) (hi : s.Completes g.Follows x i)
    (hj : s.Completes g.Follows x j) : j = i := by
  by_contra hne
  have hrivals := hj.rivals hi hne
  rcases hrivals.meet hnext with hmeet | hmeet
  · exact wf.not_meet_of_table ht (List.mem_of_getElem? hs) hrivals hmeet
  · exact wf.not_meet_of_table ht (List.mem_of_getElem? hs) hrivals.symm hmeet

theorem exists_completes_of_asks {rule : Rule} (hs : g.collection.states[k]? = some s)
    (ha : g.Asks t.sets.follow k x (.reduce n rule)) : ∃ i, s.Completes g.Follows x i := by
  obtain ⟨s', hs', i, hi, hix, -, hfollow⟩ := exists_of_asks_reduce ha
  obtain rfl : s = s' := Option.some.inj (hs.symm.trans hs')
  exact ⟨i, hi, (wf.complete_iff hs hi).mp hix,
    (mem_follow_iff wf.declared (table_ok ht).1).mp hfollow⟩

/-- What no item asks for is absent. -/
theorem cell_eq_none (hs : g.collection.states[k]? = some s) (hrow : t.rows[k]? = some row)
    (hnext : ∀ i ∈ s.items, i.next? ≠ some x) (hnone : ∀ i, ¬ s.Completes g.Follows x i) :
    Dictionary.get? row x = none := by
  cases hcell : Dictionary.get? row x with
  | none => rfl
  | some a =>
    have ha := wf.asks_of_cell ht hrow hcell
    cases a with
    | reduce n rule =>
      obtain ⟨i, hi⟩ := wf.exists_completes_of_asks ht hs ha
      exact absurd hi (hnone i)
    | _ =>
      obtain ⟨i, hi, hix⟩ := exists_next_of_asks hs ha rfl
      exact absurd hix (hnext i hi)

theorem hasContent_cell (hs : g.collection.states[k]? = some s) (hrow : t.rows[k]? = some row) :
    g.HasContent k s x (Dictionary.get? row x) where
  shift := by
    rintro ⟨hne, i, hi, hx⟩
    obtain ⟨n, hn⟩ := exists_goto? hs ⟨i, hi, hx⟩ hne
    exact ⟨n, hn, wf.cell_of_asks ht hrow ⟨s, hs, i, hi, .shift hx hn⟩ rfl⟩
  accept := by
    rintro ⟨rfl, hi⟩
    exact wf.cell_of_asks ht hrow ⟨s, hs, _, hi, .accept rfl⟩ rfl
  reduce := by
    intro hshifts haccepts i hi
    have hnext := wf.next?_ne_some hs hshifts haccepts
    exact ⟨wf.cell_of_completes ht hs hrow hnext hi,
      fun j hj => wf.completes_unique ht hs hnext hi hj⟩
  absent := by
    intro hshifts haccepts hnone
    exact wf.cell_eq_none ht hs hrow (wf.next?_ne_some hs hshifts haccepts) hnone

theorem cell_eq_iff (hs : g.collection.states[k]? = some s) (hrow : t.rows[k]? = some row) :
    Dictionary.get? row x = cell ↔ g.HasContent k s x cell := by
  constructor
  · rintro rfl
    exact wf.hasContent_cell ht hs hrow
  · exact (wf.hasContent_cell ht hs hrow).eq

/-- No cell is that of epsilon, or has the name of the synthetic start symbol. -/
theorem key_of_cell (hrow : t.rows[k]? = some row) (hcell : Dictionary.get? row x = some a) :
    x ≠ .epsilon ∧ x.name ≠ Symbol.startName := by
  have ha := wf.asks_of_cell ht hrow hcell
  have hepsilon : x ≠ .epsilon := by
    cases a with
    | reduce n rule =>
      obtain ⟨_, _, i, _, _, _, hfollow⟩ := exists_of_asks_reduce ha
      have hfollow := (mem_follow_iff wf.declared (table_ok ht).1).mp hfollow
      exact (wf.isInput_of_follows hfollow).ne_epsilon
    | _ =>
      obtain ⟨s, hs, i, hi, hx⟩ := exists_of_asks ha rfl
      exact Rule.ne_epsilon_of_mem_reducedBody (wf.mem_of_next? (wf.hasItem_of_state hs hi) hx)
  refine ⟨hepsilon, ?_⟩
  obtain ⟨p, hp, hx⟩ := (wf.cases_of_asks ht ha).resolve_left hepsilon
  rcases wf.mem_reducedBody hp hx with hoccurs | ⟨rfl, -⟩
  · exact hoccurs.name_ne_startName
  · decide

/-- The shifts of a row are the transitions of its state. -/
theorem cell_eq_shift (hrow : t.rows[k]? = some row) :
    Dictionary.get? row x = some (.shift n) ↔ g.collection.goto? k x = some n := by
  constructor
  · intro hcell
    obtain ⟨s, hs, i, hi, hasks⟩ := wf.asks_of_cell ht hrow hcell
    cases hasks with
    | shift _ hgoto => exact hgoto
  · intro hgoto
    obtain ⟨s, -, hs, -, ⟨i, hi, hx⟩, -⟩ := wf.goto?_eq_some hgoto
    exact wf.cell_of_asks ht hrow ⟨s, hs, i, hi, .shift hx hgoto⟩ rfl

/-- The gotos of a state are the shifts of its row on nonterminals. -/
theorem mem_gotos_iff {gotos : Transitions} (hrow : t.rows[k]? = some row)
    (hgotos : t.gotos[k]? = some gotos) :
    (x, n) ∈ gotos ↔ x.isNonterminal = true ∧ (x, .shift n) ∈ row := by
  have hcollection := (table_ok ht).2.1
  simp only [Table.gotos, hcollection, List.getElem?_map, Option.map_eq_some_iff] at hgotos
  obtain ⟨transitions, htransitions, rfl⟩ := hgotos
  rw [List.mem_filter, and_comm, (distinct_transitions htransitions).mem_iff,
    ← goto?_eq_get? htransitions, ← wf.cell_eq_shift ht hrow, (wf.distinct ht hrow).mem_iff]

end Table

end WellFormed

end Grammar

/-- Every cell of a table holds what the items of its state say. Epsilon and the synthetic start
symbol have no cells, and the shifts on nonterminals are the gotos. -/
theorem Source.cells_exact {d : Datum} {t : Table} (h : (Source.written d).table = .ok t) :
    t.rows.length = t.collection.states.length ∧
    t.gotos.length = t.collection.states.length ∧
    ∀ (k : Nat) s row gotos, t.collection.states[k]? = some s → t.rows[k]? = some row →
      t.gotos[k]? = some gotos →
      (∀ x cell, Dictionary.get? row x = cell ↔ t.grammar.HasContent k s x cell) ∧
      (∀ cell ∈ row, cell.1 ≠ .epsilon ∧ cell.1.name ≠ Symbol.startName) ∧
      ∀ x n, (x, n) ∈ gotos ↔ x.isNonterminal = true ∧ (x, .shift n) ∈ row := by
  obtain ⟨g, -, wf, ht⟩ := Source.table_ok h
  obtain rfl := Grammar.grammar_of_table ht
  rw [(Grammar.table_ok ht).2.1]
  refine ⟨wf.length_rows ht, ?_, ?_⟩
  · rw [Table.gotos, List.length_map, (Grammar.table_ok ht).2.1,
      t.grammar.collection_explored.2]
  · intro k s row gotos hs hrow hgotos
    refine ⟨fun x cell => wf.cell_eq_iff ht hs hrow, ?_, fun x n => wf.mem_gotos_iff ht hrow hgotos⟩
    intro cell hcell
    exact wf.key_of_cell ht hrow ((wf.distinct ht hrow).mem_iff.mp hcell)

set_option maxRecDepth 100000 in
/-- Behind an opening parenthesis the empty alternative is reduced before the closing one, though
the same state begins another alternative. -/
theorem Source.balanced_cells : ∃ t s, (Source.written balanced).table = .ok t ∧
    t.collection.states[2]? = some s ∧
    t.grammar.HasContent 2 s (.nonterminal "S") (some (.shift 3)) ∧
    t.grammar.HasContent 2 s (.token ")") (some (.reduce 2 ⟨"S", [.epsilon]⟩)) ∧
    t.grammar.HasContent 2 s .epsilon none := by
  have h : Except.passes (fun t => decide (t.collection.states.length = 6 ∧ ∃ row ∈ t.rows[2]?,
      Dictionary.get? row (.nonterminal "S") = some (.shift 3) ∧
      Dictionary.get? row (.token ")") = some (.reduce 2 ⟨"S", [.epsilon]⟩) ∧
      Dictionary.get? row .epsilon = none)) (Source.written balanced).table = true := by
    decide +kernel
  obtain ⟨t, ht, htest⟩ := Except.exists_of_passes h
  obtain ⟨hstates, row, hrow, hshift, hreduce, habsent⟩ := of_decide_eq_true htest
  obtain ⟨-, hlength, hcells⟩ := Source.cells_exact ht
  have hs : ∃ s, t.collection.states[2]? = some s := ⟨_, List.getElem?_eq_getElem (by omega)⟩
  have hgotos : ∃ gotos, t.gotos[2]? = some gotos := ⟨_, List.getElem?_eq_getElem (by omega)⟩
  obtain ⟨s, hs⟩ := hs
  obtain ⟨gotos, hgotos⟩ := hgotos
  obtain ⟨hiff, -, -⟩ := hcells 2 s row gotos hs hrow hgotos
  exact ⟨t, s, ht, hs, (hiff _ _).mp hshift, (hiff _ _).mp hreduce, (hiff _ _).mp habsent⟩

end ShiftReduce
