import ShiftReduce.Proofs.Loading
import ShiftReduce.Proofs.Requests
import ShiftReduce.Proofs.Runs
import ShiftReduce.Table.Build

/-!
What the cells of a parsing table hold.

A row answers what the items of its state ask for: a cell holds an action only if an item asks for
it, a shift or acceptance that is asked for stands in its cell, and so does a reduction when no
other action is asked for. A name leads to the cell of its symbol, since every key of a row is the
symbol that its name says.
-/

namespace ShiftReduce

namespace Row

/-- Every key is the symbol that its name says. -/
def Named (r : Row) : Prop := ∀ cell ∈ r, Symbol.ofName cell.1.name = cell.1

variable {r : Row}

theorem Named.name_eq_iff (h : r.Named) {cell : Symbol × Action} (hcell : cell ∈ r)
    {name : String} : name = cell.1.name ↔ Symbol.ofName name = cell.1 := by
  constructor
  · rintro rfl
    exact h cell hcell
  · intro heq
    rw [← heq, Symbol.name_ofName]

theorem Named.codes_eq (h : r.Named) (hd : Dictionary.Distinct r) :
    r.codes = r.map fun cell => (cell.1.name, cell.2.code) := by
  apply Dictionary.Distinct.ofList_eq
  rw [Dictionary.Distinct, List.pairwise_map]
  apply hd.imp_of_mem
  intro a b ha hb hne
  simp only [beq_eq_false_iff_ne, ne_eq] at hne ⊢
  exact fun heq => hne ((h a ha).symm.trans ((h.name_eq_iff hb).mp heq))

/-- A name that is looked up among the cells leads to the first of them. -/
theorem get?_map_name {β : Type} (r : Row) (f : Action → β) (name : String) :
    Dictionary.get? (r.map fun cell => (cell.1.name, f cell.2)) name = (r.named? name).map f := by
  induction r with
  | nil => rfl
  | cons cell rest ih =>
    rw [List.map_cons, Dictionary.get?_cons, named?, List.find?_cons]
    by_cases hx : name = cell.1.name
    · simp [hx]
    · simpa [hx, Ne.symm hx, named?] using ih

/-- The first symbol of a name is the one that the name says. -/
theorem Named.named?_eq (h : r.Named) (name : String) :
    r.named? name = Dictionary.get? r (Symbol.ofName name) := by
  induction r with
  | nil => rfl
  | cons cell rest ih =>
    obtain ⟨x, a⟩ := cell
    have hiff : name = x.name ↔ Symbol.ofName name = x := h.name_eq_iff List.mem_cons_self
    have ih := ih fun cell hcell => h cell (List.mem_cons_of_mem _ hcell)
    rw [named?, List.find?_cons, Dictionary.get?_cons]
    by_cases hx : name = x.name
    · have hof : Symbol.ofName x.name = x := hx ▸ hiff.mp hx
      simp [hx, hof]
    · have hof : Symbol.ofName name ≠ x := fun heq => hx (hiff.mpr heq)
      simpa [Ne.symm hx, hof, named?] using ih

/-- The code that a row has for a name is that of the action in the cell of the symbol. -/
theorem Named.get?_codes (h : r.Named) (hd : Dictionary.Distinct r) (name : String) :
    Dictionary.get? r.codes name = (Dictionary.get? r (Symbol.ofName name)).map Action.code := by
  rw [h.codes_eq hd, get?_map_name, h.named?_eq]

end Row

namespace Grammar

variable {g : Grammar} {t : Table} {k n : Nat} {row : Row} {x : Symbol} {a : Action}

theorem table_ok (h : g.table = .ok t) : g.sets = .ok t.sets ∧ t.collection = g.collection ∧
    fillRows t.sets 0 [] (g.collection.states.zip g.collection.transitions) =
      .ok (t.rows, t.conflicts) := by
  unfold table at h
  cases hsets : g.sets with
  | error e =>
    rw [hsets] at h
    cases h
  | ok sets =>
    simp only [hsets] at h
    cases hrows : fillRows sets 0 [] (g.collection.states.zip g.collection.transitions) with
    | error e =>
      rw [hrows] at h
      cases h
    | ok result =>
      rw [hrows] at h
      cases h
      exact ⟨rfl, rfl, hrows⟩

theorem grammar_of_table (h : g.table = .ok t) : t.grammar = g :=
  (sets_ok (table_ok h).1).1

namespace WellFormed

variable (wf : g.WellFormed)

include wf

omit wf in
/-- A state and its transitions stand side by side. -/
theorem exists_entry {s : ItemSet} (hs : g.collection.states[k]? = some s) :
    ∃ transitions, g.collection.transitions[k]? = some transitions ∧
      (g.collection.states.zip g.collection.transitions)[k]? = some (s, transitions) := by
  obtain ⟨hlt, -⟩ := List.getElem?_eq_some_iff.mp hs
  rw [← g.collection_explored.2] at hlt
  have htransitions := List.getElem?_eq_getElem hlt
  exact ⟨_, htransitions, List.getElem?_zip_eq_some.mpr ⟨hs, htransitions⟩⟩

/-- Nothing stands in the way of filling the rows but a clash. -/
theorem placeable {s : Sets} (hsets : g.sets = .ok s) :
    ∀ entry ∈ g.collection.states.zip g.collection.transitions, ItemSet.Placeable s entry := by
  rintro ⟨items, transitions⟩ hentry
  obtain ⟨k, hk⟩ := List.mem_iff_getElem?.mp hentry
  obtain ⟨hitems, hrow⟩ := List.getElem?_zip_eq_some.mp hk
  refine ⟨fun i hi => ?_, ?_, ?_⟩
  · have hitem := wf.hasItem_of_state hitems hi
    refine ⟨fun hx => ?_, fun _ => ?_, fun hx => ?_, fun x hx hne => ?_⟩
    · exact wf.exists_number (wf.mem_productions_of_complete hitems hi hx)
    · rw [(sets_ok hsets).1]
      exact wf.head_mem_names hitem.mem
    · rw [(wf.production_of_next?_endOfInput hitem hx).1]
      rfl
    · rw [← goto?_eq_get? hrow]
      exact exists_goto? hitems ⟨i, hi, hx⟩ hne
  · intro x a b ha hb hga hgb
    rw [wf.mem_requests_iff hitems hrow] at ha hb
    exact wf.asks_eq ha hb hga hgb
  · intro x m n rule hm hn
    rw [wf.mem_requests_iff hitems hrow] at hm hn
    exact wf.number_eq_of_asks hm hn

theorem placeable_of_state {state : ItemSet} {transitions : Transitions} {s : Sets}
    (hsets : g.sets = .ok s) (hs : g.collection.states[k]? = some state)
    (hrow : g.collection.transitions[k]? = some transitions) :
    ItemSet.Placeable s (state, transitions) := by
  have hentry :
      (g.collection.states.zip g.collection.transitions)[k]? = some (state, transitions) :=
    List.getElem?_zip_eq_some.mpr ⟨hs, hrow⟩
  exact wf.placeable hsets _ (List.mem_of_getElem? hentry)

section Table

variable (ht : g.table = .ok t)

include ht

theorem length_rows : t.rows.length = g.collection.states.length := by
  obtain ⟨-, -, hrows⟩ := table_ok ht
  have h := (fillRows_ok (wf.placeable (table_ok ht).1) hrows).1
  rwa [List.length_zip, g.collection_explored.2, Nat.min_self] at h

/-- The row of a state answers what its items ask for. -/
theorem exists_answers (hrow : t.rows[k]? = some row) : ∃ requests, row.Answers requests ∧
    ∀ x a, (x, a) ∈ requests ↔ g.Asks t.sets.follow k x a := by
  obtain ⟨-, -, hrows⟩ := table_ok ht
  obtain ⟨hlt, -⟩ := List.getElem?_eq_some_iff.mp hrow
  rw [wf.length_rows ht] at hlt
  have hs := List.getElem?_eq_getElem hlt
  obtain ⟨transitions, htransitions, hentry⟩ := exists_entry hs
  exact ⟨_, (fillRows_ok (wf.placeable (table_ok ht).1) hrows).2.1 k _ row hentry hrow,
    fun x a => wf.mem_requests_iff hs htransitions⟩

theorem asks_of_cell (hrow : t.rows[k]? = some row) (hcell : Dictionary.get? row x = some a) :
    g.Asks t.sets.follow k x a := by
  obtain ⟨requests, hanswers, hasks⟩ := wf.exists_answers ht hrow
  exact (hasks x a).mp (hanswers.asked x a hcell)

theorem cell_of_asks (hrow : t.rows[k]? = some row) (ha : g.Asks t.sets.follow k x a)
    (hgo : a.isReduction = false) : Dictionary.get? row x = some a := by
  obtain ⟨requests, hanswers, hasks⟩ := wf.exists_answers ht hrow
  exact hanswers.preferred x a ((hasks x a).mpr ha) hgo

theorem cell_of_reductions (hrow : t.rows[k]? = some row) (ha : g.Asks t.sets.follow k x a)
    (hall : ∀ b, g.Asks t.sets.follow k x b → b.isReduction = true) :
    Dictionary.get? row x = some a := by
  obtain ⟨requests, hanswers, hasks⟩ := wf.exists_answers ht hrow
  exact hanswers.reduced x a ((hasks x a).mpr ha) fun b hb => hall b ((hasks x b).mp hb)

/-- The conflicts are the pairs of a reduction and another action that are asked for in one cell. -/
theorem mem_conflicts_iff (c : Conflict) : c ∈ t.conflicts ↔ c.action.isReduction = false ∧
    g.Asks t.sets.follow c.state c.symbol c.action ∧
      ∃ n, g.Asks t.sets.follow c.state c.symbol (.reduce n c.rule) := by
  obtain ⟨-, -, hrows⟩ := table_ok ht
  rw [(fillRows_ok (wf.placeable (table_ok ht).1) hrows).2.2 c]
  simp only [List.not_mem_nil, false_or, Nat.zero_add]
  constructor
  · rintro ⟨k, entry, hk, rfl, hgo, hpreferred, n, hrefused⟩
    obtain ⟨hs, htransitions⟩ := List.getElem?_zip_eq_some.mp hk
    rw [wf.mem_requests_iff hs htransitions] at hpreferred hrefused
    exact ⟨hgo, hpreferred, n, hrefused⟩
  · rintro ⟨hgo, hpreferred, n, hrefused⟩
    have ⟨s, hs, _⟩ := hpreferred
    obtain ⟨transitions, htransitions, hentry⟩ := exists_entry hs
    refine ⟨c.state, (s, transitions), hentry, rfl, hgo, ?_, n, ?_⟩
    · rwa [wf.mem_requests_iff hs htransitions]
    · rwa [wf.mem_requests_iff hs htransitions]

/-- Without conflicts a cell holds whatever is asked for in it. -/
theorem cell_of_conflictFree (hfree : t.conflicts = []) (hrow : t.rows[k]? = some row)
    (ha : g.Asks t.sets.follow k x a) : Dictionary.get? row x = some a := by
  cases hgo : a.isReduction with
  | false => exact wf.cell_of_asks ht hrow ha hgo
  | true =>
    apply wf.cell_of_reductions ht hrow ha
    intro b hb
    cases a with
    | reduce n rule =>
      cases hb' : b.isReduction with
      | true => rfl
      | false =>
        have hmem := (wf.mem_conflicts_iff ht ⟨k, x, b, rule⟩).mpr ⟨hb', hb, n, ha⟩
        simp [hfree] at hmem
    | _ => cases hgo

/-- What is asked for concerns a symbol of a body, or epsilon. -/
theorem cases_of_asks (ha : g.Asks t.sets.follow k x a) :
    x = .epsilon ∨ ∃ p ∈ g.augmentedProductions, x ∈ p.reducedBody := by
  obtain ⟨s, hs, i, hi, ha⟩ := ha
  have hitem := wf.hasItem_of_state hs hi
  cases ha with
  | shift hx _ => exact .inr ⟨_, hitem.mem, wf.mem_of_next? hitem hx⟩
  | accept hx => exact .inr ⟨_, hitem.mem, wf.mem_of_next? hitem hx⟩
  | reduce _ _ hfollow =>
    by_cases hepsilon : x = .epsilon
    · exact .inl hepsilon
    · have hwithin := follow_within (table_ok ht).1
      rcases List.mem_cons.mp (hwithin.mem _ hfollow).2 with hx | hx
      · exact absurd hx hepsilon
      · obtain ⟨p, hp, hx⟩ := List.mem_flatMap.mp hx
        exact .inr ⟨p, hp, List.mem_filter.mpr ⟨hx, by simpa using hepsilon⟩⟩

theorem ofName_name_of_asks (ha : g.Asks t.sets.follow k x a) : Symbol.ofName x.name = x := by
  rcases wf.cases_of_asks ht ha with rfl | ⟨p, hp, hx⟩
  · exact Symbol.ofName_epsilonName
  · exact wf.ofName_name_of_mem_reducedBody hp hx

theorem named (hrow : t.rows[k]? = some row) : row.Named := by
  intro cell hcell
  obtain ⟨a, ha⟩ := Dictionary.exists_get? (List.mem_map_of_mem hcell)
  exact wf.ofName_name_of_asks ht (wf.asks_of_cell ht hrow ha)

theorem distinct (hrow : t.rows[k]? = some row) : Dictionary.Distinct row := by
  obtain ⟨_, hanswers, -⟩ := wf.exists_answers ht hrow
  exact hanswers.distinct

end Table

end WellFormed

end Grammar

namespace Grammar.WellFormed

variable {g : Grammar} {t : Table} {k n : Nat} {name : String} {a : Action} {code : Code}
  (wf : g.WellFormed) (ht : g.table = .ok t)

include wf ht

theorem exists_codes {s : ItemSet} (hs : g.collection.states[k]? = some s) :
    ∃ row, t.parser.rows[k]? = some row := by
  obtain ⟨hlt, -⟩ := List.getElem?_eq_some_iff.mp hs
  rw [← wf.length_rows ht] at hlt
  refine ⟨_, List.getElem?_eq_getElem ?_⟩
  simpa [Table.parser, Table.codes] using hlt

theorem cell?_eq_some : t.parser.cell? k name = some code ↔ ∃ row a, t.rows[k]? = some row ∧
    Dictionary.get? row (Symbol.ofName name) = some a ∧ a.code = code := by
  unfold Codes.cell?
  simp only [Table.parser, Table.codes, List.getElem?_map]
  cases hrow : t.rows[k]? with
  | none => simp
  | some row =>
    simp [(wf.named ht hrow).get?_codes (wf.distinct ht hrow)]

/-- A code stands in a cell only if an item asks for such an action. -/
theorem asks_of_cell? (h : t.parser.cell? k name = some code) :
    ∃ x a, Symbol.ofName name = x ∧ g.Asks t.sets.follow k x a ∧ a.code = code := by
  obtain ⟨row, a, hrow, ha, hcode⟩ := (wf.cell?_eq_some ht).mp h
  exact ⟨_, a, rfl, wf.asks_of_cell ht hrow ha, hcode⟩

theorem exists_row_of_asks {x : Symbol} (ha : g.Asks t.sets.follow k x a) :
    ∃ row, t.rows[k]? = some row := by
  obtain ⟨s, hs, -⟩ := ha
  obtain ⟨hlt, -⟩ := List.getElem?_eq_some_iff.mp hs
  rw [← wf.length_rows ht] at hlt
  exact ⟨_, List.getElem?_eq_getElem hlt⟩

theorem cell?_of_asks (ha : g.Asks t.sets.follow k (Symbol.ofName name) a)
    (hgo : a.isReduction = false) : t.parser.cell? k name = some a.code := by
  obtain ⟨row, hrow⟩ := wf.exists_row_of_asks ht ha
  exact (wf.cell?_eq_some ht).mpr ⟨row, a, hrow, wf.cell_of_asks ht hrow ha hgo, rfl⟩

theorem cell?_of_conflictFree (hfree : t.conflicts = [])
    (ha : g.Asks t.sets.follow k (Symbol.ofName name) a) :
    t.parser.cell? k name = some a.code := by
  obtain ⟨row, hrow⟩ := wf.exists_row_of_asks ht ha
  exact (wf.cell?_eq_some ht).mpr
    ⟨row, a, hrow, wf.cell_of_conflictFree ht hfree hrow ha, rfl⟩

/-- Without conflicts the reduction of a complete item stands in the cells of FOLLOW. -/
theorem cell?_of_complete (hfree : t.conflicts = []) {s : ItemSet} {i : Item} {x : Symbol}
    (hs : g.collection.states[k]? = some s) (hi : i ∈ s.items) (hx : i.next? = none)
    (hn : i.production.number? = some n) (hfollow : (i.production.head, x) ∈ t.sets.follow) :
    t.parser.cell? k x.name = some (.reduce n) := by
  have hasks : g.Asks t.sets.follow k x (.reduce n i.production.toRule) :=
    ⟨s, hs, i, hi, .reduce hx hn hfollow⟩
  exact wf.cell?_of_conflictFree ht hfree (by rwa [wf.ofName_name_of_asks ht hasks])

/-- A reduction stands in a cell because its production is complete in the state. -/
theorem complete_of_cell? (h : t.parser.cell? k name = some (.reduce n)) :
    ∃ s, g.collection.states[k]? = some s ∧ ∃ i ∈ s.items, i.next? = none ∧
      i.production.number? = some n := by
  obtain ⟨_, a, -, ⟨s, hs, i, hi, ha⟩, hcode⟩ := wf.asks_of_cell? ht h
  cases ha with
  | accept | shift => cases hcode
  | reduce hx hnumber _ =>
    cases hcode
    exact ⟨s, hs, i, hi, hx, hnumber⟩

end Grammar.WellFormed

/-- How a numbered production is known to a parser. -/
def Production.reduction (p : Production) (n : Nat) : Reduction :=
  ⟨n, p.body.map Symbol.name, p.head⟩

/-- A number with the production that is looked up under it. -/
structure Table.Reduces (t : Table) (n : Nat) (p : Production) : Prop where
  mem : p ∈ t.grammar.productions
  number : p.number? = some n
  known : t.reductions.find? (·.number = n) = some (p.reduction n)

namespace Grammar.WellFormed

variable {g : Grammar} {p : Production} {n : Nat} (wf : g.WellFormed)

include wf

theorem find?_reduction (hp : p ∈ g.productions) (hn : p.number? = some n) :
    g.reductions.find? (·.number = n) = some (p.reduction n) := by
  apply find?_eq_some_of_unique
  · exact List.mem_filterMap.mpr ⟨p, hp, by simp [hn, Production.reduction]⟩
  · simp [Production.reduction]
  · intro r hr hnumber
    obtain ⟨q, hq, hr⟩ := List.mem_filterMap.mp hr
    obtain ⟨m, hm, rfl⟩ := Option.map_eq_some_iff.mp hr
    obtain rfl : m = n := by simpa using hnumber
    rw [wf.eq_of_number?_eq hp hq (hn.trans hm.symm)]
    rfl

/-- Reducing takes as many states as the body has symbols without epsilon. -/
theorem size_reduction (hp : p ∈ g.productions) (n : Nat) :
    (p.reduction n).size = p.reducedBody.length := by
  have hmem := mem_augmentedProductions.mpr (.inr hp)
  cases hepsilon : p.isEpsilon with
  | true =>
    have hbody : p.body = [.epsilon] := by simpa [Rule.isEpsilon] using hepsilon
    simp [Reduction.size, Production.reduction, Rule.reducedBody_of_isEpsilon hepsilon, hbody,
      Symbol.name]
  | false =>
    have hreduced := wf.reducedBody_eq_body hmem hepsilon
    have hne : p.body.map Symbol.name ≠ [Symbol.epsilonName] := by
      intro hnames
      obtain ⟨s, hbody, hname⟩ := List.map_eq_singleton_iff.mp hnames
      have hs := wf.ofName_name_of_mem_reducedBody hmem (s := s) (by simp [hreduced, hbody])
      rw [hname, Symbol.ofName_epsilonName] at hs
      exact wf.epsilon_not_mem_body hmem hepsilon (by simp [hbody, hs])
    simp [Reduction.size, Production.reduction, hne, hreduced]

theorem reduces {t : Table} (ht : g.table = .ok t) (hp : p ∈ g.productions)
    (hn : p.number? = some n) : t.Reduces n p := by
  have hgrammar := grammar_of_table ht
  refine ⟨hgrammar ▸ hp, hn, ?_⟩
  rw [Table.reductions, hgrammar, wf.find?_reduction hp hn]

end Grammar.WellFormed

namespace Source

variable {d : Datum} {g : Grammar} {t : Table}

theorem table_eq (h : (written d).load = .ok g) :
    (written d).table = g.table.mapError .table := by
  simp only [table, h]

theorem table_eq_ok (h : (written d).load = .ok g) :
    (written d).table = .ok t ↔ g.table = .ok t := by
  rw [table_eq h, mapError_eq_ok]

/-- The table of a source is that of a well-formed grammar. -/
theorem table_ok (h : (written d).table = .ok t) : ∃ g : Grammar,
    (written d).load = .ok g ∧ g.WellFormed ∧ g.table = .ok t := by
  cases hload : (written d).load with
  | error e =>
    simp only [table, hload] at h
    cases h
  | ok g => exact ⟨g, rfl, load_wellFormed hload, (table_eq_ok hload).mp h⟩

end Source

set_option maxRecDepth 100000 in
theorem Source.balanced_table : ∃ t, (written balanced).table = .ok t ∧ t.conflicts = [] := by
  have h : Except.passes (fun t => decide (t.conflicts = [])) (written balanced).table = true := by
    decide +kernel
  obtain ⟨t, ht, hfree⟩ := Except.exists_of_passes h
  exact ⟨t, ht, of_decide_eq_true hfree⟩

end ShiftReduce
