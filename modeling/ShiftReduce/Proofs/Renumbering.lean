import Mathlib.Data.Set.Function
import ShiftReduce.Proofs.SameRules
import ShiftReduce.Proofs.SimpleLR
import ShiftReduce.Proofs.Totality

/-!
States and productions by other numbers.

Two grammars with the same rules have the same states under different numbers, and the same
productions. What an item asks for is asked for by the same item of the other grammar, with its
numbers exchanged; so tables without conflicts agree cell by cell.
-/

namespace ShiftReduce

/-- The number that a state of one collection has in another. -/
def Collection.numberIn (c c' : Collection) (k : Nat) : Nat :=
  (c.states[k]?.bind c'.index?).getD 0

/-- The number that the rule of a production of one grammar has in another. -/
def Grammar.numberIn (g g' : Grammar) (n : Nat) : Nat :=
  ((g.production? n).bind fun p =>
    (g'.productions.find? (·.toRule = p.toRule)).bind Production.number?).getD 0

/-- Two collections that differ in the numbers of their states only. -/
structure Collection.Renumbered (c c' : Collection) (state : Nat → Nat) : Prop where
  bijOn : Set.BijOn state {k | k < c.size} {k | k < c'.size}
  zero : state 0 = 0
  /-- The items are the same; an item is taken for its head, its body and its dot. -/
  same : ∀ k < c.size, ∃ s s', c.states[k]? = some s ∧ c'.states[state k]? = some s' ∧ s.Same s'
  goto? : ∀ k < c.size, ∀ x, c'.goto? (state k) x = (c.goto? k x).map state

def Action.renumber (state production : Nat → Nat) : Action → Action
  | shift k => shift (state k)
  | reduce n rule => reduce (production n) rule
  | accept => accept

def Code.renumber (state production : Nat → Nat) : Code → Code
  | shift k => shift (state k)
  | reduce n => reduce (production n)
  | accept => accept

theorem Action.code_renumber (a : Action) (state production : Nat → Nat) :
    (a.renumber state production).code = a.code.renumber state production := by
  cases a <;> rfl

def Reduction.renumber (production : Nat → Nat) (r : Reduction) : Reduction :=
  ⟨production r.number, r.body, r.head⟩

/-- Two tables that differ in the numbers of states and productions only. -/
structure Table.Renumbered (t t' : Table) (state production : Nat → Nat) : Prop where
  reductions : (t.reductions.map (Reduction.renumber production)).Perm t'.reductions
  bijOn : Set.BijOn state {k | k < t.rows.length} {k | k < t'.rows.length}
  /-- There is the same action in every cell. -/
  cell : ∀ k < t.rows.length, ∃ row row', t.rows[k]? = some row ∧ t'.rows[state k]? = some row' ∧
    ∀ x, Dictionary.get? row' x = (Dictionary.get? row x).map (Action.renumber state production)
  /-- There is the same code under every name. -/
  cell? : ∀ k < t.rows.length, ∀ name,
    t'.parser.cell? (state k) name = (t.parser.cell? k name).map (Code.renumber state production)

namespace Grammar

variable {g g' : Grammar} (wf : g.WellFormed) (wf' : g'.WellFormed) (h : g.rules = g'.rules)

include wf wf' h

section States

variable {k : Nat} {s : ItemSet}

/-- A state is found in the other collection. -/
theorem exists_numberIn (hs : g.collection.states[k]? = some s) :
    ∃ s', g'.collection.states[g.collection.numberIn g'.collection k]? = some s' ∧
      s.Same s' := by
  obtain ⟨B, hB, himage⟩ := (wf.canonical_of_state hs).exists_of_rules_eq wf' h
  obtain ⟨t, ht, rfl⟩ := wf'.canonical_iff.mp hB
  have hsame : s.Same t := ItemSet.same_iff_image.mpr himage
  unfold Collection.numberIn
  rw [hs, Option.bind_some]
  cases hn : g'.collection.index? s with
  | none => exact absurd hsame (Collection.find?_eq_none hn ht)
  | some n => exact Collection.find?_eq_some hn

theorem numberIn_eq {l : Nat} {t : ItemSet} (hs : g.collection.states[k]? = some s)
    (ht : g'.collection.states[l]? = some t) (hsame : s.Same t) :
    g.collection.numberIn g'.collection k = l := by
  obtain ⟨s', hs', hsame'⟩ := exists_numberIn wf wf' h hs
  apply number_eq_of_same hs' ht
  rw [ItemSet.same_iff_image] at hsame hsame' ⊢
  exact hsame'.symm.trans hsame

theorem numberIn_lt (hk : k < g.collection.size) :
    g.collection.numberIn g'.collection k < g'.collection.size := by
  obtain ⟨s', hs', -⟩ := exists_numberIn wf wf' h (List.getElem?_eq_getElem hk)
  exact (List.getElem?_eq_some_iff.mp hs').1

/-- Exchanged twice a number is the old one. -/
theorem numberIn_numberIn (hk : k < g.collection.size) :
    g'.collection.numberIn g.collection (g.collection.numberIn g'.collection k) = k := by
  have hs := List.getElem?_eq_getElem hk
  obtain ⟨s', hs', hsame⟩ := exists_numberIn wf wf' h hs
  exact numberIn_eq wf' wf h.symm hs' hs hsame.symm

theorem numberIn_zero : g.collection.numberIn g'.collection 0 = 0 := by
  have hitem : g.startItem = g'.startItem := by
    rw [startItem, startItem, startProduction_eq_of_rules_eq wf' h]
  have hstart := g.collection_explored.1.first
  have hstart' := g'.collection_explored.1.first
  apply numberIn_eq wf wf' h hstart hstart'
  rw [ItemSet.same_iff_image, wf.carrier_startState, wf'.carrier_startState, hitem]
  exact (image_closure_subset h subset_rfl).antisymm (image_closure_subset h.symm subset_rfl)

/-- A transition leads to the same state. -/
theorem goto?_numberIn {n : Nat} {x : Symbol} (hn : g.collection.goto? k x = some n) :
    g'.collection.goto? (g.collection.numberIn g'.collection k) x =
      some (g.collection.numberIn g'.collection n) := by
  obtain ⟨s, t, hs, ht, hx, hne, hcarrier⟩ := wf.goto?_eq_some hn
  obtain ⟨s', hs', hsame⟩ := exists_numberIn wf wf' h hs
  rw [ItemSet.same_iff_image] at hsame
  obtain ⟨n', hn'⟩ := exists_goto? hs' (exists_next?_of_image_eq hsame hx) hne
  obtain ⟨t', ht', hcarrier'⟩ := wf'.target_of_goto? hs' hn'
  rw [hn', numberIn_eq wf wf' h ht ht']
  rw [ItemSet.same_iff_image, hcarrier, hcarrier']
  exact image_goto_eq h hsame

theorem collection_renumbered :
    g.collection.Renumbered g'.collection (g.collection.numberIn g'.collection) where
  bijOn := by
    have hinverse : Set.InvOn (g'.collection.numberIn g.collection)
        (g.collection.numberIn g'.collection) {k | k < g.collection.size}
        {k | k < g'.collection.size} :=
      ⟨fun k hk => numberIn_numberIn wf wf' h hk, fun k hk => numberIn_numberIn wf' wf h.symm hk⟩
    exact hinverse.bijOn (fun k hk => numberIn_lt wf wf' h hk)
      fun k hk => numberIn_lt wf' wf h.symm hk
  zero := numberIn_zero wf wf' h
  same k hk := by
    have hs := List.getElem?_eq_getElem hk
    obtain ⟨s', hs', hsame⟩ := exists_numberIn wf wf' h hs
    exact ⟨_, s', hs, hs', hsame⟩
  goto? k hk x := by
    cases hn : g.collection.goto? k x with
    | some n => exact goto?_numberIn wf wf' h hn
    | none =>
      cases hn' : g'.collection.goto? (g.collection.numberIn g'.collection k) x with
      | none => rfl
      | some n =>
        have hback := goto?_numberIn wf' wf h.symm hn'
        rw [numberIn_numberIn wf wf' h hk, hn] at hback
        cases hback

end States

section Productions

variable {p : Production} {n : Nat}

omit wf' in
theorem exists_production (hp : p ∈ g.productions) : ∃ q ∈ g'.productions, q.toRule = p.toRule := by
  obtain ⟨q, hq, hrule⟩ := exists_of_rules_eq h (mem_augmentedProductions.mpr (.inr hp))
  refine ⟨q, (mem_augmentedProductions.mp hq).resolve_left ?_, hrule⟩
  rintro rfl
  have hhead : p.head = Symbol.startName := (congrArg Rule.head hrule).symm
  exact wf.head_ne_startName hp hhead

omit h in
theorem production_numberIn {q : Production} (hp : p ∈ g.productions) (hn : p.number? = some n)
    (hq : q ∈ g'.productions) (hrule : q.toRule = p.toRule) :
    q.number? = some (g.numberIn g' n) := by
  have hfind : g'.productions.find? (·.toRule = p.toRule) = some q := by
    apply find?_eq_some_of_unique hq (by simpa using hrule)
    intro q' hq' hrule'
    exact wf'.eq_of_toRule_eq (mem_augmentedProductions.mpr (.inr hq'))
      (mem_augmentedProductions.mpr (.inr hq)) ((of_decide_eq_true hrule').trans hrule.symm)
  obtain ⟨m, hm⟩ := wf'.exists_number hq
  simp [numberIn, wf.production?_eq hp hn, hfind, hm]

/-- Exchanged twice the number of a production is the old one. -/
theorem production_numberIn_numberIn (hp : p ∈ g.productions) (hn : p.number? = some n) :
    g'.numberIn g (g.numberIn g' n) = n := by
  obtain ⟨q, hq, hrule⟩ := exists_production wf h hp
  have hm := production_numberIn wf wf' hp hn hq hrule
  have hback := production_numberIn wf' wf hq hm hp hrule.symm
  exact Option.some.inj (hback.symm.trans hn)

theorem mem_reductions_numberIn {r : Reduction} (hr : r ∈ g.reductions) :
    r.renumber (g.numberIn g') ∈ g'.reductions ∧
      (r.renumber (g.numberIn g')).renumber (g'.numberIn g) = r := by
  obtain ⟨p, hp, hr⟩ := List.mem_filterMap.mp hr
  obtain ⟨n, hn, rfl⟩ := Option.map_eq_some_iff.mp hr
  obtain ⟨q, hq, hrule⟩ := exists_production wf h hp
  constructor
  · refine List.mem_filterMap.mpr ⟨q, hq, ?_⟩
    rw [production_numberIn wf wf' hp hn hq hrule, hrule]
    rfl
  · simp only [Reduction.renumber, production_numberIn_numberIn wf wf' h hp hn]

omit wf' h in
theorem nodup_reductions : g.reductions.Nodup := by
  have hnumbers : g.reductions.map Reduction.number =
      (g.productions.map Production.number?).filterMap id := by
    simp [reductions, List.map_filterMap, List.filterMap_map, Function.comp_def]
  rw [wf.map_number?, List.filterMap_map] at hnumbers
  apply List.Nodup.of_map Reduction.number
  rw [hnumbers]
  simpa using List.nodup_range'

theorem reductions_perm : (g.reductions.map (Reduction.renumber (g.numberIn g'))).Perm
    g'.reductions := by
  have hinj : ∀ r ∈ g.reductions, ∀ r' ∈ g.reductions,
      r.renumber (g.numberIn g') = r'.renumber (g.numberIn g') → r = r' := by
    intro r hr r' hr' heq
    have hback := (mem_reductions_numberIn wf wf' h hr).2
    rwa [heq, (mem_reductions_numberIn wf wf' h hr').2, eq_comm] at hback
  rw [List.perm_ext_iff_of_nodup ((nodup_reductions wf).map_on hinj) (nodup_reductions wf')]
  intro r
  constructor
  · intro hr
    obtain ⟨old, hold, rfl⟩ := List.mem_map.mp hr
    exact (mem_reductions_numberIn wf wf' h hold).1
  · intro hr
    obtain ⟨hmem, hback⟩ := mem_reductions_numberIn wf' wf h.symm hr
    exact List.mem_map.mpr ⟨_, hmem, hback⟩

end Productions

/-- Whether a grammar is SLR(1) is told by its rules. -/
theorem isSLR1_of_rules_eq (hslr : g.IsSLR1 g.Follows) : g'.IsSLR1 g'.Follows := by
  -- An item of one canonical collection has a twin in the other.
  have twin : ∀ {A B : Set Item}, Item.core '' A = Item.core '' B → ∀ i ∈ A,
      ∃ j ∈ B, j.core = i.core := fun hAB i hi => hAB.subset (Set.mem_image_of_mem _ hi)
  constructor
  · intro B hB i hi j hj x hx hterminal hcomplete hfollow
    obtain ⟨A, hA, hAB⟩ := hB.exists_of_rules_eq wf h.symm
    obtain ⟨i', hi', hi'core⟩ := twin hAB i hi
    obtain ⟨j', hj', hj'core⟩ := twin hAB j hj
    have hhead : j'.production.head = j.production.head :=
      congrArg (fun core => core.1.head) hj'core
    apply hslr.shiftReduce A hA i' hi' j' hj' x ((Item.next?_eq_of_core_eq hi'core).trans hx)
      hterminal ((Item.isComplete_eq_of_core_eq hj'core).trans hcomplete)
    rw [hhead]
    exact (follows_iff_of_rules_eq wf wf' h).mpr hfollow
  · rintro B hB i hi j hj x hicomplete hjcomplete hne ⟨hix, hjx⟩
    obtain ⟨A, hA, hAB⟩ := hB.exists_of_rules_eq wf h.symm
    obtain ⟨i', hi', hi'core⟩ := twin hAB i hi
    obtain ⟨j', hj', hj'core⟩ := twin hAB j hj
    have hihead : i'.production.head = i.production.head :=
      congrArg (fun core => core.1.head) hi'core
    have hjhead : j'.production.head = j.production.head :=
      congrArg (fun core => core.1.head) hj'core
    have hne' : i' ≠ j' := by
      rintro rfl
      exact hne (wf'.eq_of_core_eq (wf'.hasItem_of_canonical hB hi)
        (wf'.hasItem_of_canonical hB hj) (hi'core.symm.trans hj'core))
    apply hslr.reduceReduce A hA i' hi' j' hj' x
      ((Item.isComplete_eq_of_core_eq hi'core).trans hicomplete)
      ((Item.isComplete_eq_of_core_eq hj'core).trans hjcomplete) hne'
    rw [hihead, hjhead]
    exact ⟨(follows_iff_of_rules_eq wf wf' h).mpr hix, (follows_iff_of_rules_eq wf wf' h).mpr hjx⟩

section Tables

variable {t t' : Table} {k : Nat} {x : Symbol} {a : Action}

/-- What is asked for in a state is asked for in the same state of the other grammar. -/
theorem asks_numberIn (ht : g.table = .ok t) (ht' : g'.table = .ok t')
    (ha : g.Asks t.sets.follow k x a) : g'.Asks t'.sets.follow
      (g.collection.numberIn g'.collection k) x
      (a.renumber (g.collection.numberIn g'.collection) (g.numberIn g')) := by
  obtain ⟨s, hs, i, hi, ha⟩ := ha
  obtain ⟨s', hs', hsame⟩ := exists_numberIn wf wf' h hs
  obtain ⟨j, hj, hcore⟩ := List.mem_map.mp (hsame.1 (List.mem_map_of_mem hi))
  have hnext := Item.next?_eq_of_core_eq hcore
  refine ⟨s', hs', j, hj, ?_⟩
  cases ha with
  | shift hx hn => exact .shift (hnext.trans hx) (goto?_numberIn wf wf' h hn)
  | accept hx => exact .accept (hnext.trans hx)
  | reduce hx hn hfollow =>
    have hrule : j.production.toRule = i.production.toRule := congrArg Prod.fst hcore
    have hp := wf.mem_productions_of_complete hs hi hx
    have hq := wf'.mem_productions_of_complete hs' hj (hnext.trans hx)
    rw [mem_follow_iff wf.declared (table_ok ht).1, follows_iff_of_rules_eq wf wf' h,
      ← mem_follow_iff wf'.declared (table_ok ht').1, ← hrule] at hfollow
    rw [Action.renumber, ← hrule]
    exact .reduce (hnext.trans hx) (production_numberIn wf wf' hp hn hq hrule) hfollow

section ConflictFree

variable (ht : g.table = .ok t) (hfree : t.conflicts = []) (ht' : g'.table = .ok t')
  (hfree' : t'.conflicts = [])

include ht hfree ht' hfree'

/-- Tables without conflicts agree in every cell. -/
theorem cell_numberIn {row row' : Row} (hrow : t.rows[k]? = some row)
    (hrow' : t'.rows[g.collection.numberIn g'.collection k]? = some row') (x : Symbol) :
    Dictionary.get? row' x = (Dictionary.get? row x).map
      (Action.renumber (g.collection.numberIn g'.collection) (g.numberIn g')) := by
  cases ha : Dictionary.get? row x with
  | some a =>
    have hasks := asks_numberIn wf wf' h ht ht' (wf.asks_of_cell ht hrow ha)
    exact wf'.cell_of_conflictFree ht' hfree' hrow' hasks
  | none =>
    cases hb : Dictionary.get? row' x with
    | none => rfl
    | some b =>
      have hk : k < g.collection.size := by
        rw [Collection.size, ← wf.length_rows ht]
        exact (List.getElem?_eq_some_iff.mp hrow).1
      have hasks := asks_numberIn wf' wf h.symm ht' ht (wf'.asks_of_cell ht' hrow' hb)
      rw [numberIn_numberIn wf wf' h hk] at hasks
      have hcell := wf.cell_of_conflictFree ht hfree hrow hasks
      rw [ha] at hcell
      cases hcell

/-- Codes agree because the symbol of a name is the same in every row. -/
theorem codes_numberIn {row row' : Row} (hrow : t.rows[k]? = some row)
    (hrow' : t'.rows[g.collection.numberIn g'.collection k]? = some row') (name : String) :
    Dictionary.get? row'.codes name = (Dictionary.get? row.codes name).map
      (Code.renumber (g.collection.numberIn g'.collection) (g.numberIn g')) := by
  rw [(wf.named ht hrow).get?_codes (wf.distinct ht hrow),
    (wf'.named ht' hrow').get?_codes (wf'.distinct ht' hrow'),
    cell_numberIn wf wf' h ht hfree ht' hfree' hrow hrow']
  simp only [Option.map_map, Function.comp_def, Action.code_renumber]

theorem table_renumbered :
    t.Renumbered t' (g.collection.numberIn g'.collection) (g.numberIn g') := by
  have hrows : ∀ k < t.rows.length, ∃ row row', t.rows[k]? = some row ∧
      t'.rows[g.collection.numberIn g'.collection k]? = some row' := by
    intro k hk
    have hlt := numberIn_lt wf wf' h (by rwa [wf.length_rows ht] at hk)
    rw [Collection.size, ← wf'.length_rows ht'] at hlt
    exact ⟨_, _, List.getElem?_eq_getElem hk, List.getElem?_eq_getElem hlt⟩
  constructor
  · rw [Table.reductions, Table.reductions, grammar_of_table ht, grammar_of_table ht']
    exact reductions_perm wf wf' h
  · rw [wf.length_rows ht, wf'.length_rows ht']
    exact (collection_renumbered wf wf' h).bijOn
  · intro k hk
    obtain ⟨row, row', hrow, hrow'⟩ := hrows k hk
    exact ⟨row, row', hrow, hrow', cell_numberIn wf wf' h ht hfree ht' hfree' hrow hrow'⟩
  · intro k hk name
    obtain ⟨row, row', hrow, hrow'⟩ := hrows k hk
    have hcodes := codes_numberIn wf wf' h ht hfree ht' hfree' hrow hrow' name
    simpa [Codes.cell?, Table.parser, Table.codes, hrow, hrow'] using hcodes

end ConflictFree

end Tables

end Grammar

end ShiftReduce
