import Mathlib.Data.List.Basic
import ShiftReduce.Proofs.Clashes

/-!
The clash that is told.

Filling a table goes through the states, through the items of each in order, and for a complete item
through FOLLOW of its head by name. So it ends in the first state in which rivals meet, at the first
item that is refused there, and on the least symbol on which it is. The rule told first is that of
the one item that can have taken the cell: two of them would have clashed before.
-/

namespace ShiftReduce

namespace ItemSet

variable {follow : String → Symbol → Prop} {s : ItemSet} {i j : Item} {x : Symbol}
  {before after : List Item}

/-- An item comes before another in the order of a set. -/
def Precedes (s : ItemSet) (i j : Item) : Prop :=
  ∃ before after, s.items = before ++ j :: after ∧ i ∈ before

/-- A complete item meets a rival in a cell, which comes before it. -/
def Refuses (follow : String → Symbol → Prop) (s : ItemSet) (j : Item) (x : Symbol) : Prop :=
  ∃ i, s.Rivals follow i j x ∧ s.Meet i j x

theorem eq_or_precedes (hi : i ∈ s.items) (hj : j ∈ s.items) :
    i = j ∨ s.Precedes i j ∨ s.Precedes j i := by
  obtain ⟨before, after, hitems⟩ := List.append_of_mem hj
  rw [hitems, List.mem_append, List.mem_cons] at hi
  rcases hi with hi | rfl | hi
  · exact .inr (.inl ⟨before, after, hitems, hi⟩)
  · exact .inl rfl
  · obtain ⟨between, rest, rfl⟩ := List.append_of_mem hi
    exact .inr (.inr ⟨before ++ j :: between, rest, by simp [hitems], by simp⟩)

/-- An item has one place in a set that holds nothing twice. -/
theorem eq_of_split {before' after' : List Item} (hs : s.items.Nodup)
    (h : s.items = before ++ j :: after) (h' : s.items = before' ++ j :: after') :
    before = before' := by
  rw [h] at h'
  rw [h, List.nodup_middle, List.nodup_cons, List.mem_append, not_or] at hs
  exact ((List.append_cons_inj_of_notMem hs.1.1 hs.1.2).mp h').1

theorem meet_iff (hs : s.items.Nodup) (hitems : s.items = before ++ j :: after) :
    s.Meet i j x ↔ i ∈ before ∧ ∀ k ∈ before, k.next? ≠ some x := by
  constructor
  · rintro ⟨before', after', hitems', hmeet⟩
    rwa [eq_of_split hs hitems hitems']
  · exact fun hmeet => ⟨before, after, hitems, hmeet⟩

end ItemSet

/-- When an item of a state comes to be placed, a cell holds the reduction by a rule. -/
def Grammar.HeldAt (g : Grammar) (state : Nat) (s : ItemSet) (j : Item) (x : Symbol)
    (rule : Rule) : Prop :=
  ∃ sets rows recorded transitions before after f n, g.sets = .ok sets ∧
    fillRows sets 0 [] ((g.collection.states.zip g.collection.transitions).take state) =
      .ok (rows, recorded) ∧
    g.collection.transitions[state]? = some transitions ∧ s.items = before ++ j :: after ∧
    before.foldlM (Filling.place sets transitions state) ⟨[], recorded⟩ = .ok f ∧
    Dictionary.get? f.row x = some (.reduce n rule)

/-- The clash of two items of a state, which comes before all others. -/
structure Grammar.FirstClash (g : Grammar) (c : Clash) (s : ItemSet) (i j : Item) : Prop where
  state : g.collection.states[c.state]? = some s
  rivals : s.Rivals g.Follows i j c.symbol
  meet : s.Meet i j c.symbol
  kept : c.kept = i.production.toRule
  refused : c.refused = j.production.toRule
  leastState : ∀ k < c.state, ∀ t, g.collection.states[k]? = some t →
    ∀ l x, ¬ t.Refuses g.Follows l x
  earliest : ∀ l x, s.Refuses g.Follows l x → ¬ s.Precedes l j
  leastSymbol : ∀ x, s.Refuses g.Follows j x → c.symbol = x ∨ c.symbol < x
  only : ∀ l, s.Rivals g.Follows l j c.symbol → s.Meet l j c.symbol → l = i
  held : g.HeldAt c.state s j c.symbol c.kept

namespace Grammar

variable {g : Grammar} {sets : Sets} {c c' : Clash} {s s' : ItemSet} {i j i' j' : Item}
  {x : Symbol} {k : Nat} {transitions : Transitions} {recorded : List Conflict} {f : Filling}
  {before after : List Item}

theorem FirstClash.refuses (h : g.FirstClash c s i j) : s.Refuses g.Follows j c.symbol :=
  ⟨i, h.rivals, h.meet⟩

theorem FirstClash.state_le (h : g.FirstClash c s i j) (h' : g.FirstClash c' s' i' j') :
    c.state ≤ c'.state :=
  Nat.le_of_not_lt fun hlt => h.leastState _ hlt _ h'.state _ _ h'.refuses

/-- There is one first clash. -/
theorem FirstClash.eq (h : g.FirstClash c s i j) (h' : g.FirstClash c' s' i' j') : c = c' := by
  obtain ⟨state, x, kept, refused⟩ := c
  obtain ⟨state', x', kept', refused'⟩ := c'
  obtain rfl : state = state' := Nat.le_antisymm (h.state_le h') (h'.state_le h)
  obtain rfl : s = s' := Option.some.inj (h.state.symm.trans h'.state)
  obtain rfl : j = j' := by
    rcases ItemSet.eq_or_precedes h.rivals.right_mem h'.rivals.right_mem with heq | hlt | hlt
    · exact heq
    · exact absurd hlt (h'.earliest _ _ h.refuses)
    · exact absurd hlt (h.earliest _ _ h'.refuses)
  obtain rfl : x = x' := by
    rcases h.leastSymbol _ h'.refuses with heq | hlt
    · exact heq
    · rcases h'.leastSymbol _ h.refuses with heq | hgt
      · exact heq.symm
      · exact absurd hgt (String.lt_asymm hlt)
  obtain rfl : i' = i := h.only _ h'.rivals h'.meet
  obtain rfl : kept = _ := h.kept
  obtain rfl : refused = _ := h.refused
  obtain rfl : kept' = _ := h'.kept
  obtain rfl : refused' = _ := h'.refused
  rfl

namespace WellFormed

variable (wf : g.WellFormed)

include wf

omit wf in
theorem nodup_items (hs : g.collection.states[k]? = some s) : s.items.Nodup :=
  (g.collection_explored.1.reached s (List.mem_of_getElem? hs)).nodup_cores.of_map

/-- What stands in FOLLOW is what its name says. -/
theorem ofName_name_of_follows {n : String} (h : g.Follows n x) : Symbol.ofName x.name = x := by
  obtain ⟨sets, hsets⟩ := exists_sets wf.declared
  have hfact := (mem_follow_iff wf.declared hsets).mpr h
  rcases List.mem_cons.mp ((follow_within hsets).mem _ hfact).2 with rfl | hx
  · exact Symbol.ofName_epsilonName
  · obtain ⟨p, hp, hx⟩ := List.mem_flatMap.mp hx
    by_cases hepsilon : x = .epsilon
    · subst hepsilon
      exact Symbol.ofName_epsilonName
    · exact wf.ofName_name_of_mem_reducedBody hp
        (List.mem_filter.mpr ⟨hx, by simpa using hepsilon⟩)

/-- Among the items of a state that have been placed none is refused. -/
theorem not_refuses_of_placed (hsets : g.sets = .ok sets)
    (hs : g.collection.states[k]? = some s) (hrow : g.collection.transitions[k]? = some transitions)
    (hitems : s.items = before ++ after)
    (hf : before.foldlM (Filling.place sets transitions k) ⟨[], recorded⟩ = .ok f)
    (hj : j ∈ before) : ¬ s.Refuses g.Follows j x := by
  rintro ⟨i, hrivals, hmeet⟩
  obtain ⟨first, rest, rfl⟩ := List.append_of_mem hj
  have hsplit : s.items = first ++ j :: (rest ++ after) := by simp [hitems]
  have hcontests := (wf.contests_iff hsets hs hsplit).mpr
    ⟨hrivals, (ItemSet.meet_iff (nodup_items hs) hsplit).mp hmeet⟩
  have hfront : first ++ j :: rest = (first ++ [j]) ++ rest := by simp
  rw [hfront] at hf
  obtain ⟨u, hu, -⟩ := foldlM_append_eq_ok.mp hf
  exact (wf.placeable_of_state hsets hs hrow).not_contests hsplit hu hcontests

/-- Where filling the rows ends, there is the first clash. -/
theorem firstClash_of_endsIn (hsets : g.sets = .ok sets)
    (h : g.EndsIn sets c s before i j) : g.FirstClash c s i j := by
  obtain ⟨after, hitems⟩ := h.items
  obtain ⟨rows, recorded, transitions, f, n, hrows, hrow, hf, hcell⟩ := h.filled
  have hnodup := nodup_items h.state
  have hp := wf.placeable_of_state hsets h.state hrow
  have hmeet : ∀ {l y}, s.Meet l j y ↔ l ∈ before ∧ ∀ k ∈ before, k.next? ≠ some y :=
    ItemSet.meet_iff hnodup hitems
  have hcontests : ∀ {l y}, s.Rivals g.Follows l j y → s.Meet l j y →
      Item.Contests sets.follow before l j y :=
    fun hrivals hmeets => (wf.contests_iff hsets h.state hitems).mpr ⟨hrivals, hmeet.mp hmeets⟩
  obtain ⟨hrivals, hbefore⟩ := (wf.contests_iff hsets h.state hitems).mp h.contests
  refine ⟨h.state, hrivals, hmeet.mpr hbefore, h.kept, h.refused, ?_, ?_, ?_, ?_, ?_⟩
  · intro k hk t ht l y hrefuses
    obtain ⟨transitions', hrow', hentry⟩ := exists_entry ht
    have htake : ((g.collection.states.zip g.collection.transitions).take c.state)[k]? =
        some (t, transitions') := by rwa [List.getElem?_take_of_lt hk]
    obtain ⟨recorded', f', hf'⟩ := exists_of_fillRows_ok hrows htake
    rw [Nat.zero_add] at hf'
    have hl : l ∈ t.items := by
      obtain ⟨_, hrivals', -⟩ := hrefuses
      exact hrivals'.right_mem
    exact wf.not_refuses_of_placed hsets ht hrow' (List.append_nil _).symm hf' hl hrefuses
  · rintro l y hrefuses ⟨before', after', hitems', hl⟩
    obtain rfl := ItemSet.eq_of_split hnodup hitems hitems'
    exact wf.not_refuses_of_placed hsets h.state hrow hitems hf hl hrefuses
  · rintro y ⟨l, hrivals', hmeets⟩
    have hle := h.least l y (hcontests hrivals' hmeets)
    by_cases heq : c.symbol = y
    · exact .inl heq
    · refine .inr (String.not_le.mp fun hge => heq ?_)
      rw [← wf.ofName_name_of_follows hrivals.right_follow, String.le_antisymm hle hge,
        wf.ofName_name_of_follows hrivals'.right_follow]
  · intro l hrivals' hmeets
    have hl := hcontests hrivals' hmeets
    have hrule := hp.rule_eq_of_placed hitems hf h.contests.next hl.mem h.contests.mem
      hl.left_complete h.contests.left_complete hl.left_follow h.contests.left_follow
    exact wf.eq_of_complete (wf.hasItem_of_state h.state hrivals'.left_mem)
      (wf.hasItem_of_state h.state hrivals.left_mem) hl.left_complete h.contests.left_complete hrule
  · exact ⟨sets, rows, recorded, transitions, before, after, f, n, hsets, hrows, hrow, hitems, hf,
      hcell⟩

end WellFormed

end Grammar

namespace Source

variable {d : Datum} {g : Grammar}

/-- The clash that a mapping ends in is the first one. -/
theorem firstClash_of_clash? {c : Clash} (h : (written d).load = .ok g)
    (hc : (written d).clash? = some c) : ∃ s i j, g.FirstClash c s i j := by
  have wf := load_wellFormed h
  have heq := table_eq h
  cases ht : g.table with
  | ok t => simp [clash?, heq, ht, Except.mapError] at hc
  | error e =>
    obtain ⟨sets, ⟨state, recorded, obstacle⟩, c', s, before, i, j, hsets, rfl, hobstacle, hends⟩ :=
      wf.exists_endsIn_of_table_error ht
    obtain rfl : obstacle = _ := hobstacle
    obtain rfl : c' = c := by
      simpa [clash?, heq, ht, Except.mapError, BuildError.clash?] using hc
    exact ⟨s, i, j, wf.firstClash_of_endsIn hsets hends⟩

end Source

/-- Making the table of a mapping ends in a clash exactly if an item of some state is refused on a
symbol. The clash that is told is the first one: that of the least state, of the earliest item
there, and on the least symbol. -/
theorem Source.clash_iff_firstClash {d : Datum} {g : Grammar}
    (h : (Source.written d).load = .ok g) :
    ((∃ c, (Source.written d).clash? = some c) ↔
      ∃ s ∈ g.collection.states, ∃ j x, s.Refuses g.Follows j x) ∧
    ∀ c, (Source.written d).clash? = some c ↔ ∃ s i j, g.FirstClash c s i j := by
  have hclash : ∀ s ∈ g.collection.states, ∀ j x, s.Refuses g.Follows j x →
      ∃ c, (Source.written d).clash? = some c := by
    rintro s hs j x ⟨i, hrivals, hmeet⟩
    rcases table_or_clash h with ⟨t, ht, -⟩ | ⟨k, s', i', j', y, -, -, -, -, hclash⟩
    · exact absurd hmeet ((load_wellFormed h).not_meet_of_table ht hs hrivals)
    · exact ⟨_, hclash⟩
  refine ⟨⟨?_, ?_⟩, fun c => ⟨firstClash_of_clash? h, ?_⟩⟩
  · rintro ⟨c, hc⟩
    obtain ⟨s, i, j, hfirst⟩ := firstClash_of_clash? h hc
    exact ⟨s, List.mem_of_getElem? hfirst.state, j, c.symbol, hfirst.refuses⟩
  · rintro ⟨s, hs, j, x, hrefuses⟩
    exact hclash s hs j x hrefuses
  · rintro ⟨s, i, j, hfirst⟩
    obtain ⟨c', hc'⟩ := hclash s (List.mem_of_getElem? hfirst.state) j c.symbol hfirst.refuses
    obtain ⟨s', i', j', hfirst'⟩ := firstClash_of_clash? h hc'
    rw [hfirst.eq hfirst', hc']

set_option maxRecDepth 100000 in
/-- With the longer alternative last, the second of two names for one token is refused before the
token behind it. -/
theorem Source.covered_firstClash : ∃ g,
    (Source.written (covered ["A t", "B t", "C"])).load = .ok g ∧
    ∃ s i j, g.FirstClash ⟨5, .token "t", ⟨"A", [.token "x"]⟩, ⟨"B", [.token "x"]⟩⟩ s i j := by
  have h : Except.passes (fun _ => decide ((Source.written (covered ["A t", "B t", "C"])).clash? =
      some ⟨5, .token "t", ⟨"A", [.token "x"]⟩, ⟨"B", [.token "x"]⟩⟩))
      (Source.written (covered ["A t", "B t", "C"])).load = true := by
    decide +kernel
  obtain ⟨g, hg, hclash⟩ := Except.exists_of_passes h
  exact ⟨g, hg, ((Source.clash_iff_firstClash hg).2 _).mp (of_decide_eq_true hclash)⟩

end ShiftReduce
