import ShiftReduce.Proofs.Clashes

/-!
The SLR(1) condition.

A grammar is SLR(1) when in every set of the canonical collection the next symbol of the input,
taken against FOLLOW, leaves one thing to do. Filling the rows of a table finds that out cell by
cell; it ends without conflicts exactly if the condition holds.
-/

namespace ShiftReduce

namespace Grammar

/-- In no set of the canonical collection a symbol is both after a dot and in FOLLOW of the head of
a complete item, or in FOLLOW of the heads of two different complete items. -/
structure IsSLR1 (g : Grammar) (follow : String → Symbol → Prop) : Prop where
  shiftReduce : ∀ items, g.Canonical items → ∀ i ∈ items, ∀ j ∈ items, ∀ x,
    i.next? = some x → x.isNonterminal = false → j.isComplete = true →
      ¬ follow j.production.head x
  reduceReduce : ∀ items, g.Canonical items → ∀ i ∈ items, ∀ j ∈ items, ∀ x,
    i.isComplete = true → j.isComplete = true → i ≠ j →
      ¬ (follow i.production.head x ∧ follow j.production.head x)

/-- A nonterminal that stands in a form derived from the synthetic start symbol. -/
def Reachable (g : Grammar) (n : String) : Prop :=
  ∃ left right, g.Derives [.nonterminal Symbol.startName] (left ++ .nonterminal n :: right)

/-- FOLLOW of a nonterminal, by derivations from the synthetic start symbol. -/
def FollowsFromStart (g : Grammar) (n : String) (s : Symbol) : Prop :=
  s.isNonterminal = false ∧ ∃ left right,
    g.Derives [.nonterminal Symbol.startName] (left ++ .nonterminal n :: s :: right)

theorem reachable_start (g : Grammar) : g.Reachable g.start.name :=
  ⟨[], [.endOfInput], derives_of_mem (mem_augmentedProductions.mpr (.inl rfl))⟩

variable {g : Grammar} {t : Table} {follow : Facts} {k n : Nat} {x : Symbol} {a : Action}
  {rule : Rule} {s : ItemSet} {i : Item}

/-- Unless there are useless nonterminals, FOLLOW shows in derivations from the start symbol. -/
theorem follows_iff_followsFromStart (hall : ∀ n ∈ g.heads, g.Reachable n) {name : String} :
    g.Follows name x ↔ g.FollowsFromStart name x := by
  constructor
  · rintro ⟨hx, h, hh, left, right, hder⟩
    rw [names_eq] at hh
    rcases List.mem_cons.mp hh with rfl | hh
    · exact ⟨hx, left, right, hder⟩
    · obtain ⟨l, r, hreach⟩ := hall h hh
      refine ⟨hx, l ++ left, right ++ r, hreach.trans ?_⟩
      simpa using hder.append l r
  · rintro ⟨hx, left, right, hder⟩
    exact ⟨hx, Symbol.startName, List.mem_cons_self, left, right, hder⟩

theorem exists_of_asks_reduce (h : g.Asks follow k x (.reduce n rule)) :
    ∃ s, g.collection.states[k]? = some s ∧ ∃ i ∈ s.items, i.next? = none ∧
      i.production.toRule = rule ∧ (i.production.head, x) ∈ follow := by
  obtain ⟨s, hs, i, hi, hasks⟩ := h
  cases hasks with
  | reduce hx _ hfollow => exact ⟨s, hs, i, hi, hx, rfl, hfollow⟩

theorem exists_of_asks (h : g.Asks follow k x a) (hgo : a.isReduction = false) :
    ∃ s, g.collection.states[k]? = some s ∧ ∃ i ∈ s.items, i.next? = some x := by
  obtain ⟨s, hs, i, hi, hasks⟩ := h
  cases hasks with
  | shift hx _ => exact ⟨s, hs, i, hi, hx⟩
  | accept hx => exact ⟨s, hs, i, hi, hx⟩
  | reduce => cases hgo

namespace WellFormed

variable (wf : g.WellFormed)

include wf

omit wf in
/-- An item with a symbol after the dot asks for a shift or for acceptance. -/
theorem exists_asks (follow : Facts) (hs : g.collection.states[k]? = some s) (hi : i ∈ s.items)
    (hx : i.next? = some x) : ∃ a, g.Asks follow k x a ∧ a.isReduction = false := by
  by_cases hend : x = .endOfInput
  · subst hend
    exact ⟨.accept, ⟨s, hs, i, hi, .accept hx⟩, rfl⟩
  · obtain ⟨n, hn⟩ := exists_goto? hs ⟨i, hi, hx⟩ hend
    exact ⟨.shift n, ⟨s, hs, i, hi, .shift hx hn⟩, rfl⟩

/-- A complete item asks for its reduction on FOLLOW of the head. -/
theorem exists_asks_reduce (hs : g.collection.states[k]? = some s) (hi : i ∈ s.items)
    (hx : i.next? = none) (hfollow : (i.production.head, x) ∈ follow) :
    ∃ n, g.Asks follow k x (.reduce n i.production.toRule) := by
  obtain ⟨n, hn⟩ := wf.exists_number (wf.mem_productions_of_complete hs hi hx)
  exact ⟨n, s, hs, i, hi, .reduce hx hn hfollow⟩

/-- Without conflicts no symbol after a dot is in FOLLOW of a complete item's head. -/
theorem not_follow_of_conflictFree {j : Item} (ht : g.table = .ok t) (hfree : t.conflicts = [])
    (hs : s ∈ g.collection.states) (hi : i ∈ s.items) (hj : j ∈ s.items) (hx : i.next? = some x)
    (hcomplete : j.isComplete = true) : ¬ g.Follows j.production.head x := by
  intro hfollow
  obtain ⟨k, hk⟩ := List.mem_iff_getElem?.mp hs
  have hmem := (mem_follow_iff wf.declared (table_ok ht).1).mpr hfollow
  obtain ⟨a, ha, hgo⟩ := exists_asks t.sets.follow hk hi hx
  obtain ⟨n, hn⟩ := wf.exists_asks_reduce hk hj ((wf.complete_iff hk hj).mpr hcomplete) hmem
  have hconflict := (wf.mem_conflicts_iff ht ⟨k, x, a, j.production.toRule⟩).mpr ⟨hgo, ha, n, hn⟩
  simp [hfree] at hconflict

theorem isSLR1_of_conflictFree (ht : g.table = .ok t) (hfree : t.conflicts = []) :
    g.IsSLR1 g.Follows := by
  constructor
  · intro items hitems i hi j hj x hx _ hcomplete
    obtain ⟨s, hs, rfl⟩ := wf.canonical_iff.mp hitems
    exact wf.not_follow_of_conflictFree ht hfree hs hi hj hx hcomplete
  · rintro items hitems i hi j hj x hicomplete hjcomplete hne ⟨hix, hjx⟩
    obtain ⟨s, hs, rfl⟩ := wf.canonical_iff.mp hitems
    have hrivals : s.Rivals g.Follows i j x := ⟨hi, hj, hne, hicomplete, hjcomplete, hix, hjx⟩
    -- No shift hides the second reduction from the first.
    have hnext : ∀ k ∈ s.items, k.next? ≠ some x := by
      intro k hk hx
      exact wf.not_follow_of_conflictFree ht hfree hs hk hj hx hjcomplete hjx
    rcases hrivals.meet hnext with hmeet | hmeet
    · exact wf.not_meet_of_table ht hs hrivals hmeet
    · exact wf.not_meet_of_table ht hs hrivals.symm hmeet

theorem conflictFree_of_isSLR1 (h : g.IsSLR1 g.Follows) :
    ∃ t, g.table = .ok t ∧ t.conflicts = [] := by
  cases ht : g.table with
  | error e =>
    obtain ⟨-, k, s, i, j, x, -, hs, hrivals, -⟩ := wf.exists_meet_of_table_error ht
    have hcanonical := wf.canonical_iff.mpr ⟨s, List.mem_of_getElem? hs, rfl⟩
    have hnot := h.reduceReduce _ hcanonical i hrivals.left_mem j hrivals.right_mem x
      hrivals.left_complete hrivals.right_complete hrivals.ne
    exact absurd ⟨hrivals.left_follow, hrivals.right_follow⟩ hnot
  | ok t =>
    refine ⟨t, rfl, List.eq_nil_iff_forall_not_mem.mpr ?_⟩
    intro c hc
    obtain ⟨hgo, ha, n, hn⟩ := (wf.mem_conflicts_iff ht c).mp hc
    obtain ⟨s, hs, i, hi, hix⟩ := exists_of_asks ha hgo
    obtain ⟨s', hs', j, hj, hjx, -, hjfollow⟩ := exists_of_asks_reduce hn
    obtain rfl : s = s' := Option.some.inj (hs.symm.trans hs')
    have hcanonical := wf.canonical_iff.mpr ⟨s, List.mem_of_getElem? hs, rfl⟩
    have hjcomplete := (wf.complete_iff hs hj).mp hjx
    have hx := (mem_follow_iff wf.declared (table_ok ht).1).mp hjfollow
    exact h.shiftReduce _ hcanonical i hi j hj c.symbol hix hx.1 hjcomplete hx

theorem conflictFree_iff :
    (∃ t, g.table = .ok t ∧ t.conflicts = []) ↔ g.IsSLR1 g.Follows := by
  constructor
  · rintro ⟨t, ht, hfree⟩
    exact wf.isSLR1_of_conflictFree ht hfree
  · exact wf.conflictFree_of_isSLR1

end WellFormed

end Grammar

/-- A mapping is given a table without conflicts exactly if its grammar is SLR(1). FOLLOW looks at
the productions of every nonterminal; it is that of the derivations from the start when none of
them is useless. -/
theorem Source.table_conflictFree_iff {d : Datum} {g : Grammar}
    (h : (Source.written d).load = .ok g) :
    ((∃ t, (Source.written d).table = .ok t ∧ t.conflicts = []) ↔ g.IsSLR1 g.Follows) ∧
    ((∀ n ∈ g.heads, g.Reachable n) →
      ((∃ t, (Source.written d).table = .ok t ∧ t.conflicts = []) ↔
        g.IsSLR1 g.FollowsFromStart)) := by
  have hiff : (∃ t, (Source.written d).table = .ok t ∧ t.conflicts = []) ↔
      g.IsSLR1 g.Follows := by
    rw [← (Source.load_wellFormed h).conflictFree_iff]
    exact exists_congr fun t => and_congr_left' (Source.table_eq_ok h)
  refine ⟨hiff, fun hall => hiff.trans ?_⟩
  have hfollow : g.Follows = g.FollowsFromStart := by
    ext name x
    exact Grammar.follows_iff_followsFromStart hall
  rw [hfollow]

theorem Source.balanced_isSLR1 : ∃ g, (Source.written balanced).load = .ok g ∧
    g.IsSLR1 g.Follows ∧ g.IsSLR1 g.FollowsFromStart := by
  have h : Except.passes (fun g => decide (g.others = [])) (Source.written balanced).load = true :=
    by decide +kernel
  obtain ⟨g, hg, hothers⟩ := Except.exists_of_passes h
  have hstart : ∀ n ∈ g.heads, g.Reachable n := by
    intro n hn
    have hn : n = g.start.name := by
      simpa [Grammar.heads, Grammar.nonterminals, of_decide_eq_true hothers] using hn
    rw [hn]
    exact g.reachable_start
  obtain ⟨hall, hreachable⟩ := Source.table_conflictFree_iff hg
  exact ⟨g, hg, hall.mp Source.balanced_table, (hreachable hstart).mp Source.balanced_table⟩

end ShiftReduce
