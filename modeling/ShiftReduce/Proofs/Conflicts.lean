import ShiftReduce.Proofs.Contents

/-!
The conflicts of a table, each of them recorded once.

A conflict is recorded when a shift or acceptance takes the cell of a reduction, or when a reduction
finds its cell taken. No pair is recorded in both ways or again: once a shift or acceptance has been
asked for, its cell never holds a reduction, and a complete item asks for its reduction on a symbol
only once.
-/

namespace ShiftReduce

/-- The reductions among some requests. -/
def reductionsOf (requests : List Request) : List Request :=
  requests.filter fun r => r.2.isReduction

namespace Filling

variable {state : Nat} {before : List Conflict} {requests : List Request} {f t : Filling}
  {x : Symbol} {a : Action} {n : Nat} {rule : Rule}

/-- A conflict is new when it is not one of the state's requests so far. -/
theorem Filled.nodup_concat (h : Filled state before requests f)
    (hbefore : ∀ c ∈ before, c.state ≠ state) (hnodup : f.conflicts.Nodup) {c : Conflict}
    (hstate : c.state = state) (hnew : ¬ c.Among state requests) : (f.conflicts ++ [c]).Nodup := by
  rw [← List.concat_eq_append]
  refine hnodup.concat fun hmem => ?_
  rcases (h.conflicts c).mp hmem with hmem | hamong
  · exact hbefore c hmem hstate
  · exact hnew hamong

theorem Filled.nodup_put (h : Filled state before requests f)
    (hbefore : ∀ c ∈ before, c.state ≠ state) (hnodup : f.conflicts.Nodup)
    (hgo : a.isReduction = false) : (f.put state x a).conflicts.Nodup := by
  unfold Filling.put
  simp only
  split
  · rename_i m kept hcell
    refine h.nodup_concat hbefore hnodup rfl fun hamong => ?_
    -- Had the action been asked for before, the cell would hold it.
    rw [h.answers.preferred x a hamong.preferred hgo] at hcell
    cases hcell
    cases hgo
  · exact hnodup

theorem Filled.nodup_reduceOn (h : Filled state before requests f)
    (hbefore : ∀ c ∈ before, c.state ≠ state) (hnodup : f.conflicts.Nodup)
    (hc : Consistent (requests ++ [(x, .reduce n rule)])) (hnew : (x, .reduce n rule) ∉ requests)
    (ht : f.reduceOn state n rule x = .ok t) : t.conflicts.Nodup := by
  rcases reduceOn_ok ht with ⟨-, rfl⟩ | ⟨m, -, rfl⟩ | ⟨b, -, -, rfl⟩
  · exact hnodup
  · exact hnodup
  · refine h.nodup_concat hbefore hnodup rfl fun hamong => ?_
    obtain ⟨m, hm⟩ := hamong.refused
    obtain rfl : m = n := hc.number x m n rule (List.mem_append_left _ hm) (by simp)
    exact hnew hm

theorem Filled.nodup_ask {r : Request} (h : Filled state before requests f)
    (hbefore : ∀ c ∈ before, c.state ≠ state) (hnodup : f.conflicts.Nodup)
    (hc : Consistent (requests ++ [r])) (hnew : r.2.isReduction = true → r ∉ requests)
    (ht : f.ask state r = .ok t) : t.conflicts.Nodup := by
  obtain ⟨x, a⟩ := r
  cases a with
  | reduce n rule => exact h.nodup_reduceOn hbefore hnodup hc (hnew rfl) ht
  | shift m =>
    cases ht
    exact h.nodup_put hbefore hnodup rfl
  | accept =>
    cases ht
    exact h.nodup_put hbefore hnodup rfl

/-- No conflict is recorded twice while every reduction is asked for once. -/
theorem Filled.nodup_foldlM {more : List Request} (h : Filled state before requests f)
    (hbefore : ∀ c ∈ before, c.state ≠ state) (hnodup : f.conflicts.Nodup)
    (hc : Consistent (requests ++ more)) (honce : (reductionsOf (requests ++ more)).Nodup)
    (ht : more.foldlM (Filling.ask state) f = .ok t) : t.conflicts.Nodup := by
  induction more generalizing requests f with
  | nil =>
    cases ht
    exact hnodup
  | cons r rest ih =>
    obtain ⟨u, hu, hrest⟩ := foldlM_cons_eq_ok.mp ht
    have happend : requests ++ r :: rest = (requests ++ [r]) ++ rest := by simp
    have hnew : r.2.isReduction = true → r ∉ requests := by
      intro hred hmem
      rw [reductionsOf, List.filter_append] at honce
      have hdisjoint := (List.nodup_append.mp honce).2.2
      exact hdisjoint r (List.mem_filter.mpr ⟨hmem, hred⟩) r
        (List.mem_filter.mpr ⟨List.mem_cons_self, hred⟩) rfl
    rw [happend] at hc honce
    have hu' := h.nodup_ask hbefore hnodup hc.of_append hnew hu
    exact ih (h.ask hc.of_append hu) hu' hc honce hrest

end Filling

/-- Filling the rows records no conflict twice: those of one state are different, and they are not
those of the states before it. -/
theorem nodup_of_fillRows {s : Sets} {state : Nat} {before conflicts : List Conflict}
    {rows : List Row} {entries : List (ItemSet × Transitions)}
    (hp : ∀ entry ∈ entries, ItemSet.Placeable s entry)
    (honce : ∀ entry ∈ entries, (reductionsOf (entry.1.requests s entry.2)).Nodup)
    (hbefore : ∀ c ∈ before, c.state < state) (hnodup : before.Nodup)
    (h : fillRows s state before entries = .ok (rows, conflicts)) : conflicts.Nodup := by
  induction entries generalizing state before rows with
  | nil =>
    cases h
    exact hnodup
  | cons entry rest ih =>
    obtain ⟨items, transitions⟩ := entry
    have hentry := hp _ List.mem_cons_self
    obtain ⟨f, more, hf, hrest, rfl⟩ := fillRows_cons_ok h
    rw [foldlM_place hentry.items] at hf
    have hstart := Filling.Filled.nil state before
    have hfilled := hstart.foldlM hentry.consistent hf
    have hdiffer : ∀ c ∈ before, c.state ≠ state := fun c hc => Nat.ne_of_lt (hbefore c hc)
    refine ih (fun entry he => hp entry (List.mem_cons_of_mem _ he))
      (fun entry he => honce entry (List.mem_cons_of_mem _ he)) ?_ ?_ hrest
    · intro c hc
      rcases (hfilled.conflicts c).mp hc with hc | hamong
      · exact Nat.lt_succ_of_lt (hbefore c hc)
      · exact hamong.state_eq ▸ Nat.lt_succ_self _
    · exact hstart.nodup_foldlM hdiffer hnodup hentry.consistent
        (honce _ List.mem_cons_self) hf

theorem Facts.nodup_of {f : Facts} (h : f.Nodup) (name : String) : (f.of name).Nodup := by
  apply h.filterMap
  rintro ⟨n, s⟩ ⟨n', s'⟩ t ht ht'
  simp only [Option.mem_def, Option.ite_none_right_eq_some, Option.some.injEq] at ht ht'
  obtain ⟨rfl, rfl⟩ := ht
  obtain ⟨rfl, rfl⟩ := ht'
  rfl

/-- An item asks for no cell twice. -/
theorem Item.nodup_requests {s : Sets} (hs : s.follow.Nodup) (transitions : Transitions)
    (i : Item) : (i.requests s transitions).Nodup := by
  unfold Item.requests
  split
  · split
    · exact List.nodup_nil
    · refine List.Nodup.map (fun x y hxy => congrArg Prod.fst hxy) ?_
      exact (Symbol.sort_perm _).nodup_iff.mpr (Facts.nodup_of hs _)
  · exact List.nodup_singleton _
  · split
    · exact List.nodup_singleton _
    · exact List.nodup_nil

namespace Grammar.WellFormed

variable {g : Grammar} {t : Table} {k : Nat} {s : ItemSet} {x : Symbol} {rule : Rule}
  (wf : g.WellFormed)

include wf

/-- The items of a set that is met ask for every reduction once. -/
theorem nodup_reductionsOf {sets : Sets} (hsets : g.sets = .ok sets) (hs : g.Reached s)
    (transitions : Transitions) : (reductionsOf (s.requests sets transitions)).Nodup := by
  have hfollow := (follow_within hsets).nodup
  have hitem := wf.within_of_reached hs
  rw [reductionsOf, ItemSet.requests, List.filter_flatMap, List.nodup_flatMap]
  refine ⟨fun i _ => (Item.nodup_requests hfollow transitions i).filter _, ?_⟩
  have hcores := hs.nodup_cores
  rw [ItemSet.cores, List.Nodup, List.pairwise_map] at hcores
  refine hcores.imp_of_mem ?_
  rintro i j hi hj hne ⟨x, a⟩ hmem hmem'
  obtain ⟨hmem, hred⟩ := List.mem_filter.mp hmem
  obtain ⟨hmem', -⟩ := List.mem_filter.mp hmem'
  cases a with
  | reduce n rule =>
    obtain ⟨hix, -, hrule⟩ := Item.mem_requests_reduce hmem
    obtain ⟨hjx, -, hrule'⟩ := Item.mem_requests_reduce hmem'
    have heq := wf.eq_of_complete (hitem i hi) (hitem j hj) hix hjx (hrule.symm.trans hrule')
    exact hne (congrArg Item.core heq)
  | _ => cases hred

theorem nodup_conflicts (ht : g.table = .ok t) : t.conflicts.Nodup := by
  obtain ⟨hsets, -, hrows⟩ := table_ok ht
  refine nodup_of_fillRows (wf.placeable hsets) ?_ (by simp) List.nodup_nil hrows
  intro entry hentry
  have hs := (List.of_mem_zip hentry).1
  exact wf.nodup_reductionsOf hsets (g.collection_explored.1.reached _ hs) _

end Grammar.WellFormed

/-- In a state the rule of a complete item, by a symbol of FOLLOW of its head that is also after a
dot. -/
def Table.Disputed (t : Table) (k : Nat) (x : Symbol) (rule : Rule) : Prop :=
  ∃ s, t.collection.states[k]? = some s ∧ (∃ j ∈ s.items, j.next? = some x) ∧
    ∃ i, s.Completes t.grammar.Follows x i ∧ i.production.toRule = rule

namespace Grammar.WellFormed

variable {g : Grammar} {t : Table} {k : Nat} {row : Row} {x : Symbol} {rule : Rule} {c : Conflict}
  {a : Action} (wf : g.WellFormed) (ht : g.table = .ok t)

include wf ht

theorem disputed_of_mem_conflicts (hc : c ∈ t.conflicts) :
    t.Disputed c.state c.symbol c.rule := by
  obtain ⟨hsets, hcollection, -⟩ := table_ok ht
  obtain ⟨hgo, hkept, n, hrefused⟩ := (wf.mem_conflicts_iff ht c).mp hc
  obtain ⟨s, hs, i, hi, hix, hrule, hfollow⟩ := exists_of_asks_reduce hrefused
  refine ⟨s, hcollection ▸ hs, exists_next_of_asks hs hkept hgo, i, ⟨hi, ?_, ?_⟩, hrule⟩
  · exact (wf.complete_iff hs hi).mp hix
  · rw [grammar_of_table ht]
    exact (mem_follow_iff wf.declared hsets).mp hfollow

/-- What a conflict keeps is what the cell holds in the end. -/
theorem action_of_mem_conflicts (hc : c ∈ t.conflicts) (hrow : t.rows[c.state]? = some row) :
    Dictionary.get? row c.symbol = some c.action := by
  obtain ⟨hgo, hkept, -⟩ := (wf.mem_conflicts_iff ht c).mp hc
  exact wf.cell_of_asks ht hrow hkept hgo

/-- Whatever is disputed is in conflict with a shift to the goto, or with acceptance. -/
theorem exists_conflict (h : t.Disputed k x rule) :
    ∃ a, (⟨k, x, a, rule⟩ : Conflict) ∈ t.conflicts ∧ (x = .endOfInput → a = .accept) ∧
      (x ≠ .endOfInput → ∃ n, t.collection.goto? k x = some n ∧ a = .shift n) := by
  obtain ⟨hsets, hcollection, -⟩ := table_ok ht
  obtain ⟨s, hs, ⟨j, hj, hjx⟩, i, ⟨hi, hcomplete, hfollow⟩, rfl⟩ := h
  rw [grammar_of_table ht] at hfollow
  rw [hcollection] at hs ⊢
  have hfact := (mem_follow_iff wf.declared hsets).mpr hfollow
  obtain ⟨n, hrefused⟩ := wf.exists_asks_reduce hs hi ((wf.complete_iff hs hi).mpr hcomplete) hfact
  obtain ⟨a, hkept, hgo⟩ := exists_asks t.sets.follow hs hj hjx
  refine ⟨a, (wf.mem_conflicts_iff ht _).mpr ⟨hgo, hkept, n, hrefused⟩, ?_, ?_⟩
  · rintro rfl
    obtain ⟨_, _, l, _, hasks⟩ := hkept
    cases hasks with
    | shift _ hn => simp [wf.goto?_endOfInput] at hn
    | accept => rfl
    | reduce => cases hgo
  · intro hne
    obtain ⟨_, _, l, _, hasks⟩ := hkept
    cases hasks with
    | shift _ hn => exact ⟨_, hn, rfl⟩
    | accept => exact absurd rfl hne
    | reduce => cases hgo

/-- There is one conflict for a rule and a symbol that it is disputed by. -/
theorem filter_conflicts (hrow : t.rows[k]? = some row) (hcell : Dictionary.get? row x = some a)
    (hmem : (⟨k, x, a, rule⟩ : Conflict) ∈ t.conflicts) :
    t.conflicts.filter (fun c => c.state = k ∧ c.symbol = x ∧ c.rule = rule) =
      [⟨k, x, a, rule⟩] := by
  have hnodup := wf.nodup_conflicts ht
  apply List.perm_singleton.mp
  apply (List.perm_ext_iff_of_nodup (hnodup.filter _) (List.nodup_singleton _)).mpr
  rintro ⟨state, symbol, action, refused⟩
  rw [List.mem_filter, List.mem_singleton, decide_eq_true_eq]
  constructor
  · rintro ⟨hc, rfl, rfl, rfl⟩
    have haction := wf.action_of_mem_conflicts ht hc hrow
    obtain rfl : action = a := Option.some.inj (haction.symm.trans hcell)
    rfl
  · rintro heq
    cases heq
    exact ⟨hmem, rfl, rfl, rfl⟩

end Grammar.WellFormed

/-- A table records one conflict for every rule of a complete item and every symbol of FOLLOW of
its head that is also after a dot of the state, and no others. The action it tells is the one that
the cell holds in the end. -/
theorem Source.conflicts_exact {d : Datum} {t : Table} (h : (written d).table = .ok t) :
    t.conflicts.Nodup ∧ (∀ c ∈ t.conflicts, t.Disputed c.state c.symbol c.rule) ∧
    ∀ k x rule, t.Disputed k x rule → ∃ row a, t.rows[k]? = some row ∧
      Dictionary.get? row x = some a ∧ (x = .endOfInput → a = .accept) ∧
      (x ≠ .endOfInput → ∃ n, t.collection.goto? k x = some n ∧ a = .shift n) ∧
      t.conflicts.filter (fun c => c.state = k ∧ c.symbol = x ∧ c.rule = rule) =
        [⟨k, x, a, rule⟩] := by
  obtain ⟨g, -, wf, ht⟩ := Source.table_ok h
  refine ⟨wf.nodup_conflicts ht, fun c => wf.disputed_of_mem_conflicts ht, ?_⟩
  intro k x rule hdisputed
  obtain ⟨a, hmem, haccept, hshift⟩ := wf.exists_conflict ht hdisputed
  obtain ⟨-, hkept, -⟩ := (wf.mem_conflicts_iff ht _).mp hmem
  obtain ⟨row, hrow⟩ := wf.exists_row_of_asks ht hkept
  have hcell := wf.action_of_mem_conflicts ht hmem hrow
  exact ⟨row, a, hrow, hcell, haccept, hshift, wf.filter_conflicts ht hrow hcell hmem⟩

set_option maxRecDepth 100000 in
/-- Two reductions that a longer alternative covers are in conflict with its shift, each once. -/
theorem Source.covered_conflicts : ∃ t, (written (covered ["C", "A t", "B t"])).table = .ok t ∧
    t.conflicts.Nodup ∧ ∀ head ∈ ["A", "B"], t.Disputed 5 (.token "t") ⟨head, [.token "x"]⟩ ∧
      t.conflicts.filter (fun c => c.state = 5 ∧ c.symbol = .token "t" ∧
        c.rule = ⟨head, [.token "x"]⟩) = [⟨5, .token "t", .shift 8, ⟨head, [.token "x"]⟩⟩] := by
  have h : Except.passes (fun t => decide (∀ head ∈ ["A", "B"],
      (⟨5, .token "t", .shift 8, ⟨head, [.token "x"]⟩⟩ : Conflict) ∈ t.conflicts))
      (written (covered ["C", "A t", "B t"])).table = true := by
    decide +kernel
  obtain ⟨t, ht, htest⟩ := Except.exists_of_passes h
  obtain ⟨hnodup, hdisputed, hexact⟩ := Source.conflicts_exact ht
  refine ⟨t, ht, hnodup, fun head hhead => ?_⟩
  have hmem := of_decide_eq_true htest head hhead
  have hkey := hdisputed _ hmem
  obtain ⟨row, a, -, -, -, -, hfilter⟩ := hexact _ _ _ hkey
  -- The conflict that was found is the one that there is.
  have hfound : (⟨5, .token "t", .shift 8, ⟨head, [.token "x"]⟩⟩ : Conflict) ∈ t.conflicts.filter
      fun c => c.state = 5 ∧ c.symbol = .token "t" ∧ c.rule = ⟨head, [.token "x"]⟩ := by
    simpa using hmem
  rw [hfilter, List.mem_singleton] at hfound
  refine ⟨hkey, ?_⟩
  rw [hfound]
  exact hfilter

end ShiftReduce
