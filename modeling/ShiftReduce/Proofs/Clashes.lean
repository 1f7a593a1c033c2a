import ShiftReduce.Proofs.Cells

/-!
Clashes of reductions.

Filling a table fails only where two complete items of a state ask for different reductions in one
cell. Not every such pair makes it fail: a shift or acceptance that an item before the second asks
for takes the cell, and the second reduction gives way to it without being held against the first.
So the order of the items decides, unless no item of the state has the symbol after its dot.
-/

namespace ShiftReduce

namespace ItemSet

/-- Two different complete items of a set whose heads have a symbol of FOLLOW in common. -/
structure Rivals (follow : String → Symbol → Prop) (s : ItemSet) (i j : Item) (x : Symbol) :
    Prop where
  left_mem : i ∈ s.items
  right_mem : j ∈ s.items
  ne : i ≠ j
  left_complete : i.isComplete = true
  right_complete : j.isComplete = true
  left_follow : follow i.production.head x
  right_follow : follow j.production.head x

instance Rivals.decidable (follow : String → Symbol → Prop) [∀ n x, Decidable (follow n x)]
    (s : ItemSet) (i j : Item) (x : Symbol) : Decidable (s.Rivals follow i j x) :=
  decidable_of_iff (i ∈ s.items ∧ j ∈ s.items ∧ i ≠ j ∧ i.isComplete = true ∧
      j.isComplete = true ∧ follow i.production.head x ∧ follow j.production.head x)
    ⟨fun ⟨hi, hj, hne, hic, hjc, hif, hjf⟩ => ⟨hi, hj, hne, hic, hjc, hif, hjf⟩,
      fun ⟨hi, hj, hne, hic, hjc, hif, hjf⟩ => ⟨hi, hj, hne, hic, hjc, hif, hjf⟩⟩

/-- An item comes before another in the order of the set, and no item before the other has the
symbol after its dot. -/
def Meet (s : ItemSet) (i j : Item) (x : Symbol) : Prop :=
  ∃ before after, s.items = before ++ j :: after ∧ i ∈ before ∧ ∀ k ∈ before, k.next? ≠ some x

variable {follow : String → Symbol → Prop} {s : ItemSet} {i j : Item} {x : Symbol}

theorem Rivals.symm (h : s.Rivals follow i j x) : s.Rivals follow j i x :=
  ⟨h.right_mem, h.left_mem, h.ne.symm, h.right_complete, h.left_complete, h.right_follow,
    h.left_follow⟩

theorem Rivals.imp {follow' : String → Symbol → Prop} (h : s.Rivals follow i j x)
    (himp : ∀ n, follow n x → follow' n x) : s.Rivals follow' i j x :=
  ⟨h.left_mem, h.right_mem, h.ne, h.left_complete, h.right_complete, himp _ h.left_follow,
    himp _ h.right_follow⟩

/-- With no shift on the symbol one of two rivals comes first. -/
theorem Rivals.meet (h : s.Rivals follow i j x) (hx : ∀ k ∈ s.items, k.next? ≠ some x) :
    s.Meet i j x ∨ s.Meet j i x := by
  obtain ⟨before, after, hitems⟩ := List.append_of_mem h.right_mem
  have hbefore : ∀ k ∈ before, k.next? ≠ some x := fun k hk => hx k (by simp [hitems, hk])
  have hi := h.left_mem
  rw [hitems, List.mem_append, List.mem_cons] at hi
  rcases hi with hi | heq | hi
  · exact .inl ⟨before, after, hitems, hi, hbefore⟩
  · exact absurd heq h.ne
  · obtain ⟨between, rest, rfl⟩ := List.append_of_mem hi
    refine .inr ⟨before ++ j :: between, rest, by simp [hitems], by simp, ?_⟩
    intro k hk
    apply hx k
    rw [hitems]
    simp only [List.mem_append, List.mem_cons] at hk ⊢
    grind

end ItemSet

namespace Item

variable {s : Sets} {transitions : Transitions} {i : Item} {x : Symbol} {n : Nat} {rule : Rule}

/-- Only a complete item asks for a reduction, and only by its own rule. -/
theorem mem_requests_reduce (h : (x, .reduce n rule) ∈ i.requests s transitions) :
    i.next? = none ∧ (i.production.head, x) ∈ s.follow ∧ rule = i.production.toRule := by
  cases hx : i.next? with
  | none =>
    obtain ⟨m, -, hfollow, heq⟩ := (mem_requests_of_complete hx).mp h
    cases heq
    exact ⟨rfl, hfollow, rfl⟩
  | some y =>
    by_cases hend : y = .endOfInput
    · subst hend
      obtain ⟨-, heq⟩ := (mem_requests_of_endOfInput hx).mp h
      cases heq
    · obtain ⟨m, -, -, heq⟩ := (mem_requests_of_symbol hx hend).mp h
      cases heq

/-- In the cell of a symbol that is not after its dot an item asks for reductions only. -/
theorem isReduction_of_request {a : Action} (hx : i.next? ≠ some x)
    (h : (x, a) ∈ i.requests s transitions) : a.isReduction = true := by
  cases hnext : i.next? with
  | none =>
    obtain ⟨n, -, -, rfl⟩ := (mem_requests_of_complete hnext).mp h
    rfl
  | some y =>
    by_cases hend : y = .endOfInput
    · subst hend
      obtain ⟨rfl, -⟩ := (mem_requests_of_endOfInput hnext).mp h
      exact absurd hnext hx
    · obtain ⟨n, -, rfl, -⟩ := (mem_requests_of_symbol hnext hend).mp h
      exact absurd hnext hx

/-- An item with a symbol after the dot asks for another action. -/
theorem Placeable.exists_request (hi : i.Placeable s transitions) (hx : i.next? = some x) :
    ∃ a, (x, a) ∈ i.requests s transitions ∧ a.isReduction = false := by
  by_cases hend : x = .endOfInput
  · subst hend
    exact ⟨.accept, (mem_requests_of_endOfInput hx).mpr ⟨rfl, rfl⟩, rfl⟩
  · obtain ⟨n, hn⟩ := hi.target x hx hend
    exact ⟨.shift n, (mem_requests_of_symbol hx hend).mpr ⟨n, hn, rfl, rfl⟩, rfl⟩

/-- A complete item asks for its reduction on FOLLOW of its head. -/
theorem Placeable.exists_reduction (hi : i.Placeable s transitions) (hix : i.next? = none)
    (hfollow : (i.production.head, x) ∈ s.follow) :
    ∃ n, (x, .reduce n i.production.toRule) ∈ i.requests s transitions := by
  obtain ⟨n, hn⟩ := hi.numbered hix
  exact ⟨n, (mem_requests_of_complete hix).mpr ⟨n, hn, hfollow, rfl⟩⟩

/-- While no item has a symbol after its dot, reductions only are asked for in its cell. -/
theorem isReduction_of_requests {items : List Item} {a : Action}
    (hnext : ∀ k ∈ items, k.next? ≠ some x)
    (h : (x, a) ∈ items.flatMap (Item.requests s transitions)) : a.isReduction = true := by
  obtain ⟨k, hk, h⟩ := List.mem_flatMap.mp h
  exact isReduction_of_request (hnext k hk) h

/-- After some items, of which none has the symbol after its dot, a complete item asks for the cell
that one of them has. -/
structure Contests (follow : Facts) (before : List Item) (i j : Item) (x : Symbol) : Prop where
  mem : i ∈ before
  next : ∀ k ∈ before, k.next? ≠ some x
  left_complete : i.next? = none
  right_complete : j.next? = none
  left_follow : (i.production.head, x) ∈ follow
  right_follow : (j.production.head, x) ∈ follow
  ne : i.production.toRule ≠ j.production.toRule

end Item

section Placing

variable {s : Sets} {t : ItemSet} {transitions : Transitions} {state : Nat}
  {conflicts : List Conflict} {before after : List Item} {f : Filling} {i j : Item} {x : Symbol}

/-- What the first items of a set ask for has been filled when they are placed. -/
theorem ItemSet.Placeable.filled (hp : ItemSet.Placeable s (t, transitions))
    (hitems : t.items = before ++ after)
    (h : before.foldlM (Filling.place s transitions state) ⟨[], conflicts⟩ = .ok f) :
    Filling.Filled state conflicts (before.flatMap (Item.requests s transitions)) f := by
  have hplaceable : ∀ k ∈ before, k.Placeable s transitions :=
    fun k hk => hp.items k (by simp [hitems, hk])
  have hconsistent : Consistent (before.flatMap (Item.requests s transitions)) := by
    have := hp.consistent
    rw [ItemSet.requests, hitems, List.flatMap_append] at this
    exact this.of_append
  rw [foldlM_place hplaceable] at h
  exact (Filling.Filled.nil state conflicts).foldlM hconsistent h

/-- While no item has a symbol after its dot, the cell of the symbol holds the reduction of every
complete item that asks for it. -/
theorem ItemSet.Placeable.cell_of_complete (hp : ItemSet.Placeable s (t, transitions))
    (hitems : t.items = before ++ after)
    (h : before.foldlM (Filling.place s transitions state) ⟨[], conflicts⟩ = .ok f)
    (hbefore : ∀ k ∈ before, k.next? ≠ some x) (hi : i ∈ before) (hix : i.next? = none)
    (hfollow : (i.production.head, x) ∈ s.follow) :
    ∃ n, Dictionary.get? f.row x = some (.reduce n i.production.toRule) := by
  obtain ⟨n, hn⟩ := (hp.items i (by simp [hitems, hi])).exists_reduction hix hfollow
  exact ⟨n, (hp.filled hitems h).answers.reduced x _ (List.mem_flatMap.mpr ⟨i, hi, hn⟩)
    fun _ => Item.isReduction_of_requests hbefore⟩

/-- Complete items that are placed and ask for one cell have one rule, unless a shift hides it. -/
theorem ItemSet.Placeable.rule_eq_of_placed (hp : ItemSet.Placeable s (t, transitions))
    (hitems : t.items = before ++ after)
    (h : before.foldlM (Filling.place s transitions state) ⟨[], conflicts⟩ = .ok f)
    (hbefore : ∀ k ∈ before, k.next? ≠ some x) (hi : i ∈ before) (hj : j ∈ before)
    (hix : i.next? = none) (hjx : j.next? = none) (hifollow : (i.production.head, x) ∈ s.follow)
    (hjfollow : (j.production.head, x) ∈ s.follow) :
    i.production.toRule = j.production.toRule := by
  obtain ⟨m, hm⟩ := hp.cell_of_complete hitems h hbefore hi hix hifollow
  obtain ⟨n, hn⟩ := hp.cell_of_complete hitems h hbefore hj hjx hjfollow
  rw [hm] at hn
  injection hn with hn
  injection hn

/-- An item that contests a cell cannot be placed. -/
theorem ItemSet.Placeable.not_contests (hp : ItemSet.Placeable s (t, transitions))
    (hitems : t.items = before ++ j :: after)
    (h : (before ++ [j]).foldlM (Filling.place s transitions state) ⟨[], conflicts⟩ = .ok f) :
    ¬ Item.Contests s.follow before i j x := by
  intro hc
  have hsplit : t.items = (before ++ [j]) ++ after := by simp [hitems]
  have hnext : ∀ k ∈ before ++ [j], k.next? ≠ some x := by
    intro k hk
    rcases List.mem_append.mp hk with hk | hk
    · exact hc.next k hk
    · simp [List.mem_singleton.mp hk, hc.right_complete]
  exact hc.ne (hp.rule_eq_of_placed hsplit h hnext (by simp [hc.mem]) (by simp) hc.left_complete
    hc.right_complete hc.left_follow hc.right_follow)

/-- Placing the items of a set fails at the first item that contests a cell, and there on the first
symbol by name. -/
theorem ItemSet.Placeable.exists_of_error (hp : ItemSet.Placeable s (t, transitions)) {e : Halt}
    (h : t.items.foldlM (Filling.place s transitions state) ⟨[], conflicts⟩ = .error e) :
    ∃ before i j after f x, t.items = before ++ j :: after ∧
      before.foldlM (Filling.place s transitions state) ⟨[], conflicts⟩ = .ok f ∧
      Item.Contests s.follow before i j x ∧
      (∀ k y, Item.Contests s.follow before k j y → x.name ≤ y.name) ∧
      e.obstacle = .clash ⟨state, x, i.production.toRule, j.production.toRule⟩ := by
  obtain ⟨before, j, after, u, hitems, hbefore, hj⟩ := exists_of_foldlM_eq_error h
  have hplaceable : ∀ k ∈ before ++ j :: after, k.Placeable s transitions :=
    fun k hk => hp.items k (by rwa [hitems])
  rw [Filling.place_eq (hplaceable j (by simp))] at hj
  obtain ⟨done, r, rest, v, hrequests, hdone, hr⟩ := exists_of_foldlM_eq_error hj
  have hfilled : Filling.Filled state conflicts
      (before.flatMap (Item.requests s transitions) ++ done) v := by
    have hconsistent := hp.consistent
    simp only [ItemSet.requests, hitems, List.flatMap_append, List.flatMap_cons, hrequests,
      List.append_assoc] at hconsistent
    rw [← List.append_assoc] at hconsistent
    exact (hp.filled hitems hbefore).foldlM hconsistent.of_append hdone
  obtain ⟨m, n, kept, rule, hreduce, hcell, hne, rfl⟩ := Filling.ask_error hr
  obtain ⟨x, a⟩ := r
  subst hreduce
  have hmem : (x, .reduce n rule) ∈ j.requests s transitions := by simp [hrequests]
  obtain ⟨hjx, hjfollow, rfl⟩ := Item.mem_requests_reduce hmem
  -- The reduction in the cell is not one of the second item, which asks for its own rule only.
  have hkept : (x, .reduce m kept) ∈ before.flatMap (Item.requests s transitions) := by
    rcases List.mem_append.mp (hfilled.answers.asked x _ hcell) with hkept | hkept
    · exact hkept
    · have hown : (x, .reduce m kept) ∈ j.requests s transitions := by simp [hrequests, hkept]
      exact absurd (Item.mem_requests_reduce hown).2.2 hne
  obtain ⟨i, hi, hkept⟩ := List.mem_flatMap.mp hkept
  obtain ⟨hix, hifollow, rfl⟩ := Item.mem_requests_reduce hkept
  have hnext : ∀ k ∈ before, k.next? ≠ some x := by
    intro k hk hkx
    obtain ⟨b, hb, hgo⟩ := (hplaceable k (by simp [hk])).exists_request hkx
    have hasked : (x, b) ∈ before.flatMap (Item.requests s transitions) ++ done :=
      List.mem_append_left _ (List.mem_flatMap.mpr ⟨k, hk, hb⟩)
    have hred := hfilled.answers.isReduction_of_reduce hcell rfl hasked
    rw [hgo] at hred
    cases hred
  refine ⟨before, i, j, after, u, x, hitems, hbefore,
    ⟨hi, hnext, hix, hjx, hifollow, hjfollow, hne⟩, ?_, rfl⟩
  intro k y hc
  obtain ⟨l, hl⟩ := (hplaceable j (by simp)).exists_reduction hjx hc.right_follow
  have hsorted := Item.pairwise_requests s transitions hjx
  rw [hrequests] at hl hsorted
  rcases List.mem_append.mp hl with hl | hl
  · -- On a symbol that has been gone through the second item was not refused.
    obtain ⟨l', hl'⟩ := (hplaceable k (by simp [hc.mem])).exists_reduction hc.left_complete
      hc.left_follow
    refine absurd (hfilled.answers.rule_eq (List.mem_append_left _ (List.mem_flatMap.mpr
      ⟨k, hc.mem, hl'⟩)) (List.mem_append_right _ hl) fun b hb => ?_) hc.ne
    rcases List.mem_append.mp hb with hb | hb
    · exact Item.isReduction_of_requests hc.next hb
    · have hb : (y, b) ∈ j.requests s transitions := by simp [hrequests, hb]
      exact Item.isReduction_of_request (by simp [hjx]) hb
  · rcases List.mem_cons.mp hl with heq | hl
    · cases heq
      exact String.le_refl _
    · exact (List.pairwise_cons.mp (List.pairwise_append.mp hsorted).2.1).1 _ hl

end Placing

/-- Where filling the rows of a grammar ends: the rows before are filled, the items before the
second one are placed, the cell holds the reduction of the first, and the second contests it. -/
structure Grammar.EndsIn (g : Grammar) (sets : Sets) (c : Clash) (s : ItemSet)
    (before : List Item) (i j : Item) : Prop where
  state : g.collection.states[c.state]? = some s
  items : ∃ after, s.items = before ++ j :: after
  filled : ∃ rows recorded transitions f n,
    fillRows sets 0 [] ((g.collection.states.zip g.collection.transitions).take c.state) =
      .ok (rows, recorded) ∧
    g.collection.transitions[c.state]? = some transitions ∧
    before.foldlM (Filling.place sets transitions c.state) ⟨[], recorded⟩ = .ok f ∧
    Dictionary.get? f.row c.symbol = some (.reduce n c.kept)
  contests : Item.Contests sets.follow before i j c.symbol
  least : ∀ k y, Item.Contests sets.follow before k j y → c.symbol.name ≤ y.name
  kept : c.kept = i.production.toRule
  refused : c.refused = j.production.toRule

namespace Grammar.WellFormed

variable {g : Grammar} {sets : Sets} {s : ItemSet} {i j : Item} {x : Symbol} {k : Nat}
  {before after : List Item} (wf : g.WellFormed)

include wf

/-- Filling the rows ends in a clash if it fails. -/
theorem exists_endsIn_of_fillRows {e : Halt} (hsets : g.sets = .ok sets)
    (h : fillRows sets 0 [] (g.collection.states.zip g.collection.transitions) = .error e) :
    ∃ c s before i j, g.EndsIn sets c s before i j ∧ e.obstacle = .clash c := by
  obtain ⟨done, ⟨s, transitions⟩, rest, rows, recorded, hentries, hdone, he⟩ :=
    exists_of_fillRows_error h
  rw [Nat.zero_add] at he
  have hentry : (g.collection.states.zip g.collection.transitions)[done.length]? =
      some (s, transitions) := by simp [hentries]
  obtain ⟨hs, htransitions⟩ := List.getElem?_zip_eq_some.mp hentry
  have hp := wf.placeable_of_state hsets hs htransitions
  obtain ⟨before, i, j, after, f, x, hitems, hf, hc, hleast, hclash⟩ := hp.exists_of_error he
  obtain ⟨n, hn⟩ := hp.cell_of_complete hitems hf hc.next hc.mem hc.left_complete hc.left_follow
  have hfilled : fillRows sets 0 []
      ((g.collection.states.zip g.collection.transitions).take done.length) =
        .ok (rows, recorded) := by
    rw [hentries, List.take_left]
    exact hdone
  exact ⟨_, s, before, i, j, ⟨hs, ⟨after, hitems⟩,
    ⟨rows, recorded, transitions, f, n, hfilled, htransitions, hf, hn⟩, hc, hleast, rfl, rfl⟩,
    hclash⟩

/-- Items of a state contest a cell if they are rivals that meet in it. -/
theorem contests_iff (hsets : g.sets = .ok sets) (hs : g.collection.states[k]? = some s)
    (hitems : s.items = before ++ j :: after) : Item.Contests sets.follow before i j x ↔
      s.Rivals g.Follows i j x ∧ i ∈ before ∧ ∀ l ∈ before, l.next? ≠ some x := by
  have hfollow : ∀ {n}, (n, x) ∈ sets.follow ↔ g.Follows n x := mem_follow_iff wf.declared hsets
  have hj : j ∈ s.items := by simp [hitems]
  constructor
  · intro hc
    have hi : i ∈ s.items := by simp [hitems, hc.mem]
    refine ⟨?_, hc.mem, hc.next⟩
    exact
      { left_mem := hi
        right_mem := hj
        ne := fun hij => hc.ne (hij ▸ rfl)
        left_complete := (wf.complete_iff hs hi).mp hc.left_complete
        right_complete := (wf.complete_iff hs hj).mp hc.right_complete
        left_follow := hfollow.mp hc.left_follow
        right_follow := hfollow.mp hc.right_follow }
  · rintro ⟨hrivals, hi, hnext⟩
    have hix := (wf.complete_iff hs hrivals.left_mem).mpr hrivals.left_complete
    have hjx := (wf.complete_iff hs hj).mpr hrivals.right_complete
    refine ⟨hi, hnext, hix, hjx, hfollow.mpr hrivals.left_follow,
      hfollow.mpr hrivals.right_follow, fun hrule => hrivals.ne ?_⟩
    exact wf.eq_of_complete (wf.hasItem_of_state hs hrivals.left_mem)
      (wf.hasItem_of_state hs hj) hix hjx hrule

/-- In a table no rivals meet. -/
theorem not_meet_of_table {t : Table} (ht : g.table = .ok t) (hs : s ∈ g.collection.states)
    (hrivals : s.Rivals g.Follows i j x) : ¬ s.Meet i j x := by
  rintro ⟨before, after, hitems, hi, hnext⟩
  obtain ⟨hsets, -, hrows⟩ := table_ok ht
  obtain ⟨k, hk⟩ := List.mem_iff_getElem?.mp hs
  obtain ⟨transitions, hrow, hentry⟩ := exists_entry hk
  have hp := wf.placeable_of_state hsets hk hrow
  obtain ⟨recorded, f, hf⟩ := exists_of_fillRows_ok hrows hentry
  have hsplit : s.items = (before ++ [j]) ++ after := by simp [hitems]
  rw [hsplit] at hf
  obtain ⟨u, hu, -⟩ := foldlM_append_eq_ok.mp hf
  exact hp.not_contests hitems hu ((wf.contests_iff hsets hk hitems).mpr ⟨hrivals, hi, hnext⟩)

/-- Only a clash keeps a grammar from having a table. -/
theorem exists_endsIn_of_table_error {e : TableError} (h : g.table = .error e) :
    ∃ sets halt c s before i j, g.sets = .ok sets ∧ e = .halted g.collection.size halt ∧
      halt.obstacle = .clash c ∧ g.EndsIn sets c s before i j := by
  obtain ⟨sets, hsets⟩ := exists_sets wf.declared
  cases hrows : fillRows sets 0 [] (g.collection.states.zip g.collection.transitions) with
  | error halt =>
    simp only [table, hsets, hrows] at h
    cases h
    obtain ⟨c, s, before, i, j, hends, hclash⟩ := wf.exists_endsIn_of_fillRows hsets hrows
    exact ⟨sets, halt, c, s, before, i, j, hsets, rfl, hclash, hends⟩
  | ok result =>
    simp only [table, hsets, hrows] at h
    cases h

/-- That clash is between two rivals that meet. -/
theorem exists_meet_of_table_error {e : TableError} (h : g.table = .error e) :
    ∃ halt k s i j x, e = .halted g.collection.size halt ∧ g.collection.states[k]? = some s ∧
      s.Rivals g.Follows i j x ∧ s.Meet i j x ∧
      halt.obstacle = .clash ⟨k, x, i.production.toRule, j.production.toRule⟩ := by
  obtain ⟨sets, halt, ⟨k, x, kept, refused⟩, s, before, i, j, hsets, rfl, hclash, hends⟩ :=
    wf.exists_endsIn_of_table_error h
  obtain ⟨after, hitems⟩ := hends.items
  obtain ⟨hrivals, hi, hnext⟩ := (wf.contests_iff hsets hends.state hitems).mp hends.contests
  obtain rfl : kept = _ := hends.kept
  obtain rfl : refused = _ := hends.refused
  exact ⟨halt, k, s, i, j, x, rfl, hends.state, hrivals, ⟨before, after, hitems, hi, hnext⟩,
    hclash⟩

end Grammar.WellFormed

/-- The clash of reductions that making a table ended in. -/
def BuildError.clash? : BuildError → Option Clash
  | .table (.halted _ ⟨_, _, .clash c⟩) => some c
  | _ => none

namespace Source

/-- The clash of reductions for which a source has no table. -/
def clash? (s : Source) : Option Clash :=
  match s.table with
  | .ok _ => none
  | .error e => e.clash?

variable {d : Datum} {g : Grammar}

/-- A mapping has a table, or there is a clash between two rivals that meet. -/
theorem table_or_clash (h : (written d).load = .ok g) :
    (∃ t, g.table = .ok t ∧ (written d).table = .ok t ∧ (written d).clash? = none) ∨
    ∃ k s i j x, g.collection.states[k]? = some s ∧ s.Rivals g.Follows i j x ∧ s.Meet i j x ∧
      (∀ t, (written d).table ≠ .ok t) ∧
      (written d).clash? = some ⟨k, x, i.production.toRule, j.production.toRule⟩ := by
  have heq := table_eq h
  cases ht : g.table with
  | ok t =>
    rw [ht] at heq
    exact .inl ⟨t, rfl, heq, by simp only [clash?, heq, Except.mapError]⟩
  | error e =>
    obtain ⟨⟨state, recorded, obstacle⟩, k, s, i, j, x, rfl, hs, hrivals, hmeet, hclash⟩ :=
      (load_wellFormed h).exists_meet_of_table_error ht
    obtain rfl : obstacle = _ := hclash
    rw [ht] at heq
    refine .inr ⟨k, s, i, j, x, hs, hrivals, hmeet, ?_, ?_⟩
    · intro t
      simp [heq, Except.mapError]
    · simp only [clash?, heq, Except.mapError, BuildError.clash?]

end Source

/-- Making the table of a mapping ends in a clash exactly if two rivals meet in some state; else
there is a table. Without the symbol after a dot of the state rivals do meet, in whatever order. -/
theorem Source.clash_iff_meet {d : Datum} {g : Grammar} (h : (Source.written d).load = .ok g) :
    ((∃ c, (Source.written d).clash? = some c) ↔
      ∃ s ∈ g.collection.states, ∃ i j x, s.Rivals g.Follows i j x ∧ s.Meet i j x) ∧
    ((∃ t, (Source.written d).table = .ok t) ↔ (Source.written d).clash? = none) ∧
    ∀ s ∈ g.collection.states, ∀ i j x, s.Rivals g.Follows i j x →
      (∀ k ∈ s.items, k.next? ≠ some x) → ∃ c, (Source.written d).clash? = some c := by
  have wf := Source.load_wellFormed h
  have hmeet : ∀ s ∈ g.collection.states, ∀ i j x, s.Rivals g.Follows i j x → s.Meet i j x →
      ∃ c, (Source.written d).clash? = some c := by
    intro s hs i j x hrivals hmeet
    rcases Source.table_or_clash h with ⟨t, ht, -⟩ | ⟨k, s', i', j', y, -, -, -, -, hclash⟩
    · exact absurd hmeet (wf.not_meet_of_table ht hs hrivals)
    · exact ⟨_, hclash⟩
  refine ⟨⟨?_, ?_⟩, ?_, ?_⟩
  · rintro ⟨c, hc⟩
    rcases Source.table_or_clash h with ⟨t, -, -, hnone⟩ | ⟨k, s, i, j, x, hs, hrivals, hmeet, -⟩
    · rw [hnone] at hc
      cases hc
    · exact ⟨s, List.mem_of_getElem? hs, i, j, x, hrivals, hmeet⟩
  · rintro ⟨s, hs, i, j, x, hrivals, hmeets⟩
    exact hmeet s hs i j x hrivals hmeets
  · rcases Source.table_or_clash h with ⟨t, -, ht, hnone⟩ | ⟨k, s, i, j, x, -, -, -, hno, hclash⟩
    · exact ⟨fun _ => hnone, fun _ => ⟨t, ht⟩⟩
    · simp [hno, hclash]
  · intro s hs i j x hrivals hnext
    rcases hrivals.meet hnext with hmeets | hmeets
    · exact hmeet s hs i j x hrivals hmeets
    · exact hmeet s hs j i x hrivals.symm hmeets

/-- Two names for one token. -/
def Source.doubled : Datum :=
  .mapping [(.text "S", .list [.text "A", .text "B"]), (.text "A", .list [.text "x"]),
    (.text "B", .list [.text "x"])]

set_option maxRecDepth 100000 in
theorem Source.doubled_clash : ∃ g, (Source.written doubled).load = .ok g ∧
    (∃ c, (Source.written doubled).clash? = some c) ∧
    ¬ ∃ t, (Source.written doubled).table = .ok t := by
  have h : Except.passes (fun g => Except.passes (fun sets => decide
      (∃ s ∈ g.collection.states, (∃ i ∈ s.items, ∃ j ∈ s.items,
        s.Rivals (fun n x => (n, x) ∈ sets.follow) i j .endOfInput) ∧
          ∀ k ∈ s.items, k.next? ≠ some .endOfInput)) g.sets)
      (Source.written doubled).load = true := by
    decide +kernel
  obtain ⟨g, hg, htest⟩ := Except.exists_of_passes h
  obtain ⟨sets, hsets, htest⟩ := Except.exists_of_passes htest
  obtain ⟨s, hs, ⟨i, hi, j, hj, hrivals⟩, hnext⟩ := of_decide_eq_true htest
  obtain ⟨-, htable, hclash⟩ := Source.clash_iff_meet hg
  have hfollow : s.Rivals g.Follows i j .endOfInput :=
    hrivals.imp fun n => (Grammar.mem_follow_iff (Source.load_wellFormed hg).declared hsets).mp
  obtain ⟨c, hc⟩ := hclash s hs i j _ hfollow hnext
  refine ⟨g, hg, ⟨c, hc⟩, ?_⟩
  rw [htable, hc]
  simp

/-- Two names for one token before another, which a longer alternative may cover. -/
def Source.covered (alternatives : List String) : Datum :=
  .mapping [(.text "S", .list (alternatives.map Datum.text)), (.text "C", .list [.text "x t"]),
    (.text "A", .list [.text "x"]), (.text "B", .list [.text "x"])]

set_option maxRecDepth 100000 in
/-- With the longer alternative first two complete items have a symbol of FOLLOW in common, and
there is a table all the same; with that alternative last there is none. -/
theorem Source.covered_table : ∃ g t, (Source.written (covered ["C", "A t", "B t"])).load = .ok g ∧
    (∃ s ∈ g.collection.states, ∃ i j x, s.Rivals g.Follows i j x) ∧
    (Source.written (covered ["C", "A t", "B t"])).table = .ok t ∧
    (Source.written (covered ["C", "A t", "B t"])).clash? = none ∧
    (Source.written (covered ["A t", "B t", "C"])).clash?.isSome = true := by
  have h : Except.passes (fun t => decide (∃ s ∈ t.collection.states, ∃ i ∈ s.items,
      ∃ j ∈ s.items, s.Rivals (fun n x => (n, x) ∈ t.sets.follow) i j (.token "t")))
      (Source.written (covered ["C", "A t", "B t"])).table = true := by
    decide +kernel
  obtain ⟨t, ht, htest⟩ := Except.exists_of_passes h
  obtain ⟨g, hg, wf, hgt⟩ := Source.table_ok ht
  obtain ⟨hsets, hcollection, -⟩ := Grammar.table_ok hgt
  obtain ⟨s, hs, i, hi, j, hj, hrivals⟩ := of_decide_eq_true htest
  have hfollow : s.Rivals g.Follows i j (.token "t") :=
    hrivals.imp fun n => (Grammar.mem_follow_iff wf.declared hsets).mp
  refine ⟨g, t, hg, ⟨s, hcollection ▸ hs, i, j, _, hfollow⟩, ht, ?_, ?_⟩
  · simp only [Source.clash?, ht]
  · decide +kernel

end ShiftReduce
