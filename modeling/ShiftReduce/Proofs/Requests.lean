import ShiftReduce.Proofs.Automaton
import ShiftReduce.Proofs.Filling
import ShiftReduce.Proofs.FollowSets

/-!
What the items of a state ask for.

An item asks for the shift to the goto of its state after the dot, for acceptance before the end of
input, and once it is complete for a reduction on every symbol of FOLLOW of its head. Placing the
items of a state is asking for all this in order.
-/

namespace ShiftReduce

namespace Item

/-- The cells that an item asks for, in order. -/
def requests (s : Sets) (transitions : Transitions) (i : Item) : List Request :=
  match i.next? with
  | none =>
    match i.production.number? with
    | none => []
    | some n => (Symbol.sort (s.follow.of i.production.head)).map
        fun x => (x, .reduce n i.production.toRule)
  | some .endOfInput => [(.endOfInput, .accept)]
  | some x =>
    match Dictionary.get? transitions x with
    | some target => [(x, .shift target)]
    | none => []

section Requests

variable {s : Sets} {transitions : Transitions} {i : Item} {x y : Symbol} {a : Action}

theorem mem_requests_of_complete (h : i.next? = none) : (x, a) ∈ i.requests s transitions ↔
    ∃ n, i.production.number? = some n ∧ (i.production.head, x) ∈ s.follow ∧
      a = .reduce n i.production.toRule := by
  unfold requests
  rw [h]
  cases i.production.number? with
  | none => simp
  | some n =>
    simp only [List.mem_map, Symbol.mem_sort, Facts.mem_of, Prod.mk.injEq, Option.some.injEq,
      exists_eq_left']
    constructor
    · rintro ⟨y, hy, rfl, rfl⟩
      exact ⟨hy, rfl⟩
    · rintro ⟨hx, rfl⟩
      exact ⟨x, hx, rfl, rfl⟩

theorem mem_requests_of_endOfInput (h : i.next? = some .endOfInput) :
    (x, a) ∈ i.requests s transitions ↔ x = .endOfInput ∧ a = .accept := by
  unfold requests
  rw [h]
  simp

theorem mem_requests_of_symbol (h : i.next? = some y) (hne : y ≠ .endOfInput) :
    (x, a) ∈ i.requests s transitions ↔
      ∃ n, Dictionary.get? transitions y = some n ∧ x = y ∧ a = .shift n := by
  unfold requests
  rw [h]
  cases y with
  | endOfInput => exact absurd rfl hne
  | _ =>
    simp only
    split <;> simp_all

/-- A complete item asks for its cells in the order of their names. -/
theorem pairwise_requests (s : Sets) (transitions : Transitions) (h : i.next? = none) :
    (i.requests s transitions).Pairwise fun r q => r.1.name ≤ q.1.name := by
  unfold requests
  rw [h]
  cases i.production.number? with
  | none => exact List.Pairwise.nil
  | some n => exact List.pairwise_map.mpr (Symbol.pairwise_sort _)

end Requests

/-- No obstacle is in the way of an item but a clash. -/
structure Placeable (s : Sets) (transitions : Transitions) (i : Item) : Prop where
  numbered : i.next? = none → ∃ n, i.production.number? = some n
  head_mem : i.next? = none → i.production.head ∈ s.grammar.names
  augmented : i.next? = some .endOfInput → i.production.origin = .augmented
  target : ∀ x, i.next? = some x → x ≠ .endOfInput →
    ∃ n, Dictionary.get? transitions x = some n

end Item

/-- What the items of a set ask for. -/
def ItemSet.requests (s : Sets) (transitions : Transitions) (t : ItemSet) : List Request :=
  t.items.flatMap (Item.requests s transitions)

section Placing

variable {s : Sets} {transitions : Transitions} {state : Nat} {f : Filling} {i : Item}

/-- Placing an item is asking for its cells in order. -/
theorem Filling.place_eq (hi : i.Placeable s transitions) : Filling.place s transitions state f i =
    (i.requests s transitions).foldlM (Filling.ask state) f := by
  unfold Filling.place Item.requests
  cases hx : i.next? with
  | none =>
    obtain ⟨n, hn⟩ := hi.numbered hx
    simp only [hn, hi.head_mem hx, if_true, List.foldlM_map]
    rfl
  | some x =>
    by_cases hend : x = .endOfInput
    · subst hend
      simp only [hi.augmented hx, if_true, List.foldlM_cons]
      rfl
    · obtain ⟨n, hn⟩ := hi.target x hx hend
      cases x with
      | endOfInput => exact absurd rfl hend
      | _ =>
        simp only [hn, List.foldlM_cons]
        rfl

theorem foldlM_place {items : List Item} (h : ∀ i ∈ items, i.Placeable s transitions) :
    items.foldlM (Filling.place s transitions state) f =
      (items.flatMap (Item.requests s transitions)).foldlM (Filling.ask state) f := by
  induction items generalizing f with
  | nil => rfl
  | cons i rest ih =>
    rw [List.flatMap_cons, List.foldlM_append, List.foldlM_cons,
      Filling.place_eq (h i List.mem_cons_self)]
    exact bind_congr fun f => ih fun j hj => h j (List.mem_cons_of_mem _ hj)

end Placing

/-- A set that can be placed with some transitions: all that is asked for can be met, unless two
different reductions are asked for in one cell. -/
structure ItemSet.Placeable (s : Sets) (entry : ItemSet × Transitions) : Prop where
  items : ∀ i ∈ entry.1.items, i.Placeable s entry.2
  consistent : Consistent (entry.1.requests s entry.2)

section Rows

variable {s : Sets} {state : Nat} {before conflicts : List Conflict} {rows : List Row}
  {entries : List (ItemSet × Transitions)}

theorem fillRows_cons_ok {items : ItemSet} {transitions : Transitions}
    (h : fillRows s state before ((items, transitions) :: entries) = .ok (rows, conflicts)) :
    ∃ f more, items.items.foldlM (Filling.place s transitions state) ⟨[], before⟩ = .ok f ∧
      fillRows s (state + 1) f.conflicts entries = .ok (more, conflicts) ∧
      rows = f.row :: more := by
  rw [fillRows] at h
  split at h
  · cases h
  · rename_i f hf
    split at h
    · cases h
    · rename_i more all hrest
      cases h
      exact ⟨f, more, hf, hrest, rfl⟩

/-- The rows answer what the sets ask for, and the conflicts are those of each row. -/
theorem fillRows_ok (hp : ∀ entry ∈ entries, ItemSet.Placeable s entry)
    (h : fillRows s state before entries = .ok (rows, conflicts)) :
    rows.length = entries.length ∧
    (∀ (k : Nat) entry row, entries[k]? = some entry → rows[k]? = some row →
      row.Answers (entry.1.requests s entry.2)) ∧
    ∀ c, c ∈ conflicts ↔ c ∈ before ∨ ∃ (k : Nat) (entry : ItemSet × Transitions),
      entries[k]? = some entry ∧ c.Among (state + k) (entry.1.requests s entry.2) := by
  induction entries generalizing state before rows with
  | nil =>
    cases h
    simp
  | cons entry rest ih =>
    obtain ⟨items, transitions⟩ := entry
    have hentry := hp _ List.mem_cons_self
    obtain ⟨f, more, hf, hrest, rfl⟩ := fillRows_cons_ok h
    rw [foldlM_place hentry.items] at hf
    have hfilled := (Filling.Filled.nil state before).foldlM hentry.consistent hf
    obtain ⟨hlength, hanswers, hconflicts⟩ :=
      ih (fun entry he => hp entry (List.mem_cons_of_mem _ he)) hrest
    refine ⟨congrArg Nat.succ hlength, ?_, ?_⟩
    · intro k entry row hk hrow
      cases k with
      | zero =>
        cases hk
        cases hrow
        exact hfilled.answers
      | succ k => exact hanswers k entry row hk hrow
    · intro c
      rw [hconflicts c, hfilled.conflicts c, or_assoc]
      apply or_congr_right
      constructor
      · rintro (hc | ⟨k, entry, hk, hc⟩)
        · exact ⟨0, _, rfl, hc⟩
        · exact ⟨k + 1, entry, hk, by rwa [Nat.add_right_comm] at hc⟩
      · rintro ⟨k, entry, hk, hc⟩
        cases k with
        | zero =>
          cases hk
          exact .inl hc
        | succ k => exact .inr ⟨k, entry, hk, by rwa [Nat.add_right_comm]⟩

/-- When the rows cannot be filled, the items of one of the sets cannot be placed, and the rows of
the sets before it are filled. -/
theorem exists_of_fillRows_error {e : Halt} (h : fillRows s state before entries = .error e) :
    ∃ done entry rest filled recorded, entries = done ++ entry :: rest ∧
      fillRows s state before done = .ok (filled, recorded) ∧
      entry.1.items.foldlM (Filling.place s entry.2 (state + done.length)) ⟨[], recorded⟩ =
        .error e := by
  induction entries generalizing state before with
  | nil => cases h
  | cons entry more ih =>
    obtain ⟨items, transitions⟩ := entry
    rw [fillRows] at h
    split at h
    · rename_i e' he
      cases h
      exact ⟨[], _, more, [], before, rfl, rfl, he⟩
    · rename_i f hf
      split at h
      · rename_i e' hmore
        cases h
        obtain ⟨done, entry, rest, filled, recorded, rfl, hdone, he⟩ := ih hmore
        refine ⟨(items, transitions) :: done, entry, rest, f.row :: filled, recorded, rfl, ?_, ?_⟩
        · simp only [fillRows, hf, hdone]
        · rwa [List.length_cons, ← Nat.add_assoc, Nat.add_right_comm]
      · cases h

/-- When the rows can be filled, the items of every set can be placed. -/
theorem exists_of_fillRows_ok (h : fillRows s state before entries = .ok (rows, conflicts))
    {k : Nat} {entry : ItemSet × Transitions} (hk : entries[k]? = some entry) :
    ∃ recorded f,
      entry.1.items.foldlM (Filling.place s entry.2 (state + k)) ⟨[], recorded⟩ = .ok f := by
  induction entries generalizing state before rows k with
  | nil => simp at hk
  | cons first rest ih =>
    obtain ⟨f, more, hf, hrest, -⟩ := fillRows_cons_ok h
    cases k with
    | zero =>
      cases hk
      exact ⟨before, f, hf⟩
    | succ k =>
      obtain ⟨recorded, f, hf⟩ := ih hrest hk
      exact ⟨recorded, f, by rwa [Nat.add_right_comm] at hf⟩

end Rows

/-- What an item of a state asks for. -/
inductive Grammar.ItemAsks (g : Grammar) (follow : Facts) (state : Nat) (i : Item) :
    Symbol → Action → Prop where
  | shift {x : Symbol} {n : Nat} : i.next? = some x → g.collection.goto? state x = some n →
      ItemAsks g follow state i x (.shift n)
  | accept : i.next? = some .endOfInput → ItemAsks g follow state i .endOfInput .accept
  | reduce {x : Symbol} {n : Nat} : i.next? = none → i.production.number? = some n →
      (i.production.head, x) ∈ follow → ItemAsks g follow state i x (.reduce n i.production.toRule)

/-- What the items of a state ask for. -/
def Grammar.Asks (g : Grammar) (follow : Facts) (state : Nat) (x : Symbol) (a : Action) : Prop :=
  ∃ s, g.collection.states[state]? = some s ∧ ∃ i ∈ s.items, g.ItemAsks follow state i x a

namespace Grammar

variable {g : Grammar} {s : Sets} {state : Nat} {i : Item} {x : Symbol} {a : Action}
  {transitions : Transitions} {t : ItemSet}

theorem goto?_eq_get? (hrow : g.collection.transitions[state]? = some transitions) (x : Symbol) :
    g.collection.goto? state x = Dictionary.get? transitions x := by
  simp only [Collection.goto?, hrow]

/-- A row of transitions says nothing of the end of input. -/
theorem WellFormed.goto?_endOfInput (wf : g.WellFormed) (state : Nat) :
    g.collection.goto? state .endOfInput = none := by
  cases h : g.collection.goto? state .endOfInput with
  | none => rfl
  | some n =>
    obtain ⟨-, -, -, -, -, hne, -⟩ := wf.goto?_eq_some h
    exact absurd rfl hne

theorem WellFormed.mem_requests (wf : g.WellFormed)
    (hrow : g.collection.transitions[state]? = some transitions) :
    (x, a) ∈ i.requests s transitions ↔ g.ItemAsks s.follow state i x a := by
  constructor
  · intro h
    cases hx : i.next? with
    | none =>
      obtain ⟨n, hn, hfollow, rfl⟩ := (Item.mem_requests_of_complete hx).mp h
      exact .reduce hx hn hfollow
    | some y =>
      by_cases hend : y = .endOfInput
      · subst hend
        obtain ⟨rfl, rfl⟩ := (Item.mem_requests_of_endOfInput hx).mp h
        exact .accept hx
      · obtain ⟨n, hn, rfl, rfl⟩ := (Item.mem_requests_of_symbol hx hend).mp h
        exact .shift hx (by rwa [goto?_eq_get? hrow])
  · intro h
    cases h with
    | @shift _ n hx hgoto =>
      have hne : x ≠ .endOfInput := by
        rintro rfl
        simp [wf.goto?_endOfInput] at hgoto
      rw [goto?_eq_get? hrow] at hgoto
      exact (Item.mem_requests_of_symbol hx hne).mpr ⟨n, hgoto, rfl, rfl⟩
    | accept hx => exact (Item.mem_requests_of_endOfInput hx).mpr ⟨rfl, rfl⟩
    | reduce hx hn hfollow => exact (Item.mem_requests_of_complete hx).mpr ⟨_, hn, hfollow, rfl⟩

namespace WellFormed

variable (wf : g.WellFormed)

include wf

theorem mem_requests_iff (ht : g.collection.states[state]? = some t)
    (hrow : g.collection.transitions[state]? = some transitions) :
    (x, a) ∈ t.requests s transitions ↔ g.Asks s.follow state x a := by
  simp only [ItemSet.requests, List.mem_flatMap, wf.mem_requests hrow]
  constructor
  · rintro ⟨i, hi, hasks⟩
    exact ⟨t, ht, i, hi, hasks⟩
  · rintro ⟨t', ht', i, hi, hasks⟩
    obtain rfl : t = t' := Option.some.inj (ht.symm.trans ht')
    exact ⟨i, hi, hasks⟩

theorem hasItem_of_state {k : Nat} (ht : g.collection.states[k]? = some t) (hi : i ∈ t.items) :
    g.HasItem i :=
  wf.within_of_state ht i hi

theorem complete_iff {k : Nat} (ht : g.collection.states[k]? = some t) (hi : i ∈ t.items) :
    i.next? = none ↔ i.isComplete = true :=
  wf.next?_eq_none_iff (wf.hasItem_of_state ht hi)

/-- The actions that a state is asked for agree but for the rules of reductions. -/
theorem asks_eq {follow : Facts} {b : Action} (ha : g.Asks follow state x a)
    (hb : g.Asks follow state x b) (hga : a.isReduction = false) (hgb : b.isReduction = false) :
    a = b := by
  obtain ⟨-, -, i, -, hi⟩ := ha
  obtain ⟨-, -, j, -, hj⟩ := hb
  cases hi with
  | shift _ hm =>
    cases hj with
    | shift _ hn => rw [Option.some.inj (hm.symm.trans hn)]
    | accept _ => simp [wf.goto?_endOfInput] at hm
    | reduce => cases hgb
  | accept _ =>
    cases hj with
    | shift _ hn => simp [wf.goto?_endOfInput] at hn
    | accept _ => rfl
    | reduce => cases hgb
  | reduce => cases hga

theorem number_eq_of_asks {follow : Facts} {m n : Nat} {rule : Rule}
    (hm : g.Asks follow state x (.reduce m rule)) (hn : g.Asks follow state x (.reduce n rule)) :
    m = n := by
  obtain ⟨t, ht, i, hi, hm⟩ := hm
  obtain ⟨t', ht', j, hj, hn⟩ := hn
  have hitem := (wf.hasItem_of_state ht hi).mem
  have hjtem := (wf.hasItem_of_state ht' hj).mem
  generalize hrule : rule = r at hn
  cases hm with
  | reduce _ hm _ =>
    cases hn with
    | reduce _ hn _ =>
      rw [wf.eq_of_toRule_eq hitem hjtem hrule] at hm
      exact Option.some.inj (hm.symm.trans hn)

/-- A complete item of the canonical collection has a numbered production. -/
theorem mem_productions_of_canonical {items : Set Item} (h : g.Canonical items) (hi : i ∈ items)
    (hx : i.next? = none) : i.production ∈ g.productions := by
  have hitem := wf.hasItem_of_canonical h hi
  rcases mem_augmentedProductions.mp hitem.mem with hstart | hp
  · -- The dot of the start item does not get past the end of input.
    have hdot : i.dot = 2 := by
      simpa [hstart] using (wf.next?_eq_none_iff_dot_eq hitem).mp hx
    obtain ⟨before, y, hbefore, hne, j, hj, hy, rfl⟩ :=
      predecessor_of_dot_ne_zero h hi (by simp [hdot])
    have hjdot : j.dot = 1 := Nat.succ.inj hdot
    have hjstart : j.production = g.startProduction := hstart
    rw [wf.next?_eq (wf.hasItem_of_canonical hbefore hj), hjdot, hjstart] at hy
    exact absurd (Option.some.inj hy).symm hne
  · exact hp

theorem mem_productions_of_complete (ht : g.collection.states[state]? = some t) (hi : i ∈ t.items)
    (hx : i.next? = none) : i.production ∈ g.productions :=
  wf.mem_productions_of_canonical
    (wf.canonical_iff.mpr ⟨t, List.mem_of_getElem? ht, rfl⟩) hi hx

end WellFormed

end Grammar

end ShiftReduce
