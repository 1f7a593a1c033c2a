import Mathlib.Algebra.Group.Nat.Defs
import Mathlib.Data.List.Sublists
import ShiftReduce.Proofs.Closures
import ShiftReduce.Proofs.Dictionaries

/-!
The states that are explored are the canonical collection.

Exploring keeps the states apart and gives the states before the current one their transitions.
States that differ hold different sets of items of the reachable productions, so there are no more
of them than there are such sets, and the exploration ends with the transitions of all states known.
-/

namespace ShiftReduce

theorem getElem?_of_grows {α : Type} {l m : List α} (h : l <+: m) {n : Nat} {a : α}
    (ha : l[n]? = some a) : m[n]? = some a := by
  obtain ⟨rest, rfl⟩ := h
  obtain ⟨hn, -⟩ := List.getElem?_eq_some_iff.mp ha
  rwa [List.getElem?_append_left hn]

namespace ItemSet

theorem Same.refl (s : ItemSet) : s.Same s := ⟨fun _ => id, fun _ => id⟩

theorem Same.symm {s t : ItemSet} (h : s.Same t) : t.Same s := ⟨h.2, h.1⟩

end ItemSet

namespace Collection

variable {g : Grammar} {s t : ItemSet} {states : List ItemSet} {symbols : List Symbol}
  {x : Symbol} {n : Nat}

theorem find?_eq_some (h : find? states s = some n) : ∃ t, states[n]? = some t ∧ s.Same t := by
  obtain ⟨hn, hsame, -⟩ := List.findIdx?_eq_some_iff_getElem.mp h
  exact ⟨_, List.getElem?_eq_getElem hn, by simpa using hsame⟩

theorem find?_eq_none (h : find? states s = none) (ht : t ∈ states) : ¬ s.Same t := by
  have := List.findIdx?_eq_none_iff.mp h t ht
  simpa using this

theorem connect_grows (g : Grammar) (s : ItemSet) (states : List ItemSet) (symbols : List Symbol) :
    states <+: (connect g s states symbols).1 := by
  fun_induction connect g s states symbols with
  | case1 states => exact List.prefix_refl _
  | case2 states x rest target n hn more row hrest ih => rwa [hrest] at ih
  | case3 states x rest target hnone more row hrest ih =>
    rw [hrest] at ih
    exact (List.prefix_append states [target]).trans ih

theorem connect_keys : (connect g s states symbols).2.map Prod.fst = symbols := by
  fun_induction connect g s states symbols with
  | case1 states => rfl
  | case2 states x rest target n hn more row hrest ih =>
    rw [hrest] at ih
    rw [List.map_cons, ih]
  | case3 states x rest target hnone more row hrest ih =>
    rw [hrest] at ih
    rw [List.map_cons, ih]

theorem mem_connect (h : t ∈ (connect g s states symbols).1) :
    t ∈ states ∨ ∃ x ∈ symbols, t = s.goto g x := by
  fun_induction connect g s states symbols with
  | case1 states => exact .inl h
  | case2 states x rest target n hn more row hrest ih =>
    rw [hrest] at ih
    rcases ih h with ht | ⟨y, hy, ht⟩
    · exact .inl ht
    · exact .inr ⟨y, List.mem_cons_of_mem _ hy, ht⟩
  | case3 states x rest target hnone more row hrest ih =>
    rw [hrest] at ih
    rcases ih h with ht | ⟨y, hy, ht⟩
    · rcases List.mem_append.mp ht with ht | ht
      · exact .inl ht
      · exact .inr ⟨x, List.mem_cons_self, List.mem_singleton.mp ht⟩
    · exact .inr ⟨y, List.mem_cons_of_mem _ hy, ht⟩

/-- Different states: no two of them hold the same items. -/
def Apart (states : List ItemSet) : Prop :=
  states.Pairwise fun s t => ¬ s.Same t

theorem Apart.connect (h : Apart states) : Apart (connect g s states symbols).1 := by
  fun_induction Collection.connect g s states symbols with
  | case1 states => exact h
  | case2 states x rest target n hn more row hrest ih =>
    rw [hrest] at ih
    exact ih h
  | case3 states x rest target hnone more row hrest ih =>
    rw [hrest] at ih
    refine ih (List.pairwise_append.mpr ⟨h, List.pairwise_singleton _ _, ?_⟩)
    intro t ht u hu
    rw [List.mem_singleton.mp hu]
    exact fun hsame => find?_eq_none hnone ht hsame.symm

theorem connect_target (h : (x, n) ∈ (connect g s states symbols).2) :
    ∃ t, (connect g s states symbols).1[n]? = some t ∧ (s.goto g x).Same t := by
  fun_induction connect g s states symbols with
  | case1 states => simp at h
  | case2 states y rest target m hm more row hrest ih =>
    have hgrows := connect_grows g s states rest
    rw [hrest] at ih hgrows
    rcases List.mem_cons.mp h with heq | h
    · cases heq
      obtain ⟨t, ht, hsame⟩ := find?_eq_some hm
      exact ⟨t, getElem?_of_grows hgrows ht, hsame⟩
    · exact ih h
  | case3 states y rest target hnone more row hrest ih =>
    have hgrows := connect_grows g s (states ++ [target]) rest
    rw [hrest] at ih hgrows
    rcases List.mem_cons.mp h with heq | h
    · cases heq
      exact ⟨target, getElem?_of_grows hgrows (by simp), .refl _⟩
    · exact ih h

end Collection

namespace Grammar

/-- The item sets that are met from the start state on. -/
inductive Reached (g : Grammar) : ItemSet → Prop where
  | start : Reached g g.startState
  | goto {s : ItemSet} {x : Symbol} : Reached g s → x ∈ s.symbols → x ≠ .endOfInput →
      Reached g (s.goto g x)

/-- The state of an exploration: states that were met and differ, and the transitions of the first
of them. -/
structure Explored (g : Grammar) (states : List ItemSet) (done : List Transitions) : Prop where
  first : states[0]? = some g.startState
  reached : ∀ s ∈ states, g.Reached s
  apart : Collection.Apart states
  length_le : done.length ≤ states.length
  row : ∀ (k : Nat) (row : Transitions), done[k]? = some row → ∃ s : ItemSet,
    states[k]? = some s ∧ row.map Prod.fst = s.symbols.filter (· ≠ .endOfInput) ∧
    ∀ x n, (x, n) ∈ row → ∃ t, states[n]? = some t ∧ (s.goto g x).Same t

variable {g : Grammar} {states : List ItemSet} {done : List Transitions} {s : ItemSet}

/-- What holds of the start item, and with an item of the one after it and of those that it leads
to, holds of all items of the sets that are met. -/
theorem Reached.keeps {P : Item → Prop} (hstart : P g.startItem)
    (advance : ∀ i x, P i → i.next? = some x → P i.advance)
    (leads : ∀ i j, P i → j ∈ g.leadsTo i → P j) (h : g.Reached s) : ∀ i ∈ s.items, P i := by
  have closes : ∀ items : List Item, (∀ i ∈ items, P i) →
      ∀ i ∈ ((ItemSet.ofItems items).close g).items, P i := by
    intro items hitems i hi
    have hkernel : ∀ i ∈ (ItemSet.ofItems items).items, P i := by
      intro i hi
      simp only [ItemSet.ofItems, ItemSet.items, List.append_nil] at hi
      exact hitems i (mem_of_mem_fresh hi).1
    rw [ItemSet.items_close] at hi
    rcases List.mem_append.mp hi with hi | hi
    · exact hkernel i hi
    · exact closeQueue_keeps leads hkernel hi
  induction h with
  | start => exact closes _ (by simpa using hstart)
  | goto _ _ _ ih =>
    refine closes _ ?_
    intro i hi
    obtain ⟨j, hj, rfl⟩ := List.mem_map.mp hi
    obtain ⟨hj, hx⟩ := ItemSet.mem_on.mp hj
    exact advance j _ (ih j hj) hx

/-- The productions that are reachable from the synthetic start symbol. -/
inductive Involves (g : Grammar) : Production → Prop where
  | start : Involves g g.startProduction
  | expand {i : Item} {p : Production} : Involves g i.production → p ∈ g.expansion i →
      Involves g p

theorem Involves.mem {p : Production} (h : g.Involves p) :
    p ∈ g.startProduction :: g.expandable := by
  cases h with
  | start => exact List.mem_cons_self
  | expand _ hp => exact List.mem_cons_of_mem _ (g.expansion_subset _ hp)

/-- An item of a reachable production, with the dot in its body. -/
def InvolvesItem (g : Grammar) (i : Item) : Prop :=
  g.Involves i.production ∧ i.dot ≤ i.production.body.length

theorem Reached.involvesItem (h : g.Reached s) : ∀ i ∈ s.items, g.InvolvesItem i := by
  refine h.keeps ⟨.start, Nat.zero_le _⟩ ?_ ?_
  · rintro i x ⟨hi, -⟩ hx
    refine ⟨hi, ?_⟩
    unfold Item.next? at hx
    split at hx
    · cases hx
    · exact (List.getElem?_eq_some_iff.mp hx).1
  · rintro i j ⟨hi, -⟩ hj
    obtain ⟨p, hp, rfl⟩ := List.mem_map.mp hj
    exact ⟨.expand hi hp, Nat.zero_le _⟩

/-- No set that is met holds an item twice. -/
theorem Reached.nodup_cores (h : g.Reached s) : s.cores.Nodup := by
  cases h with
  | start => exact ItemSet.nodup_cores_close g (ItemSet.nodup_cores_ofItems _)
  | goto => exact ItemSet.nodup_cores_close g (ItemSet.nodup_cores_ofItems _)

theorem explored_start (g : Grammar) : g.Explored [g.startState] [] where
  first := rfl
  reached := by simpa using Reached.start
  apart := List.pairwise_singleton _ _
  length_le := Nat.zero_le _
  row := by simp

theorem Explored.connect (h : g.Explored states done) (hs : states[done.length]? = some s) :
    g.Explored (Collection.connect g s states (s.symbols.filter (· ≠ .endOfInput))).1
      (done ++ [(Collection.connect g s states (s.symbols.filter (· ≠ .endOfInput))).2]) := by
  have hgrows := Collection.connect_grows g s states (s.symbols.filter (· ≠ .endOfInput))
  obtain ⟨hlt, -⟩ := List.getElem?_eq_some_iff.mp hs
  refine ⟨getElem?_of_grows hgrows h.first, ?_, h.apart.connect, ?_, ?_⟩
  · intro t ht
    rcases Collection.mem_connect ht with ht | ⟨x, hx, rfl⟩
    · exact h.reached t ht
    · obtain ⟨hx, hne⟩ := List.mem_filter.mp hx
      exact .goto (h.reached s (List.mem_of_getElem? hs)) hx (by simpa using hne)
  · have := hgrows.length_le
    simp only [List.length_append, List.length_singleton]
    omega
  · intro k row hrow
    rw [List.getElem?_append] at hrow
    split at hrow
    · obtain ⟨u, hu, hkeys, htarget⟩ := h.row k row hrow
      refine ⟨u, getElem?_of_grows hgrows hu, hkeys, ?_⟩
      intro x n hn
      obtain ⟨t, ht, hsame⟩ := htarget x n hn
      exact ⟨t, getElem?_of_grows hgrows ht, hsame⟩
    · obtain ⟨hk, rfl⟩ := List.getElem?_eq_some_iff.mp hrow
      simp only [List.length_singleton] at hk
      have hk : k = done.length := by omega
      subst hk
      simp only [Nat.sub_self, List.getElem_cons_zero]
      exact ⟨s, getElem?_of_grows hgrows hs, Collection.connect_keys,
        fun x n => Collection.connect_target⟩

/-- The cores of the items that a state may hold. -/
def itemCores (g : Grammar) : List (Rule × Nat) :=
  (g.startProduction :: g.expandable).flatMap fun p =>
    (List.range (p.body.length + 1)).map fun n => (p.toRule, n)

theorem length_itemCores (g : Grammar) : g.itemCores.length = g.itemCount := by
  unfold itemCores itemCount
  induction g.startProduction :: g.expandable with
  | nil => rfl
  | cons p rest ih =>
    rw [List.flatMap_cons, List.length_append, ih, List.foldr_cons]
    simp

/-- Lists from some range that differ as sets are at most as many as the sublists of the range. -/
theorem length_le_of_pairwise {α β : Type} [DecidableEq β] {l : List α} {range : List β}
    (content : α → List β) (hrange : ∀ a ∈ l, content a ⊆ range)
    (h : l.Pairwise fun a b => ¬ (content a ⊆ content b ∧ content b ⊆ content a)) :
    l.length ≤ 2 ^ range.length := by
  let part (a : α) : List β := range.filter (· ∈ content a)
  have hsub : ∀ a ∈ l, ∀ b, part a = part b → content a ⊆ content b := by
    intro a ha b heq c hc
    have hc : c ∈ part a := List.mem_filter.mpr ⟨hrange a ha hc, by simpa using hc⟩
    rw [heq] at hc
    simpa using (List.mem_filter.mp hc).2
  have hnodup : (l.map part).Nodup := by
    rw [List.Nodup, List.pairwise_map]
    apply h.imp_of_mem
    intro a b ha hb hne heq
    exact hne ⟨hsub a ha b heq, hsub b hb a heq.symm⟩
  have hmem : l.map part ⊆ range.sublists := by
    intro c hc
    obtain ⟨a, -, rfl⟩ := List.mem_map.mp hc
    exact List.mem_sublists.mpr List.filter_sublist
  simpa [List.length_sublists] using (List.subperm_of_subset hnodup hmem).length_le

theorem InvolvesItem.core_mem {i : Item} (h : g.InvolvesItem i) : i.core ∈ g.itemCores := by
  refine List.mem_flatMap.mpr ⟨i.production, h.1.mem, ?_⟩
  exact List.mem_map.mpr ⟨i.dot, List.mem_range.mpr (Nat.lt_succ_of_le h.2), rfl⟩

theorem Explored.length_le_pow (h : g.Explored states done) :
    states.length ≤ 2 ^ g.itemCount := by
  rw [← length_itemCores]
  refine length_le_of_pairwise ItemSet.cores ?_ h.apart
  intro s hs c hc
  obtain ⟨i, hi, rfl⟩ := List.mem_map.mp hc
  exact ((h.reached s hs).involvesItem i hi).core_mem

/-- With enough room the exploration goes on until every state has its transitions. -/
theorem Explored.explore {bound : Nat} (h : g.Explored states done)
    (hbound : 2 ^ g.itemCount ≤ bound + done.length) :
    g.Explored (Collection.explore g bound states done).states
        (Collection.explore g bound states done).transitions ∧
      (Collection.explore g bound states done).transitions.length =
        (Collection.explore g bound states done).states.length := by
  induction bound generalizing states done with
  | zero =>
    refine ⟨h, ?_⟩
    have hle := h.length_le_pow
    have hge := h.length_le
    simp only [Collection.explore]
    omega
  | succ bound ih =>
    simp only [Collection.explore]
    cases hs : states[done.length]? with
    | none =>
      refine ⟨h, ?_⟩
      have hle := List.getElem?_eq_none_iff.mp hs
      have hge := h.length_le
      simp only
      omega
    | some s =>
      simp only
      apply ih (h.connect hs)
      simp only [List.length_append, List.length_singleton]
      omega

theorem collection_explored (g : Grammar) :
    g.Explored g.collection.states g.collection.transitions ∧
      g.collection.transitions.length = g.collection.states.length :=
  (explored_start g).explore (Nat.le_refl _)

/-- A state has a transition on every symbol after a dot but the end of input. -/
theorem exists_goto? {k : Nat} {x : Symbol} (hs : g.collection.states[k]? = some s)
    (hx : ∃ i ∈ s.items, i.next? = some x) (hne : x ≠ .endOfInput) :
    ∃ n, g.collection.goto? k x = some n := by
  obtain ⟨hlt, -⟩ := List.getElem?_eq_some_iff.mp hs
  rw [← g.collection_explored.2] at hlt
  have hrow := List.getElem?_eq_getElem hlt
  obtain ⟨s', hs', hkeys, -⟩ := g.collection_explored.1.row k _ hrow
  obtain rfl : s' = s := Option.some.inj (hs'.symm.trans hs)
  have hmem : x ∈ (g.collection.transitions[k]).map Prod.fst := by
    rw [hkeys]
    exact List.mem_filter.mpr ⟨ItemSet.mem_symbols.mpr hx, by simpa using hne⟩
  simp only [Collection.goto?, hrow]
  exact Dictionary.exists_get? hmem

/-- A transition is on a symbol after a dot, and leads to the set after it. -/
theorem Explored.exists_of_goto? {c : Collection} (h : g.Explored c.states c.transitions)
    {k n : Nat} {x : Symbol} (hn : c.goto? k x = some n) :
    ∃ s t, c.states[k]? = some s ∧ c.states[n]? = some t ∧ x ∈ s.symbols ∧ x ≠ .endOfInput ∧
      (s.goto g x).Same t := by
  unfold Collection.goto? at hn
  split at hn
  · rename_i row hrow
    have hmem := Dictionary.mem_of_get? hn
    obtain ⟨s, hs, hkeys, htarget⟩ := h.row k row hrow
    obtain ⟨t, ht, hsame⟩ := htarget x n hmem
    have hx : x ∈ s.symbols.filter (· ≠ .endOfInput) := by
      rw [← hkeys]
      exact List.mem_map_of_mem hmem
    obtain ⟨hx, hne⟩ := List.mem_filter.mp hx
    exact ⟨s, t, hs, ht, hx, by simpa using hne, hsame⟩
  · cases hn

namespace WellFormed

variable (wf : g.WellFormed)

include wf

theorem within_of_reached (h : g.Reached s) : s.Within g :=
  h.keeps g.hasItem_startItem (fun _ _ => wf.hasItem_advance)
    fun _ _ => wf.hasItem_of_mem_leadsTo

theorem within_of_state {k : Nat} (hs : g.collection.states[k]? = some s) : s.Within g :=
  wf.within_of_reached (g.collection_explored.1.reached s (List.mem_of_getElem? hs))

/-- A transition leads to the closed set of the items that are moved over its symbol. -/
theorem goto?_eq_some {k n : Nat} {x : Symbol} (h : g.collection.goto? k x = some n) :
    ∃ s t, g.collection.states[k]? = some s ∧ g.collection.states[n]? = some t ∧
      (∃ i ∈ s.items, i.next? = some x) ∧ x ≠ .endOfInput ∧
      t.carrier = g.Closure (advanced s.carrier x) := by
  obtain ⟨s, t, hs, ht, hx, hne, hsame⟩ := g.collection_explored.1.exists_of_goto? h
  have hwithin := wf.within_of_state hs
  refine ⟨s, t, hs, ht, ItemSet.mem_symbols.mp hx, hne, ?_⟩
  rw [← wf.carrier_goto hwithin]
  exact ((wf.same_iff (wf.within_goto hwithin x) (wf.within_of_state ht)).mp hsame).symm

theorem canonical_of_reached (h : g.Reached s) : g.Canonical s.carrier := by
  induction h with
  | start =>
    rw [wf.carrier_startState]
    exact .start
  | goto hs hx hne ih =>
    rw [wf.carrier_goto (wf.within_of_reached hs)]
    exact .goto ih hne (ItemSet.mem_symbols.mp hx)

/-- The states are the canonical collection. -/
theorem canonical_iff {items : Set Item} :
    g.Canonical items ↔ ∃ s ∈ g.collection.states, s.carrier = items := by
  constructor
  · intro h
    induction h with
    | start =>
      exact ⟨g.startState, List.mem_of_getElem? g.collection_explored.1.first,
        wf.carrier_startState⟩
    | goto _ hne hx ih =>
      obtain ⟨s, hs, rfl⟩ := ih
      obtain ⟨k, hk⟩ := List.mem_iff_getElem?.mp hs
      obtain ⟨n, hn⟩ := exists_goto? hk hx hne
      obtain ⟨s', t, hs', ht, -, -, hcarrier⟩ := wf.goto?_eq_some hn
      obtain rfl : s' = s := Option.some.inj (hs'.symm.trans hk)
      exact ⟨t, List.mem_of_getElem? ht, hcarrier⟩
  · rintro ⟨s, hs, rfl⟩
    exact wf.canonical_of_reached (g.collection_explored.1.reached s hs)

theorem hasItem_of_canonical {items : Set Item} (h : g.Canonical items) {i : Item}
    (hi : i ∈ items) : g.HasItem i := by
  obtain ⟨s, hs, rfl⟩ := wf.canonical_iff.mp h
  exact wf.within_of_reached (g.collection_explored.1.reached s hs) i hi

omit wf in
/-- An item with the dot inside comes from one of another set. -/
theorem predecessor_of_dot_ne_zero {items : Set Item} (h : g.Canonical items) {i : Item}
    (hi : i ∈ items) (hdot : i.dot ≠ 0) : ∃ before x, g.Canonical before ∧ x ≠ .endOfInput ∧
      ∃ j ∈ before, j.next? = some x ∧ i = j.advance := by
  cases h with
  | start =>
    cases hi with
    | kernel hi => exact absurd (congrArg Item.dot hi) hdot
    | expand => exact absurd rfl hdot
  | goto hbefore hne _ =>
    cases hi with
    | kernel hi =>
      obtain ⟨j, hj, hx, rfl⟩ := hi
      exact ⟨_, _, hbefore, hne, j, hj, hx, rfl⟩
    | expand => exact absurd rfl hdot

/-- An item with the dot in front is the start item or comes from a nonterminal after a dot. -/
theorem parent_of_dot_eq_zero {items : Set Item} (h : g.Canonical items) {i : Item}
    (hi : i ∈ items) (hdot : i.dot = 0) :
    i = g.startItem ∧ items = g.Closure {g.startItem} ∨ i.production ∈ g.productions ∧
      ∃ j ∈ items, j.next? = some (.nonterminal i.production.head) := by
  have hitem : ∀ {j}, j ∈ items → g.HasItem j := wf.hasItem_of_canonical h
  have expanded : ∀ {kernel p j}, g.Closure kernel = items → p ∈ g.augmentedProductions →
      g.Closure kernel j → j.next? = some (.nonterminal p.head) →
      p ∈ g.productions ∧ ∃ j ∈ items, j.next? = some (.nonterminal p.head) := by
    rintro kernel p j rfl hp hj hx
    exact ⟨wf.mem_productions_of_head hp (wf.mem_heads_of_next? (hitem hj) hx), j, hj, hx⟩
  cases h with
  | start =>
    cases hi with
    | kernel hi => exact .inl ⟨hi, rfl⟩
    | expand hj hp hx => exact .inr (expanded rfl hp hj hx)
  | goto _ _ _ =>
    cases hi with
    | kernel hi =>
      obtain ⟨j, -, -, rfl⟩ := hi
      exact absurd hdot (Nat.succ_ne_zero _)
    | expand hj hp hx => exact .inr (expanded rfl hp hj hx)

end WellFormed

end Grammar

end ShiftReduce
