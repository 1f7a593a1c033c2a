import Mathlib.Logic.Relation
import ShiftReduce.Proofs.Automaton
import ShiftReduce.Proofs.Loading

/-!
The collection is the canonical one, with its transitions.

Exploring keeps the states apart, so a set is found under one number only. Along the transitions
every state is reached from state 0: a set of the canonical collection is the closure after a
symbol of one that is reached, and the transition on that symbol leads to its only number.
-/

namespace ShiftReduce

namespace Collection

/-- One transition leads from a state to another. -/
def Leads (c : Collection) (k n : Nat) : Prop := ∃ x, c.goto? k x = some n

end Collection

namespace Grammar

/-- Items together with those that the nonterminals after their dots lead to. -/
def Closed (g : Grammar) (items : Set Item) : Prop :=
  ∀ i ∈ items, ∀ p ∈ g.augmentedProductions, i.next? = some (.nonterminal p.head) →
    (⟨p, 0⟩ : Item) ∈ items

/-- The canonical collection, each state numbered once and with its transitions. -/
structure IsCanonicalCollection (g : Grammar) (c : Collection) : Prop where
  length_eq : c.transitions.length = c.states.length
  /-- No two states hold the same items. -/
  apart : ∀ (k l : Nat) (s t : ItemSet), c.states[k]? = some s → c.states[l]? = some t →
    s.carrier = t.carrier → k = l
  closed : ∀ s ∈ c.states, g.Closed s.carrier
  start : ∃ s, c.states[0]? = some s ∧ s.carrier = g.Closure {g.startItem}
  /-- There is a transition on each symbol after a dot but the end of input, and on no other. -/
  goto?_isSome : ∀ (k : Nat) (s : ItemSet) (x : Symbol), c.states[k]? = some s →
    ((∃ n, c.goto? k x = some n) ↔ x ≠ .endOfInput ∧ ∃ i ∈ s.items, i.next? = some x)
  target : ∀ (k n : Nat) (s : ItemSet) (x : Symbol), c.states[k]? = some s →
    c.goto? k x = some n →
      ∃ t, c.states[n]? = some t ∧ t.carrier = g.Closure (advanced s.carrier x)
  reachable : ∀ k < c.size, Relation.ReflTransGen c.Leads 0 k
  index? : ∀ (k : Nat) (s : ItemSet), c.states[k]? = some s → c.index? s = some k
  /-- The states are the least family with the start state and the closures after its symbols. -/
  least : ∀ items, (∃ s ∈ c.states, s.carrier = items) ↔ g.Canonical items

variable {g : Grammar} {items : Set Item} {s t : ItemSet} {k l n : Nat} {x : Symbol}

theorem Canonical.closed (h : g.Canonical items) : g.Closed items :=
  fun _ hi _ hp hx => h.expand hi hp hx

/-- A set of items has one number. -/
theorem number_eq_of_same (hs : g.collection.states[k]? = some s)
    (ht : g.collection.states[l]? = some t) (h : s.Same t) : k = l := by
  have apart := List.pairwise_iff_getElem.mp g.collection_explored.1.apart
  obtain ⟨hk, rfl⟩ := List.getElem?_eq_some_iff.mp hs
  obtain ⟨hl, rfl⟩ := List.getElem?_eq_some_iff.mp ht
  rcases Nat.lt_trichotomy k l with hlt | heq | hgt
  · exact absurd h (apart k l hk hl hlt)
  · exact heq
  · exact absurd h.symm (apart l k hl hk hgt)

theorem index?_eq (hs : g.collection.states[k]? = some s) : g.collection.index? s = some k := by
  obtain ⟨hk, rfl⟩ := List.getElem?_eq_some_iff.mp hs
  apply List.findIdx?_eq_some_iff_getElem.mpr
  refine ⟨hk, by simpa using ItemSet.Same.refl _, ?_⟩
  intro l hlt hsame
  have hl := Nat.lt_trans hlt hk
  have heq := number_eq_of_same hs (List.getElem?_eq_getElem hl) (by simpa using hsame)
  exact absurd heq (Nat.ne_of_gt hlt)

namespace WellFormed

variable (wf : g.WellFormed)

include wf

theorem canonical_of_state (hs : g.collection.states[k]? = some s) : g.Canonical s.carrier :=
  wf.canonical_iff.mpr ⟨s, List.mem_of_getElem? hs, rfl⟩

theorem number_eq_of_carrier_eq (hs : g.collection.states[k]? = some s)
    (ht : g.collection.states[l]? = some t) (h : s.carrier = t.carrier) : k = l := by
  apply number_eq_of_same hs ht
  exact (wf.same_iff (wf.within_of_state hs) (wf.within_of_state ht)).mpr h

theorem exists_goto?_iff (hs : g.collection.states[k]? = some s) :
    (∃ n, g.collection.goto? k x = some n) ↔
      x ≠ .endOfInput ∧ ∃ i ∈ s.items, i.next? = some x := by
  constructor
  · rintro ⟨n, hn⟩
    obtain ⟨s', -, hs', -, hx, hne, -⟩ := wf.goto?_eq_some hn
    obtain rfl : s = s' := Option.some.inj (hs.symm.trans hs')
    exact ⟨hne, hx⟩
  · rintro ⟨hne, hx⟩
    exact exists_goto? hs hx hne

theorem target_of_goto? (hs : g.collection.states[k]? = some s)
    (h : g.collection.goto? k x = some n) :
    ∃ t, g.collection.states[n]? = some t ∧ t.carrier = g.Closure (advanced s.carrier x) := by
  obtain ⟨s', t, hs', ht, -, -, hcarrier⟩ := wf.goto?_eq_some h
  obtain rfl : s = s' := Option.some.inj (hs.symm.trans hs')
  exact ⟨t, ht, hcarrier⟩

/-- A set of the canonical collection is that of a state to which transitions lead. -/
theorem exists_reachable (h : g.Canonical items) : ∃ k s, g.collection.states[k]? = some s ∧
    s.carrier = items ∧ Relation.ReflTransGen g.collection.Leads 0 k := by
  induction h with
  | start =>
    exact ⟨0, g.startState, g.collection_explored.1.first, wf.carrier_startState, .refl⟩
  | @goto items x _ hne hx ih =>
    obtain ⟨k, s, hs, rfl, hpath⟩ := ih
    obtain ⟨n, hn⟩ := exists_goto? hs hx hne
    obtain ⟨t, ht, hcarrier⟩ := wf.target_of_goto? hs hn
    exact ⟨n, t, ht, hcarrier, hpath.tail ⟨x, hn⟩⟩

theorem reachable_of_lt (h : k < g.collection.size) :
    Relation.ReflTransGen g.collection.Leads 0 k := by
  have hs := List.getElem?_eq_getElem h
  obtain ⟨l, t, ht, hcarrier, hpath⟩ := wf.exists_reachable (wf.canonical_of_state hs)
  rwa [wf.number_eq_of_carrier_eq hs ht hcarrier.symm]

theorem isCanonicalCollection : g.IsCanonicalCollection g.collection where
  length_eq := g.collection_explored.2
  apart _ _ _ _ hs ht h := wf.number_eq_of_carrier_eq hs ht h
  closed s hs := (wf.canonical_iff.mpr ⟨s, hs, rfl⟩).closed
  start := ⟨g.startState, g.collection_explored.1.first, wf.carrier_startState⟩
  goto?_isSome _ _ _ hs := wf.exists_goto?_iff hs
  target _ _ _ _ hs h := wf.target_of_goto? hs h
  reachable _ h := wf.reachable_of_lt h
  index? _ _ hs := index?_eq hs
  least _ := wf.canonical_iff.symm

end WellFormed

end Grammar

/-- The collection of a mapping is the canonical collection of its grammar. -/
theorem Source.collection_isCanonical {d : Datum} {g : Grammar}
    (h : (Source.written d).load = .ok g) : g.IsCanonicalCollection g.collection :=
  (Source.load_wellFormed h).isCanonicalCollection

set_option maxRecDepth 100000 in
/-- From the state behind an opening parenthesis another one leads back to it. -/
theorem Source.balanced_collection : ∃ g, (Source.written balanced).load = .ok g ∧
    g.IsCanonicalCollection g.collection ∧ g.collection.size = 6 ∧
    g.collection.goto? 0 (.token "(") = some 2 ∧ g.collection.goto? 2 (.token "(") = some 2 := by
  have h : Except.passes (fun g => decide (g.collection.size = 6 ∧
      g.collection.goto? 0 (.token "(") = some 2 ∧ g.collection.goto? 2 (.token "(") = some 2))
      (Source.written balanced).load = true := by
    decide +kernel
  obtain ⟨g, hg, htest⟩ := Except.exists_of_passes h
  exact ⟨g, hg, Source.collection_isCanonical hg, of_decide_eq_true htest⟩

end ShiftReduce
