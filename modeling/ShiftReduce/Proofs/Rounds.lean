import Mathlib.Data.Set.Card
import ShiftReduce.Proofs.BreadthFirst
import ShiftReduce.Proofs.FollowSets

/-!
The loops of a construction end by themselves.

Each loop is described without a bound, as a relation between where it starts, how many rounds it
makes and how it ends. Sets of symbols are gone over until a pass adds nothing, a closure works off
its items, an exploration its states; what is computed with a bound or a rank is such a run. Nothing
is asked of the grammar: a head or a nonterminal in a body that it does not have can only end the
passes with an error.
-/

namespace ShiftReduce

namespace Facts

/-- Facts that keep the old ones, where some set has gained a symbol. -/
structure Gains (names : List String) (symbols : List Symbol) (f t : Facts) : Prop where
  kept : ∀ name, f.of name ⊆ t.of name
  gained : ∃ name ∈ names, ∃ x ∈ t.of name, x ∉ f.of name
  /-- No set has a symbol from elsewhere. -/
  bounded : ∀ name, t.of name ⊆ symbols

variable {names : List String} {symbols : List Symbol} {f t : Facts}

theorem Within.gains (ht : t.Within names symbols) (hgrows : f <+: t) (hlt : f.length < t.length) :
    f.Gains names symbols t where
  kept name x hx := mem_of.mpr (hgrows.subset (mem_of.mp hx))
  gained := by
    obtain ⟨new, rfl⟩ := hgrows
    cases new with
    | nil => simp at hlt
    | cons fact rest =>
      obtain ⟨name, x⟩ := fact
      refine ⟨name, (ht.mem (name, x) (by simp)).1, x, mem_of.mpr (by simp), fun hx => ?_⟩
      have hdisjoint := (List.nodup_append.mp ht.nodup).2.2
      exact hdisjoint _ (mem_of.mp hx) _ List.mem_cons_self rfl
  bounded name x hx := (ht.mem _ (mem_of.mp hx)).2

end Facts

namespace Grammar

/-- A loop that repeats a pass until one adds nothing, with the number of passes and the end. -/
inductive Repeats (g : Grammar) (pass : Facts → Except Undeclared Facts) :
    Nat → Facts → Except Undeclared Facts → Prop where
  | failed {f : Facts} {e : Undeclared} : pass f = .error e → Repeats g pass 1 f (.error e)
  | settled {f : Facts} : pass f = .ok f → Repeats g pass 1 f (.ok f)
  | again {n : Nat} {f t : Facts} {result : Except Undeclared Facts} : pass f = .ok t →
      f.Gains g.names g.factSymbols t → Repeats g pass n t result →
      Repeats g pass (n + 1) f result

/-- A worklist of items: each item brings those that it leads to and that have not been seen. With
the number of rounds and the items that are added. -/
inductive WorksOff (g : Grammar) : List (Rule × Nat) → List Item → Nat → List Item → Prop where
  | done {seen : List (Rule × Nat)} : WorksOff g seen [] 0 []
  | round {seen : List (Rule × Nat)} {i : Item} {queue new added : List Item} {n : Nat} :
      new = fresh seen (g.leadsTo i) →
      WorksOff g (new.map Item.core ++ seen) (queue ++ new) n added →
      WorksOff g seen (i :: queue) (n + 1) (new ++ added)

/-- An exploration that visits the first state without transitions as long as there is one, with
the number of states visited and the collection at the end. -/
inductive Explores (g : Grammar) : Collection → Nat → Collection → Prop where
  | done {c : Collection} : c.states[c.transitions.length]? = none → Explores g c 0 c
  | round {c result : Collection} {s : ItemSet} {n : Nat} :
      c.states[c.transitions.length]? = some s → Explores g (Collection.visit g c s) n result →
      Explores g c (n + 1) result

/-- The items of the reachable productions. -/
def involvedCores (g : Grammar) : Set (Rule × Nat) :=
  {c | ∃ i, g.InvolvesItem i ∧ i.core = c}

/-- The loops that make the sets and the automaton of a grammar end. -/
structure Ends (g : Grammar) : Prop where
  first : ∃ n ≤ g.factCount + 1, g.Repeats g.firstPass n [] g.firstFacts
  follow : ∀ first, g.firstFacts = .ok first →
    ∃ n ≤ g.factCount + 1, g.Repeats (g.followPass first) n [] (g.followFacts first)
  /-- A closure adds items with the dot in front, none of them twice. -/
  closure : ∀ s : ItemSet, ∃ added, s.close g = ⟨s.kernel, s.added ++ added⟩ ∧
    g.WorksOff s.cores s.items (s.items.length + added.length) added ∧
    (∀ i ∈ added, i.dot = 0 ∧ i.production ∈ g.expandable ∧ i.core ∉ s.cores) ∧
    (added.map Item.core).Nodup ∧ added.length ≤ g.expandable.length
  collection : g.Explores ⟨[g.startState], []⟩ g.collection.size g.collection
  finite : g.involvedCores.Finite
  size_le : g.collection.size ≤ 2 ^ g.involvedCores.ncard

variable {g : Grammar} {pass : Facts → Except Undeclared Facts} {f t : Facts}
  {seen : List (Rule × Nat)} {queue : List Item} {states : List ItemSet}
  {done : List Transitions}

/-- Saturation is such a loop: the rank falls exactly if a pass has added something. -/
theorem exists_repeats (grows : ∀ f t, pass f = .ok t → f <+: t)
    (within : ∀ f t, f.Within g.names g.factSymbols → pass f = .ok t →
      t.Within g.names g.factSymbols) (hf : f.Within g.names g.factSymbols) :
    ∃ n, n + f.length ≤ g.factCount + 1 ∧
      g.Repeats pass n f (saturate (fun f => g.factCount - f.length) pass f) := by
  have room : ∀ {f : Facts}, f.Within g.names g.factSymbols → f.length ≤ g.factCount :=
    fun hf => g.factCount_eq ▸ hf.length_le
  fun_induction saturate (fun f : Facts => g.factCount - f.length) pass f with
  | case1 f e he => exact ⟨1, by have := room hf; omega, .failed he⟩
  | case2 f t ht hlt ih =>
    have hwithin := within f t hf ht
    have hroom := room hwithin
    have hlonger : f.length < t.length := by omega
    obtain ⟨n, hn, hrepeats⟩ := ih hwithin
    exact ⟨n + 1, by omega, .again ht (hwithin.gains (grows f t ht) hlonger) hrepeats⟩
  | case3 f t ht hge =>
    have hroom := room (within f t hf ht)
    obtain rfl := (grows f t ht).eq_of_length_le (by omega)
    exact ⟨1, by omega, .settled ht⟩

theorem worksOff_closeQueue (g : Grammar) (seen : List (Rule × Nat)) (queue : List Item) :
    g.WorksOff seen queue (queue.length + (g.closeQueue seen queue).length)
      (g.closeQueue seen queue) := by
  fun_induction closeQueue g seen queue with
  | case1 seen => exact .done
  | case2 seen i queue new ih =>
    have hrounds : (i :: queue).length + (new ++ g.closeQueue (new.map Item.core ++ seen)
        (queue ++ new)).length = (queue ++ new).length + (g.closeQueue (new.map Item.core ++ seen)
        (queue ++ new)).length + 1 := by
      simp only [List.length_cons, List.length_append]
      omega
    rw [hrounds]
    exact .round rfl ih

theorem closeQueue_front {i : Item} (hi : i ∈ g.closeQueue seen queue) :
    i.dot = 0 ∧ i.production ∈ g.expandable := by
  fun_induction closeQueue g seen queue with
  | case1 seen => simp at hi
  | case2 seen j queue new ih =>
    rcases List.mem_append.mp hi with hi | hi
    · obtain ⟨p, hp, rfl⟩ := List.mem_map.mp (mem_of_mem_fresh hi).1
      exact ⟨rfl, g.expansion_subset j hp⟩
    · exact ih hi

theorem length_closeQueue_le (g : Grammar) (seen : List (Rule × Nat)) (queue : List Item) :
    (g.closeQueue seen queue).length ≤ g.expandable.length := by
  have hsub : (g.closeQueue seen queue).map Item.core ⊆
      g.expandable.map fun p => (p.toRule, 0) := by
    intro c hc
    obtain ⟨i, hi, rfl⟩ := List.mem_map.mp hc
    obtain ⟨hdot, hp⟩ := closeQueue_front hi
    exact List.mem_map.mpr ⟨i.production, hp, by rw [Item.core, hdot]⟩
  simpa using (List.subperm_of_subset (g.nodup_core_closeQueue seen queue).1 hsub).length_le

theorem explores_explore {bound : Nat} (h : g.Explored states done)
    (hbound : 2 ^ g.itemCount ≤ bound + done.length) :
    ∃ n, n + done.length = (Collection.explore g bound states done).states.length ∧
      g.Explores ⟨states, done⟩ n (Collection.explore g bound states done) := by
  induction bound generalizing states done with
  | zero =>
    have hle := h.length_le_pow
    have hge := h.length_le
    refine ⟨0, ?_, .done (List.getElem?_eq_none ?_)⟩
    · simp only [Collection.explore]
      omega
    · simp only
      omega
  | succ bound ih =>
    simp only [Collection.explore]
    cases hs : states[done.length]? with
    | none =>
      have hle := List.getElem?_eq_none_iff.mp hs
      have hge := h.length_le
      exact ⟨0, by simp only; omega, .done hs⟩
    | some s =>
      obtain ⟨n, hn, hexplores⟩ := ih (h.connect hs) (by
        simp only [List.length_append, List.length_singleton]
        omega)
      refine ⟨n + 1, ?_, .round hs hexplores⟩
      simp only [List.length_append, List.length_singleton] at hn
      simp only
      omega

theorem finite_involvedCores (g : Grammar) : g.involvedCores.Finite := by
  refine (List.finite_toSet g.itemCores).subset ?_
  rintro c ⟨i, hi, rfl⟩
  exact hi.core_mem

/-- States that differ hold different sets of items of the reachable productions. -/
theorem size_collection_le (g : Grammar) :
    g.collection.size ≤ 2 ^ g.involvedCores.ncard := by
  have hfinite := g.finite_involvedCores
  have hexplored := g.collection_explored.1
  have hle : g.collection.states.length ≤ 2 ^ hfinite.toFinset.toList.length := by
    refine length_le_of_pairwise ItemSet.cores ?_ hexplored.apart
    intro s hs c hc
    obtain ⟨i, hi, rfl⟩ := List.mem_map.mp hc
    have hi := (hexplored.reached s hs).involvesItem i hi
    exact Finset.mem_toList.mpr (hfinite.mem_toFinset.mpr ⟨i, hi, rfl⟩)
  rwa [Finset.length_toList, ← Set.ncard_eq_toFinset_card _ hfinite] at hle

/-- Whatever a grammar comes from, the loops that make its sets and its automaton end: in a pass
that adds nothing or in an error, with the worklists worked off, and with no more states than sets
of items of the reachable productions. -/
theorem construction_ends (g : Grammar) : g.Ends where
  first := exists_repeats (fun _ _ => firstPass_grows) (fun _ _ => firstPass_within)
    (Facts.within_nil _ _)
  follow first hfirst := exists_repeats (fun _ _ => followPass_grows)
    (fun _ _ => followPass_within (firstFacts_within hfirst)) (Facts.within_nil _ _)
  closure s := by
    obtain ⟨hnodup, hseen⟩ := g.nodup_core_closeQueue s.cores s.items
    refine ⟨_, rfl, g.worksOff_closeQueue _ _, ?_, hnodup, g.length_closeQueue_le _ _⟩
    intro i hi
    obtain ⟨hdot, hp⟩ := closeQueue_front hi
    exact ⟨hdot, hp, hseen _ (List.mem_map_of_mem hi)⟩
  collection := by
    obtain ⟨n, hn, hexplores⟩ := explores_explore (explored_start g) (Nat.le_refl _)
    obtain rfl : n = g.collection.size := hn
    exact hexplores
  finite := g.finite_involvedCores
  size_le := g.size_collection_le

end Grammar

/-- A left recursive list of a nonterminal that is not one of the grammar, derives itself and has no
words. -/
def Source.foreign : DeclaredSource where
  count := 2
  outlines := #v[
    ⟨"List", [⟨"List", .nonterminal (place 0), [.nonterminal (place 1)]⟩,
      ⟨"List", .other .epsilon rfl, []⟩]⟩,
    ⟨"Loop", [⟨"Loop", .nonterminal (place 1), []⟩,
      ⟨"Loop", .nonterminal (place 0), [.nonterminal (place 1)]⟩]⟩]
  listed := [place 0]
  start := place 0
  tokens := []

set_option maxRecDepth 100000 in
example : Except.passes (fun g => decide (g.firstFacts = .error ⟨"Loop"⟩ ∧
    g.collection.size = 5)) Source.foreign.load = true := by
  decide +kernel

end ShiftReduce
