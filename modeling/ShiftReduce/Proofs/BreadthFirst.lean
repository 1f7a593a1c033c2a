import Mathlib.Data.Prod.Lex
import Mathlib.Order.Bounds.Defs
import Mathlib.Order.WellFounded
import ShiftReduce.Proofs.CanonicalCollection

/-!
States are numbered breadth first.

An edge is told by the state that it leaves and the place of its symbol among those after the dots
of that state. Edges in lexicographic order are edges in the order in which the exploration meets
them, and a state takes its number when the first edge to it is met. So the first edges are in the
order of the numbers, and no path to a state is shorter than one to a state before it.
-/

namespace ShiftReduce

/-- Of the elements that are left by a filter, an earlier one has the earlier place. -/
theorem exists_getElem?_of_filter {α : Type} {k : Nat} {l before after : List α}
    {keep : α → Bool} {a b : α} (hnodup : l.Nodup) (h : l.filter keep = before ++ a :: after)
    (ha : l[k]? = some a) (hb : b ∈ before) : ∃ i < k, l[i]? = some b := by
  obtain ⟨l₁, l₂, rfl, rfl, hafter⟩ := List.filter_eq_append_iff.mp h
  obtain ⟨i, hi⟩ := List.mem_iff_getElem?.mp (List.mem_filter.mp hb).1
  obtain ⟨hlt, -⟩ := List.getElem?_eq_some_iff.mp hi
  refine ⟨i, ?_, by rwa [List.getElem?_append_left hlt]⟩
  by_contra hle
  have ha₁ : a ∈ l₁ := by
    rw [List.getElem?_append_left (by omega)] at ha
    exact List.mem_of_getElem? ha
  have ha₂ : a ∈ l₂ := (List.mem_filter.mp (hafter ▸ List.mem_cons_self)).1
  exact (List.nodup_append.mp hnodup).2.2 a ha₁ a ha₂ rfl

theorem exists_isLeast {α : Type} [LinearOrder α] [WellFoundedLT α] {s : Set α}
    (h : s.Nonempty) : ∃ a, IsLeast s a := by
  obtain ⟨a, ha, hle⟩ := wellFounded_lt.has_min s h
  exact ⟨a, ha, fun b hb => not_lt.mp (hle b hb)⟩

namespace Collection

variable {g : Grammar} {s t : ItemSet} {states : List ItemSet} {symbols : List Symbol}
  {x : Symbol} {k m n : Nat}

theorem exists_of_lt_connect (hm : states.length ≤ m)
    (hlt : m < (connect g s states symbols).1.length) :
    ∃ y, (y, m) ∈ (connect g s states symbols).2 := by
  fun_induction connect g s states symbols with
  | case1 states => exact absurd hlt (Nat.not_lt.mpr hm)
  | case2 states x rest target n hn more row hrest ih =>
    rw [hrest] at ih
    obtain ⟨y, hy⟩ := ih hm hlt
    exact ⟨y, List.mem_cons_of_mem _ hy⟩
  | case3 states x rest target hnone more row hrest ih =>
    rw [hrest] at ih
    rcases Nat.eq_or_lt_of_le hm with rfl | hm
    · exact ⟨x, List.mem_cons_self⟩
    · obtain ⟨y, hy⟩ := ih (by simpa using Nat.succ_le_of_lt hm) hlt
      exact ⟨y, List.mem_cons_of_mem _ hy⟩

/-- The new states are met in the order of their numbers. -/
theorem connect_ordered {before after : Transitions} (hm : states.length ≤ m) (hmn : m < n)
    (h : (connect g s states symbols).2 = before ++ (x, n) :: after) :
    ∃ y, (y, m) ∈ before := by
  induction symbols generalizing states before with
  | nil => simp [connect] at h
  | cons y rest ih =>
    rw [connect] at h
    split at h
    · rename_i l hl
      cases before with
      | nil =>
        -- The edge leads to a state that was there before.
        obtain ⟨heq, -⟩ := List.cons.inj h
        obtain ⟨-, rfl⟩ := Prod.mk.inj heq
        obtain ⟨t, ht, -⟩ := find?_eq_some hl
        obtain ⟨hlt, -⟩ := List.getElem?_eq_some_iff.mp ht
        omega
      | cons e before =>
        obtain ⟨z, hz⟩ := ih hm (List.cons.inj h).2
        exact ⟨z, List.mem_cons_of_mem _ hz⟩
    · cases before with
      | nil =>
        obtain ⟨heq, -⟩ := List.cons.inj h
        obtain ⟨-, rfl⟩ := Prod.mk.inj heq
        omega
      | cons e before =>
        obtain ⟨heq, h⟩ := List.cons.inj h
        rcases Nat.eq_or_lt_of_le hm with rfl | hm
        · exact ⟨y, heq ▸ List.mem_cons_self⟩
        · obtain ⟨z, hz⟩ := ih (by simpa using Nat.succ_le_of_lt hm) h
          exact ⟨z, List.mem_cons_of_mem _ hz⟩

/-- The edges to a state: the state that an edge leaves, and the place of its symbol among the
symbols after the dots of that state. They are in lexicographic order. -/
def edgesTo (c : Collection) (n : Nat) : Set (Nat ×ₗ Nat) :=
  {p | ∃ s x, c.states[(ofLex p).1]? = some s ∧ s.symbols[(ofLex p).2]? = some x ∧
    c.goto? (ofLex p).1 x = some n}

/-- There is a path of some length from state 0 to a state. -/
inductive Path (c : Collection) : Nat → Nat → Prop where
  | start : Path c 0 0
  | step {l k n : Nat} : Path c l k → c.Leads k n → Path c (l + 1) n

/-- The states are numbered in the order in which a search in breadth meets them. -/
structure BreadthFirst (c : Collection) : Prop where
  /-- Every state but the first has a first edge, and that leaves a state before it. -/
  parent : ∀ n, 0 < n → n < c.size → ∃ p, IsLeast (c.edgesTo n) p ∧ (ofLex p).1 < n
  parent_lt : ∀ m n p q, 0 < m → m < n → IsLeast (c.edgesTo m) p → IsLeast (c.edgesTo n) q → p < q
  distance : ∀ n < c.size, ∃ l, IsLeast {l | c.Path l n} l
  distance_le : ∀ m n k l, m ≤ n → IsLeast {l | c.Path l m} k → IsLeast {l | c.Path l n} l → k ≤ l

/-- Of two states that were met, the one with the lower number has the earlier edge. -/
structure InOrder (c : Collection) : Prop where
  parent : ∀ n, 0 < n → n < c.size → ∃ p ∈ c.edgesTo n, (ofLex p).1 < n
  ordered : ∀ m n p, 0 < m → m < n → p ∈ c.edgesTo n → ∃ q ∈ c.edgesTo m, q < p

variable {c : Collection} {p : Nat ×ₗ Nat}

theorem lt_of_mem_edgesTo (hp : p ∈ c.edgesTo n) : (ofLex p).1 < c.transitions.length := by
  obtain ⟨s, x, -, -, hn⟩ := hp
  unfold goto? at hn
  split at hn
  · rename_i row hrow
    exact (List.getElem?_eq_some_iff.mp hrow).1
  · cases hn

/-- The collection after one more state has its transitions. -/
def visit (g : Grammar) (c : Collection) (s : ItemSet) : Collection :=
  let (states, row) := connect g s c.states (s.symbols.filter (· ≠ .endOfInput))
  ⟨states, c.transitions ++ [row]⟩

theorem visit_grows : c.states <+: (visit g c s).states :=
  connect_grows g s c.states _

theorem mem_edgesTo_visit_of_mem (hp : p ∈ c.edgesTo n) : p ∈ (visit g c s).edgesTo n := by
  have hlt := lt_of_mem_edgesTo hp
  obtain ⟨t, x, ht, hx, hn⟩ := hp
  refine ⟨t, x, getElem?_of_grows visit_grows ht, hx, ?_⟩
  simpa only [goto?, visit, List.getElem?_append_left hlt] using hn

theorem mem_edgesTo_visit (hs : c.states[c.transitions.length]? = some s)
    (hx : s.symbols[k]? = some x)
    (hn : (x, n) ∈ (connect g s c.states (s.symbols.filter (· ≠ .endOfInput))).2) :
    toLex (c.transitions.length, k) ∈ (visit g c s).edgesTo n := by
  refine ⟨s, x, getElem?_of_grows visit_grows hs, hx, ?_⟩
  have hdistinct : Dictionary.Distinct
      (connect g s c.states (s.symbols.filter (· ≠ .endOfInput))).2 := by
    apply Dictionary.distinct_of_nodup
    rw [connect_keys]
    exact s.nodup_symbols.filter _
  simpa [goto?, visit] using hdistinct.mem_iff.mp hn

/-- An edge that is new leaves the state that is visited. -/
theorem cases_of_mem_edgesTo_visit (hle : c.transitions.length ≤ c.states.length)
    (hs : c.states[c.transitions.length]? = some s) (hp : p ∈ (visit g c s).edgesTo n) :
    p ∈ c.edgesTo n ∨ (ofLex p).1 = c.transitions.length ∧ ∃ x, s.symbols[(ofLex p).2]? = some x ∧
      (x, n) ∈ (connect g s c.states (s.symbols.filter (· ≠ .endOfInput))).2 := by
  have hlt := lt_of_mem_edgesTo hp
  obtain ⟨t, x, ht, hx, hn⟩ := hp
  simp only [visit, List.length_append, List.length_singleton] at hlt
  rcases Nat.eq_or_lt_of_le (Nat.le_of_lt_succ hlt) with heq | hlt
  · right
    rw [heq, getElem?_of_grows visit_grows hs] at ht
    cases ht
    refine ⟨heq, x, hx, ?_⟩
    simp only [goto?, visit, heq, List.getElem?_concat_length] at hn
    exact Dictionary.mem_of_get? hn
  · left
    have hu := List.getElem?_eq_getElem (Nat.lt_of_lt_of_le hlt hle)
    rw [getElem?_of_grows visit_grows hu] at ht
    cases ht
    refine ⟨_, x, hu, hx, ?_⟩
    simpa only [goto?, visit, List.getElem?_append_left hlt] using hn

theorem InOrder.visit (h : c.InOrder) (hle : c.transitions.length ≤ c.states.length)
    (hs : c.states[c.transitions.length]? = some s) : (visit g c s).InOrder := by
  obtain ⟨hlt, -⟩ := List.getElem?_eq_some_iff.mp hs
  constructor
  · intro n hpos hn
    rcases Nat.lt_or_ge n c.states.length with hold | hnew
    · obtain ⟨p, hp, hless⟩ := h.parent n hpos hold
      exact ⟨p, mem_edgesTo_visit_of_mem hp, hless⟩
    · obtain ⟨y, hy⟩ := exists_of_lt_connect hnew hn
      have hmem : y ∈ s.symbols := by
        have := List.mem_map_of_mem (f := Prod.fst) hy
        rw [connect_keys] at this
        exact (List.mem_filter.mp this).1
      obtain ⟨k, hk⟩ := List.mem_iff_getElem?.mp hmem
      exact ⟨_, mem_edgesTo_visit hs hk hy, Nat.lt_of_lt_of_le hlt hnew⟩
  · intro m n p hpos hmn hp
    rcases cases_of_mem_edgesTo_visit hle hs hp with hp | ⟨hstate, x, hx, hmem⟩
    · obtain ⟨q, hq, hless⟩ := h.ordered m n p hpos hmn hp
      exact ⟨q, mem_edgesTo_visit_of_mem hq, hless⟩
    · rcases Nat.lt_or_ge m c.states.length with hold | hnew
      · obtain ⟨q, hq, -⟩ := h.parent m hpos hold
        refine ⟨q, mem_edgesTo_visit_of_mem hq, Prod.Lex.lt_iff.mpr (.inl ?_)⟩
        exact hstate ▸ lt_of_mem_edgesTo hq
      · obtain ⟨before, after, hrow⟩ := List.append_of_mem hmem
        obtain ⟨y, hy⟩ := connect_ordered hnew hmn hrow
        have hkeys := congrArg (List.map Prod.fst) hrow
        rw [connect_keys, List.map_append, List.map_cons] at hkeys
        obtain ⟨i, hi, hyi⟩ := exists_getElem?_of_filter s.nodup_symbols hkeys hx
          (List.mem_map_of_mem hy)
        refine ⟨_, mem_edgesTo_visit hs hyi (hrow ▸ List.mem_append_left _ hy), ?_⟩
        exact Prod.Lex.lt_iff.mpr (.inr ⟨hstate.symm, hi⟩)

theorem InOrder.explore {done : List Transitions} {bound : Nat}
    (h : g.Explored states done) (hordered : InOrder ⟨states, done⟩) :
    (Collection.explore g bound states done).InOrder := by
  induction bound generalizing states done with
  | zero => exact hordered
  | succ bound ih =>
    simp only [Collection.explore]
    cases hs : states[done.length]? with
    | none => exact hordered
    | some s => exact ih (h.connect hs) (hordered.visit h.length_le hs)

end Collection

namespace Grammar

open Collection

variable {g : Grammar} {k l m n : Nat} {x : Symbol}

theorem inOrder_collection (g : Grammar) : g.collection.InOrder := by
  refine InOrder.explore (explored_start g) ⟨?_, ?_⟩
  · intro n hpos hn
    exact absurd hn (Nat.not_lt.mpr hpos)
  · rintro m n p - - ⟨s, x, -, -, hn⟩
    simp [goto?] at hn

theorem exists_edge (h : g.collection.goto? k x = some n) :
    n < g.collection.size ∧ ∃ i, toLex (k, i) ∈ g.collection.edgesTo n := by
  obtain ⟨s, t, hs, ht, hx, -, -⟩ := g.collection_explored.1.exists_of_goto? h
  obtain ⟨hn, -⟩ := List.getElem?_eq_some_iff.mp ht
  obtain ⟨i, hi⟩ := List.mem_iff_getElem?.mp hx
  exact ⟨hn, i, s, x, hs, hi, h⟩

/-- No state is nearer to state 0 than one before it. -/
theorem exists_path_le (h : g.collection.Path l n) (hmn : m ≤ n) :
    ∃ k ≤ l, g.collection.Path k m := by
  induction h generalizing m with
  | start =>
    obtain rfl := Nat.le_zero.mp hmn
    exact ⟨0, Nat.le_refl _, .start⟩
  | @step l k n hpath hleads ih =>
    rcases Nat.eq_zero_or_pos m with rfl | hpos
    · exact ⟨0, Nat.zero_le _, .start⟩
    rcases Nat.eq_or_lt_of_le hmn with rfl | hmn
    · exact ⟨l + 1, Nat.le_refl _, hpath.step hleads⟩
    -- The state has an earlier edge than the last one of the path, which leaves no later state.
    obtain ⟨x, hn⟩ := hleads
    obtain ⟨-, i, hedge⟩ := exists_edge hn
    obtain ⟨q, ⟨s, y, -, -, hm⟩, hless⟩ := g.inOrder_collection.ordered m n _ hpos hmn hedge
    obtain ⟨j, hj, hpath⟩ := ih (Prod.Lex.monotone_fst _ _ hless.le)
    exact ⟨j + 1, Nat.succ_le_succ hj, hpath.step ⟨y, hm⟩⟩

theorem exists_path (hn : n < g.collection.size) : ∃ l, g.collection.Path l n := by
  induction n using Nat.strong_induction_on with
  | _ n ih =>
    rcases Nat.eq_zero_or_pos n with rfl | hpos
    · exact ⟨0, .start⟩
    · obtain ⟨p, ⟨s, x, -, -, hgoto⟩, hless⟩ := g.inOrder_collection.parent n hpos hn
      obtain ⟨l, hl⟩ := ih _ hless (Nat.lt_trans hless hn)
      exact ⟨l + 1, hl.step ⟨x, hgoto⟩⟩

/-- The states of a grammar are numbered breadth first. -/
theorem collection_breadthFirst (g : Grammar) : g.collection.BreadthFirst where
  parent n hpos hn := by
    obtain ⟨p, hp, hless⟩ := g.inOrder_collection.parent n hpos hn
    obtain ⟨q, hq⟩ := exists_isLeast ⟨p, hp⟩
    exact ⟨q, hq, Nat.lt_of_le_of_lt (Prod.Lex.monotone_fst _ _ (hq.2 hp)) hless⟩
  parent_lt m n p q hpos hmn hp hq := by
    obtain ⟨r, hr, hless⟩ := g.inOrder_collection.ordered m n q hpos hmn hq.1
    exact lt_of_le_of_lt (hp.2 hr) hless
  distance n hn := exists_isLeast (exists_path hn)
  distance_le m n k l hmn hk hl := by
    obtain ⟨j, hj, hpath⟩ := exists_path_le hl.1 hmn
    exact Nat.le_trans (hk.2 hpath) hj

end Grammar

end ShiftReduce
