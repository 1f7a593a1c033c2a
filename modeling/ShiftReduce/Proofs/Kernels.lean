import ShiftReduce.Proofs.CorrectPrefixes
import ShiftReduce.Proofs.Integrity
import ShiftReduce.Proofs.Rounds

/-!
Kernels and the symbols on which states are entered.

A state keeps the kernel of the edge on which it was found, and other edges may bring the same items
in another order. It makes no difference: a closure adds items with the dot in front only, so the
kernel is told from the items, and all edges to a state are on the symbol before those dots.
-/

namespace ShiftReduce

namespace ItemSet

variable {s : ItemSet} {items : List Item}

/-- Items with the dot inside are those of the kernel, items with the dot in front were added. -/
structure IsParted (s : ItemSet) : Prop where
  kernel_eq : s.kernel = s.items.filter fun i => 1 ≤ i.dot
  added_eq : s.added = s.items.filter fun i => i.dot = 0

theorem isParted_of_dots (hkernel : ∀ i ∈ s.kernel, 1 ≤ i.dot)
    (hadded : ∀ i ∈ s.added, i.dot = 0) : s.IsParted where
  kernel_eq := by
    have hnone : s.added.filter (fun i => 1 ≤ i.dot) = [] := by
      apply List.filter_eq_nil_iff.mpr
      intro i hi
      simp [hadded i hi]
    rw [ItemSet.items, List.filter_append, hnone, List.append_nil,
      List.filter_eq_self.mpr (by simpa using hkernel)]
  added_eq := by
    have hnone : s.kernel.filter (fun i => i.dot = 0) = [] := by
      apply List.filter_eq_nil_iff.mpr
      intro i hi
      have := hkernel i hi
      simp only [decide_eq_true_eq]
      omega
    rw [ItemSet.items, List.filter_append, hnone, List.nil_append,
      List.filter_eq_self.mpr (by simpa using hadded)]

theorem isParted_close (g : Grammar) (h : ∀ i ∈ items, 1 ≤ i.dot) :
    ((ofItems items).close g).IsParted := by
  apply isParted_of_dots
  · exact fun i hi => h i (mem_of_mem_fresh hi).1
  · intro i hi
    simp only [close, ofItems, List.nil_append] at hi
    exact (Grammar.closeQueue_front hi).1

end ItemSet

/-- All edges to a state are on one symbol, and its kernel holds the items with the dot inside, which
have that symbol before the dot. -/
structure Collection.IsEnteredOn (c : Collection) (n : Nat) (s : ItemSet) (x : Symbol) : Prop where
  entered : ∃ k, c.goto? k x = some n
  unique : ∀ k y, c.goto? k y = some n → y = x
  parted : s.IsParted
  before : ∀ i ∈ s.kernel, i.before.getLast? = some x

namespace Grammar

/-- What the kernels of the states are. -/
structure HasKernels (g : Grammar) (c : Collection) : Prop where
  start : ∃ s, c.states[0]? = some s ∧ s.kernel = [g.startItem]
  entered : ∀ n s, 0 < n → c.states[n]? = some s → ∃ x, c.IsEnteredOn n s x
  /-- No two states have the same kernel items. -/
  apart : ∀ (k l : Nat) (s t : ItemSet), c.states[k]? = some s → c.states[l]? = some t →
    (∀ core, core ∈ s.kernel.map Item.core ↔ core ∈ t.kernel.map Item.core) → k = l

variable {g : Grammar} {s t : ItemSet} {items : List Item} {k l n : Nat}

theorem kernel_startState (g : Grammar) : g.startState.kernel = [g.startItem] := rfl

/-- Every state but the first has a kernel of items that were moved. -/
theorem isParted_of_state (hpos : 0 < n) (hs : g.collection.states[n]? = some s) :
    s.IsParted := by
  have hreached := g.collection_explored.1.reached s (List.mem_of_getElem? hs)
  cases hreached with
  | start =>
    have hzero := number_eq_of_same hs g.collection_explored.1.first (.refl _)
    exact absurd hzero (Nat.ne_of_gt hpos)
  | @goto before x _ _ _ =>
    apply ItemSet.isParted_close
    intro i hi
    obtain ⟨j, -, rfl⟩ := List.mem_map.mp hi
    exact Nat.succ_pos j.dot

namespace WellFormed

variable (wf : g.WellFormed)

include wf

/-- What a closure holds is what its kernel leads to. -/
theorem carrier_close_eq_closure_kernel (h : ∀ i ∈ items, g.HasItem i) :
    ((ItemSet.ofItems items).close g).carrier =
      g.Closure {i | i ∈ ((ItemSet.ofItems items).close g).kernel} := by
  have hkernel : (ItemSet.ofItems items).carrier =
      {i | i ∈ ((ItemSet.ofItems items).close g).kernel} := by
    simp [ItemSet.carrier, ItemSet.items, ItemSet.ofItems, ItemSet.close]
  rw [wf.carrier_close (wf.within_ofItems h), hkernel]

theorem carrier_eq_closure_kernel (h : g.Reached s) :
    s.carrier = g.Closure {i | i ∈ s.kernel} := by
  cases h with
  | start => exact wf.carrier_close_eq_closure_kernel (by simpa using g.hasItem_startItem)
  | goto hbefore _ _ =>
    exact wf.carrier_close_eq_closure_kernel fun _ hi =>
      wf.hasItem_of_mem_advance (wf.within_of_reached hbefore) hi

theorem isEnteredOn (hpos : 0 < n) (hs : g.collection.states[n]? = some s) :
    ∃ x, g.collection.IsEnteredOn n s x := by
  obtain ⟨hn, -⟩ := List.getElem?_eq_some_iff.mp hs
  -- the edge on which the state was found
  obtain ⟨p, ⟨before, x, -, -, hgoto⟩, -⟩ := g.inOrder_collection.parent n hpos hn
  have hparted := isParted_of_state hpos hs
  refine ⟨x, ⟨_, hgoto⟩, fun k y hy => wf.symbol_unique_of_goto? hy hgoto, hparted, ?_⟩
  intro i hi
  rw [hparted.kernel_eq] at hi
  obtain ⟨hi, hdot⟩ := List.mem_filter.mp hi
  exact wf.before_of_goto? hgoto hs hi (of_decide_eq_true hdot)

theorem number_eq_of_kernel (hs : g.collection.states[k]? = some s)
    (ht : g.collection.states[l]? = some t)
    (h : ∀ core, core ∈ s.kernel.map Item.core ↔ core ∈ t.kernel.map Item.core) : k = l := by
  have reached : ∀ {k : Nat} {s : ItemSet}, g.collection.states[k]? = some s → g.Reached s :=
    fun hs => g.collection_explored.1.reached _ (List.mem_of_getElem? hs)
  have hasItem : ∀ {k : Nat} {s : ItemSet},
      g.collection.states[k]? = some s → ∀ i ∈ s.kernel, g.HasItem i :=
    fun hs _ hi => wf.hasItem_of_state hs (List.mem_append_left _ hi)
  have hkernels : {i | i ∈ s.kernel} = {i | i ∈ t.kernel} := by
    ext i
    exact ⟨fun hi => wf.subset_of_cores (hasItem hs) (hasItem ht) (fun c => (h c).mp) hi,
      fun hi => wf.subset_of_cores (hasItem ht) (hasItem hs) (fun c => (h c).mpr) hi⟩
  apply wf.number_eq_of_carrier_eq hs ht
  rw [wf.carrier_eq_closure_kernel (reached hs), wf.carrier_eq_closure_kernel (reached ht),
    hkernels]

theorem hasKernels : g.HasKernels g.collection where
  start := ⟨g.startState, g.collection_explored.1.first, g.kernel_startState⟩
  entered _ _ hpos hs := wf.isEnteredOn hpos hs
  apart _ _ _ _ hs ht h := wf.number_eq_of_kernel hs ht h

end WellFormed

end Grammar

/-- In the collection of a mapping every state but the first is entered on one symbol, its kernel
holds the items with that symbol before the dot, and all others have the dot in front. The kernel of
the first state is the start item. No two states have the same kernel items. -/
theorem Source.collection_kernels {d : Datum} {g : Grammar}
    (h : (written d).load = .ok g) : g.HasKernels g.collection :=
  (load_wellFormed h).hasKernels

/-- Two ways to the same items, which the alternatives bring in opposite orders. -/
def Source.crossed : Datum :=
  .mapping [(.text "S", .list [.text "a L", .text "b R"]), (.text "L", .list [.text "M", .text "N"]),
    (.text "R", .list [.text "N", .text "M"]), (.text "M", .list [.text "x c", .text "epsilon"]),
    (.text "N", .list [.text "x d"])]

set_option maxRecDepth 100000 in
/-- The state behind the common token has the kernel of the first edge; the second edge brings the
two items the other way round. -/
theorem Source.crossed_kernels : ∃ g, (written crossed).load = .ok g ∧
    g.HasKernels g.collection ∧ ∃ s t u, g.collection.states[2]? = some s ∧
    g.collection.states[3]? = some t ∧ g.collection.states[7]? = some u ∧
    g.collection.goto? 2 (.token "x") = some 7 ∧ g.collection.goto? 3 (.token "x") = some 7 ∧
    (s.goto g (.token "x")).kernel = u.kernel ∧ (t.goto g (.token "x")).kernel = u.kernel.reverse ∧
    u.kernel.length = 2 := by
  have h : Except.passes (fun g => decide (∃ s ∈ g.collection.states[2]?,
      ∃ t ∈ g.collection.states[3]?, ∃ u ∈ g.collection.states[7]?,
      g.collection.goto? 2 (.token "x") = some 7 ∧ g.collection.goto? 3 (.token "x") = some 7 ∧
      (s.goto g (.token "x")).kernel = u.kernel ∧
      (t.goto g (.token "x")).kernel = u.kernel.reverse ∧ u.kernel.length = 2))
      (written crossed).load = true := by
    decide +kernel
  obtain ⟨g, hg, htest⟩ := Except.exists_of_passes h
  obtain ⟨s, hs, t, ht, u, hu, htest⟩ := of_decide_eq_true htest
  exact ⟨g, hg, Source.collection_kernels hg, s, t, u, hs, ht, hu, htest⟩

end ShiftReduce
