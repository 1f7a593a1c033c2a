import Mathlib.Data.Set.Insert
import ShiftReduce.Collection
import ShiftReduce.Proofs.Items

/-!
Closures and gotos as sets of items.

The closure that is computed with a queue is the least set that holds the items it started from
and, for every nonterminal after a dot, the items of its productions with the dot in front. In a
well-formed grammar two item sets are the same exactly if they hold the same items.
-/

namespace ShiftReduce

section Fresh

variable {seen : List (Rule × Nat)} {items : List Item} {i : Item}

theorem mem_of_mem_fresh (h : i ∈ fresh seen items) : i ∈ items ∧ i.core ∉ seen := by
  induction items generalizing seen with
  | nil => simp [fresh] at h
  | cons j rest ih =>
    rw [fresh] at h
    split at h
    · obtain ⟨hi, hcore⟩ := ih h
      exact ⟨List.mem_cons_of_mem _ hi, hcore⟩
    · rename_i hj
      rcases List.mem_cons.mp h with rfl | h
      · exact ⟨List.mem_cons_self, hj⟩
      · obtain ⟨hi, hcore⟩ := ih h
        exact ⟨List.mem_cons_of_mem _ hi, fun hmem => hcore (List.mem_cons_of_mem _ hmem)⟩

theorem core_mem_fresh (seen : List (Rule × Nat)) (h : i ∈ items) :
    i.core ∈ seen ∨ i.core ∈ (fresh seen items).map Item.core := by
  induction items generalizing seen with
  | nil => simp at h
  | cons j rest ih =>
    rw [fresh]
    split
    · rename_i hj
      rcases List.mem_cons.mp h with rfl | h
      · exact .inl hj
      · exact ih seen h
    · rcases List.mem_cons.mp h with rfl | h
      · exact .inr List.mem_cons_self
      · rcases ih (j.core :: seen) h with hmem | hmem
        · rcases List.mem_cons.mp hmem with heq | hmem
          · rw [heq]
            exact .inr List.mem_cons_self
          · exact .inl hmem
        · exact .inr (List.mem_cons_of_mem _ hmem)

theorem nodup_core_fresh (seen : List (Rule × Nat)) (items : List Item) :
    ((fresh seen items).map Item.core).Nodup := by
  induction items generalizing seen with
  | nil => exact List.nodup_nil
  | cons i rest ih =>
    rw [fresh]
    split
    · exact ih seen
    · refine List.nodup_cons.mpr ⟨?_, ih _⟩
      intro hmem
      obtain ⟨j, hj, hcore⟩ := List.mem_map.mp hmem
      exact (mem_of_mem_fresh hj).2 (hcore ▸ List.mem_cons_self)

end Fresh

namespace Grammar

variable {g : Grammar} {seen : List (Rule × Nat)} {queue : List Item} {i j : Item}

/-- What goes over from an item to those that it leads to holds of all that a queue adds. -/
theorem closeQueue_keeps {P : Item → Prop} (keeps : ∀ i j, P i → j ∈ g.leadsTo i → P j)
    (hqueue : ∀ i ∈ queue, P i) (hj : j ∈ g.closeQueue seen queue) : P j := by
  fun_induction closeQueue g seen queue with
  | case1 seen => simp at hj
  | case2 seen i queue new ih =>
    have hnew : ∀ k ∈ new, P k := fun k hk =>
      keeps i k (hqueue i List.mem_cons_self) (mem_of_mem_fresh hk).1
    rcases List.mem_append.mp hj with hj | hj
    · exact hnew j hj
    · refine ih ?_ hj
      intro k hk
      rcases List.mem_append.mp hk with hk | hk
      · exact hqueue k (List.mem_cons_of_mem _ hk)
      · exact hnew k hk

/-- Everything that the items of a queue and the added items lead to has been seen or is added. -/
theorem core_mem_closeQueue (hi : i ∈ queue ++ g.closeQueue seen queue) (hj : j ∈ g.leadsTo i) :
    j.core ∈ seen ∨ j.core ∈ (g.closeQueue seen queue).map Item.core := by
  fun_induction closeQueue g seen queue with
  | case1 seen => simp at hi
  | case2 seen k queue new ih =>
    rw [List.map_append, List.mem_append]
    by_cases hik : i = k
    · subst hik
      rcases core_mem_fresh seen hj with h | h
      · exact .inl h
      · exact .inr (.inl h)
    · have hi : i ∈ (queue ++ new) ++ g.closeQueue (new.map Item.core ++ seen) (queue ++ new) := by
        simp only [List.mem_append, List.mem_cons, hik, false_or] at hi ⊢
        grind
      rcases ih hi with h | h
      · rcases List.mem_append.mp h with h | h
        · exact .inr (.inl h)
        · exact .inl h
      · exact .inr (.inr h)

/-- No item is added that has been seen, and none twice. -/
theorem nodup_core_closeQueue (g : Grammar) (seen : List (Rule × Nat)) (queue : List Item) :
    ((g.closeQueue seen queue).map Item.core).Nodup ∧
      ∀ c ∈ (g.closeQueue seen queue).map Item.core, c ∉ seen := by
  fun_induction closeQueue g seen queue with
  | case1 seen => simp
  | case2 seen i queue new ih =>
    obtain ⟨hnodup, hseen⟩ := ih
    rw [List.map_append]
    constructor
    · refine List.nodup_append.mpr ⟨nodup_core_fresh seen _, hnodup, ?_⟩
      rintro c hc _ hc' rfl
      exact hseen c hc' (List.mem_append_left _ hc)
    · intro c hc
      rcases List.mem_append.mp hc with hc | hc
      · obtain ⟨j, hj, rfl⟩ := List.mem_map.mp hc
        exact (mem_of_mem_fresh hj).2
      · exact fun hmem => hseen c hc (List.mem_append_right _ hmem)

/-- The least set that holds some items and the items that nonterminals after their dots lead to. -/
inductive Closure (g : Grammar) (kernel : Set Item) : Set Item where
  | kernel {i : Item} : i ∈ kernel → Closure g kernel i
  | expand {i : Item} {p : Production} : Closure g kernel i → p ∈ g.augmentedProductions →
      i.next? = some (.nonterminal p.head) → Closure g kernel ⟨p, 0⟩

/-- The items of a set with a symbol after the dot, moved over it. -/
def advanced (items : Set Item) (x : Symbol) : Set Item :=
  {j | ∃ i ∈ items, i.next? = some x ∧ j = i.advance}

/-- The canonical collection: the closure of the start item, and with a set the closures of what
it becomes after its symbols. Nothing follows the end of input. -/
inductive Canonical (g : Grammar) : Set Item → Prop where
  | start : Canonical g (g.Closure {g.startItem})
  | goto {items : Set Item} {x : Symbol} : Canonical g items → x ≠ .endOfInput →
      (∃ i ∈ items, i.next? = some x) → Canonical g (g.Closure (advanced items x))

theorem Canonical.expand {items : Set Item} {p : Production} (h : g.Canonical items)
    (hi : i ∈ items) (hp : p ∈ g.augmentedProductions) (hx : i.next? = some (.nonterminal p.head)) :
    (⟨p, 0⟩ : Item) ∈ items := by
  cases h with
  | start => exact .expand hi hp hx
  | goto => exact .expand hi hp hx

end Grammar

/-- Of each element the first occurrence is left. -/
theorem nodup_eraseDups {α : Type} [DecidableEq α] : ∀ l : List α, l.eraseDups.Nodup
  | [] => List.nodup_nil
  | a :: rest => by
    rw [List.eraseDups_cons]
    refine List.nodup_cons.mpr ⟨?_, nodup_eraseDups _⟩
    simp
termination_by l => l.length
decreasing_by
  exact Nat.lt_succ_of_le (List.length_filter_le _ _)

namespace ItemSet

variable {g : Grammar} {s t : ItemSet} {i : Item} {x : Symbol}

/-- The items of a set, without their order. -/
def carrier (s : ItemSet) : Set Item := {i | i ∈ s.items}

@[simp] theorem mem_carrier : i ∈ s.carrier ↔ i ∈ s.items := Iff.rfl

/-- All items of the set are items of the grammar. -/
def Within (g : Grammar) (s : ItemSet) : Prop := ∀ i ∈ s.items, g.HasItem i

theorem items_ofItems (items : List Item) : (ofItems items).items = fresh [] items := by
  simp [ofItems, ItemSet.items]

theorem items_close (g : Grammar) (s : ItemSet) :
    (s.close g).items = s.items ++ g.closeQueue s.cores s.items := by
  simp [close, items]

theorem nodup_cores_ofItems (items : List Item) : (ofItems items).cores.Nodup := by
  rw [cores, items_ofItems]
  exact nodup_core_fresh [] items

/-- Closing a set without repetitions brings none. -/
theorem nodup_cores_close (g : Grammar) (h : s.cores.Nodup) : (s.close g).cores.Nodup := by
  obtain ⟨hnodup, hseen⟩ := g.nodup_core_closeQueue s.cores s.items
  rw [cores, items_close, List.map_append]
  refine List.nodup_append.mpr ⟨h, hnodup, ?_⟩
  rintro c hc _ hc' rfl
  exact hseen c hc' hc

theorem mem_on : i ∈ s.on x ↔ i ∈ s.items ∧ i.next? = some x := by
  simp [on]

theorem mem_symbols : x ∈ s.symbols ↔ ∃ i ∈ s.items, i.next? = some x := by
  simp [symbols]

theorem nodup_symbols (s : ItemSet) : s.symbols.Nodup :=
  nodup_eraseDups _

end ItemSet

theorem Grammar.hasItem_startItem (g : Grammar) : g.HasItem g.startItem :=
  hasItem_zero (mem_augmentedProductions.mpr (.inl rfl))

namespace Grammar.WellFormed

open ItemSet

variable {g : Grammar} {s t : ItemSet} {i : Item} {items : List Item} {x : Symbol}
  (wf : g.WellFormed)

include wf

theorem within_close (hs : s.Within g) : (s.close g).Within g := by
  intro i hi
  rw [items_close] at hi
  rcases List.mem_append.mp hi with hi | hi
  · exact hs i hi
  · exact closeQueue_keeps (P := g.HasItem) (fun i j => wf.hasItem_of_mem_leadsTo) hs hi

theorem mem_ofItems (h : ∀ i ∈ items, g.HasItem i) : i ∈ (ofItems items).items ↔ i ∈ items := by
  rw [items_ofItems]
  constructor
  · exact fun hi => (mem_of_mem_fresh hi).1
  · intro hi
    have hcore := (core_mem_fresh [] hi).resolve_left (by simp)
    exact wf.mem_of_core_mem (fun j hj => h j (mem_of_mem_fresh hj).1) (h i hi) hcore

/-- The computed closure is the least closed set. -/
theorem carrier_close (hs : s.Within g) : (s.close g).carrier = g.Closure s.carrier := by
  ext i
  rw [mem_carrier, items_close]
  constructor
  · intro hi
    rcases List.mem_append.mp hi with hi | hi
    · exact .kernel hi
    · refine (closeQueue_keeps (P := fun i => g.HasItem i ∧ g.Closure s.carrier i) ?_ ?_ hi).2
      · rintro i j ⟨hitem, hclosure⟩ hj
        refine ⟨wf.hasItem_of_mem_leadsTo hitem hj, ?_⟩
        obtain ⟨p, hp, hx, rfl⟩ := (wf.mem_leadsTo hitem).mp hj
        exact .expand hclosure (mem_augmentedProductions.mpr (.inr hp)) hx
      · exact fun i hi => ⟨hs i hi, .kernel hi⟩
  · intro hi
    have hwithin := wf.within_close hs
    rw [ItemSet.Within, items_close] at hwithin
    induction hi with
    | kernel hi => exact List.mem_append_left _ hi
    | @expand i p _ hp hx ih =>
      have hitem := hwithin i ih
      have hp := wf.mem_productions_of_head hp (wf.mem_heads_of_next? hitem hx)
      have hj : (⟨p, 0⟩ : Item) ∈ g.leadsTo i := (wf.mem_leadsTo hitem).mpr ⟨p, hp, hx, rfl⟩
      have hcore : (⟨p, 0⟩ : Item).core ∈
          (s.items ++ g.closeQueue s.cores s.items).map Item.core := by
        rw [List.map_append, List.mem_append]
        exact core_mem_closeQueue ih hj
      exact wf.mem_of_core_mem hwithin (wf.hasItem_of_mem_leadsTo hitem hj) hcore

theorem within_ofItems (h : ∀ i ∈ items, g.HasItem i) : (ofItems items).Within g :=
  fun i hi => h i ((wf.mem_ofItems h).mp hi)

theorem within_startState : g.startState.Within g := by
  apply wf.within_close
  apply wf.within_ofItems
  simpa using g.hasItem_startItem

theorem carrier_startState : g.startState.carrier = g.Closure {g.startItem} := by
  have h : ∀ i ∈ [g.startItem], g.HasItem i := by simpa using g.hasItem_startItem
  have hcarrier : (ofItems [g.startItem]).carrier = {g.startItem} := by
    ext i
    simp [wf.mem_ofItems h]
  rw [startState, wf.carrier_close (wf.within_ofItems h), hcarrier]

theorem startItem_mem_startState : g.startItem ∈ g.startState.carrier := by
  rw [wf.carrier_startState]
  exact .kernel rfl

theorem hasItem_of_mem_advance (hs : s.Within g) (hi : i ∈ (s.on x).map Item.advance) :
    g.HasItem i := by
  obtain ⟨j, hj, rfl⟩ := List.mem_map.mp hi
  obtain ⟨hj, hx⟩ := mem_on.mp hj
  exact wf.hasItem_advance (hs j hj) hx

theorem within_goto (hs : s.Within g) (x : Symbol) : (s.goto g x).Within g :=
  wf.within_close (wf.within_ofItems fun _ => wf.hasItem_of_mem_advance hs)

theorem carrier_goto (hs : s.Within g) (x : Symbol) :
    (s.goto g x).carrier = g.Closure (advanced s.carrier x) := by
  have h : ∀ i ∈ (s.on x).map Item.advance, g.HasItem i := fun _ => wf.hasItem_of_mem_advance hs
  have hcarrier : (ofItems ((s.on x).map Item.advance)).carrier = advanced s.carrier x := by
    ext i
    rw [mem_carrier, wf.mem_ofItems h]
    simp only [List.mem_map, mem_on, advanced, mem_carrier, Set.mem_ofPred_eq]
    grind
  rw [ItemSet.goto, wf.carrier_close (wf.within_ofItems h), hcarrier]

/-- In a well-formed grammar two item sets are the same if they hold the same items. -/
theorem same_iff (hs : s.Within g) (ht : t.Within g) : s.Same t ↔ s.carrier = t.carrier := by
  have hsub : ∀ {s t : ItemSet}, s.Within g → t.Within g →
      (s.cores ⊆ t.cores ↔ s.carrier ⊆ t.carrier) := by
    intro s t hs ht
    constructor
    · exact fun h _ hi => wf.subset_of_cores hs ht h hi
    · intro h c hc
      obtain ⟨i, hi, rfl⟩ := List.mem_map.mp hc
      exact List.mem_map_of_mem (h hi)
  rw [Same, hsub hs ht, hsub ht hs, Set.Subset.antisymm_iff]

end Grammar.WellFormed

end ShiftReduce
