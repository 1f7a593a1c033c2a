import ShiftReduce.Proofs.Indexing

/-!
Item sets that hold the same items.

In the grammar of a mapping what an item leads to depends on its core alone. Sets that hold the same
items therefore go to such sets on every symbol, whatever was done to make them, in whatever order
they hold their items and whichever of these are in the kernel. So it makes no difference which of
them becomes a state.
-/

namespace ShiftReduce

namespace Grammar

variable {g : Grammar} {items more : List Item} {i : Item}

/-- What is reached from items is reached, up to cores, from others that have their cores. -/
theorem Coherent.exists_reaches (h : g.Coherent (items ++ more))
    (hsub : items.map Item.core ⊆ more.map Item.core) (hi : g.Reaches items i) :
    ∃ j, g.Reaches more j ∧ j.core = i.core := by
  obtain ⟨first, hfirst, hpath⟩ := hi
  induction hpath with
  | refl =>
    obtain ⟨j, hj, hcore⟩ := List.mem_map.mp (hsub (List.mem_map_of_mem hfirst))
    exact ⟨j, .of_mem hj, hcore⟩
  | @tail k l hpath hl ih =>
    obtain ⟨j, hj, hcore⟩ := ih
    have hk : g.Reaches (items ++ more) k := reaches_append.mpr (.inl ⟨first, hfirst, hpath⟩)
    have hleads := h k j hk (reaches_append.mpr (.inr hj)) hcore.symm
    obtain ⟨l', hl', hcore'⟩ := List.mem_map.mp (hleads (List.mem_map_of_mem hl))
    exact ⟨l', hj.step hl', hcore'⟩

end Grammar

namespace IndexedSet

open Grammar

variable {g : Grammar} {s t u v : IndexedSet} {items : List Item} {i : Item} {x : Symbol}
  {c : Rule × Nat}

/-- The sets that are made from lists of items by closing sets, asking for their keys and following
them on symbols. -/
inductive Made (g : Grammar) : IndexedSet → Prop where
  | ofItems {items : List Item} : (∀ i ∈ items, g.Admits i) → Made g (ofItems items)
  | close {s : IndexedSet} : Made g s → Made g (s.close g)
  | key {s : IndexedSet} : Made g s → Made g s.key.2
  | goto {s t : IndexedSet} {x : Symbol} : Made g s → s.goto? g x = some t → Made g t

/-- What is kept beside the items, told from the items. -/
structure IsIndexed (s : IndexedSet) : Prop where
  /-- Each symbol after a dot stands where it first comes after one. -/
  symbols_eq : s.symbols = (s.items.filterMap Item.next?).eraseDups
  on_eq : ∀ x, s.on x = s.items.filter fun i => i.next? = some x
  nodup : s.members.Nodup
  mem_members : ∀ c, c ∈ s.members ↔ ∃ i ∈ s.items, i.core = c
  key_eq : s.key.1 = s.members

/-- On a symbol that is after no dot the sets go nowhere, and on any other to sets with the same
items, which are those that the items moved over the symbol reach. -/
def GoAlike (g : Grammar) (s t : IndexedSet) (x : Symbol) : Prop :=
  (∀ i ∈ s.items, i.next? ≠ some x) ∧ s.goto? g x = none ∧ t.goto? g x = none ∨
  (∃ i ∈ s.items, i.next? = some x) ∧ ∃ u v, s.goto? g x = some u ∧ t.goto? g x = some v ∧
    u.Same v ∧ ∀ c, c ∈ u.members ↔
      ∃ i, g.Reaches ((s.items.filter fun i => i.next? = some x).map Item.advance) i ∧ i.core = c

theorem Made.inStep (h : Made g s) : s.InStep := by
  induction h with
  | ofItems => exact inStep_ofItems _
  | close _ ih => exact ih.close g
  | key _ ih => exact ih.key_snd
  | goto _ ht => exact inStep_of_goto? ht

theorem InStep.isIndexed (h : s.InStep) : s.IsIndexed where
  symbols_eq := h.symbols_eq
  on_eq := h.on_eq
  nodup := by
    rw [h.members_eq]
    exact List.nodup_reverse.mpr h.nodup
  mem_members c := by rw [h.mem_members, ItemSet.cores, List.mem_map]
  key_eq := h.key_fst

theorem InStep.same_iff (hs : s.InStep) (ht : t.InStep) :
    s.Same t ↔ s.cores ⊆ t.cores ∧ t.cores ⊆ s.cores := by
  simp only [Same, hs.key_fst, ht.key_fst, hs.members_eq, ht.members_eq, List.reverse_subset,
    List.subset_reverse]

theorem toItemSet_key (s : IndexedSet) : s.key.2.toItemSet = s.toItemSet := by
  unfold key
  split <;> rfl

theorem InStep.admits_advance (hs : s.InStep) (h : ∀ i ∈ s.items, g.Admits i) (x : Symbol) :
    ∀ i ∈ (s.on x).map Item.advance, g.Admits i := by
  intro i hi
  obtain ⟨j, hj, rfl⟩ := List.mem_map.mp hi
  rw [hs.on_eq] at hj
  exact h j (ItemSet.mem_on.mp hj).1

theorem admits_ofItems (h : ∀ i ∈ items, g.Admits i) : ∀ i ∈ (ofItems items).items, g.Admits i := by
  intro i hi
  rw [toItemSet_ofItems, ItemSet.items_ofItems] at hi
  exact h i (mem_of_mem_fresh hi).1

section Admitted

variable (wf : g.WellFormed)

include wf

theorem admits_of_mem_close (hs : s.InStep) (h : ∀ i ∈ s.items, g.Admits i)
    (hi : i ∈ (s.close g).items) : g.Admits i := by
  rw [hs.toItemSet_close, ItemSet.items_close] at hi
  rcases List.mem_append.mp hi with hi | hi
  · exact h i hi
  · exact closeQueue_keeps (P := g.Admits) (fun _ _ _ hj => wf.admits_of_mem_leadsTo hj) h hi

theorem Made.admits (h : Made g s) : ∀ i ∈ s.items, g.Admits i := by
  induction h with
  | ofItems hitems => exact admits_ofItems hitems
  | close hs ih => exact fun _ => admits_of_mem_close wf hs.inStep ih
  | @key s _ ih => rwa [toItemSet_key]
  | @goto s t x hs ht ih =>
    unfold goto? at ht
    split at ht
    · cases ht
    · obtain rfl := Option.some.inj ht
      have hmoved := hs.inStep.admits_advance ih x
      exact fun _ => admits_of_mem_close wf (inStep_ofItems _) (admits_ofItems hmoved)

end Admitted

/-- Moved over a symbol, sets with the same items still have the same. -/
theorem cores_advance_subset (hs : s.InStep) (ht : t.InStep) (h : s.cores ⊆ t.cores) :
    ((s.on x).map Item.advance).map Item.core ⊆ ((t.on x).map Item.advance).map Item.core := by
  intro c hc
  rw [List.map_map] at hc ⊢
  obtain ⟨i, hi, rfl⟩ := List.mem_map.mp hc
  rw [hs.on_eq, ItemSet.mem_on] at hi
  obtain ⟨j, hj, hcore⟩ := List.mem_map.mp (h (List.mem_map_of_mem hi.1))
  have hjx : j ∈ t.on x := by
    rw [ht.on_eq, ItemSet.mem_on]
    exact ⟨hj, (Item.next?_eq_of_core_eq hcore).trans hi.2⟩
  exact List.mem_map.mpr ⟨j, hjx, Item.core_advance_eq hcore⟩

/-- A symbol that is after no dot of a set is after none of a set with fewer items. -/
theorem on_eq_nil_of_subset (hs : s.InStep) (ht : t.InStep) (h : s.cores ⊆ t.cores)
    (hx : t.on x = []) : s.on x = [] := by
  have hsub := cores_advance_subset (x := x) hs ht h
  rw [hx, List.map_nil, List.map_nil, List.subset_nil] at hsub
  simpa using hsub

theorem mem_members_of_goto? (hs : s.InStep) (hg : g.Coherent ((s.on x).map Item.advance))
    (h : s.goto? g x = some u) : c ∈ u.members ↔
      ∃ i, g.Reaches ((s.on x).map Item.advance) i ∧ i.core = c := by
  have hplain := hs.toItemSet_goto? g x
  rw [h, Option.map_some, ItemSet.goto?] at hplain
  split at hplain
  · cases hplain
  · rw [(inStep_of_goto? h).mem_members, Option.some.inj hplain, ItemSet.goto, ← hs.on_eq]
    exact ItemSet.mem_cores_close_iff hg

/-- Equal items lead to equal items in all that is moved over a symbol. -/
theorem coherent_advance (wf : g.WellFormed) (hs : Made g s) (ht : Made g t) (x : Symbol) :
    g.Coherent ((s.on x).map Item.advance ++ (t.on x).map Item.advance) := by
  apply wf.coherent
  intro i hi
  rcases List.mem_append.mp hi with hi | hi
  · exact hs.inStep.admits_advance (hs.admits wf) x i hi
  · exact ht.inStep.admits_advance (ht.admits wf) x i hi

theorem subset_of_goto? (hg : g.Coherent ((s.on x).map Item.advance ++ (t.on x).map Item.advance))
    (hs : s.InStep) (ht : t.InStep) (h : s.cores ⊆ t.cores) (hu : s.goto? g x = some u)
    (hv : t.goto? g x = some v) : u.members ⊆ v.members := by
  intro c hc
  obtain ⟨i, hi, rfl⟩ := (mem_members_of_goto? hs (hg.mono (List.subset_append_left _ _)) hu).mp hc
  obtain ⟨j, hj, hcore⟩ := hg.exists_reaches (cores_advance_subset hs ht h) hi
  exact (mem_members_of_goto? ht (hg.mono (List.subset_append_right _ _)) hv).mpr ⟨j, hj, hcore⟩

theorem goAlike_of_same (wf : g.WellFormed) (hs : Made g s) (ht : Made g t) (h : s.Same t)
    (x : Symbol) : GoAlike g s t x := by
  have hst := coherent_advance wf hs ht x
  have hts := coherent_advance wf ht hs x
  obtain ⟨hsub, hsup⟩ := (hs.inStep.same_iff ht.inStep).mp h
  -- Whether the sets go anywhere is the same for both, as each has the items of the other.
  by_cases hnone : s.on x = []
  · have hnone' : t.on x = [] := on_eq_nil_of_subset ht.inStep hs.inStep hsup hnone
    refine .inl ⟨?_, if_pos hnone, if_pos hnone'⟩
    intro i hi hx
    have hmem : i ∈ s.on x := by
      rw [hs.inStep.on_eq]
      exact ItemSet.mem_on.mpr ⟨hi, hx⟩
    simp [hnone] at hmem
  · have hsome : t.on x ≠ [] :=
      fun hnone' => hnone (on_eq_nil_of_subset hs.inStep ht.inStep hsub hnone')
    obtain ⟨i, hi⟩ := List.exists_mem_of_ne_nil _ hnone
    rw [hs.inStep.on_eq] at hi
    have hu : s.goto? g x = some ((ofItems ((s.on x).map Item.advance)).close g) := if_neg hnone
    have hv : t.goto? g x = some ((ofItems ((t.on x).map Item.advance)).close g) := if_neg hsome
    refine .inr ⟨⟨i, ItemSet.mem_on.mp hi⟩, _, _, hu, hv, ?_, ?_⟩
    · rw [Same, (inStep_of_goto? hu).key_fst, (inStep_of_goto? hv).key_fst]
      exact ⟨subset_of_goto? hst hs.inStep ht.inStep hsub hu hv,
        subset_of_goto? hts ht.inStep hs.inStep hsup hv hu⟩
    · intro c
      rw [mem_members_of_goto? hs.inStep (hst.mono (List.subset_append_left _ _)) hu,
        hs.inStep.on_eq, ItemSet.on]

end IndexedSet

/-- Whatever is done with a set of items in the grammar of a mapping, its index, its members and its
key are those of its items. Sets are equal when they hold the same items, and then they go alike on
every symbol. -/
theorem Source.sets_goAlike {d : Datum} {g : Grammar} (h : (written d).load = .ok g)
    {s t : IndexedSet} (hs : IndexedSet.Made g s) (ht : IndexedSet.Made g t) :
    s.IsIndexed ∧
    (s.Same t ↔ ∀ c, (∃ i ∈ s.items, i.core = c) ↔ ∃ i ∈ t.items, i.core = c) ∧
    (s.Same t → ∀ x, IndexedSet.GoAlike g s t x) := by
  refine ⟨hs.inStep.isIndexed, ?_, ?_⟩
  · rw [hs.inStep.same_iff ht.inStep]
    simp only [← List.mem_map]
    constructor
    · rintro ⟨hsub, hsup⟩ c
      exact ⟨fun hc => hsub hc, fun hc => hsup hc⟩
    · intro hall
      exact ⟨fun c hc => (hall c).mp hc, fun c hc => (hall c).mpr hc⟩
  · exact IndexedSet.goAlike_of_same (load_wellFormed h) hs ht

/-- Of the list of As, the item that makes it longer and the one that ends it. -/
def Source.longer : Item := ⟨⟨⟨"S", [.nonterminal "S", .nonterminal "A"]⟩, .numbered 1⟩, 0⟩

def Source.ended : Item := ⟨⟨⟨"S", [.epsilon]⟩, .numbered 2⟩, 0⟩

set_option maxRecDepth 100000 in
/-- One set was asked for its key before it was closed, which added the second item; the other has
both items in the kernel, in the opposite order. -/
theorem Source.entangled_goAlike : ∃ g, (written entangled).load = .ok g ∧ ∃ s t : IndexedSet,
    IndexedSet.Made g s ∧ IndexedSet.Made g t ∧ s.kernel = [longer] ∧ s.added = [ended] ∧
    t.kernel = [ended, longer] ∧ s.IsIndexed ∧ s.Same t ∧
    ∃ u v, s.goto? g (.nonterminal "S") = some u ∧ t.goto? g (.nonterminal "S") = some v ∧
      u.Same v ∧ u.members.length = 4 := by
  have h : Except.passes (fun g =>
      let s := (IndexedSet.ofItems [longer]).key.2.close g
      let t := IndexedSet.ofItems [ended, longer]
      decide (s.kernel = [longer] ∧ s.added = [ended] ∧ t.kernel = [ended, longer] ∧ s.Same t ∧
        ∃ u ∈ s.goto? g (.nonterminal "S"), u.members.length = 4)) (written entangled).load =
      true := by
    decide +kernel
  obtain ⟨g, hg, htest⟩ := Except.exists_of_passes h
  obtain ⟨hkernel, hadded, hkernel', hsame, u, hu, hlength⟩ := of_decide_eq_true htest
  have hs : IndexedSet.Made g ((IndexedSet.ofItems [longer]).key.2.close g) :=
    .close (.key (.ofItems (by simp [Grammar.Admits, longer])))
  have ht : IndexedSet.Made g (IndexedSet.ofItems [ended, longer]) :=
    .ofItems (by simp [Grammar.Admits, longer, ended])
  obtain ⟨hindexed, -, halike⟩ := Source.sets_goAlike hg hs ht
  refine ⟨g, hg, _, _, hs, ht, hkernel, hadded, hkernel', hindexed, hsame, u, ?_⟩
  rcases halike hsame (.nonterminal "S") with ⟨-, hnone, -⟩ | ⟨-, u', v, hu', hv, huv, -⟩
  · exact absurd (hnone.symm.trans hu) (Option.some_ne_none u).symm
  · obtain rfl : u' = u := Option.some.inj (hu'.symm.trans hu)
    exact ⟨v, hu', hv, huv, hlength⟩

end ShiftReduce
