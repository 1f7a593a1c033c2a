import ShiftReduce.IndexedSet
import ShiftReduce.Proofs.Dictionaries
import ShiftReduce.Proofs.ReachedItems

/-!
What a set of items keeps beside its items.

Items enter the members, the index and the lists together, and the key goes with every item that
enters, so all of them agree whatever is done with a set: it can be taken for the plain item set of
its two lists.
-/

namespace ShiftReduce

section Seen

variable {seen seen' : List (Rule × Nat)}

theorem fresh_congr (h : ∀ c, c ∈ seen ↔ c ∈ seen') (items : List Item) :
    fresh seen items = fresh seen' items := by
  simp only [fresh_eq_eraseDupsBy, h]

/-- It does not matter in which order the cores were seen. -/
theorem closeQueue_congr (g : Grammar) (queue : List Item) (seen' : List (Rule × Nat))
    (h : ∀ c, c ∈ seen ↔ c ∈ seen') : g.closeQueue seen queue = g.closeQueue seen' queue := by
  fun_induction Grammar.closeQueue g seen queue generalizing seen' with
  | case1 => rw [Grammar.closeQueue]
  | case2 seen i queue new ih =>
    have hseen : ∀ c, c ∈ new.map Item.core ++ seen ↔ c ∈ new.map Item.core ++ seen' := by
      intro c
      rw [List.mem_append, List.mem_append, h]
    rw [Grammar.closeQueue, ← fresh_congr h, ih _ hseen]

end Seen

namespace ItemSet

variable {s : ItemSet} {part : Part}

@[simp] theorem extend_nil (s : ItemSet) (part : Part) : s.extend part [] = s := by
  cases part <;> simp [extend]

theorem extend_append (s : ItemSet) (part : Part) (items more : List Item) :
    s.extend part (items ++ more) = (s.extend part items).extend part more := by
  cases part <;> simp [extend]

/-- Items go to the end, as long as none are put into the kernel of a set to which others were
added. -/
theorem items_extend (h : part = .kernel → s.added = []) (items : List Item) :
    (s.extend part items).items = s.items ++ items := by
  cases part with
  | kernel => simp [extend, ItemSet.items, h rfl]
  | added => simp [extend, ItemSet.items]

theorem added_extend (h : part = .kernel → s.added = []) (items : List Item) :
    part = .kernel → (s.extend part items).added = [] := by
  rintro rfl
  exact h rfl

end ItemSet

namespace IndexedSet

variable {g : Grammar} {s t : IndexedSet} {part : Part} {i : Item} {items : List Item}
  {index : Dictionary Symbol (List Item)} {x : Symbol}

section Index

theorem enter_of_next? (index : Dictionary Symbol (List Item)) (h : i.next? = some x) :
    enter index i = Dictionary.insert index x ((Dictionary.get? index x).getD [] ++ [i]) := by
  simp only [enter, h]
  split
  · rename_i known hknown
    rw [hknown, Option.getD_some]
  · rename_i hnone
    rw [hnone, Option.getD_none, List.nil_append]

theorem get?_enter (index : Dictionary Symbol (List Item)) (i : Item) (x : Symbol) :
    Dictionary.get? (enter index i) x =
      if i.next? = some x then some ((Dictionary.get? index x).getD [] ++ [i])
      else Dictionary.get? index x := by
  cases hnext : i.next? with
  | none => simp [enter, hnext]
  | some y =>
    rw [enter_of_next? index hnext, Dictionary.get?_insert]
    by_cases hxy : x = y
    · simp [hxy]
    · simp [hxy, Ne.symm hxy]

theorem map_fst_enter (index : Dictionary Symbol (List Item)) (h : i.next? = some x) :
    (enter index i).map Prod.fst =
      if x ∈ index.map Prod.fst then index.map Prod.fst else index.map Prod.fst ++ [x] := by
  rw [enter_of_next? index h]
  exact Dictionary.map_fst_insert

/-- Under a symbol stand the items that have it after the dot, in their order. -/
theorem get?_foldl_enter (items : List Item) (x : Symbol) :
    Dictionary.get? (items.foldl enter []) x =
      if (items.filter fun i => i.next? = some x) = [] then none
      else some (items.filter fun i => i.next? = some x) := by
  induction items using List.reverseRecOn with
  | nil => rfl
  | append_singleton items i ih =>
    have hknown : (Dictionary.get? (items.foldl enter []) x).getD [] =
        items.filter fun i => i.next? = some x := by
      rw [ih]
      split
      · rename_i hnone
        rw [hnone, Option.getD_none]
      · rfl
    rw [List.foldl_concat, get?_enter, hknown, List.filter_append]
    by_cases hx : i.next? = some x
    · simp [hx]
    · simpa [hx] using ih

/-- The index has the symbols after the dots in the order in which they first came. -/
theorem map_fst_foldl_enter (items : List Item) :
    (items.foldl enter []).map Prod.fst = (items.filterMap Item.next?).eraseDups := by
  induction items using List.reverseRecOn with
  | nil => rfl
  | append_singleton items i ih =>
    rw [List.foldl_concat, List.filterMap_append, List.eraseDups_append]
    cases hx : i.next? with
    | none => simp [enter, hx, ih, List.removeAll]
    | some x =>
      have hlast : [i].filterMap Item.next? = [x] := by simp [hx]
      rw [map_fst_enter _ hx, ih, hlast]
      by_cases hmem : x ∈ items.filterMap Item.next?
      · rw [if_pos (List.mem_eraseDups.mpr hmem)]
        simp only [List.removeAll, List.filter_singleton, List.elem_eq_mem, hmem]
        simp
      · rw [if_neg (mt List.mem_eraseDups.mp hmem)]
        simp only [List.removeAll, List.filter_singleton, List.elem_eq_mem, hmem]
        simp [List.eraseDups_cons]

end Index

/-- All that is kept beside the items is what they say. -/
structure InStep (s : IndexedSet) : Prop where
  members_eq : s.members = s.cores.reverse
  nodup : s.cores.Nodup
  index_eq : s.index = s.items.foldl enter []
  cached_eq : ∀ known, s.cached = some known → known = s.members

theorem toItemSet_append? (h : s.append? part i = some t) : t.toItemSet = s.extend part [i] := by
  unfold append? at h
  split at h
  · cases h
  · rw [← Option.some.inj h]

theorem inStep_empty : empty.InStep where
  members_eq := rfl
  nodup := List.nodup_nil
  index_eq := rfl
  cached_eq _ h := by cases h

namespace InStep

theorem append? (h : s.InStep) (hpart : part = .kernel → s.added = [])
    (ht : s.append? part i = some t) : t.InStep := by
  have hitems := ItemSet.items_extend hpart [i]
  unfold IndexedSet.append? at ht
  split at ht
  · cases ht
  · rename_i hnew
    rw [contains_iff, h.members_eq, List.mem_reverse] at hnew
    obtain rfl := Option.some.inj ht
    constructor
    · simp [ItemSet.cores, hitems, h.members_eq]
    · rw [ItemSet.cores, hitems, List.map_append]
      refine List.nodup_append.mpr ⟨h.nodup, List.nodup_singleton _, ?_⟩
      rintro c hc _ hlast rfl
      exact hnew (List.mem_singleton.mp hlast ▸ hc)
    · rw [hitems, List.foldl_concat, h.index_eq]
    · exact fun _ hknown => by cases hknown

theorem appendAll (h : s.InStep) (hpart : part = .kernel → s.added = []) (items : List Item) :
    (IndexedSet.appendAll part s items).1.InStep := by
  induction items generalizing s with
  | nil => exact h
  | cons i rest ih =>
    rw [IndexedSet.appendAll]
    split
    · exact ih h hpart
    · rename_i t ht
      apply ih (h.append? hpart ht)
      rw [toItemSet_append? ht]
      exact ItemSet.added_extend hpart [i]

theorem closeQueue (h : s.InStep) (g : Grammar) (queue : List Item) :
    (s.closeQueue g queue).InStep := by
  fun_induction IndexedSet.closeQueue g s queue with
  | case1 s => exact h
  | case2 s i queue more ih =>
    -- Only the kernel must not have items added before it, and these do not go there.
    exact ih (h.appendAll (fun hpart => by cases hpart) _)

theorem close (h : s.InStep) (g : Grammar) : (s.close g).InStep := h.closeQueue g s.items

theorem key_fst (h : s.InStep) : s.key.1 = s.members := by
  unfold IndexedSet.key
  split
  · rename_i known hknown
    exact h.cached_eq known hknown
  · rfl

theorem key_snd (h : s.InStep) : s.key.2.InStep := by
  unfold IndexedSet.key
  split
  · exact h
  · exact ⟨h.members_eq, h.nodup, h.index_eq, fun _ hknown => (Option.some.inj hknown).symm⟩

theorem mem_members (h : s.InStep) {c : Rule × Nat} : c ∈ s.members ↔ c ∈ s.cores := by
  rw [h.members_eq, List.mem_reverse]

theorem on_eq (h : s.InStep) (x : Symbol) : s.on x = s.toItemSet.on x := by
  rw [IndexedSet.on, h.index_eq, get?_foldl_enter, ItemSet.on]
  split
  · rename_i hnone
    rw [hnone, Option.getD_none]
  · rfl

theorem symbols_eq (h : s.InStep) : s.symbols = s.toItemSet.symbols := by
  rw [IndexedSet.symbols, h.index_eq, map_fst_foldl_enter, ItemSet.symbols]

end InStep

theorem inStep_ofItems (items : List Item) : (ofItems items).InStep :=
  inStep_empty.appendAll (fun _ => rfl) items

theorem inStep_of_goto? (h : s.goto? g x = some t) : t.InStep := by
  unfold goto? at h
  split at h
  · cases h
  · obtain rfl := Option.some.inj h
    exact (inStep_ofItems _).close g

section Plain

/-! Filled item by item, a set has the items of the plain item set. -/

theorem toItemSet_appendAll (part : Part) (s : IndexedSet) (items : List Item) :
    (appendAll part s items).1.toItemSet = s.extend part (fresh s.members items) := by
  induction items generalizing s with
  | nil => exact (ItemSet.extend_nil _ _).symm
  | cons i rest ih =>
    by_cases hi : i.core ∈ s.members
    · rw [appendAll, append?, if_pos (contains_iff.mpr hi), fresh, if_pos hi]
      exact ih s
    · rw [appendAll, append?, if_neg (mt contains_iff.mp hi), fresh, if_neg hi]
      exact (ih ⟨s.extend part [i], i.core :: s.members, enter s.index i, none⟩).trans
        (ItemSet.extend_append _ _ [i] _).symm

theorem toItemSet_ofItems (items : List Item) :
    (ofItems items).toItemSet = ItemSet.ofItems items :=
  toItemSet_appendAll .kernel empty items

theorem toItemSet_closeQueue (g : Grammar) (s : IndexedSet) (queue : List Item) :
    (s.closeQueue g queue).toItemSet = s.extend .added (g.closeQueue s.members queue) := by
  fun_induction closeQueue g s queue with
  | case1 s => rw [Grammar.closeQueue, ItemSet.extend_nil]
  | case2 s i queue more ih =>
    obtain ⟨hnew, hmembers⟩ := appendAll_new .added s (g.leadsTo i)
    have hseen : ∀ c, c ∈ more.1.members ↔ c ∈ more.2.map Item.core ++ s.members := by
      intro c
      rw [hmembers, hnew, List.mem_append, List.mem_append, List.mem_reverse]
    rw [ih, toItemSet_appendAll, Grammar.closeQueue, ItemSet.extend_append, ← hnew,
      closeQueue_congr g _ _ hseen]

theorem InStep.toItemSet_close (h : s.InStep) (g : Grammar) :
    (s.close g).toItemSet = s.toItemSet.close g := by
  rw [IndexedSet.close, toItemSet_closeQueue,
    closeQueue_congr g s.items s.cores fun _ => h.mem_members]
  rfl

theorem InStep.toItemSet_goto? (h : s.InStep) (g : Grammar) (x : Symbol) :
    (s.goto? g x).map toItemSet = s.toItemSet.goto? g x := by
  rw [IndexedSet.goto?, ItemSet.goto?, h.on_eq]
  split
  · rfl
  · rw [Option.map_some, (inStep_ofItems _).toItemSet_close, toItemSet_ofItems, ItemSet.goto]

end Plain

end IndexedSet

end ShiftReduce
