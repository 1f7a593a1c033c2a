import ShiftReduce.Dictionary

/-!
Dictionaries whose keys are different.
-/

namespace ShiftReduce

namespace Dictionary

variable {α β : Type} [BEq α]

/-- No key comes again after it. -/
def Distinct (d : Dictionary α β) : Prop :=
  d.Pairwise fun a b => (a.1 == b.1) = false

theorem mem_insert_fst {d : Dictionary α β} {key : α} {value : β} {e : α × β}
    (he : e ∈ insert d key value) : e.1 = key ∨ ∃ e' ∈ d, e'.1 = e.1 := by
  induction d with
  | nil =>
    simp only [insert, List.mem_singleton] at he
    exact .inl (he ▸ rfl)
  | cons first rest ih =>
    obtain ⟨k, v⟩ := first
    simp only [insert] at he
    split at he
    · rcases List.mem_cons.mp he with rfl | he
      · exact .inr ⟨(k, v), List.mem_cons_self, rfl⟩
      · exact .inr ⟨e, List.mem_cons_of_mem _ he, rfl⟩
    · rcases List.mem_cons.mp he with rfl | he
      · exact .inr ⟨(k, v), List.mem_cons_self, rfl⟩
      · rcases ih he with h | ⟨e', he', h⟩
        · exact .inl h
        · exact .inr ⟨e', List.mem_cons_of_mem _ he', h⟩

theorem Distinct.insert {d : Dictionary α β} (h : d.Distinct) (key : α) (value : β) :
    (Dictionary.insert d key value).Distinct := by
  induction d with
  | nil => exact List.pairwise_singleton _ _
  | cons first rest ih =>
    obtain ⟨k, v⟩ := first
    obtain ⟨hfirst, hrest⟩ := List.pairwise_cons.mp h
    simp only [Dictionary.insert]
    split
    · exact List.pairwise_cons.mpr ⟨hfirst, hrest⟩
    · rename_i hk
      refine List.pairwise_cons.mpr ⟨?_, ih hrest⟩
      intro e he
      rcases mem_insert_fst he with h | ⟨e', he', h⟩
      · simpa [h] using hk
      · exact h ▸ hfirst e' he'

theorem distinct_ofList (entries : List (α × β)) : (ofList entries).Distinct := by
  suffices h : ∀ d : Dictionary α β, d.Distinct →
      Distinct (entries.foldl (fun d e => Dictionary.insert d e.1 e.2) d) from
    h [] List.Pairwise.nil
  induction entries with
  | nil => exact fun _ h => h
  | cons e rest ih => exact fun d h => ih _ (h.insert e.1 e.2)

theorem ofList_ne_nil {entries : List (α × β)} (h : entries ≠ []) : ofList entries ≠ [] := by
  suffices hfold : ∀ (entries : List (α × β)) (d : Dictionary α β), d ≠ [] →
      entries.foldl (fun d e => Dictionary.insert d e.1 e.2) d ≠ [] by
    cases entries with
    | nil => exact absurd rfl h
    | cons e rest => exact hfold rest [e] (by simp)
  intro entries
  induction entries with
  | nil => exact fun d hd => hd
  | cons e rest ih =>
    intro d hd
    apply ih
    cases d with
    | nil => exact absurd rfl hd
    | cons first rest =>
      simp only [Dictionary.insert]
      split <;> simp

theorem insert_of_new {d : Dictionary α β} {key : α} (value : β)
    (h : ∀ e ∈ d, (e.1 == key) = false) : insert d key value = d ++ [(key, value)] := by
  induction d with
  | nil => rfl
  | cons e rest ih =>
    simp only [insert, h e List.mem_cons_self, Bool.false_eq_true, if_false, List.cons_append]
    rw [ih fun a ha => h a (List.mem_cons_of_mem _ ha)]

/-- A dictionary whose keys are different is not changed by inserting its entries in order. -/
theorem Distinct.ofList_eq {d : Dictionary α β} (h : d.Distinct) : ofList d = d := by
  suffices hfold : ∀ done : Dictionary α β, Distinct (done ++ d) →
      d.foldl (fun d e => Dictionary.insert d e.1 e.2) done = done ++ d from hfold [] h
  clear h
  induction d with
  | nil => simp
  | cons e rest ih =>
    intro done hdone
    have hnew : ∀ a ∈ done, (a.1 == e.1) = false :=
      fun a ha => (List.pairwise_append.mp hdone).2.2 a ha e List.mem_cons_self
    rw [List.foldl_cons, insert_of_new e.2 hnew, ih (done ++ [e]) (by simpa using hdone)]
    simp

section Lawful

variable [LawfulBEq α] {d : Dictionary α β} {key : α} {value : β}

theorem mem_of_get? (h : get? d key = some value) : (key, value) ∈ d := by
  obtain ⟨l₁, l₂, rfl, -⟩ := List.lookup_eq_some_iff.mp h
  simp

/-- What is found in a dictionary made from entries is one of them. -/
theorem mem_of_get?_ofList {entries : List (α × β)} (h : get? (ofList entries) key = some value) :
    (key, value) ∈ entries := by
  suffices hfold : ∀ d : Dictionary α β,
      get? (entries.foldl (fun d e => Dictionary.insert d e.1 e.2) d) key = some value →
        get? d key = some value ∨ (key, value) ∈ entries from
    (hfold [] h).resolve_left (by simp [get?])
  clear h
  induction entries with
  | nil => exact fun d h => .inl h
  | cons e rest ih =>
    intro d h
    rcases ih _ h with h | h
    · rw [get?_insert] at h
      split at h
      · rename_i hkey
        cases h
        exact .inr (by simp [eq_of_beq hkey])
      · exact .inl h
    · exact .inr (List.mem_cons_of_mem _ h)

theorem exists_get? (h : key ∈ d.map Prod.fst) : ∃ value, get? d key = some value := by
  induction d with
  | nil => simp at h
  | cons e rest ih =>
    obtain ⟨k, v⟩ := e
    rw [get?_cons]
    split
    · exact ⟨v, rfl⟩
    · rename_i hk
      apply ih
      rcases List.mem_cons.mp h with rfl | h
      · simp at hk
      · exact h

theorem get?_eq_none_iff : get? d key = none ↔ key ∉ d.map Prod.fst := by
  constructor
  · intro hnone hkey
    obtain ⟨value, hvalue⟩ := exists_get? hkey
    exact Option.some_ne_none value (hvalue.symm.trans hnone)
  · intro hkey
    cases h : get? d key with
    | none => rfl
    | some value => exact absurd (List.mem_map_of_mem (mem_of_get? h)) hkey

/-- The keys are in the order in which they first came. -/
theorem map_fst_insert : (insert d key value).map Prod.fst =
    if key ∈ d.map Prod.fst then d.map Prod.fst else d.map Prod.fst ++ [key] := by
  induction d with
  | nil => rfl
  | cons e rest ih =>
    obtain ⟨k, v⟩ := e
    rw [insert]
    by_cases hk : k = key
    · simp [hk]
    · have hkey : key ≠ k := fun h => hk h.symm
      rw [if_neg (by simpa using hk), List.map_cons, List.map_cons, ih]
      simp only [List.mem_cons, hkey, false_or]
      split <;> rfl

theorem Distinct.mem_iff (h : d.Distinct) : (key, value) ∈ d ↔ get? d key = some value := by
  refine ⟨fun hmem => ?_, mem_of_get?⟩
  induction d with
  | nil => simp at hmem
  | cons e rest ih =>
    obtain ⟨k, v⟩ := e
    obtain ⟨hfirst, hrest⟩ := List.pairwise_cons.mp h
    rw [get?_cons]
    rcases List.mem_cons.mp hmem with heq | hmem
    · obtain ⟨rfl, rfl⟩ := Prod.mk.inj heq
      simp
    · have hne : key ≠ k := fun heq => by simpa [heq] using hfirst _ hmem
      simpa [hne] using ih hrest hmem

/-- The entries of a dictionary are among those that it was made from. -/
theorem mem_of_mem_ofList {entries : List (α × β)} {e : α × β} (h : e ∈ ofList entries) :
    e ∈ entries :=
  mem_of_get?_ofList ((distinct_ofList entries).mem_iff.mp h)

end Lawful

theorem distinct_of_nodup [LawfulBEq α] {d : Dictionary α β} (h : (d.map Prod.fst).Nodup) :
    d.Distinct := by
  rw [List.Nodup, List.pairwise_map] at h
  exact h.imp fun hne => by simpa using hne

end Dictionary

end ShiftReduce
