import Mathlib.Data.List.Nodup
import Mathlib.Data.List.Perm.Subperm
import Mathlib.Data.List.ProdSigma
import ShiftReduce.First
import ShiftReduce.Proofs.Outcomes

/-!
Passes over a list that only add at the end.

When such a pass is repeated until it adds nothing, every step of it leaves the result alone. The
repetition ends with the room that a finite range of facts leaves.
-/

namespace ShiftReduce

section Fold

variable {σ α ε : Type} {step : σ → α → Except ε σ} {l m : List α} {s t : σ}

theorem foldlM_cons_eq_ok {a : α} :
    (a :: l).foldlM step s = .ok t ↔ ∃ u, step s a = .ok u ∧ l.foldlM step u = .ok t := by
  rw [List.foldlM_cons, bind_eq_ok]

theorem foldlM_append_eq_ok :
    (l ++ m).foldlM step s = .ok t ↔ ∃ u, l.foldlM step s = .ok u ∧ m.foldlM step u = .ok t := by
  rw [List.foldlM_append, bind_eq_ok]

/-- A pass that fails has a first step that fails. -/
theorem exists_of_foldlM_eq_error {e : ε} (h : l.foldlM step s = .error e) :
    ∃ done a rest u, l = done ++ a :: rest ∧ done.foldlM step s = .ok u ∧ step u a = .error e := by
  induction l generalizing s with
  | nil => cases h
  | cons a rest ih =>
    rw [List.foldlM_cons] at h
    cases hstep : step s a with
    | error e' =>
      rw [hstep] at h
      cases h
      exact ⟨[], a, rest, s, rfl, rfl, hstep⟩
    | ok t =>
      rw [hstep] at h
      obtain ⟨done, b, more, u, rfl, hdone, hb⟩ := ih h
      exact ⟨a :: done, b, more, u, rfl, foldlM_cons_eq_ok.mpr ⟨t, hstep, hdone⟩, hb⟩

/-- What every step keeps, a pass keeps. -/
theorem foldlM_keeps {P : σ → Prop} (keeps : ∀ a ∈ l, ∀ s t, P s → step s a = .ok t → P t)
    (hs : P s) (h : l.foldlM step s = .ok t) : P t := by
  induction l generalizing s with
  | nil =>
    cases h
    exact hs
  | cons a rest ih =>
    obtain ⟨u, hu, hrest⟩ := foldlM_cons_eq_ok.mp h
    refine ih (fun b hb => keeps b (List.mem_cons_of_mem _ hb)) ?_ hrest
    exact keeps a List.mem_cons_self s u hs hu

/-- A pass succeeds when its steps do. -/
theorem exists_foldlM {P : σ → Prop} (succeeds : ∀ a ∈ l, ∀ s, P s → ∃ t, step s a = .ok t ∧ P t)
    (hs : P s) : ∃ t, l.foldlM step s = .ok t ∧ P t := by
  induction l generalizing s with
  | nil => exact ⟨s, rfl, hs⟩
  | cons a rest ih =>
    obtain ⟨u, hu, hPu⟩ := succeeds a List.mem_cons_self s hs
    obtain ⟨t, ht, hPt⟩ := ih (fun b hb => succeeds b (List.mem_cons_of_mem _ hb)) hPu
    exact ⟨t, foldlM_cons_eq_ok.mpr ⟨u, hu, ht⟩, hPt⟩

end Fold

section Grow

variable {α β ε : Type} {step : List β → α → Except ε (List β)} {l : List α}

theorem foldlM_grows (grows : ∀ a ∈ l, ∀ s t, step s a = .ok t → s <+: t) {s t : List β}
    (h : l.foldlM step s = .ok t) : s <+: t :=
  foldlM_keeps (P := fun u => s <+: u)
    (fun a ha _ _ hs hstep => hs.trans (grows a ha _ _ hstep)) (List.prefix_refl s) h

/-- A pass that adds nothing consists of steps that add nothing. -/
theorem step_of_foldlM_self (grows : ∀ a ∈ l, ∀ s t, step s a = .ok t → s <+: t) {s : List β}
    (h : l.foldlM step s = .ok s) {a : α} (ha : a ∈ l) : step s a = .ok s := by
  induction l with
  | nil => simp at ha
  | cons b rest ih =>
    obtain ⟨u, hu, hrest⟩ := foldlM_cons_eq_ok.mp h
    have growsRest : ∀ c ∈ rest, ∀ s t, step s c = .ok t → s <+: t :=
      fun c hc => grows c (List.mem_cons_of_mem _ hc)
    have hus : u = s :=
      (foldlM_grows growsRest hrest).eq_of_length_le
        (grows b List.mem_cons_self s u hu).length_le
    subst hus
    rcases List.mem_cons.mp ha with rfl | ha
    · exact hu
    · exact ih growsRest hrest ha

/-- What is saturated within the bound is not changed by another pass. -/
theorem saturate_fixed {pass : List β → Except ε (List β)} {bound : Nat}
    (grows : ∀ s t, pass s = .ok t → s <+: t) {s t : List β} (ht : t.length ≤ bound)
    (h : saturate (fun f => bound - f.length) pass s = .ok t) : pass t = .ok t := by
  obtain ⟨u, hu, hrank⟩ := exists_step_of_saturate h
  have hgrows := grows u t hu
  have hlength : t.length ≤ u.length := by
    have := hgrows.length_le
    omega
  rwa [hgrows.eq_of_length_le hlength] at hu

end Grow

/-- Saturation succeeds when its steps do. -/
theorem exists_saturate {σ ε : Type} {rank : σ → Nat} {step : σ → Except ε σ} {P : σ → Prop}
    (succeeds : ∀ s, P s → ∃ t, step s = .ok t ∧ P t) {s : σ} (hs : P s) :
    ∃ t, saturate rank step s = .ok t ∧ P t := by
  fun_induction saturate rank step s with
  | case1 s e he =>
    obtain ⟨t, ht, -⟩ := succeeds s hs
    rw [he] at ht
    cases ht
  | case2 s u hu hlt ih =>
    obtain ⟨t, ht, hPt⟩ := succeeds s hs
    rw [hu] at ht
    cases ht
    exact ih hPt
  | case3 s u hu hge =>
    obtain ⟨t, ht, hPt⟩ := succeeds s hs
    rw [hu] at ht
    cases ht
    exact ⟨u, rfl, hPt⟩

namespace Facts

/-- No fact twice, and every fact about one of some names and one of some symbols. -/
structure Within (names : List String) (symbols : List Symbol) (f : Facts) : Prop where
  nodup : f.Nodup
  mem : ∀ fact ∈ f, fact.1 ∈ names ∧ fact.2 ∈ symbols

variable {names : List String} {symbols new : List Symbol} {f : Facts} {name : String}

theorem within_nil (names : List String) (symbols : List Symbol) : Within names symbols [] :=
  ⟨List.nodup_nil, by simp⟩

theorem Within.length_le (h : f.Within names symbols) :
    f.length ≤ names.length * symbols.length := by
  have hsub : f ⊆ names ×ˢ symbols := by
    intro fact hfact
    obtain ⟨hname, hsymbol⟩ := h.mem fact hfact
    exact List.mem_product.mpr ⟨hname, hsymbol⟩
  have := (List.subperm_of_subset h.nodup hsub).length_le
  rwa [List.length_product] at this

theorem prefix_add (f : Facts) (name : String) (s : Symbol) : f <+: f.add name s := by
  unfold add
  split
  · exact List.prefix_refl f
  · exact List.prefix_append f _

theorem prefix_addAll (f : Facts) (name : String) (new : List Symbol) :
    f <+: f.addAll name new := by
  induction new generalizing f with
  | nil => exact List.prefix_refl f
  | cons s rest ih => exact (prefix_add f name s).trans (ih (f.add name s))

theorem nodup_add (h : f.Nodup) (name : String) (s : Symbol) : (f.add name s).Nodup := by
  unfold add
  split
  · exact h
  · rename_i hmem
    rw [← List.concat_eq_append]
    exact h.concat hmem

theorem nodup_addAll (h : f.Nodup) (name : String) (new : List Symbol) :
    (f.addAll name new).Nodup := by
  induction new generalizing f with
  | nil => exact h
  | cons s rest ih => exact ih (nodup_add h name s)

theorem Within.addAll (h : f.Within names symbols) (hname : name ∈ names)
    (hnew : ∀ s ∈ new, s ∈ symbols) : (f.addAll name new).Within names symbols := by
  refine ⟨nodup_addAll h.nodup name new, ?_⟩
  intro fact hfact
  rcases mem_addAll.mp hfact with hfact | ⟨s, hs, rfl⟩
  · exact h.mem fact hfact
  · exact ⟨hname, hnew s hs⟩

end Facts

end ShiftReduce
