/-!
Repeating a step until it brings nothing new.
-/

namespace ShiftReduce

/-- Repeat a step as long as it succeeds and lowers the rank. -/
def saturate {σ ε : Type} (rank : σ → Nat) (step : σ → Except ε σ) (s : σ) : Except ε σ :=
  match step s with
  | .error e => .error e
  | .ok t => if rank t < rank s then saturate rank step t else .ok t
termination_by rank s

/-- A saturated state comes from a step which did not lower the rank. -/
theorem exists_step_of_saturate {σ ε : Type} {rank : σ → Nat} {step : σ → Except ε σ} {s t : σ}
    (h : saturate rank step s = .ok t) : ∃ u, step u = .ok t ∧ rank u ≤ rank t := by
  fun_induction saturate rank step s with
  | case1 s e hs => simp at h
  | case2 s u hs hlt ih => exact ih h
  | case3 s u hs hge =>
    obtain rfl := Except.ok.inj h
    exact ⟨s, hs, Nat.le_of_not_lt hge⟩

/-- What every step keeps, saturation keeps. -/
theorem saturate_keeps {σ ε : Type} {rank : σ → Nat} {step : σ → Except ε σ} {P : σ → Prop}
    (keeps : ∀ s t, P s → step s = .ok t → P t) {s t : σ} (hs : P s)
    (h : saturate rank step s = .ok t) : P t := by
  fun_induction saturate rank step s with
  | case1 s e he => simp at h
  | case2 s u hu hlt ih => exact ih (keeps s u hs hu) h
  | case3 s u hu hge =>
    obtain rfl := Except.ok.inj h
    exact keeps s u hs hu

end ShiftReduce
