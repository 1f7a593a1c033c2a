import ShiftReduce.Parse

/-!
Steps and runs of a parser.

`Takes` collects the codes of steps taken one after the other. A run with a limit takes as many
steps as it can, and ends in acceptance or in a failure exactly where such steps lead.
-/

namespace ShiftReduce

namespace Code

/-- The number of a reduction. -/
def number? : Code → Option Nat
  | reduce n => some n
  | _ => none

def isShift : Code → Bool
  | shift _ => true
  | _ => false

/-- The numbers of the reductions among some codes, in order. -/
def numbers (codes : List Code) : List Nat := codes.filterMap number?

def shifts (codes : List Code) : Nat := codes.countP isShift

variable {codes more : List Code} {n : Nat}

@[simp] theorem numbers_append : numbers (codes ++ more) = numbers codes ++ numbers more := by
  simp [numbers]

@[simp] theorem shifts_append : shifts (codes ++ more) = shifts codes + shifts more := by
  simp [shifts]

@[simp] theorem numbers_nil : numbers [] = [] := rfl

@[simp] theorem numbers_shift : numbers (shift n :: codes) = numbers codes := rfl

@[simp] theorem numbers_reduce : numbers (reduce n :: codes) = n :: numbers codes := rfl

@[simp] theorem numbers_accept : numbers (accept :: codes) = numbers codes := rfl

@[simp] theorem shifts_nil : shifts [] = 0 := rfl

@[simp] theorem shifts_shift : shifts (shift n :: codes) = shifts codes + 1 :=
  List.countP_cons_of_pos rfl

@[simp] theorem shifts_reduce : shifts (reduce n :: codes) = shifts codes := by
  simp [shifts, isShift]

@[simp] theorem shifts_accept : shifts (accept :: codes) = shifts codes := by
  simp [shifts, isShift]

end Code

namespace Codes

/-- The code in a cell, where there is one. -/
def cell? (t : Codes) (state : Nat) (name : String) : Option Code :=
  match t.rows[state]? with
  | some row => Dictionary.get? row name
  | none => none

variable {t : Codes} {k m n target limit : Nat} {name : String} {code : Code}
  {stack below : List Nat} {rest : List String} {r : Reduction}
  {row : Dictionary String Code}

theorem cell?_eq_some_iff : t.cell? k name = some code ↔
    ∃ row, t.rows[k]? = some row ∧ Dictionary.get? row name = some code := by
  unfold cell?
  cases t.rows[k]? <;> simp

theorem step_noAction (hrow : t.rows[k]? = some row) (h : t.cell? k name = none) :
    t.step ⟨k :: stack, name :: rest⟩ = .failed (.noAction k name) := by
  simp only [cell?, hrow] at h
  simp only [step, Codes.row, hrow, h]

theorem step_shift (h : t.cell? k name = some (.shift n)) (stack : List Nat) (rest : List String) :
    t.step ⟨k :: stack, name :: rest⟩ = .next (.shift n) ⟨n :: k :: stack, rest⟩ := by
  obtain ⟨row, hrow, h⟩ := cell?_eq_some_iff.mp h
  simp only [step, Codes.row, hrow, h]

theorem step_accept (h : t.cell? k name = some .accept) :
    t.step ⟨k :: stack, name :: rest⟩ = .accepted := by
  obtain ⟨row, hrow, h⟩ := cell?_eq_some_iff.mp h
  simp only [step, Codes.row, hrow, h]

theorem step_reduce (h : t.cell? k name = some (.reduce n))
    (hr : t.reductions.find? (·.number = n) = some r)
    (hpop : (k :: stack).drop r.size = m :: below)
    (hgoto : t.cell? m r.head = some (.shift target)) :
    t.step ⟨k :: stack, name :: rest⟩ =
      .next (.reduce n) ⟨target :: m :: below, name :: rest⟩ := by
  obtain ⟨row, hrow, h⟩ := cell?_eq_some_iff.mp h
  obtain ⟨row', hrow', hgoto⟩ := cell?_eq_some_iff.mp hgoto
  have hsize : r.size ≤ (k :: stack).length := by
    have := congrArg List.length hpop
    simp only [List.length_drop, List.length_cons] at this ⊢
    omega
  have hpop : pop (k :: stack) r.size = m :: below := by rw [pop, if_pos hsize, hpop]
  simp only [step, Codes.row, hrow, h, hr, hpop, Codes.target, hrow', hgoto]

/-- Some steps, with the codes of their actions. -/
inductive Takes (t : Codes) : Configuration → List Code → Configuration → Prop where
  | refl (c : Configuration) : Takes t c [] c
  | head {a b c : Configuration} {code : Code} {codes : List Code} :
      t.step a = .next code b → Takes t b codes c → Takes t a (code :: codes) c

variable {a b c : Configuration} {codes more trace result : List Code} {e : ParseError}

theorem Takes.single (h : t.step a = .next code b) : t.Takes a [code] b := .head h (.refl b)

theorem Takes.trans (hab : t.Takes a codes b) (hbc : t.Takes b more c) :
    t.Takes a (codes ++ more) c := by
  induction hab with
  | refl => exact hbc
  | head hstep _ ih => exact .head hstep (ih hbc)

/-- What holds at first with no codes and is kept by every step holds after some steps, with their
codes. -/
theorem Takes.keeps {P : List Code → Configuration → Prop}
    (keeps : ∀ {codes a code b}, P codes a → t.step a = .next code b → P (codes ++ [code]) b)
    (h : t.Takes a codes b) (ha : P [] a) : P codes b := by
  suffices hall : ∀ done, P done a → P (done ++ codes) b by simpa using hall [] ha
  clear ha
  induction h with
  | refl =>
    intro done hdone
    simpa using hdone
  | head hstep _ ih =>
    intro done hdone
    simpa using ih _ (keeps hdone hstep)

/-- What a step that goes on has found: the cell of the top state and the next name, and for a
reduction the head that its states give way to. -/
theorem cases_of_step (h : t.step a = .next code b) : ∃ k stack name rest,
    a = ⟨k :: stack, name :: rest⟩ ∧ t.cell? k name = some code ∧
      ((∃ n, code = .shift n ∧ b = ⟨n :: k :: stack, rest⟩) ∨
        ∃ n r target, code = .reduce n ∧ t.reductions.find? (·.number = n) = some r ∧
          t.target (pop (k :: stack) r.size) r.head = .ok target ∧
          b = ⟨target :: pop (k :: stack) r.size, name :: rest⟩) := by
  obtain ⟨stack, input⟩ := a
  cases input with
  | nil => cases h
  | cons name rest =>
    cases stack with
    | nil => cases h
    | cons k stack =>
      refine ⟨k, stack, name, rest, rfl, ?_⟩
      cases hrow : t.rows[k]? with
      | none =>
        simp only [step, Codes.row, hrow] at h
        cases h
      | some row =>
        simp only [step, Codes.row, hrow] at h
        simp only [cell?, hrow]
        cases hcell : Dictionary.get? row name with
        | none =>
          simp only [hcell] at h
          cases h
        | some found =>
          cases found with
          | accept =>
            simp only [hcell] at h
            cases h
          | shift n =>
            simp only [hcell] at h
            cases h
            exact ⟨rfl, .inl ⟨n, rfl, rfl⟩⟩
          | reduce n =>
            cases hfind : t.reductions.find? (·.number = n) with
            | none =>
              simp only [hcell, hfind] at h
              cases h
            | some r =>
              cases htarget : t.target (pop (k :: stack) r.size) r.head with
              | error e =>
                simp only [hcell, hfind, htarget] at h
                cases h
              | ok target =>
                simp only [hcell, hfind, htarget] at h
                cases h
                exact ⟨rfl, .inr ⟨n, r, target, rfl, hfind, htarget, rfl⟩⟩

/-- A step reads a name by a shift, or leaves the input as it is by a reduction. -/
theorem input_of_step (h : t.step a = .next code b) :
    (∃ n name, code = .shift n ∧ a.input = name :: b.input) ∨
      ∃ n, code = .reduce n ∧ b.input = a.input := by
  obtain ⟨k, stack, name, rest, rfl, -, ⟨n, rfl, rfl⟩ | ⟨n, r, target, rfl, -, -, rfl⟩⟩ :=
    cases_of_step h
  · exact .inl ⟨n, name, rfl, rfl⟩
  · exact .inr ⟨n, rfl, rfl⟩

/-- As many names are read as there are shifts. -/
theorem Takes.input_eq (h : t.Takes a codes b) :
    ∃ consumed, a.input = consumed ++ b.input ∧ consumed.length = Code.shifts codes := by
  induction h with
  | refl => exact ⟨[], rfl, rfl⟩
  | head hstep _ ih =>
    obtain ⟨consumed, hinput, hlength⟩ := ih
    rcases input_of_step hstep with ⟨n, name, rfl, ha⟩ | ⟨n, rfl, ha⟩
    · exact ⟨name :: consumed, by simp [ha, hinput], by simp [hlength]⟩
    · exact ⟨consumed, by rw [← ha, hinput], by simp [hlength]⟩

/-- Acceptance after some steps is found by every run that is long enough. -/
theorem exists_runFrom (h : t.Takes a codes b) (hb : t.step b = .accepted) (trace : List Code) :
    ∃ least, ∀ limit, least ≤ limit →
      t.runFrom trace limit a = .accepted (trace.reverse ++ codes ++ [.accept]) := by
  induction h generalizing trace with
  | refl =>
    refine ⟨1, fun limit hlimit => ?_⟩
    obtain ⟨limit, rfl⟩ := Nat.exists_eq_add_of_le' hlimit
    simp [runFrom, hb]
  | @head _ _ _ code _ hstep _ ih =>
    obtain ⟨least, hleast⟩ := ih hb (code :: trace)
    refine ⟨least + 1, fun limit hlimit => ?_⟩
    obtain ⟨limit, rfl⟩ := Nat.exists_eq_add_of_le' hlimit
    rw [← Nat.add_assoc, runFrom, hstep]
    simp only
    rw [hleast _ (Nat.le_add_left _ _)]
    simp

theorem takes_of_accepted (h : t.runFrom trace limit a = .accepted result) : ∃ codes b,
    t.Takes a codes b ∧ t.step b = .accepted ∧ result = trace.reverse ++ codes ++ [.accept] := by
  induction limit generalizing trace a with
  | zero => cases h
  | succ limit ih =>
    rw [runFrom] at h
    cases hstep : t.step a with
    | next code b =>
      rw [hstep] at h
      obtain ⟨codes, c, htakes, haccept, rfl⟩ := ih h
      exact ⟨code :: codes, c, .head hstep htakes, haccept, by simp⟩
    | accepted =>
      rw [hstep] at h
      cases h
      exact ⟨[], a, .refl a, hstep, by simp⟩
    | failed e =>
      rw [hstep] at h
      cases h

theorem takes_of_failed (h : t.runFrom trace limit a = .failed e) :
    ∃ codes b, t.Takes a codes b ∧ t.step b = .failed e := by
  induction limit generalizing trace a with
  | zero => cases h
  | succ limit ih =>
    rw [runFrom] at h
    cases hstep : t.step a with
    | next code b =>
      rw [hstep] at h
      obtain ⟨codes, c, htakes, hfail⟩ := ih h
      exact ⟨code :: codes, c, .head hstep htakes, hfail⟩
    | accepted =>
      rw [hstep] at h
      cases h
    | failed e' =>
      rw [hstep] at h
      cases h
      exact ⟨[], a, .refl a, hstep⟩

/-- Steps that are taken before an accepting one are not followed by more than the accepting run. -/
theorem Takes.length_le_of_accepted (h : t.Takes a codes b) (hb : t.step b = .accepted)
    (h' : t.Takes a more c) : more.length ≤ codes.length := by
  induction h generalizing more with
  | refl =>
    cases h' with
    | refl => exact Nat.le_refl _
    | head hstep => cases hb.symm.trans hstep
  | head hstep _ ih =>
    cases h' with
    | refl => exact Nat.zero_le _
    | head hstep' h' =>
      cases hstep.symm.trans hstep'
      exact Nat.succ_le_succ (ih hb h')

/-- After some steps there is no further one. -/
def Halts (t : Codes) (a : Configuration) : Prop :=
  ∃ codes b, t.Takes a codes b ∧ ∀ code c, t.step b ≠ .next code c

theorem Halts.of_takes (hab : t.Takes a codes b) (h : t.Halts b) : t.Halts a := by
  obtain ⟨more, c, hbc, hc⟩ := h
  exact ⟨codes ++ more, c, hab.trans hbc, hc⟩

/-- A run that halts comes to the same end whenever its limit is large enough. -/
theorem Halts.exists_runFrom (h : t.Halts a) (trace : List Code) :
    ∃ least outcome, outcome ≠ .unfinished ∧
      ∀ limit, least ≤ limit → t.runFrom trace limit a = outcome := by
  obtain ⟨codes, b, htakes, hb⟩ := h
  induction htakes generalizing trace with
  | refl b =>
    cases hstep : t.step b with
    | next code c => exact absurd hstep (hb code c)
    | accepted =>
      refine ⟨1, .accepted (Code.accept :: trace).reverse, by simp, fun limit hlimit => ?_⟩
      obtain ⟨limit, rfl⟩ := Nat.exists_eq_add_of_le' hlimit
      simp only [runFrom, hstep]
    | failed e =>
      refine ⟨1, .failed e, by simp, fun limit hlimit => ?_⟩
      obtain ⟨limit, rfl⟩ := Nat.exists_eq_add_of_le' hlimit
      simp only [runFrom, hstep]
  | @head a b c code codes hstep _ ih =>
    obtain ⟨least, outcome, houtcome, hrun⟩ := ih (code :: trace) hb
    refine ⟨least + 1, outcome, houtcome, fun limit hlimit => ?_⟩
    obtain ⟨limit, rfl⟩ := Nat.exists_eq_add_of_le' hlimit
    rw [← Nat.add_assoc, runFrom, hstep]
    exact hrun _ (Nat.le_add_left _ _)

/-- When at most so many reductions can follow, some of them lead to where there is none. -/
theorem exists_takes_of_bound {bound : Nat}
    (h : ∀ codes b, t.Takes a codes b → Code.shifts codes = 0 → codes.length ≤ bound) :
    ∃ codes b, t.Takes a codes b ∧ ∀ n c, t.step b ≠ .next (.reduce n) c := by
  induction bound generalizing a with
  | zero =>
    refine ⟨[], a, .refl a, fun n c hstep => ?_⟩
    have := h _ _ (.single hstep) (by simp)
    simp at this
  | succ bound ih =>
    by_cases hreduce : ∃ n b, t.step a = .next (.reduce n) b
    · obtain ⟨n, b, hstep⟩ := hreduce
      obtain ⟨codes, c, htakes, hc⟩ := ih fun codes c hbc hshifts =>
        Nat.le_of_succ_le_succ (h _ _ (.head hstep hbc) (by simpa using hshifts))
      exact ⟨_, c, .head hstep htakes, hc⟩
    · exact ⟨[], a, .refl a, fun n b hstep => hreduce ⟨n, b, hstep⟩⟩

/-- A parser halts that can only make boundedly many reductions without a shift. -/
theorem halts_of_bounded {P : Configuration → Prop}
    (keeps : ∀ {a code b}, P a → t.step a = .next code b → P b)
    (bounded : ∀ {a}, P a → ∃ bound, ∀ codes b, t.Takes a codes b → Code.shifts codes = 0 →
      codes.length ≤ bound) (ha : P a) : t.Halts a := by
  generalize hn : a.input.length = n
  induction n using Nat.strongRecOn generalizing a with
  | ind n ih =>
    obtain ⟨bound, hbound⟩ := bounded ha
    obtain ⟨codes, b, htakes, hb⟩ := exists_takes_of_bound hbound
    apply Halts.of_takes htakes
    have hPb : P b := htakes.keeps (P := fun _ => P) keeps ha
    by_cases hnext : ∃ code c, t.step b = .next code c
    · obtain ⟨code, c, hstep⟩ := hnext
      obtain ⟨m, name, -, hinput⟩ | ⟨m, rfl, -⟩ := input_of_step hstep
      · -- The next step reads a name.
        obtain ⟨consumed, hconsumed, -⟩ := htakes.input_eq
        have hlt : c.input.length < n := by
          rw [← hn, hconsumed, hinput, List.length_append, List.length_cons]
          omega
        exact .of_takes (.single hstep) (ih _ hlt (keeps hPb hstep) rfl)
      · exact absurd hstep (hb m c)
    · exact ⟨[], b, .refl b, fun code c hstep => hnext ⟨code, c, hstep⟩⟩

end Codes

end ShiftReduce
