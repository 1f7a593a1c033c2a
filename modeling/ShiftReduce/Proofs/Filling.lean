import ShiftReduce.Proofs.Dictionaries
import ShiftReduce.Proofs.Passes
import ShiftReduce.Table.Filling

/-!
What a row holds after some cells have been asked for.

The items of a state ask for actions in cells, one after the other. Whatever the order, a cell for
which a shift or acceptance was asked holds it, a cell for which only reductions were asked holds
the one they agree on, and the conflicts are the pairs of a reduction and another action that were
asked for one cell.
-/

namespace ShiftReduce

def Action.isReduction : Action → Bool
  | reduce _ _ => true
  | _ => false

/-- An action that an item asks for in a cell. -/
abbrev Request := Symbol × Action

/-- Requests that can disagree only in the rules of reductions. -/
structure Consistent (requests : List Request) : Prop where
  action : ∀ x a b, (x, a) ∈ requests → (x, b) ∈ requests → a.isReduction = false →
    b.isReduction = false → a = b
  number : ∀ x m n rule, (x, .reduce m rule) ∈ requests → (x, .reduce n rule) ∈ requests → m = n

/-- A row that answers some requests. -/
structure Row.Answers (r : Row) (requests : List Request) : Prop where
  preferred : ∀ x a, (x, a) ∈ requests → a.isReduction = false → Dictionary.get? r x = some a
  reduced : ∀ x a, (x, a) ∈ requests → (∀ b, (x, b) ∈ requests → b.isReduction = true) →
    Dictionary.get? r x = some a
  asked : ∀ x a, Dictionary.get? r x = some a → (x, a) ∈ requests
  distinct : Dictionary.Distinct r

/-- A conflict of some state between two of its requests. -/
structure Conflict.Among (c : Conflict) (state : Nat) (requests : List Request) : Prop where
  state_eq : c.state = state
  isReduction : c.action.isReduction = false
  preferred : (c.symbol, c.action) ∈ requests
  refused : ∃ n, (c.symbol, .reduce n c.rule) ∈ requests

namespace Row

variable {r : Row} {requests : List Request} {x : Symbol} {a : Action}

theorem Answers.nil : Answers [] [] where
  preferred := by simp
  reduced := by simp
  asked := by simp [Dictionary.get?]
  distinct := List.Pairwise.nil

/-- An empty cell was not asked for. -/
theorem Answers.not_mem_of_none (h : r.Answers requests) (hx : Dictionary.get? r x = none) :
    (x, a) ∉ requests := by
  intro ha
  by_cases hall : ∀ b, (x, b) ∈ requests → b.isReduction = true
  · rw [h.reduced x a ha hall] at hx
    cases hx
  · obtain ⟨b, hb, hgo⟩ : ∃ b, (x, b) ∈ requests ∧ b.isReduction = false := by
      simpa using hall
    rw [h.preferred x b hb hgo] at hx
    cases hx

/-- A cell with a reduction was asked for reductions only. -/
theorem Answers.isReduction_of_reduce (h : r.Answers requests)
    (hx : Dictionary.get? r x = some a) (ha : a.isReduction = true) {b : Action}
    (hb : (x, b) ∈ requests) : b.isReduction = true := by
  cases hgo : b.isReduction with
  | true => rfl
  | false =>
    rw [h.preferred x b hb hgo] at hx
    cases hx
    exact hgo.symm.trans ha

/-- Where only reductions are asked for, a row answers no more than one rule. -/
theorem Answers.rule_eq (h : r.Answers requests) {m n : Nat} {rule other : Rule}
    (hm : (x, .reduce m rule) ∈ requests) (hn : (x, .reduce n other) ∈ requests)
    (hall : ∀ b, (x, b) ∈ requests → b.isReduction = true) : rule = other := by
  have hcell := h.reduced x _ hm hall
  rw [h.reduced x _ hn hall] at hcell
  cases hcell
  rfl

/-- The answer to one more request than a row answers, where the cell is free for it. -/
theorem Answers.insert (h : r.Answers requests) (hc : Consistent (requests ++ [(x, a)]))
    (ha : a.isReduction = true → Dictionary.get? r x = none) :
    Row.Answers (Dictionary.insert r x a) (requests ++ [(x, a)]) := by
  have hother : ∀ {y b}, (y, b) ∈ requests ++ [(x, a)] → y ≠ x → (y, b) ∈ requests := by
    intro y b hmem hy
    rcases List.mem_append.mp hmem with hmem | hmem
    · exact hmem
    · cases List.mem_singleton.mp hmem
      exact absurd rfl hy
  refine ⟨?_, ?_, ?_, h.distinct.insert x a⟩
  · intro y b hb hgo
    rw [Dictionary.get?_insert]
    by_cases hy : y = x
    · subst hy
      have hx : (y, a) ∈ requests ++ [(y, a)] := by simp
      cases hred : a.isReduction with
      | false => simp [hc.action y b a hb hx hgo hred]
      | true =>
        rcases List.mem_append.mp hb with hb | hb
        · exact absurd hb (h.not_mem_of_none (ha hred))
        · cases List.mem_singleton.mp hb
          rw [hgo] at hred
          cases hred
    · simpa [hy] using h.preferred y b (hother hb hy) hgo
  · intro y b hb hall
    rw [Dictionary.get?_insert]
    by_cases hy : y = x
    · subst hy
      have hred := hall a (by simp)
      rcases List.mem_append.mp hb with hb | hb
      · exact absurd hb (h.not_mem_of_none (ha hred))
      · cases List.mem_singleton.mp hb
        simp
    · have hall' : ∀ b, (y, b) ∈ requests → b.isReduction = true :=
        fun b hb => hall b (List.mem_append_left _ hb)
      simpa [hy] using h.reduced y b (hother hb hy) hall'
  · intro y b hb
    rw [Dictionary.get?_insert] at hb
    by_cases hy : y = x
    · subst hy
      simp only [beq_self_eq_true, if_true, Option.some.injEq] at hb
      simp [hb]
    · simp only [beq_iff_eq, hy, if_false] at hb
      exact List.mem_append_left _ (h.asked y b hb)

/-- A request that has been made before is answered already. -/
theorem Answers.again (h : r.Answers requests) (ha : (x, a) ∈ requests) :
    r.Answers (requests ++ [(x, a)]) := by
  have hmem : ∀ q, q ∈ requests ++ [(x, a)] ↔ q ∈ requests := by
    intro q
    simp only [List.mem_append, List.mem_singleton, or_iff_left_iff_imp]
    rintro rfl
    exact ha
  obtain ⟨hpreferred, hreduced, hasked, hdistinct⟩ := h
  exact ⟨by simpa only [hmem] using hpreferred, by simpa only [hmem] using hreduced,
    by simpa only [hmem] using hasked, hdistinct⟩

/-- A reduction for a cell that holds another action is answered by that action. -/
theorem Answers.refuse (h : r.Answers requests) {b : Action} (hx : Dictionary.get? r x = some b)
    (hb : b.isReduction = false) (ha : a.isReduction = true) :
    r.Answers (requests ++ [(x, a)]) := by
  have hasked := h.asked x b hx
  refine ⟨?_, ?_, ?_, h.distinct⟩
  · intro y c hc hgo
    rcases List.mem_append.mp hc with hc | hc
    · exact h.preferred y c hc hgo
    · cases List.mem_singleton.mp hc
      rw [ha] at hgo
      cases hgo
  · intro y c hc hall
    rcases List.mem_append.mp hc with hc | hc
    · apply h.reduced y c hc
      exact fun d hd => hall d (List.mem_append_left _ hd)
    · cases List.mem_singleton.mp hc
      rw [hall b (List.mem_append_left _ hasked)] at hb
      cases hb
  · intro y c hc
    exact List.mem_append_left _ (h.asked y c hc)

end Row

theorem Consistent.of_append {l m : List Request} (h : Consistent (l ++ m)) : Consistent l where
  action x a b ha hb := h.action x a b (List.mem_append_left _ ha) (List.mem_append_left _ hb)
  number x m n rule hm hn :=
    h.number x m n rule (List.mem_append_left _ hm) (List.mem_append_left _ hn)

/-- One more request brings the conflicts in which it is preferred or refused. -/
theorem Conflict.among_concat {c : Conflict} {state : Nat} {requests : List Request} {x : Symbol}
    {a : Action} : c.Among state (requests ++ [(x, a)]) ↔ c.Among state requests ∨
      c.state = state ∧ c.symbol = x ∧ c.action.isReduction = false ∧
        (c.action = a ∧ (∃ n, (x, .reduce n c.rule) ∈ requests) ∨
          (x, c.action) ∈ requests ∧ ∃ n, a = .reduce n c.rule) := by
  constructor
  · rintro ⟨hstate, hgo, hpreferred, n, hrefused⟩
    rcases List.mem_append.mp hpreferred with hp | hp
    · rcases List.mem_append.mp hrefused with hr | hr
      · exact .inl ⟨hstate, hgo, hp, n, hr⟩
      · cases List.mem_singleton.mp hr
        exact .inr ⟨hstate, rfl, hgo, .inr ⟨hp, n, rfl⟩⟩
    · cases List.mem_singleton.mp hp
      rcases List.mem_append.mp hrefused with hr | hr
      · exact .inr ⟨hstate, rfl, hgo, .inl ⟨rfl, n, hr⟩⟩
      · have heq : Action.reduce n c.rule = c.action :=
          congrArg Prod.snd (List.mem_singleton.mp hr)
        rw [← heq] at hgo
        cases hgo
  · rintro (⟨hstate, hgo, hp, n, hr⟩ | ⟨hstate, rfl, hgo, ⟨rfl, n, hr⟩ | ⟨hp, n, rfl⟩⟩)
    · exact ⟨hstate, hgo, List.mem_append_left _ hp, n, List.mem_append_left _ hr⟩
    · exact ⟨hstate, hgo, by simp, n, List.mem_append_left _ hr⟩
    · exact ⟨hstate, hgo, List.mem_append_left _ hp, n, by simp⟩

namespace Filling

/-- Fill the cell that a request is about. -/
def ask (state : Nat) (f : Filling) (r : Request) : Except Halt Filling :=
  match r.2 with
  | .reduce n rule => f.reduceOn state n rule r.1
  | action => .ok (f.put state r.1 action)

/-- A filling after some requests: the row answers them, and their conflicts are recorded. -/
structure Filled (state : Nat) (before : List Conflict) (requests : List Request) (f : Filling) :
    Prop where
  answers : f.row.Answers requests
  conflicts : ∀ c, c ∈ f.conflicts ↔ c ∈ before ∨ c.Among state requests

variable {state : Nat} {before : List Conflict} {requests : List Request} {f t : Filling}
  {x : Symbol} {a : Action} {n : Nat} {rule : Rule}

theorem Filled.nil (state : Nat) (before : List Conflict) :
    Filled state before [] ⟨[], before⟩ where
  answers := .nil
  conflicts c := by
    refine ⟨.inl, ?_⟩
    rintro (h | h)
    · exact h
    · exact absurd h.preferred (by simp)

theorem row_put : (f.put state x a).row = Dictionary.insert f.row x a := by
  unfold Filling.put
  simp only
  split <;> rfl

theorem mem_conflicts_put {c : Conflict} : c ∈ (f.put state x a).conflicts ↔ c ∈ f.conflicts ∨
    c.state = state ∧ c.symbol = x ∧ c.action = a ∧
      ∃ n, Dictionary.get? f.row x = some (.reduce n c.rule) := by
  obtain ⟨cstate, csymbol, caction, crule⟩ := c
  unfold Filling.put
  simp only
  split
  · rename_i m kept hcell
    simp only [hcell, List.mem_append, List.mem_singleton, Conflict.mk.injEq, Option.some.injEq,
      Action.reduce.injEq, exists_eq_left']
    grind
  · rename_i hcell
    refine ⟨.inl, ?_⟩
    rintro (hmem | ⟨-, -, -, n, hn⟩)
    · exact hmem
    · exact absurd hn (hcell n _)

theorem Filled.put (h : Filled state before requests f) (hgo : a.isReduction = false)
    (hc : Consistent (requests ++ [(x, a)])) :
    Filled state before (requests ++ [(x, a)]) (f.put state x a) := by
  refine ⟨row_put ▸ h.answers.insert hc (by simp [hgo]), ?_⟩
  intro c
  rw [mem_conflicts_put, Conflict.among_concat, h.conflicts c, or_assoc]
  apply or_congr_right
  constructor
  · rintro (hamong | ⟨hstate, hsymbol, haction, n, hn⟩)
    · exact .inl hamong
    · exact .inr ⟨hstate, hsymbol, haction ▸ hgo, .inl ⟨haction, n, h.answers.asked x _ hn⟩⟩
  · rintro (hamong | ⟨hstate, hsymbol, -, ⟨haction, n, hn⟩ | ⟨-, n, rfl⟩⟩)
    · exact .inl hamong
    · cases hx : Dictionary.get? f.row x with
      | none => exact absurd hn (h.answers.not_mem_of_none hx)
      | some b =>
        have hasked := h.answers.asked x b hx
        cases hb : b.isReduction with
        | true =>
          -- The reduction in the cell gives way, and it is the only one that was asked for.
          have hcell := h.answers.reduced x _ hn fun d => h.answers.isReduction_of_reduce hx hb
          exact .inr ⟨hstate, hsymbol, haction, n, hx ▸ hcell⟩
        | false =>
          -- The action was asked for before, and so was its conflict.
          have hab : a = b := hc.action x a b (by simp) (List.mem_append_left _ hasked) hgo hb
          subst hab
          exact .inl ⟨hstate, haction ▸ hgo, by rwa [hsymbol, haction], n, by rwa [hsymbol]⟩
    · cases hgo

/-- A reduction that was asked for before, or is the first in its cell, brings no conflict. -/
theorem Filled.not_preferred_of_reduce (h : Filled state before requests f)
    (hx : ∀ b, Dictionary.get? f.row x = some b → b.isReduction = true) (ha : (x, a) ∈ requests) :
    a.isReduction = true := by
  cases hcell : Dictionary.get? f.row x with
  | none => exact absurd ha (h.answers.not_mem_of_none hcell)
  | some b => exact h.answers.isReduction_of_reduce hcell (hx b hcell) ha

/-- With only reductions in its cell a reduction brings no conflict. -/
theorem Filled.conflicts_of_reductions (h : Filled state before requests f)
    (hx : ∀ b, Dictionary.get? f.row x = some b → b.isReduction = true) (c : Conflict) :
    c ∈ f.conflicts ↔ c ∈ before ∨ c.Among state (requests ++ [(x, .reduce n rule)]) := by
  rw [Conflict.among_concat, h.conflicts c]
  refine or_congr_right (or_iff_left ?_).symm
  rintro ⟨-, -, hgo, ⟨haction, -⟩ | ⟨hmem, -⟩⟩
  · rw [haction] at hgo
    cases hgo
  · have hred := h.not_preferred_of_reduce hx hmem
    rw [hgo] at hred
    cases hred

/-- With another action in its cell a reduction brings the conflict with that action. -/
theorem Filled.conflicts_of_preferred (h : Filled state before requests f) {b : Action}
    (hx : Dictionary.get? f.row x = some b) (hb : b.isReduction = false) (c : Conflict) :
    c ∈ f.conflicts ++ [⟨state, x, b, rule⟩] ↔
      c ∈ before ∨ c.Among state (requests ++ [(x, .reduce n rule)]) := by
  rw [Conflict.among_concat, List.mem_append, h.conflicts c, or_assoc, List.mem_singleton]
  refine or_congr_right (or_congr_right ⟨?_, ?_⟩)
  · rintro rfl
    exact ⟨rfl, rfl, hb, .inr ⟨h.answers.asked x b hx, n, rfl⟩⟩
  · rintro ⟨hstate, hsymbol, hgo, ⟨haction, -⟩ | ⟨hmem, m, hm⟩⟩
    · rw [haction] at hgo
      cases hgo
    · have haction := h.answers.preferred x _ hmem hgo
      rw [hx] at haction
      cases haction
      cases hm
      obtain ⟨cstate, csymbol, caction, crule⟩ := c
      simp_all

theorem reduceOn_ok (h : f.reduceOn state n rule x = .ok t) :
    Dictionary.get? f.row x = none ∧
        t = ⟨Dictionary.insert f.row x (.reduce n rule), f.conflicts⟩ ∨
      (∃ m, Dictionary.get? f.row x = some (.reduce m rule) ∧ t = f) ∨
      ∃ b, Dictionary.get? f.row x = some b ∧ b.isReduction = false ∧
        t = ⟨f.row, f.conflicts ++ [⟨state, x, b, rule⟩]⟩ := by
  unfold Filling.reduceOn at h
  split at h
  · rename_i hcell
    cases h
    exact .inl ⟨hcell, rfl⟩
  · rename_i m kept hcell
    split at h
    · rename_i hkept
      cases h
      exact .inr (.inl ⟨m, hkept ▸ hcell, rfl⟩)
    · cases h
  · rename_i b hnot hcell
    cases h
    refine .inr (.inr ⟨b, hcell, ?_, rfl⟩)
    cases b with
    | reduce m kept => exact (hnot m kept rfl).elim
    | _ => rfl

theorem Filled.reduceOn (h : Filled state before requests f)
    (hc : Consistent (requests ++ [(x, .reduce n rule)]))
    (ht : f.reduceOn state n rule x = .ok t) :
    Filled state before (requests ++ [(x, .reduce n rule)]) t := by
  rcases reduceOn_ok ht with ⟨hcell, rfl⟩ | ⟨m, hcell, rfl⟩ | ⟨b, hcell, hb, rfl⟩
  · exact ⟨h.answers.insert hc fun _ => hcell, h.conflicts_of_reductions (by simp [hcell])⟩
  · have hm := h.answers.asked x _ hcell
    obtain rfl : m = n := hc.number x m n rule (List.mem_append_left _ hm) (by simp)
    refine ⟨h.answers.again hm, h.conflicts_of_reductions ?_⟩
    intro b hb
    rw [hcell] at hb
    cases hb
    rfl
  · exact ⟨h.answers.refuse hcell hb rfl, h.conflicts_of_preferred hcell hb⟩

theorem Filled.ask {r : Request} (h : Filled state before requests f)
    (hc : Consistent (requests ++ [r])) (ht : f.ask state r = .ok t) :
    Filled state before (requests ++ [r]) t := by
  obtain ⟨x, a⟩ := r
  cases a with
  | reduce n rule => exact h.reduceOn hc ht
  | shift m =>
    cases ht
    exact h.put rfl hc
  | accept =>
    cases ht
    exact h.put rfl hc

/-- A request fails only for a reduction in the cell of another one. -/
theorem ask_error {r : Request} {e : Halt} (h : f.ask state r = .error e) :
    ∃ m n kept rule, r.2 = .reduce n rule ∧
      Dictionary.get? f.row r.1 = some (.reduce m kept) ∧ kept ≠ rule ∧
      e = ⟨state, f.conflicts, .clash ⟨state, r.1, kept, rule⟩⟩ := by
  obtain ⟨x, a⟩ := r
  cases a with
  | reduce n rule =>
    simp only [Filling.ask, Filling.reduceOn] at h
    split at h
    · cases h
    · rename_i m kept hcell
      split at h
      · cases h
      · rename_i hne
        cases h
        exact ⟨m, n, kept, rule, rfl, hcell, hne, rfl⟩
    · cases h
  | _ => cases h

theorem Filled.foldlM {more : List Request} (h : Filled state before requests f)
    (hc : Consistent (requests ++ more)) (ht : more.foldlM (Filling.ask state) f = .ok t) :
    Filled state before (requests ++ more) t := by
  induction more generalizing requests f with
  | nil =>
    cases ht
    simpa using h
  | cons r rest ih =>
    obtain ⟨u, hu, hrest⟩ := foldlM_cons_eq_ok.mp ht
    have happend : requests ++ r :: rest = (requests ++ [r]) ++ rest := by simp
    rw [happend] at hc ⊢
    exact ih (h.ask hc.of_append hu) hc hrest

end Filling

end ShiftReduce
