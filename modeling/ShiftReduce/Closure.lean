import ShiftReduce.Grammar

/-!
The closure of a list of items.

A nonterminal after a dot leads to the items of its productions with the dot in front. The items
are worked off in order, new ones joining the end of the queue; each round either shortens the
queue or sees rules for the first time, and there are finitely many.
-/

namespace ShiftReduce

/-- The items whose cores are neither seen nor those of earlier items of the list. -/
def fresh (seen : List (Rule × Nat)) : List Item → List Item
  | [] => []
  | i :: rest =>
    if i.core ∈ seen then fresh seen rest else i :: fresh (i.core :: seen) rest

namespace Grammar

/-- The items that a nonterminal after the dot leads to. -/
def leadsTo (g : Grammar) (i : Item) : List Item :=
  (g.expansion i).map fun p => ⟨p, 0⟩

/-- How many productions have not yet been seen with the dot in front. -/
def unseen (g : Grammar) (seen : List (Rule × Nat)) : Nat :=
  g.expandable.countP fun p => (p.toRule, 0) ∉ seen

end Grammar

theorem countP_lt_countP {α : Type} {l : List α} {p q : α → Bool} {a : α}
    (sub : ∀ x, p x = true → q x = true) (ha : a ∈ l) (hp : p a = false) (hq : q a = true) :
    l.countP p < l.countP q := by
  induction l with
  | nil => simp at ha
  | cons b rest ih =>
    have mono : rest.countP p ≤ rest.countP q := List.countP_mono_left fun x _ => sub x
    rcases List.mem_cons.mp ha with rfl | ha
    · simp only [List.countP_cons, hp, hq]
      simp
      omega
    · have := ih ha
      have hb := sub b
      simp only [List.countP_cons]
      by_cases hpb : p b = true
      · simp only [hpb, hb hpb, if_true]
        omega
      · by_cases hqb : q b = true <;> simp [hpb, hqb] <;> omega

theorem unseen_fresh (g : Grammar) (seen : List (Rule × Nat)) {ps : List Production}
    (hps : ps ⊆ g.expandable) :
    g.unseen ((fresh seen (ps.map fun p => ⟨p, 0⟩)).map Item.core ++ seen) +
      (fresh seen (ps.map fun p => ⟨p, 0⟩)).length ≤ g.unseen seen := by
  induction ps generalizing seen with
  | nil => simp [fresh]
  | cons p rest ih =>
    have hp : p ∈ g.expandable := hps (by simp)
    have hrest : rest ⊆ g.expandable := fun q hq => hps (by simp [hq])
    have front : (⟨p, 0⟩ : Item).core = (p.toRule, 0) := rfl
    by_cases hseen : (p.toRule, 0) ∈ seen
    · rw [List.map_cons, fresh, front, if_pos hseen]
      exact ih seen hrest
    · rw [List.map_cons, fresh, front, if_neg hseen]
      have later := ih ((p.toRule, 0) :: seen) hrest
      have step : g.unseen ((p.toRule, 0) :: seen) < g.unseen seen := by
        refine countP_lt_countP (a := p) ?_ hp ?_ ?_
        · intro q hq
          simp only [List.mem_cons, decide_eq_true_eq, not_or] at hq ⊢
          exact hq.2
        · simp
        · simpa using hseen
      simp only [List.map_cons, List.length_cons, List.cons_append, front]
      have same : ∀ found : List (Rule × Nat),
          g.unseen ((p.toRule, 0) :: (found ++ seen)) =
            g.unseen (found ++ (p.toRule, 0) :: seen) := by
        intro found
        refine List.countP_congr fun q _ => ?_
        simp only [List.mem_cons, List.mem_append, decide_eq_true_eq]
        grind
      rw [same]
      omega

namespace Grammar

/-- The items to add for a queue of items, given the cores seen so far. -/
def closeQueue (g : Grammar) (seen : List (Rule × Nat)) : List Item → List Item
  | [] => []
  | i :: queue =>
    let new := fresh seen (g.leadsTo i)
    new ++ closeQueue g (new.map Item.core ++ seen) (queue ++ new)
termination_by queue => g.unseen seen + queue.length
decreasing_by
  have := unseen_fresh g seen (g.expansion_subset i)
  simp only [leadsTo, List.length_append, List.length_cons]
  omega

end Grammar

end ShiftReduce
