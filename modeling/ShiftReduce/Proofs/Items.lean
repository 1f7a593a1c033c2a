import ShiftReduce.Closure
import ShiftReduce.Proofs.WellFormed

/-!
Items of a well-formed grammar.

Without its epsilons the body of a production says where the dot may stand: an item is complete
when the dot is at the end, and otherwise the symbol behind it comes next. Items are the same when
their cores are.
-/

namespace ShiftReduce

namespace Item

/-- Over a symbol the dot moves behind it. -/
theorem before_advance {i : Item} {x : Symbol} (h : i.next? = some x) :
    i.advance.before = i.before ++ [x] := by
  unfold next? at h
  split at h
  · cases h
  · simp [before, advance, List.take_add_one, h]

section Core

variable {i j : Item} (h : i.core = j.core)

include h

theorem isComplete_eq_of_core_eq : i.isComplete = j.isComplete := by
  obtain ⟨hrule, hdot⟩ := Prod.mk.inj h
  rw [isComplete, isComplete, hrule, hdot]

/-- The core of an item says what comes next. -/
theorem next?_eq_of_core_eq : i.next? = j.next? := by
  obtain ⟨hrule, hdot⟩ := Prod.mk.inj h
  rw [next?, next?, isComplete_eq_of_core_eq h, hrule, hdot]

theorem core_advance_eq : i.advance.core = j.advance.core := by
  obtain ⟨hrule, hdot⟩ := Prod.mk.inj h
  simp only [core, advance, hrule, hdot]

end Core

end Item

namespace Grammar

/-- A production of the augmented grammar with the dot in its body. -/
structure HasItem (g : Grammar) (i : Item) : Prop where
  mem : i.production ∈ g.augmentedProductions
  dot_le : i.dot ≤ i.production.reducedBody.length

variable {g : Grammar} {i j : Item} {p : Production} {x : Symbol}

theorem hasItem_zero (hp : p ∈ g.augmentedProductions) : g.HasItem ⟨p, 0⟩ :=
  ⟨hp, Nat.zero_le _⟩

namespace WellFormed

variable (wf : g.WellFormed)

include wf

theorem isComplete_iff (hi : g.HasItem i) :
    i.isComplete = true ↔ i.dot = i.production.reducedBody.length := by
  unfold Item.isComplete
  cases hepsilon : i.production.isEpsilon with
  | true =>
    have := hi.dot_le
    simp only [Rule.reducedBody_of_isEpsilon hepsilon, List.length_nil] at this ⊢
    simp only [Bool.or_true, true_iff]
    omega
  | false => simp [wf.reducedBody_eq_body hi.mem hepsilon]

theorem next?_eq (hi : g.HasItem i) : i.next? = i.production.reducedBody[i.dot]? := by
  unfold Item.next?
  split
  · rename_i hcomplete
    rw [(wf.isComplete_iff hi).mp hcomplete]
    simp
  · rename_i hcomplete
    have hepsilon : i.production.isEpsilon = false := by
      simp only [Item.isComplete, Bool.or_eq_true, not_or, Bool.not_eq_true] at hcomplete
      exact hcomplete.2
    rw [wf.reducedBody_eq_body hi.mem hepsilon]

/-- The body around the dot: what is before it, the symbol that comes next, and the rest. -/
theorem drop_eq_cons (hi : g.HasItem i) (hx : i.next? = some x) :
    i.production.reducedBody.drop i.dot = x :: i.production.reducedBody.drop (i.dot + 1) := by
  rw [wf.next?_eq hi] at hx
  obtain ⟨h, rfl⟩ := List.getElem?_eq_some_iff.mp hx
  exact List.drop_eq_getElem_cons h

theorem take_append_cons_drop (hi : g.HasItem i) (hx : i.next? = some x) :
    i.production.reducedBody.take i.dot ++ x :: i.production.reducedBody.drop (i.dot + 1) =
      i.production.reducedBody := by
  rw [← wf.drop_eq_cons hi hx, List.take_append_drop]

theorem take_dot_advance (hi : g.HasItem i) (hx : i.next? = some x) :
    i.advance.production.reducedBody.take i.advance.dot =
      i.production.reducedBody.take i.dot ++ [x] := by
  rw [wf.next?_eq hi] at hx
  simp [Item.advance, List.take_add_one, hx]

theorem next?_of_drop_eq_cons (hi : g.HasItem i) {rest : List Symbol}
    (h : i.production.reducedBody.drop i.dot = x :: rest) : i.next? = some x := by
  have := congrArg List.head? h
  rw [wf.next?_eq hi]
  simpa using this

theorem mem_of_next? (hi : g.HasItem i) (hx : i.next? = some x) :
    x ∈ i.production.reducedBody := by
  rw [wf.next?_eq hi] at hx
  exact List.mem_of_getElem? hx

theorem hasItem_advance (hi : g.HasItem i) (hx : i.next? = some x) : g.HasItem i.advance := by
  refine ⟨hi.mem, ?_⟩
  rw [wf.next?_eq hi] at hx
  obtain ⟨h, -⟩ := List.getElem?_eq_some_iff.mp hx
  exact h

theorem next?_eq_none_iff (hi : g.HasItem i) : i.next? = none ↔ i.isComplete = true := by
  rw [wf.isComplete_iff hi, wf.next?_eq hi, List.getElem?_eq_none_iff]
  have := hi.dot_le
  omega

theorem next?_eq_none_iff_dot_eq (hi : g.HasItem i) :
    i.next? = none ↔ i.dot = i.production.reducedBody.length := by
  rw [wf.next?_eq_none_iff hi, wf.isComplete_iff hi]

/-- Only the production that augments the grammar has the end of input in its body. -/
theorem production_of_next?_endOfInput (hi : g.HasItem i) (hx : i.next? = some .endOfInput) :
    i.production = g.startProduction ∧ i.dot = 1 := by
  rcases wf.mem_reducedBody hi.mem (wf.mem_of_next? hi hx) with h | ⟨-, hp⟩
  · exact h.elim
  · refine ⟨hp, ?_⟩
    rw [wf.next?_eq hi, hp, reducedBody_startProduction] at hx
    match hdot : i.dot with
    | 0 => simp [hdot] at hx
    | 1 => rfl
    | n + 2 => simp [hdot] at hx

theorem mem_heads_of_next? {name : String} (hi : g.HasItem i)
    (hx : i.next? = some (.nonterminal name)) : name ∈ g.heads :=
  wf.mem_heads_of_mem_body hi.mem (Rule.mem_body_of_mem_reducedBody (wf.mem_of_next? hi hx))

theorem eq_of_core_eq (hi : g.HasItem i) (hj : g.HasItem j) (h : i.core = j.core) : i = j := by
  obtain ⟨p, m⟩ := i
  obtain ⟨q, n⟩ := j
  obtain ⟨hrule, hdot⟩ := Prod.mk.inj h
  obtain rfl : p = q := wf.eq_of_toRule_eq hi.mem hj.mem hrule
  obtain rfl : m = n := hdot
  rfl

/-- An item that equals one of a list is in the list. -/
theorem mem_of_core_mem {items : List Item} (h : ∀ j ∈ items, g.HasItem j) (hi : g.HasItem i)
    (hcore : i.core ∈ items.map Item.core) : i ∈ items := by
  obtain ⟨j, hj, heq⟩ := List.mem_map.mp hcore
  rwa [← wf.eq_of_core_eq (h j hj) hi heq]

theorem subset_of_cores {items items' : List Item} (h : ∀ i ∈ items, g.HasItem i)
    (h' : ∀ i ∈ items', g.HasItem i) (hsub : items.map Item.core ⊆ items'.map Item.core) :
    items ⊆ items' :=
  fun _ hi => wf.mem_of_core_mem h' (h _ hi) (hsub (List.mem_map_of_mem hi))

/-- Complete items of one rule are the same. -/
theorem eq_of_complete (hi : g.HasItem i) (hj : g.HasItem j) (hix : i.next? = none)
    (hjx : j.next? = none) (h : i.production.toRule = j.production.toRule) : i = j := by
  have hp := wf.eq_of_toRule_eq hi.mem hj.mem h
  apply wf.eq_of_core_eq hi hj
  have hidot := (wf.next?_eq_none_iff_dot_eq hi).mp hix
  have hjdot := (wf.next?_eq_none_iff_dot_eq hj).mp hjx
  rw [Item.core, Item.core, h, hidot, hjdot, hp]

/-- Only the production that augments the grammar has that origin. -/
theorem eq_startProduction_of_origin (hp : p ∈ g.augmentedProductions)
    (h : p.origin = .augmented) : p = g.startProduction := by
  rcases mem_augmentedProductions.mp hp with hp | hp
  · exact hp
  · obtain ⟨n, hn⟩ := wf.exists_origin hp
    cases h.symm.trans hn

/-- The name after the dot says which nonterminal it is. -/
theorem expansion_eq {n : Nonterminal} (hi : g.HasItem i) (hn : n ∈ g.nonterminals)
    (hx : i.next? = some (.nonterminal n.name)) : g.expansion i = n.productions := by
  simp only [expansion, hx]
  split
  · rename_i haugmented
    -- In the production that augments the grammar the start nonterminal comes first.
    have hmem := wf.mem_of_next? hi hx
    rw [wf.eq_startProduction_of_origin hi.mem haugmented, reducedBody_startProduction] at hmem
    have hname : g.start.name = n.name := by simpa [eq_comm] using hmem
    rw [wf.eq_of_name_eq List.mem_cons_self hn hname]
  · simp only [wf.scope_eq, Scope.find?, wf.find?_name hn]

/-- A nonterminal after the dot leads to the productions of that head, and to no others. -/
theorem mem_expansion (hi : g.HasItem i) :
    p ∈ g.expansion i ↔ p ∈ g.productions ∧ i.next? = some (.nonterminal p.head) := by
  cases hx : i.next? with
  | none => simp [expansion, hx]
  | some x =>
    cases x with
    | nonterminal name =>
      obtain ⟨n, hn, rfl⟩ := List.mem_map.mp (wf.mem_heads_of_next? hi hx)
      rw [wf.expansion_eq hi hn hx, wf.mem_productions_of_mem hn, Option.some.injEq,
        Symbol.nonterminal.injEq, eq_comm (a := n.name)]
    | _ => simp [expansion, hx]

theorem mem_leadsTo (hi : g.HasItem i) : j ∈ g.leadsTo i ↔
    ∃ p ∈ g.productions, i.next? = some (.nonterminal p.head) ∧ j = ⟨p, 0⟩ := by
  simp only [leadsTo, List.mem_map, wf.mem_expansion hi]
  constructor
  · rintro ⟨p, ⟨hp, hx⟩, rfl⟩
    exact ⟨p, hp, hx, rfl⟩
  · rintro ⟨p, hp, hx, rfl⟩
    exact ⟨p, ⟨hp, hx⟩, rfl⟩

theorem hasItem_of_mem_leadsTo (hi : g.HasItem i) (hj : j ∈ g.leadsTo i) : g.HasItem j := by
  obtain ⟨p, hp, -, rfl⟩ := (wf.mem_leadsTo hi).mp hj
  exact hasItem_zero (mem_augmentedProductions.mpr (.inr hp))

end WellFormed

end Grammar

end ShiftReduce
