import ShiftReduce.Proofs.Cells

/-!
The stack of a parser.

From state 0 upwards the states on the stack are joined by transitions, whose symbols the stack
spells. An item of the top state says how the spelled form ends and where it came in: below as
many states as the dot has passed there is the same item with the dot in front. Hence a reduction
finds its states, and the state under them has a goto on the head.
-/

namespace ShiftReduce

namespace Grammar

/-- The states of a stack, the top first, with the symbols of the transitions that join them. -/
inductive Spells (g : Grammar) : List Nat → Form → Prop where
  | bottom : Spells g [0] []
  | push {k n : Nat} {stack : List Nat} {form : Form} {x : Symbol} :
      Spells g (k :: stack) form → g.collection.goto? k x = some n →
      Spells g (n :: k :: stack) (form ++ [x])

variable {g : Grammar} {stack : List Nat} {form : Form} {k : Nat} {s : ItemSet} {i : Item}

theorem Spells.exists_cons (h : g.Spells stack form) : ∃ k below, stack = k :: below := by
  cases h with
  | bottom => exact ⟨0, [], rfl⟩
  | push => exact ⟨_, _, rfl⟩

theorem Spells.getLast? (h : g.Spells stack form) : stack.getLast? = some 0 := by
  induction h with
  | bottom => rfl
  | push _ _ ih => rw [List.getLast?_cons_cons, ih]

/-- Under as many states as the dot of an item has passed, the item with the dot in front. -/
def Entered (g : Grammar) (i : Item) (stack : List Nat) (form : Form) : Prop :=
  ∃ left m below s, form = left ++ i.production.reducedBody.take i.dot ∧
    stack.drop i.dot = m :: below ∧ g.Spells (m :: below) left ∧
    g.collection.states[m]? = some s ∧ ⟨i.production, 0⟩ ∈ s.items

theorem Entered.of_dot_eq_zero (h : g.Spells (k :: stack) form)
    (hs : g.collection.states[k]? = some s) (hi : i ∈ s.items) (hdot : i.dot = 0) :
    g.Entered i (k :: stack) form :=
  ⟨form, k, stack, s, by simp [hdot], by simp [hdot], h, hs, by rwa [← hdot]⟩

namespace WellFormed

variable (wf : g.WellFormed)

include wf

theorem exists_state (h : g.Spells (k :: stack) form) :
    ∃ s, g.collection.states[k]? = some s := by
  cases h with
  | bottom => exact ⟨_, g.collection_explored.1.first⟩
  | push _ hgoto =>
    obtain ⟨-, t, -, ht, -⟩ := wf.goto?_eq_some hgoto
    exact ⟨t, ht⟩

/-- Every item of the start state has the dot in front. -/
theorem dot_eq_zero_of_first (hs : g.collection.states[0]? = some s) (hi : i ∈ s.items) :
    i.dot = 0 := by
  obtain rfl : g.startState = s := Option.some.inj (g.collection_explored.1.first.symm.trans hs)
  have hclosure : i ∈ g.Closure {g.startItem} := wf.carrier_startState ▸ hi
  cases hclosure with
  | kernel hi =>
    rw [Set.mem_singleton_iff.mp hi]
    rfl
  | expand => rfl

/-- The items of a state that a transition leads to. -/
theorem carrier_of_goto? {n : Nat} {x : Symbol} (hgoto : g.collection.goto? k x = some n)
    (hs : g.collection.states[n]? = some s) : ∃ before, g.collection.states[k]? = some before ∧
      s.carrier = g.Closure (advanced before.carrier x) := by
  obtain ⟨before, t, hbefore, ht, -, -, hcarrier⟩ := wf.goto?_eq_some hgoto
  obtain rfl : s = t := Option.some.inj (hs.symm.trans ht)
  exact ⟨before, hbefore, hcarrier⟩

theorem advance_mem {n : Nat} {x : Symbol} {t : ItemSet} (hgoto : g.collection.goto? k x = some n)
    (hs : g.collection.states[k]? = some s) (ht : g.collection.states[n]? = some t)
    (hi : i ∈ s.items) (hx : i.next? = some x) : i.advance ∈ t.items := by
  obtain ⟨before, hbefore, hcarrier⟩ := wf.carrier_of_goto? hgoto ht
  obtain rfl : s = before := Option.some.inj (hs.symm.trans hbefore)
  have hmem : i.advance ∈ t.carrier := by
    rw [hcarrier]
    exact .kernel ⟨i, hi, hx, rfl⟩
  exact hmem

/-- From an item of the top state one gets back to where its production came in. -/
theorem entered (h : g.Spells stack form) (hk : stack.head? = some k)
    (hs : g.collection.states[k]? = some s) (hi : i ∈ s.items) : g.Entered i stack form := by
  induction h generalizing k s i with
  | bottom =>
    obtain rfl : 0 = k := Option.some.inj hk
    exact .of_dot_eq_zero .bottom hs hi (wf.dot_eq_zero_of_first hs hi)
  | @push l n stack form x hspells hgoto ih =>
    obtain rfl : n = k := Option.some.inj hk
    by_cases hdot : i.dot = 0
    · exact .of_dot_eq_zero (.push hspells hgoto) hs hi hdot
    · obtain ⟨before, hbefore, hcarrier⟩ := wf.carrier_of_goto? hgoto hs
      have hclosure : i ∈ g.Closure (advanced before.carrier x) := hcarrier ▸ hi
      cases hclosure with
      | expand => exact absurd rfl hdot
      | kernel hi =>
        obtain ⟨j, hj, hx, rfl⟩ := hi
        obtain ⟨left, m, below, s', rfl, hdrop, hleft, hs', hmem⟩ := ih rfl hbefore hj
        refine ⟨left, m, below, s', ?_, hdrop, hleft, hs', hmem⟩
        rw [wf.take_dot_advance (wf.hasItem_of_state hbefore hj) hx, List.append_assoc]

/-- The start item is only in the start state. -/
theorem eq_nil_of_startItem (h : g.Spells (k :: stack) form)
    (hs : g.collection.states[k]? = some s) (hi : g.startItem ∈ s.items) : form = [] := by
  cases h with
  | bottom => rfl
  | push _ hgoto =>
    obtain ⟨before, -, hcarrier⟩ := wf.carrier_of_goto? hgoto hs
    have hmem : g.startItem ∈ s.carrier := hi
    rw [hcarrier] at hmem
    generalize hstart : g.startItem = j at hmem
    cases hmem with
    | kernel hi =>
      obtain ⟨j, -, -, rfl⟩ := hi
      exact absurd (congrArg Item.dot hstart) (Nat.succ_ne_zero _).symm
    | @expand j p hj hp hx =>
      obtain rfl : g.startProduction = p := congrArg Item.production hstart
      have hj : j ∈ s.carrier := hcarrier ▸ hj
      have hitem := wf.hasItem_of_state hs hj
      exact absurd (wf.mem_heads_of_next? hitem hx) wf.startName_not_mem_heads

/-- Before the end of input the stack spells the start symbol alone. -/
theorem form_of_next?_endOfInput (h : g.Spells (k :: stack) form)
    (hs : g.collection.states[k]? = some s) (hi : i ∈ s.items)
    (hx : i.next? = some .endOfInput) : form = [g.start.symbol] := by
  obtain ⟨hp, hdot⟩ := wf.production_of_next?_endOfInput (wf.hasItem_of_state hs hi) hx
  obtain ⟨left, m, below, s', rfl, -, hleft, hs', hmem⟩ := wf.entered h rfl hs hi
  rw [hp] at hmem
  rw [wf.eq_nil_of_startItem hleft hs' hmem, hp, hdot]
  rfl

/-- What a reduction by a complete item of the top state finds: the body at the end of the spelled
form, and below it a state with a goto on the head. -/
theorem exists_goto?_of_complete (h : g.Spells (k :: stack) form)
    (hs : g.collection.states[k]? = some s) (hi : i ∈ s.items) (hx : i.next? = none) :
    ∃ left m below n, form = left ++ i.production.reducedBody ∧
      (k :: stack).drop i.production.reducedBody.length = m :: below ∧
      g.Spells (m :: below) left ∧
      g.collection.goto? m (.nonterminal i.production.head) = some n := by
  have hitem := wf.hasItem_of_state hs hi
  have hp := wf.mem_productions_of_complete hs hi hx
  have hdot := (wf.next?_eq_none_iff_dot_eq hitem).mp hx
  obtain ⟨left, m, below, s', hform, hdrop, hleft, hs', hmem⟩ := wf.entered h rfl hs hi
  rw [hdot] at hform hdrop
  rw [List.take_length] at hform
  have hcanonical := wf.canonical_iff.mpr ⟨s', List.mem_of_getElem? hs', rfl⟩
  rcases wf.parent_of_dot_eq_zero hcanonical hmem rfl with ⟨hstart, -⟩ | ⟨-, j, hj, hjx⟩
  · have hhead : i.production.head = Symbol.startName :=
      congrArg (fun i => i.production.head) hstart
    exact absurd hhead (wf.head_ne_startName hp)
  · obtain ⟨n, hn⟩ := exists_goto? hs' ⟨j, hj, hjx⟩ (by simp)
    exact ⟨left, m, below, n, hform, hdrop, hleft, hn⟩

end WellFormed

end Grammar

end ShiftReduce
