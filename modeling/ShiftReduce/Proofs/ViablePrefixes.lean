import ShiftReduce.Proofs.CanonicalCollection
import ShiftReduce.Proofs.Completeness
import ShiftReduce.Proofs.RightForms

/-!
Viable prefixes.

The forms that label paths from state 0 are the viable prefixes of the grammar: what can be cut off
in front of a right form without going beyond its handle. The state at the end of a path holds the
items that are valid for its form. Going along a path keeps items valid, where the rest of a body
behind a nonterminal has to derive a terminal string; and a rightmost derivation leads the path up
to its handle step by step.
-/

namespace ShiftReduce

namespace Collection

/-- Follow the transitions on the symbols of a form, from state 0. -/
def walk? (c : Collection) (form : Form) : Option Nat :=
  form.foldlM c.goto? 0

variable {c : Collection} {a b : Form} {x : Symbol} {k n : Nat}

@[simp] theorem walk?_nil (c : Collection) : c.walk? [] = some 0 := rfl

theorem walk?_concat : c.walk? (a ++ [x]) = some n ↔
    ∃ k, c.walk? a = some k ∧ c.goto? k x = some n := by
  simp [walk?, List.foldlM_append, Option.bind_eq_some_iff]

/-- A path goes through the states that its beginnings lead to. -/
theorem exists_walk?_of_append (h : c.walk? (a ++ b) = some n) : ∃ k, c.walk? a = some k := by
  rw [walk?, List.foldlM_append] at h
  obtain ⟨k, hk, -⟩ := Option.bind_eq_some_iff.mp h
  exact ⟨k, hk⟩

end Collection

namespace Grammar

/-- A beginning of a right form that does not go beyond its handle. -/
def IsViablePrefix (g : Grammar) (form : Form) : Prop :=
  ∃ p left right, g.Handle p left right ∧ form <+: left ++ p.reducedBody

/-- An item is valid for a form that ends, within a handle, where the dot of the item is. -/
def Valid (g : Grammar) (form : Form) (i : Item) : Prop :=
  ∃ left right, g.Handle i.production left right ∧
    form = left ++ i.production.reducedBody.take i.dot

variable {g : Grammar} {p : Production} {left right form : Form} {i : Item} {k n : Nat}
  {s : ItemSet} {x : Symbol} {name : String}

namespace WellFormed

variable (wf : g.WellFormed)

include wf

omit wf in
theorem forall_mem_closure {P : Item → Prop} {kernel : Set Item}
    (hitems : ∀ j, g.Closure kernel j → g.HasItem j) (hkernel : ∀ j ∈ kernel, P j)
    (expand : ∀ j p, g.HasItem j → p ∈ g.augmentedProductions →
      j.next? = some (.nonterminal p.head) → P j → P ⟨p, 0⟩) (h : g.Closure kernel i) : P i := by
  induction h with
  | kernel hi => exact hkernel _ hi
  | expand hi hp hx ih => exact expand _ _ (hitems _ hi) hp hx ih

/-- What holds of the start item, and goes over to an item moved over a symbol and to the items that
a nonterminal leads to, holds of every item of the state at the end of a path. -/
theorem forall_items_of_walk? {P : Form → Item → Prop} (start : P [] g.startItem)
    (advance : ∀ form j x, g.HasItem j → j.next? = some x → P form j → P (form ++ [x]) j.advance)
    (expand : ∀ form j p, g.HasItem j → p ∈ g.augmentedProductions →
      j.next? = some (.nonterminal p.head) → P form j → P form ⟨p, 0⟩)
    (hwalk : g.collection.walk? form = some k) (hs : g.collection.states[k]? = some s)
    (hi : i ∈ s.items) : P form i := by
  induction form using List.reverseRecOn generalizing k s i with
  | nil =>
    obtain rfl : 0 = k := Option.some.inj hwalk
    obtain rfl : g.startState = s :=
      Option.some.inj (g.collection_explored.1.first.symm.trans hs)
    have hcarrier := wf.carrier_startState
    have hmem : g.Closure {g.startItem} i := hcarrier ▸ hi
    refine forall_mem_closure ?_ ?_ (expand []) hmem
    · intro j hj
      exact wf.within_startState j (hcarrier ▸ hj : j ∈ g.startState.carrier)
    · intro j hj
      rw [Set.mem_singleton_iff.mp hj]
      exact start
  | append_singleton form x ih =>
    obtain ⟨l, hl, hgoto⟩ := Collection.walk?_concat.mp hwalk
    obtain ⟨before, hbefore, hcarrier⟩ := wf.carrier_of_goto? hgoto hs
    have hmem : g.Closure (advanced before.carrier x) i := hcarrier ▸ hi
    refine forall_mem_closure ?_ ?_ (expand (form ++ [x])) hmem
    · intro j hj
      exact wf.hasItem_of_state hs (hcarrier ▸ hj : j ∈ s.carrier)
    · rintro j ⟨i, hi, hx, rfl⟩
      exact advance form i x (wf.hasItem_of_state hbefore hi) hx (ih hl hbefore hi)

theorem valid_startItem : g.Valid [] g.startItem := by
  have hmem : g.startProduction ∈ g.augmentedProductions := mem_augmentedProductions.mpr (.inl rfl)
  have hhandle : g.Handle g.startProduction [] [] :=
    wf.handle hmem (.refl _) (by simp [Form.IsTerminal])
  exact ⟨[], [], hhandle, rfl⟩

theorem valid_advance (hi : g.HasItem i) (hx : i.next? = some x)
    (h : g.Valid form i) : g.Valid (form ++ [x]) i.advance := by
  obtain ⟨left, right, hhandle, rfl⟩ := h
  refine ⟨left, right, hhandle, ?_⟩
  rw [wf.take_dot_advance hi hx, List.append_assoc]

/-- The items that a nonterminal after the dot of a valid item leads to are valid: what follows the
nonterminal in the body derives a terminal string. -/
theorem valid_expand (hproductive : g.Productive) (hi : g.HasItem i)
    (hp : p ∈ g.augmentedProductions) (hx : i.next? = some (.nonterminal p.head))
    (h : g.Valid form i) : g.Valid form ⟨p, 0⟩ := by
  obtain ⟨left, right, hhandle, rfl⟩ := h
  obtain ⟨ps, hps⟩ := hhandle.exists_derives
  have hright := hhandle.isInput.isTerminal
  have hheads : ∀ n, .nonterminal n ∈ i.production.reducedBody.drop (i.dot + 1) → n ∈ g.heads := by
    intro n hn
    apply wf.mem_heads_of_mem_body hi.mem
    exact Rule.mem_body_of_mem_reducedBody (List.mem_of_mem_drop hn)
  rw [← wf.take_append_cons_drop hi hx] at hps
  generalize i.production.reducedBody.take i.dot = before at hps ⊢
  generalize i.production.reducedBody.drop (i.dot + 1) = rest at hps hheads
  obtain ⟨qs, word, hword⟩ := hproductive.exists_yields hheads
  have hrest : g.RightmostDerives qs.reverse
      (left ++ (before ++ .nonterminal p.head :: rest) ++ right)
      (left ++ before ++ .nonterminal p.head :: (word ++ right)) := by
    have h := (hword.rightmostDerives.append_right hright).append_left
      (left ++ before ++ [.nonterminal p.head])
    simpa [List.append_assoc] using h
  have hhandle := wf.handle hp (hps.trans hrest) (hword.isTerminal.append hright)
  exact ⟨left ++ before, word ++ right, hhandle, by simp⟩

/-- Every item of the state at the end of a path is valid. -/
theorem valid_of_walk? (hproductive : g.Productive) (hwalk : g.collection.walk? form = some k)
    (hs : g.collection.states[k]? = some s) (hi : i ∈ s.items) : g.Valid form i :=
  wf.forall_items_of_walk? (P := g.Valid) wf.valid_startItem
    (fun _ _ _ hj hx h => wf.valid_advance hj hx h)
    (fun _ _ _ hj hp hx h => wf.valid_expand hproductive hj hp hx h) hwalk hs hi

end WellFormed

/-- A path on a form ends in a state in which every production of a nonterminal begins. -/
def Opens (g : Grammar) (left : Form) (name : String) : Prop :=
  ∃ k s, g.collection.walk? left = some k ∧ g.collection.states[k]? = some s ∧
    ∀ p ∈ g.augmentedProductions, p.head = name → (⟨p, 0⟩ : Item) ∈ s.items

namespace WellFormed

variable (wf : g.WellFormed)

include wf

theorem opens_start : g.Opens [] Symbol.startName := by
  refine ⟨0, g.startState, rfl, g.collection_explored.1.first, ?_⟩
  intro p hp hhead
  rcases mem_augmentedProductions.mp hp with rfl | hp
  · exact wf.startItem_mem_startState
  · exact absurd hhead (wf.head_ne_startName hp)

theorem opens_of_next? (hwalk : g.collection.walk? left = some k)
    (hs : g.collection.states[k]? = some s) (hi : i ∈ s.items)
    (hx : i.next? = some (.nonterminal name)) : g.Opens left name := by
  refine ⟨k, s, hwalk, hs, ?_⟩
  rintro p hp rfl
  exact (wf.canonical_of_state hs).expand hi hp hx

/-- A path over a nonterminal goes on from an item with the nonterminal after its dot. -/
theorem opens_of_walk? (h : g.collection.walk? (left ++ .nonterminal name :: right) = some k) :
    g.Opens left name := by
  rw [List.append_cons] at h
  obtain ⟨n, hn⟩ := Collection.exists_walk?_of_append h
  obtain ⟨l, hl, hgoto⟩ := Collection.walk?_concat.mp hn
  obtain ⟨s, -, hs, -, ⟨i, hi, hx⟩, -⟩ := wf.goto?_eq_some hgoto
  exact wf.opens_of_next? hl hs hi hx

/-- From an item of its last state a path goes on over what is behind the dot. -/
theorem exists_walk?_append {tail : Form} (hwalk : g.collection.walk? left = some k)
    (hs : g.collection.states[k]? = some s) (hi : i ∈ s.items)
    (hdrop : i.production.reducedBody.drop i.dot = form ++ tail) (hend : .endOfInput ∉ form) :
    ∃ n t, g.collection.walk? (left ++ form) = some n ∧ g.collection.states[n]? = some t ∧
      ⟨i.production, i.dot + form.length⟩ ∈ t.items := by
  induction form generalizing left k s i with
  | nil => exact ⟨k, s, by simpa using hwalk, hs, hi⟩
  | cons y rest ih =>
    obtain ⟨n, t, hn, ht, hadvance, hdrop⟩ :=
      wf.exists_advance hs hi hdrop fun h => hend (h ▸ List.mem_cons_self)
    obtain ⟨m, u, hm, hu, hmem⟩ := ih (Collection.walk?_concat.mpr ⟨k, hwalk, hn⟩) ht hadvance
      hdrop fun h => hend (List.mem_cons_of_mem _ h)
    refine ⟨m, u, by simpa using hm, hu, ?_⟩
    rw [List.length_cons, Nat.add_comm rest.length, ← Nat.add_assoc]
    exact hmem

/-- No end of input stands before a nonterminal of a body. -/
theorem endOfInput_not_mem_of_body (hp : p ∈ g.augmentedProductions)
    (hbody : p.reducedBody = left ++ .nonterminal name :: right) : .endOfInput ∉ left := by
  intro hmem
  rcases wf.mem_reducedBody hp (s := .endOfInput) (by simp [hbody, hmem]) with h | ⟨-, rfl⟩
  · exact h
  · rw [reducedBody_startProduction] at hbody
    match left, hbody, hmem with
    | [], _, hmem => simp at hmem
    | [y], hbody, _ => simp at hbody
    | y :: z :: left, hbody, _ => simpa using congrArg List.length hbody

/-- A rightmost derivation leads a path up to the last nonterminal of every right form. -/
theorem opens_of_rightmostDerives {ps : List Production}
    (h : g.RightmostDerives ps [.nonterminal Symbol.startName] form)
    (hform : form = left ++ .nonterminal name :: right) (hright : right.IsTerminal) :
    g.Opens left name := by
  revert left name right
  refine h.tail_induction (motive := fun form => ∀ {left name right},
    form = left ++ .nonterminal name :: right → Form.IsTerminal right → g.Opens left name) ?_ ?_
  · intro left name right hform _
    cases left with
    | nil =>
      obtain ⟨hname, -⟩ := List.cons.inj hform
      rw [← Symbol.nonterminal.inj hname]
      exact wf.opens_start
    | cons y left => simp at hform
  · intro p left right hp hright _ ih left' name right' hform hright'
    obtain ⟨k, s, hwalk, hs, hitems⟩ := ih rfl hright
    -- The last nonterminal is one of the new body, or stands before it.
    rcases append_eq_append_cons hform with ⟨rest, hfront, -⟩ | ⟨rest, -, rfl⟩
    · rcases append_eq_append_cons hfront with ⟨more, rfl, -⟩ | ⟨more, rfl, hbody⟩
      · exact wf.opens_of_walk? hwalk
      · have hdrop : p.reducedBody.drop 0 = more ++ .nonterminal name :: rest := hbody
        obtain ⟨n, t, hn, ht, hmem⟩ := wf.exists_walk?_append hwalk hs (hitems p hp rfl) hdrop
          (wf.endOfInput_not_mem_of_body hp hbody)
        have hrest : p.reducedBody.drop more.length = .nonterminal name :: rest := by simp [hbody]
        refine wf.opens_of_next? hn ht hmem ?_
        apply wf.next?_of_drop_eq_cons (wf.hasItem_of_state ht hmem)
        simpa using hrest
    · have hterminal := hright (.nonterminal name) (by simp)
      cases hterminal

/-- A valid item is in the state that its form leads to. -/
theorem exists_walk?_of_valid (hi : g.HasItem i) (h : g.Valid form i)
    (hend : .endOfInput ∉ form) : ∃ k s, g.collection.walk? form = some k ∧
      g.collection.states[k]? = some s ∧ i ∈ s.items := by
  obtain ⟨left, right, hhandle, rfl⟩ := h
  obtain ⟨ps, hps⟩ := hhandle.derives
  obtain ⟨k, s, hwalk, hs, hitems⟩ :=
    wf.opens_of_rightmostDerives hps rfl hhandle.isInput.isTerminal
  have hdrop : i.production.reducedBody.drop 0 =
      i.production.reducedBody.take i.dot ++ i.production.reducedBody.drop i.dot := by simp
  obtain ⟨n, t, hn, ht, hmem⟩ := wf.exists_walk?_append hwalk hs (hitems _ hi.mem rfl) hdrop
    fun h => hend (List.mem_append_right _ h)
  refine ⟨n, t, hn, ht, ?_⟩
  simpa [hi.dot_le] using hmem

/-- What is on the way to a handle, the body of the handle included, labels a path. -/
theorem exists_walk?_of_handle (h : g.Handle p left right) (hform : form <+: left ++ p.reducedBody)
    (hend : .endOfInput ∉ form) : ∃ k, g.collection.walk? form = some k := by
  obtain ⟨more, hmore⟩ := hform
  rcases List.append_eq_append_iff.mp hmore with ⟨rest, rfl, -⟩ | ⟨rest, rfl, hbody⟩
  · obtain ⟨ps, hps⟩ := h.derives
    obtain ⟨k, -, hwalk, -⟩ := wf.opens_of_rightmostDerives hps rfl h.isInput.isTerminal
    exact Collection.exists_walk?_of_append hwalk
  · have hitem : g.HasItem ⟨p, rest.length⟩ := ⟨h.mem, by simp [hbody]⟩
    have hvalid : g.Valid (left ++ rest) ⟨p, rest.length⟩ := ⟨left, right, h, by simp [hbody]⟩
    obtain ⟨k, -, hwalk, -⟩ := wf.exists_walk?_of_valid hitem hvalid hend
    exact ⟨k, hwalk⟩

omit wf in
theorem nonempty_of_canonical {items : Set Item} (h : g.Canonical items) : ∃ i, i ∈ items := by
  cases h with
  | start => exact ⟨_, .kernel rfl⟩
  | goto _ _ hx =>
    obtain ⟨i, hi, hx⟩ := hx
    exact ⟨_, .kernel ⟨i, hi, hx, rfl⟩⟩

theorem exists_state_of_walk? (h : g.collection.walk? form = some k) :
    ∃ s, g.collection.states[k]? = some s := by
  induction form using List.reverseRecOn with
  | nil =>
    obtain rfl : 0 = k := Option.some.inj h
    exact ⟨_, g.collection_explored.1.first⟩
  | append_singleton form x _ =>
    obtain ⟨l, -, hgoto⟩ := Collection.walk?_concat.mp h
    obtain ⟨-, t, -, ht, -⟩ := wf.goto?_eq_some hgoto
    exact ⟨t, ht⟩

theorem exists_item_of_walk? (h : g.collection.walk? form = some k) :
    ∃ s i, g.collection.states[k]? = some s ∧ i ∈ s.items := by
  obtain ⟨s, hs⟩ := wf.exists_state_of_walk? h
  obtain ⟨i, hi⟩ := nonempty_of_canonical (wf.canonical_of_state hs)
  exact ⟨s, i, hs, hi⟩

/-- The forms that label paths are the viable prefixes. -/
theorem exists_walk?_iff (hproductive : g.Productive) (hend : .endOfInput ∉ form) :
    (∃ k, g.collection.walk? form = some k) ↔ g.IsViablePrefix form := by
  constructor
  · rintro ⟨k, hwalk⟩
    obtain ⟨s, i, hs, hi⟩ := wf.exists_item_of_walk? hwalk
    obtain ⟨left, right, hhandle, rfl⟩ := wf.valid_of_walk? hproductive hwalk hs hi
    refine ⟨_, left, right, hhandle, ?_⟩
    exact List.prefix_append_right_inj left |>.mpr (List.take_prefix _ _)
  · rintro ⟨p, left, right, hhandle, hprefix⟩
    exact wf.exists_walk?_of_handle hhandle hprefix hend

end WellFormed

end Grammar

/-- Where every nonterminal derives a string of tokens, the forms that label paths from state 0 are
the viable prefixes, and the state at the end of a path holds the items that are valid for its
form. -/
theorem Source.walk?_exact {d : Datum} {g : Grammar} (h : (Source.written d).load = .ok g)
    (hproductive : g.Productive) {form : Form} (hend : .endOfInput ∉ form) :
    ((∃ k, g.collection.walk? form = some k) ↔ g.IsViablePrefix form) ∧
    ∀ k, g.collection.walk? form = some k → ∃ s, g.collection.states[k]? = some s ∧
      ∀ i, i ∈ s.items ↔ g.HasItem i ∧ g.Valid form i := by
  have wf := Source.load_wellFormed h
  refine ⟨wf.exists_walk?_iff hproductive hend, ?_⟩
  intro k hwalk
  obtain ⟨s, hs⟩ := wf.exists_state_of_walk? hwalk
  refine ⟨s, hs, fun i => ⟨fun hi => ?_, ?_⟩⟩
  · exact ⟨wf.hasItem_of_state hs hi, wf.valid_of_walk? hproductive hwalk hs hi⟩
  · rintro ⟨hitem, hvalid⟩
    obtain ⟨l, t, hl, ht, hi⟩ := wf.exists_walk?_of_valid hitem hvalid hend
    obtain rfl : k = l := Option.some.inj (hwalk.symm.trans hl)
    obtain rfl : s = t := Option.some.inj (hs.symm.trans ht)
    exact hi

set_option maxRecDepth 100000 in
/-- Behind an opening parenthesis and what it encloses the closing one comes next. -/
theorem Source.balanced_walk : ∃ g, (Source.written balanced).load = .ok g ∧ g.Productive ∧
    g.IsViablePrefix [.token "(", .nonterminal "S"] ∧
    ∃ i, g.Valid [.token "(", .nonterminal "S"] i ∧ i.next? = some (.token ")") := by
  have h : Except.passes (fun g => decide (g.heads = ["S"] ∧ ending ∈ g.augmentedProductions ∧
      g.collection.walk? [.token "(", .nonterminal "S"] = some 3 ∧
      ∀ s ∈ g.collection.states[3]?, ∃ i ∈ s.items, i.next? = some (.token ")")))
      (Source.written balanced).load = true := by
    decide +kernel
  obtain ⟨g, hg, htest⟩ := Except.exists_of_passes h
  obtain ⟨hheads, hending, hwalk, hitem⟩ := of_decide_eq_true htest
  have hproductive : g.Productive := by
    intro n hn
    rw [hheads, List.mem_singleton] at hn
    rw [hn]
    exact ⟨[], Grammar.derives_of_mem hending⟩
  have hend : Symbol.endOfInput ∉ [Symbol.token "(", .nonterminal "S"] := by simp
  obtain ⟨hviable, hstate⟩ := Source.walk?_exact hg hproductive hend
  obtain ⟨s, hs, hitems⟩ := hstate 3 hwalk
  obtain ⟨i, hi, hx⟩ := hitem s hs
  exact ⟨g, hg, hproductive, hviable.mp ⟨3, hwalk⟩, i, ((hitems i).mp hi).2, hx⟩

end ShiftReduce
