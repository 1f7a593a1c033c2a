import Mathlib.Algebra.Order.BigOperators.Group.List
import Mathlib.Algebra.Order.Ring.Nat
import ShiftReduce.Proofs.CorrectPrefixes
import ShiftReduce.Proofs.SimpleLR

/-!
The parser of a table without conflicts does not run for ever.

Reductions that follow each other lead from the form that the stack spells back to one from which
it is derived. When every nonterminal derives a string of tokens, that form stands at the beginning
of a right form, and what comes behind it there is an input that justifies all these reductions:
over it the parser makes the same ones. But over such an input it comes to acceptance. So there are
no more reductions than before acceptance; and only the first symbol of the input counts, of which
there are finitely many.
-/

namespace ShiftReduce

namespace Grammar

variable {g : Grammar} {t : Table} {p : Production} {a b form z : Form} {i : Item} {k n : Nat}
  {stack : List Nat} {s : ItemSet} {x y : Symbol} {rest : List String}

/-- A stack that spells the form leads to acceptance over the names of some symbols. -/
def AcceptsFrom (g : Grammar) (t : Table) (form z : Form) : Prop :=
  ∀ stack, g.Spells stack form → ∃ codes c,
    t.parser.Takes ⟨stack, z.map Symbol.name⟩ codes c ∧ t.parser.step c = .accepted

namespace WellFormed

variable (wf : g.WellFormed) (ht : g.table = .ok t)

include wf ht

/-- The parser shifts the symbols of a path. -/
theorem exists_takes_of_walk? (h : g.Spells stack a)
    (hwalk : g.collection.walk? (a ++ b) = some n) (rest : List String) :
    ∃ codes stack', t.parser.Takes ⟨stack, b.map Symbol.name ++ rest⟩ codes ⟨stack', rest⟩ ∧
      g.Spells stack' (a ++ b) := by
  induction b generalizing stack a with
  | nil => exact ⟨[], stack, .refl _, by simpa using h⟩
  | cons x b ih =>
    rw [List.append_cons] at hwalk
    obtain ⟨m, hm⟩ := Collection.exists_walk?_of_append hwalk
    obtain ⟨l, hl, hgoto⟩ := Collection.walk?_concat.mp hm
    obtain ⟨k, below, rfl⟩ := h.exists_cons
    obtain rfl : k = l := Option.some.inj (h.walk?_eq.symm.trans hl)
    obtain ⟨codes, stack', htakes, hspells⟩ := ih (.push h hgoto) hwalk
    have hstep := Codes.step_shift (wf.cell?_of_goto? ht hgoto) below (b.map Symbol.name ++ rest)
    exact ⟨_, stack', .head hstep htakes, by simpa using hspells⟩

/-- On a symbol of FOLLOW the parser reduces a complete item of the top state. -/
theorem exists_step_of_complete (hfree : t.conflicts = []) (h : g.Spells (k :: stack) form)
    (hs : g.collection.states[k]? = some s) (hi : i ∈ s.items) (hx : i.next? = none)
    (hfollow : g.Follows i.production.head y) (hform : form = a ++ i.production.reducedBody)
    (rest : List String) : ∃ code stack',
      t.parser.step ⟨k :: stack, y.name :: rest⟩ = .next code ⟨stack', y.name :: rest⟩ ∧
      g.Spells stack' (a ++ [.nonterminal i.production.head]) := by
  have hp := wf.mem_productions_of_complete hs hi hx
  obtain ⟨number, hnumber⟩ := wf.exists_number hp
  have hcell := wf.cell?_of_complete ht hfree hs hi hx hnumber
    ((mem_follow_iff wf.declared (table_ok ht).1).mpr hfollow)
  obtain ⟨left, m, below, target, hbody, hdrop, hleft, hgoto⟩ :=
    wf.exists_goto?_of_complete h hs hi hx
  obtain rfl : a = left := List.append_cancel_right (hform.symm.trans hbody)
  have hpop : (k :: stack).drop (i.production.reduction number).size = m :: below := by
    rw [wf.size_reduction hp, hdrop]
  have hstep : t.parser.step ⟨k :: stack, y.name :: rest⟩ =
      .next (.reduce number) ⟨target :: m :: below, y.name :: rest⟩ :=
    Codes.step_reduce hcell (wf.reduces ht hp hnumber).known hpop (wf.cell?_of_goto? ht hgoto)
  exact ⟨_, _, hstep, .push hleft hgoto⟩

/-- At the end of the input the start symbol alone on the stack is accepted. -/
theorem acceptsFrom_start : g.AcceptsFrom t [g.start.symbol] [.endOfInput] := by
  intro stack h
  obtain ⟨k, below, rfl⟩ := h.exists_cons
  have hwalk : g.collection.walk? ([] ++ [g.start.symbol]) = some k := h.walk?_eq
  obtain ⟨l, hl, hgoto⟩ := Collection.walk?_concat.mp hwalk
  obtain rfl : 0 = l := Option.some.inj hl
  obtain ⟨s, u, hs, hu, -⟩ := wf.goto?_eq_some hgoto
  obtain rfl : g.startState = s := Option.some.inj (g.collection_explored.1.first.symm.trans hs)
  have hadvance : g.startItem.advance ∈ u.items :=
    wf.advance_mem hgoto hs hu wf.startItem_mem_startState
      (wf.next?_of_drop_eq_cons g.hasItem_startItem rfl)
  have hnext : g.startItem.advance.next? = some .endOfInput :=
    wf.next?_of_drop_eq_cons (wf.hasItem_of_state hu hadvance) rfl
  have hasks : g.Asks t.sets.follow k .endOfInput .accept := ⟨u, hu, _, hadvance, .accept hnext⟩
  have hcell : t.parser.cell? k Symbol.endOfInputName = some .accept :=
    wf.cell?_of_asks ht (a := .accept) (by simpa using hasks) rfl
  exact ⟨[], _, .refl _, Codes.step_accept hcell⟩

theorem acceptsFrom_of_walk? (hwalk : g.collection.walk? (a ++ b) = some n)
    (h : g.AcceptsFrom t (a ++ b) z) : g.AcceptsFrom t a (b ++ z) := by
  intro stack hspells
  obtain ⟨codes, stack', htakes, hspells'⟩ :=
    wf.exists_takes_of_walk? ht hspells hwalk (z.map Symbol.name)
  obtain ⟨more, c, hmore, haccepted⟩ := h stack' hspells'
  exact ⟨codes ++ more, c, by simpa using htakes.trans hmore, haccepted⟩

/-- A complete item is reduced on a symbol of FOLLOW, and accepting goes on from there. -/
theorem acceptsFrom_of_complete (hfree : t.conflicts = []) (hwalk : g.collection.walk? form = some k)
    (hs : g.collection.states[k]? = some s) (hi : i ∈ s.items) (hx : i.next? = none)
    (hform : form = a ++ i.production.reducedBody) (hfollow : g.Follows i.production.head y)
    (h : g.AcceptsFrom t (a ++ [.nonterminal i.production.head]) (y :: z)) :
    g.AcceptsFrom t form (y :: z) := by
  intro stack hspells
  obtain ⟨l, below, rfl⟩ := hspells.exists_cons
  obtain rfl : k = l := Option.some.inj (hwalk.symm.trans hspells.walk?_eq)
  obtain ⟨code, stack', hstep, hspells'⟩ :=
    wf.exists_step_of_complete ht hfree hspells hs hi hx hfollow hform (z.map Symbol.name)
  obtain ⟨codes, c, htakes, haccepted⟩ := h stack' hspells'
  exact ⟨_, c, .head hstep htakes, haccepted⟩

/-- The last step of a rightmost derivation is undone by the parser, wherever it is on its way
through the right form. It cannot have gone beyond the handle: the symbol there would have to be
shifted although it is in FOLLOW of the head. -/
theorem acceptsFrom_of_handle (hfree : t.conflicts = []) {left right : Form}
    (hhandle : g.Handle p left right) (hp : p ∈ g.productions) (hright : right = y :: b)
    (hwhole : form ++ z = left ++ p.reducedBody ++ right)
    (h : g.AcceptsFrom t (left ++ [.nonterminal p.head]) right) : g.AcceptsFrom t form z := by
  subst hright
  obtain ⟨ps, hps⟩ := hhandle.derives
  have hterminal := hhandle.isInput.isTerminal
  have hfollow : g.Follows p.head y :=
    ⟨hterminal y List.mem_cons_self, Symbol.startName, List.mem_cons_self, left, b, hps.derives⟩
  -- The path to the handle goes on over the body.
  obtain ⟨k, s, hwalk, hs, hitems⟩ := wf.opens_of_rightmostDerives hps rfl hterminal
  have hbody : p.reducedBody.drop 0 = p.reducedBody ++ [] := by simp
  obtain ⟨n, u, hn, hu, hi⟩ := wf.exists_walk?_append hwalk hs (hitems p hhandle.mem rfl) hbody
    fun hend => ((wf.isBody p hp).occurs hend).ne_endOfInput rfl
  rw [Nat.zero_add] at hi
  have hitem := wf.hasItem_of_state hu hi
  have hx := (wf.next?_eq_none_iff_dot_eq hitem).mpr rfl
  have hreduced := wf.acceptsFrom_of_complete ht hfree hn hu hi hx rfl hfollow h
  rcases List.append_eq_append_iff.mp hwhole with ⟨rest, hfront, rfl⟩ | ⟨rest, rfl, hrest⟩
  · rw [hfront] at hn hreduced
    exact wf.acceptsFrom_of_walk? ht hn hreduced
  · cases rest with
    | nil =>
      rw [List.nil_append] at hrest
      rwa [List.append_nil, ← hrest]
    | cons c rest =>
      obtain ⟨rfl, -⟩ := List.cons.inj hrest
      intro stack hspells
      obtain ⟨l, below, rfl⟩ := hspells.exists_cons
      have hbeyond := hspells.walk?_eq
      rw [List.append_cons] at hbeyond
      obtain ⟨m, hm⟩ := Collection.exists_walk?_of_append hbeyond
      obtain ⟨n', hn', hgoto⟩ := Collection.walk?_concat.mp hm
      obtain rfl : n = n' := Option.some.inj (hn.symm.trans hn')
      obtain ⟨u', -, hu', -, ⟨j, hj, hjx⟩, -⟩ := wf.goto?_eq_some hgoto
      obtain rfl : u = u' := Option.some.inj (hu.symm.trans hu')
      have hcomplete := (wf.complete_iff hu hi).mp hx
      exact absurd hfollow
        (wf.not_follow_of_conflictFree ht hfree (List.mem_of_getElem? hu) hj hi hjx hcomplete)

/-- From the beginning of a right form, with terminals behind it, the parser comes to acceptance
over those terminals. -/
theorem acceptsFrom_of_rightmostDerives (hfree : t.conflicts = []) {ps : List Production}
    (h : g.RightmostDerives ps [.nonterminal Symbol.startName] (form ++ z)) (hz : z.IsTerminal) :
    g.AcceptsFrom t form z := by
  generalize hwhole : form ++ z = whole at h
  revert form z
  refine h.tail_induction (motive := fun whole => ∀ {form z}, Form.IsTerminal z →
    form ++ z = whole → g.AcceptsFrom t form z) ?first ?step
  case first =>
    intro form z hz hwhole stack hspells
    cases form with
    | nil =>
      have hterminal := hz (.nonterminal Symbol.startName) (by simp [show z = _ from hwhole])
      cases hterminal
    | cons y form =>
      obtain ⟨rfl, -⟩ := List.cons.inj hwhole
      have hoccurs := wf.occurs_of_spells hspells _ List.mem_cons_self
      exact absurd hoccurs.1 wf.startName_not_mem_heads
  case step =>
    rintro p left right hp hright ⟨qs, hqs⟩ ih form z hz hwhole
    have hhandle := wf.handle hp hqs hright
    rcases (wf.sentential_of_derives hqs.derives).split with ⟨rfl, hhead, rfl⟩ | ⟨rest, rfl, hoccurs⟩
    · obtain rfl := wf.eq_startProduction_of_head hp hhead
      have hwhole : form ++ z = [g.start.symbol, .endOfInput] := by
        rw [hwhole, reducedBody_startProduction]
        rfl
      match form, hwhole with
      | [], hwhole =>
        have hterminal := hz g.start.symbol (by simp [show z = _ from hwhole])
        cases hterminal
      | [s], hwhole =>
        obtain ⟨rfl, hz⟩ := List.cons.inj hwhole
        rw [show z = _ from hz]
        exact wf.acceptsFrom_start ht
      | s :: y :: form, hwhole =>
        intro stack hspells
        obtain ⟨-, hrest⟩ := List.cons.inj hwhole
        obtain ⟨rfl, -⟩ := List.cons.inj hrest
        exact (wf.occurs_of_spells hspells .endOfInput (by simp)).elim
    · have hp := wf.mem_productions_of_head hp (hoccurs (.nonterminal p.head) (by simp)).1
      have hreduced : g.AcceptsFrom t (left ++ [.nonterminal p.head]) (rest ++ [.endOfInput]) :=
        ih hright (by simp)
      cases rest with
      | nil => exact wf.acceptsFrom_of_handle ht hfree hhandle hp rfl hwhole hreduced
      | cons y rest => exact wf.acceptsFrom_of_handle ht hfree hhandle hp rfl hwhole hreduced

/-- Reductions lead back to a form from which the one before them is derived. -/
theorem exists_rightmostDerives_of_takes {c d : Configuration} {codes : List Code}
    (h : t.parser.Takes c codes d) (hshifts : Code.shifts codes = 0)
    (hspells : g.Spells c.stack form) :
    ∃ form' ps, g.Spells d.stack form' ∧ g.RightmostDerives ps form' form := by
  induction h generalizing form with
  | refl => exact ⟨form, [], hspells, .refl _⟩
  | @head c e d code codes hstep _ ih =>
    obtain ⟨k, stack, name, rest, rfl, -, ⟨n, rfl, -⟩ | ⟨n, r, target, rfl, -⟩⟩ :=
      Codes.cases_of_step hstep
    · simp at hshifts
    · have hmoves := wf.moves ht hspells name rest
      rw [hstep] at hmoves
      cases hmoves with
      | @reduce p left m n target below hp hnumber hform hleft hgoto =>
        rw [Code.shifts_reduce] at hshifts
        obtain ⟨form', ps, hform', hps⟩ := ih hshifts (.push hleft hgoto)
        have hlast : g.RightmostDerives [p] (left ++ .nonterminal p.head :: [])
            (left ++ p.reducedBody ++ []) :=
          .step (mem_augmentedProductions.mpr (.inr hp)) (by simp [Form.IsTerminal]) (.refl _)
        rw [List.append_nil, ← hform] at hlast
        exact ⟨form', _, hform', hps.trans hlast⟩

/-- The reductions of a parser are made over every symbol that can come behind what they lead
to. -/
theorem takes_of_takes (hfree : t.conflicts = []) {c d : Configuration} {codes : List Code}
    (h : t.parser.Takes c codes d) (hshifts : Code.shifts codes = 0)
    (hspells : g.Spells c.stack a) (hspells' : g.Spells d.stack b) (hy : y.isNonterminal = false)
    (hder : g.Derives [.nonterminal Symbol.startName] (b ++ y :: z)) (rest : List String) :
    t.parser.Takes ⟨c.stack, y.name :: rest⟩ codes ⟨d.stack, y.name :: rest⟩ := by
  induction h generalizing a with
  | refl => exact .refl _
  | @head c e d code codes hstep htakes ih =>
    obtain ⟨k, stack, name, more, rfl, hcell, ⟨n, rfl, -⟩ | ⟨n, r, target, rfl, -⟩⟩ :=
      Codes.cases_of_step hstep
    · simp at hshifts
    · rw [Code.shifts_reduce] at hshifts
      obtain ⟨p, hp, left, m, below, target, hfind, hnumber, hform, hdrop, hleft, hgoto⟩ :=
        wf.reduction_of_cell? ht hspells hcell
      rw [Codes.step_reduce hcell hfind hdrop (wf.cell?_of_goto? ht hgoto)] at hstep
      cases hstep
      have hhead := Spells.push hleft hgoto
      obtain ⟨b', ps, hb', hps⟩ := wf.exists_rightmostDerives_of_takes ht htakes hshifts hhead
      obtain rfl := wf.form_unique_of_spells hb' hspells'
      have hfollow : g.Follows p.head y := by
        refine ⟨hy, Symbol.startName, List.mem_cons_self, left, z, ?_⟩
        simpa using hder.trans (hps.derives.append_right (y :: z))
      obtain ⟨s, hs, i, hi, hx, hn⟩ := wf.complete_of_cell? ht hcell
      obtain rfl := wf.eq_of_number?_eq hp (wf.mem_productions_of_complete hs hi hx)
        (hnumber.trans hn.symm)
      have hcell' : t.parser.cell? k y.name = some (.reduce n) :=
        wf.cell?_of_complete ht hfree hs hi hx hn
          ((mem_follow_iff wf.declared (table_ok ht).1).mpr hfollow)
      refine .head ?_ (ih hshifts hhead hspells')
      exact Codes.step_reduce hcell' hfind hdrop (wf.cell?_of_goto? ht hgoto)

omit ht in
/-- What a stack spells is not derived as a whole: the end of input is missing. -/
theorem not_derives_of_spells (h : g.Spells stack form) :
    ¬ g.Derives [.nonterminal Symbol.startName] form := by
  intro hder
  have hoccurs := wf.occurs_of_spells h
  rcases wf.derives_start_of_derives hder with rfl | ⟨front, rfl, -⟩
  · exact wf.startName_not_mem_heads (hoccurs _ List.mem_cons_self).1
  · exact hoccurs .endOfInput (by simp)

omit wf ht in
/-- The terminals of derived forms are symbols of bodies. -/
theorem mem_factSymbols_of_derives (h : g.Derives [.nonterminal Symbol.startName] form)
    (hy : y ∈ form) (hterminal : y.isNonterminal = false) : y ∈ g.factSymbols := by
  have hall : ∀ s ∈ form, s = .nonterminal Symbol.startName ∨ s ∈ g.factSymbols := by
    refine h.forall_mem ?_ ?_
    · intro s hs
      exact .inl (List.mem_singleton.mp hs)
    · intro p hp s hs
      exact .inr (mem_factSymbols hp (Rule.mem_body_of_mem_reducedBody hs))
  rcases hall y hy with rfl | hy
  · cases hterminal
  · exact hy

omit ht in
/-- Where every nonterminal derives a string of tokens, what a stack spells is the beginning of a
right form, with terminals behind it. -/
theorem exists_ahead (hproductive : g.Productive) (h : g.Spells stack form) : ∃ y z ps,
    Form.IsTerminal (y :: z) ∧
      g.RightmostDerives ps [.nonterminal Symbol.startName] (form ++ y :: z) := by
  obtain ⟨k, below, rfl⟩ := h.exists_cons
  obtain ⟨s, i, hs, hi⟩ := wf.exists_item_of_walk? h.walk?_eq
  obtain ⟨left, right, hhandle, hform⟩ := wf.valid_of_walk? hproductive h.walk?_eq hs hi
  obtain ⟨ps, hps⟩ := hhandle.exists_derives
  have hitem := wf.hasItem_of_state hs hi
  have hheads : ∀ n, .nonterminal n ∈ i.production.reducedBody.drop i.dot → n ∈ g.heads :=
    fun n hn => wf.mem_heads_of_mem_body hitem.mem
      (Rule.mem_body_of_mem_reducedBody (List.mem_of_mem_drop hn))
  -- The rest of the body derives terminals.
  obtain ⟨qs, word, hword⟩ := hproductive.exists_yields hheads
  have hright := hhandle.isInput.isTerminal
  have hrest := (hword.rightmostDerives.append_right hright).append_left form
  rw [← List.take_append_drop i.dot i.production.reducedBody, ← List.append_assoc left,
    ← hform, List.append_assoc] at hps
  have hwhole := hps.trans hrest
  cases hz : word ++ right with
  | cons y z => exact ⟨y, z, _, hz ▸ hword.isTerminal.append hright, hz ▸ hwhole⟩
  | nil =>
    rw [hz, List.append_nil] at hwhole
    exact absurd hwhole.derives (wf.not_derives_of_spells h)

/-- The reductions that a symbol justifies come to an end, since the parser comes to acceptance
over an input that begins with it. -/
theorem exists_bound_of_ahead (hfree : t.conflicts = []) {c : Configuration}
    (hspells : g.Spells c.stack a) (y : Symbol) : ∃ bound, ∀ codes d b z ps,
      t.parser.Takes c codes d → Code.shifts codes = 0 → g.Spells d.stack b →
      Form.IsTerminal (y :: z) →
      g.RightmostDerives ps [.nonterminal Symbol.startName] (b ++ y :: z) →
      codes.length ≤ bound := by
  by_cases h : ∃ z ps, Form.IsTerminal (y :: z) ∧
      g.RightmostDerives ps [.nonterminal Symbol.startName] (a ++ y :: z)
  · obtain ⟨z, ps, hz, hps⟩ := h
    obtain ⟨accepting, e, haccepting, he⟩ :=
      wf.acceptsFrom_of_rightmostDerives ht hfree hps hz c.stack hspells
    refine ⟨accepting.length, ?_⟩
    intro codes d b z' ps' htakes hshifts hspells' hz' hps'
    have hsame := wf.takes_of_takes ht hfree htakes hshifts hspells hspells'
      (hz' y List.mem_cons_self) hps'.derives (z.map Symbol.name)
    exact haccepting.length_le_of_accepted he hsame
  · refine ⟨0, ?_⟩
    intro codes d b z ps htakes hshifts hspells' hz hps
    obtain ⟨b', qs, hb', hqs⟩ := wf.exists_rightmostDerives_of_takes ht htakes hshifts hspells
    obtain rfl := wf.form_unique_of_spells hb' hspells'
    exact absurd ⟨z, _, hz, hps.trans (hqs.append_right hz)⟩ h

/-- From every stack only so many reductions can be made without a shift, whatever the input. -/
theorem exists_bound (hfree : t.conflicts = []) (hproductive : g.Productive) {c : Configuration}
    (hspells : g.Spells c.stack a) : ∃ bound, ∀ codes d,
      t.parser.Takes c codes d → Code.shifts codes = 0 → codes.length ≤ bound := by
  choose bound hbound using wf.exists_bound_of_ahead ht hfree hspells
  refine ⟨(g.factSymbols.map bound).sum, ?_⟩
  intro codes d htakes hshifts
  obtain ⟨b, -, hb, -⟩ := wf.exists_rightmostDerives_of_takes ht htakes hshifts hspells
  obtain ⟨y, z, ps, hz, hps⟩ := wf.exists_ahead hproductive hb
  have hy : y ∈ g.factSymbols :=
    mem_factSymbols_of_derives hps.derives (by simp) (hz y List.mem_cons_self)
  calc codes.length ≤ bound y := hbound y codes d b z ps htakes hshifts hb hz hps
    _ ≤ (g.factSymbols.map bound).sum := List.le_sum_of_mem (List.mem_map_of_mem hy)

end WellFormed

end Grammar

/-- Where every nonterminal derives a string of tokens, the parser of a table without conflicts
comes to an end over any names: with a limit that is large enough, every run has the same
outcome, which is acceptance or a failure. -/
theorem Source.parser_terminates {d : Datum} {t : Table} (ht : (Source.written d).table = .ok t)
    (hfree : t.conflicts = []) (hproductive : t.grammar.Productive) (names : List String) :
    ∃ least outcome, outcome ≠ .unfinished ∧
      ∀ limit, least ≤ limit → t.parser.run limit names = outcome := by
  obtain ⟨g, -, wf, ht⟩ := Source.table_ok ht
  rw [Grammar.grammar_of_table ht] at hproductive
  have hhalts : t.parser.Halts (Codes.start names) := by
    apply Codes.halts_of_bounded (P := fun c => ∃ form, g.Spells c.stack form) ?keeps ?bounded
    · exact ⟨[], .bottom⟩
    case keeps =>
      rintro a code b ⟨form, hspells⟩ hstep
      obtain ⟨k, stack, name, rest, rfl, -⟩ := Codes.cases_of_step hstep
      have hmoves := wf.moves ht hspells name rest
      rw [hstep] at hmoves
      cases hmoves with
      | shift hgoto => exact ⟨_, .push hspells hgoto⟩
      | reduce _ _ _ hleft hgoto => exact ⟨_, .push hleft hgoto⟩
    case bounded =>
      rintro a ⟨form, hspells⟩
      exact wf.exists_bound ht hfree hproductive hspells
  exact hhalts.exists_runFrom []

set_option maxRecDepth 100000 in
theorem Source.balanced_terminates : ∃ t, (written balanced).table = .ok t ∧ t.conflicts = [] ∧
    t.grammar.Productive ∧ ∃ least outcome, outcome ≠ .unfinished ∧
      ∀ limit, least ≤ limit → t.parser.run limit ["(", "(", "S", "x", ")"] = outcome := by
  have h : Except.passes (fun t => decide (t.conflicts = [] ∧ t.grammar.heads = ["S"] ∧
      ending ∈ t.grammar.augmentedProductions)) (written balanced).table = true := by
    decide +kernel
  obtain ⟨t, ht, htest⟩ := Except.exists_of_passes h
  obtain ⟨hfree, hheads, hending⟩ := of_decide_eq_true htest
  have hproductive : t.grammar.Productive := by
    intro n hn
    rw [hheads, List.mem_singleton] at hn
    rw [hn]
    exact ⟨[], Grammar.derives_of_mem hending⟩
  exact ⟨t, ht, hfree, hproductive, Source.parser_terminates ht hfree hproductive _⟩

end ShiftReduce
