import ShiftReduce.Proofs.FirstSets

/-!
FOLLOW sets are exact.

A symbol belongs to FOLLOW of a nonterminal exactly if some nonterminal of the augmented grammar
derives a form in which the symbol comes right after it. The forms need not come from the start
symbol: FOLLOW looks at all productions, also at those whose heads cannot be reached.
-/

namespace ShiftReduce

/-- A place in an append lies in the first part or in the second. -/
theorem append_eq_append_cons {α : Type} {a b l r : List α} {x : α} (h : a ++ b = l ++ x :: r) :
    (∃ rest, a = l ++ x :: rest ∧ r = rest ++ b) ∨ ∃ rest, l = a ++ rest ∧ b = rest ++ x :: r := by
  rcases List.append_eq_append_iff.mp h with ⟨rest, hl, hb⟩ | ⟨rest, ha, hr⟩
  · exact .inr ⟨rest, hl, hb⟩
  · cases rest with
    | nil =>
      simp only [List.append_nil] at ha
      exact .inr ⟨[], by simp [ha], by simpa using hr.symm⟩
    | cons y rest =>
      obtain ⟨rfl, rfl⟩ := List.cons.inj hr
      exact .inl ⟨rest, ha, rfl⟩

theorem mem_occurrences {head : String} {body : List Symbol} {o : Occurrence} :
    o ∈ occurrences head body ↔
      o.head = head ∧ ∃ left, body = left ++ .nonterminal o.name :: o.rest := by
  induction body with
  | nil => simp [occurrences]
  | cons x rest ih =>
    have hlater : (∃ left, x :: rest = x :: left ++ .nonterminal o.name :: o.rest) ↔
        ∃ left, rest = left ++ .nonterminal o.name :: o.rest := by simp
    have hcons : (∃ left, x :: rest = left ++ .nonterminal o.name :: o.rest) ↔
        (x = .nonterminal o.name ∧ rest = o.rest) ∨
          ∃ left, rest = left ++ .nonterminal o.name :: o.rest := by
      constructor
      · rintro ⟨left, h⟩
        cases left with
        | nil => exact .inl (List.cons.inj h)
        | cons y left => exact .inr ⟨left, (List.cons.inj h).2⟩
      · rintro (⟨rfl, rfl⟩ | ⟨left, rfl⟩)
        · exact ⟨[], rfl⟩
        · exact ⟨x :: left, rfl⟩
    rw [hcons]
    cases x with
    | nonterminal n =>
      simp only [occurrences, List.mem_cons, ih, Symbol.nonterminal.injEq]
      obtain ⟨ohead, oname, orest⟩ := o
      simp only [Occurrence.mk.injEq]
      grind
    | _ => simp [occurrences, ih]

namespace Grammar

variable {g : Grammar} {first f t : Facts} {o : Occurrence} {p : Production} {s : Symbol}
  {n : String}

theorem mem_occurrences : o ∈ g.occurrences ↔ ∃ p ∈ g.augmentedProductions,
    o.head = p.head ∧ ∃ left, p.body = left ++ .nonterminal o.name :: o.rest := by
  simp only [occurrences, List.mem_flatMap, ShiftReduce.mem_occurrences]

/-- FOLLOW of a nonterminal, by derivations. -/
def Follows (g : Grammar) (n : String) (s : Symbol) : Prop :=
  s.isNonterminal = false ∧ ∃ h ∈ g.names, ∃ left right,
    g.Derives [.nonterminal h] (left ++ .nonterminal n :: s :: right)

/-- Facts that derivations justify. -/
def FollowSound (g : Grammar) (f : Facts) : Prop :=
  ∀ n s, (n, s) ∈ f → g.Follows n s

/-- Facts with every fact that they lead to through an occurrence. -/
def FollowClosed (g : Grammar) (first f : Facts) : Prop :=
  ∀ p ∈ g.augmentedProductions, ∀ left n right, p.reducedBody = left ++ .nonterminal n :: right →
    ∀ s, s ≠ .epsilon →
      first.Starts right s ∨ first.Starts right .epsilon ∧ (p.head, s) ∈ f → (n, s) ∈ f

/-- What an occurrence takes over is in the FOLLOW set of a head that is one of the grammar. -/
theorem inherited_ok {more : List Symbol} (h : g.inherited f o = .ok more) :
    more = if o.head ≠ o.name then f.of o.head else [] := by
  unfold inherited at h
  split at h
  · rename_i hsame
    simpa [hsame] using h.symm
  · rename_i hdiffer
    split at h
    · simpa [hdiffer] using h.symm
    · cases h

theorem addFollow_ok (h : g.addFollow first f o = .ok t) : o.name ∈ g.names ∧
    ∃ found, firstOfString g.names first o.rest = .ok found ∧
      t = f.addAll o.name (found.filter (· ≠ .epsilon) ++
        if .epsilon ∈ found ∧ o.head ≠ o.name then f.of o.head else []) := by
  unfold addFollow at h
  split at h
  · rename_i hname
    cases hfound : firstOfString g.names first o.rest with
    | error e =>
      rw [hfound] at h
      cases h
    | ok found =>
      simp only [hfound] at h
      refine ⟨hname, found, rfl, ?_⟩
      by_cases hepsilon : .epsilon ∈ found
      · simp only [hepsilon, if_true] at h
        cases hmore : g.inherited f o with
        | error e =>
          rw [hmore] at h
          cases h
        | ok more =>
          rw [hmore] at h
          simp only [hepsilon, true_and, ← inherited_ok hmore]
          exact (Except.ok.inj h).symm
      · simp only [hepsilon, if_false] at h
        simp only [hepsilon, false_and, if_false]
        exact (Except.ok.inj h).symm
  · cases h

theorem addFollow_grows (h : g.addFollow first f o = .ok t) : f <+: t := by
  obtain ⟨-, found, -, rfl⟩ := addFollow_ok h
  exact Facts.prefix_addAll f o.name _

theorem followPass_grows (h : g.followPass first f = .ok t) : f <+: t :=
  foldlM_grows (fun _ _ _ _ => addFollow_grows) h

/-- What an occurrence adds: FIRST of the rest, and FOLLOW of the head when the rest can vanish. -/
theorem mem_addFollow (h : g.addFollow first f o = .ok t) : (n, s) ∈ t ↔ (n, s) ∈ f ∨
    n = o.name ∧ (first.Starts o.rest s ∧ s ≠ .epsilon ∨
      first.Starts o.rest .epsilon ∧ (o.head, s) ∈ f) := by
  obtain ⟨-, found, hfound, rfl⟩ := addFollow_ok h
  have hmem : ∀ {u}, u ∈ found ↔ first.Starts o.rest u := mem_firstOfString hfound
  simp only [Facts.mem_addAll, List.mem_append, List.mem_filter, decide_eq_true_eq,
    List.mem_ite_nil_right, Facts.mem_of, hmem, Prod.mk.injEq]
  by_cases hhead : o.head = o.name
  · simp only [hhead, ne_eq, not_true_eq_false, and_false, false_and, or_false]
    grind
  · simp only [ne_eq, hhead, not_false_eq_true, and_true]
    grind

theorem addFollow_within (hfirst : first.Within g.names g.factSymbols) (ho : o ∈ g.occurrences)
    (hf : f.Within g.names g.factSymbols) (h : g.addFollow first f o = .ok t) :
    t.Within g.names g.factSymbols := by
  obtain ⟨p, hp, -, left, hbody⟩ := mem_occurrences.mp ho
  obtain ⟨hname, found, hfound, rfl⟩ := addFollow_ok h
  apply hf.addAll hname
  intro s hs
  rcases List.mem_append.mp hs with hs | hs
  · rcases ((mem_firstOfString hfound).mp (List.mem_filter.mp hs).1).cases with rfl | hs | ⟨n, hn⟩
    · exact List.mem_cons_self
    · exact mem_factSymbols hp (by simp [hbody, hs])
    · exact (hfirst.mem _ hn).2
  · split at hs
    · exact (hf.mem _ (Facts.mem_of.mp hs)).2
    · simp at hs

theorem followPass_within (hfirst : first.Within g.names g.factSymbols)
    (hf : f.Within g.names g.factSymbols) (h : g.followPass first f = .ok t) :
    t.Within g.names g.factSymbols :=
  foldlM_keeps (P := fun f => f.Within g.names g.factSymbols)
    (fun _ ho _ _ => addFollow_within hfirst ho) hf h

theorem followFacts_within (hfirst : first.Within g.names g.factSymbols)
    (h : g.followFacts first = .ok f) : f.Within g.names g.factSymbols :=
  saturate_keeps (fun _ _ => followPass_within hfirst) (Facts.within_nil _ _) h

section Known

-- A head has to be one of the grammar only where its FOLLOW set is taken over.
variable (hknown : ∀ p ∈ g.augmentedProductions, ∀ n, .nonterminal n ∈ p.body → n ∈ g.names)
  (hheads : ∀ o ∈ g.occurrences, first.Starts o.rest .epsilon → o.head ∈ g.names)

include hknown hheads

theorem exists_addFollow (ho : o ∈ g.occurrences) (f : Facts) :
    ∃ t, g.addFollow first f o = .ok t := by
  obtain ⟨p, hp, -, left, hbody⟩ := mem_occurrences.mp ho
  have hname : o.name ∈ g.names := hknown p hp _ (by simp [hbody])
  have hrest : ∀ n, .nonterminal n ∈ o.rest → n ∈ g.names :=
    fun n hn => hknown p hp n (by simp [hbody, hn])
  obtain ⟨found, hfound⟩ := exists_firstOfString hrest first
  simp only [addFollow, hname, if_true, hfound]
  by_cases hepsilon : .epsilon ∈ found
  · have hmem := hheads o ho ((mem_firstOfString hfound).mp hepsilon)
    simp only [hepsilon, if_true, inherited, hmem]
    by_cases hsame : o.head = o.name
    · simp only [hsame, if_true]
      exact ⟨_, rfl⟩
    · simp only [hsame, if_false]
      exact ⟨_, rfl⟩
  · simp only [hepsilon, if_false]
    exact ⟨_, rfl⟩

variable (hfirst : first.Within g.names g.factSymbols)

include hfirst

theorem exists_followPass (hf : f.Within g.names g.factSymbols) :
    ∃ t, g.followPass first f = .ok t ∧ t.Within g.names g.factSymbols := by
  refine exists_foldlM ?_ hf
  intro o ho f hf
  obtain ⟨t, ht⟩ := exists_addFollow hknown hheads ho f
  exact ⟨t, ht, addFollow_within hfirst ho hf ht⟩

theorem exists_followFacts :
    ∃ f, g.followFacts first = .ok f ∧ f.Within g.names g.factSymbols :=
  exists_saturate (fun _ hf => exists_followPass hknown hheads hfirst hf) (Facts.within_nil _ _)

end Known

/-- Another pass over the facts that saturation ends with adds nothing. -/
theorem followFacts_closed (hfirst : first.Within g.names g.factSymbols)
    (h : g.followFacts first = .ok f) : g.FollowClosed first f := by
  have hlength : f.length ≤ g.factCount := by
    rw [factCount_eq]
    exact (followFacts_within hfirst h).length_le
  have hpass : g.followPass first f = .ok f :=
    saturate_fixed (fun _ _ => followPass_grows) hlength h
  intro p hp left n right hbody s hs hadd
  -- The occurrence in the body itself, in which epsilons may stand as well.
  obtain ⟨left', right', hbody', -, hright⟩ : ∃ left' right',
      p.body = left' ++ .nonterminal n :: right' ∧ Form.visible left' = left ∧
        Form.visible right' = right := by
    obtain ⟨left', rest, hbody', hleft, hrest⟩ := List.filter_eq_append_iff.mp hbody
    obtain ⟨skipped, right', hrest', hskipped, -, hright⟩ := List.filter_eq_cons_iff.mp hrest
    refine ⟨left' ++ skipped, right', ?_, ?_, hright⟩
    · rw [hbody', hrest', List.append_assoc]
    · have : Form.visible skipped = [] := List.filter_eq_nil_iff.mpr hskipped
      rw [Form.visible_append, this, List.append_nil]
      exact hleft
  have ho : (⟨p.head, n, right'⟩ : Occurrence) ∈ g.occurrences :=
    mem_occurrences.mpr ⟨p, hp, rfl, left', hbody'⟩
  have hstep : g.addFollow first f ⟨p.head, n, right'⟩ = .ok f :=
    step_of_foldlM_self (fun _ _ _ _ => addFollow_grows) hpass ho
  rw [← hright, Facts.starts_visible, Facts.starts_visible] at hadd
  refine (mem_addFollow hstep).mpr (.inr ⟨rfl, ?_⟩)
  rcases hadd with h | h
  · exact .inl ⟨h, hs⟩
  · exact .inr h

theorem addFollow_sound (hg : g.Declared) (hfirst : g.FirstSound first) (ho : o ∈ g.occurrences)
    (hf : g.FollowSound f) (h : g.addFollow first f o = .ok t) : g.FollowSound t := by
  obtain ⟨p, hp, hhead, left, hbody⟩ := mem_occurrences.mp ho
  have hreduced : p.reducedBody =
      Form.visible left ++ .nonterminal o.name :: Form.visible o.rest := by
    change Form.visible p.body = _
    rw [hbody, Form.visible_append, Form.visible_cons (by simp)]
  have hder := derives_of_mem hp
  rw [hreduced] at hder
  intro n s hns
  rcases (mem_addFollow h).mp hns with hns | ⟨rfl, ⟨hstarts, hne⟩ | ⟨hvanish, hns⟩⟩
  · exact hf n s hns
  · rcases hfirst.first hstarts with ⟨rfl, -⟩ | ⟨-, hterminal, right, hright⟩
    · exact absurd rfl hne
    · refine ⟨hterminal, p.head, hg.head_mem hp, Form.visible left, right, ?_⟩
      exact hder.trans ((hright.append_left [.nonterminal o.name]).append_left _)
  · obtain ⟨hterminal, h, hh, l, r, hform⟩ := hf _ s hns
    rw [hhead] at hform
    have hvanish : g.Derives (Form.visible o.rest) [] := by
      rcases hfirst.first hvanish with ⟨-, hvanish⟩ | ⟨hne, -⟩
      · exact hvanish
      · exact absurd rfl hne
    refine ⟨hterminal, h, hh, l ++ Form.visible left, r, ?_⟩
    have hinner : g.Derives [.nonterminal p.head] (Form.visible left ++ [.nonterminal o.name]) := by
      have := hvanish.append_left (Form.visible left ++ [.nonterminal o.name])
      exact hder.trans (by simpa using this)
    have := hform.trans (by simpa using hinner.append l (s :: r))
    simpa using this

theorem followFacts_sound (hg : g.Declared) (hfirst : g.FirstSound first)
    (h : g.followFacts first = .ok f) : g.FollowSound f := by
  refine saturate_keeps (P := g.FollowSound) ?_ ?_ h
  · intro f t hf hpass
    exact foldlM_keeps (P := g.FollowSound)
      (fun o ho f t hf => addFollow_sound hg hfirst ho hf) hf hpass
  · intro n s hns
    simp at hns

theorem Derives.epsilon_not_mem {a b : Form} (h : g.Derives a b) (ha : .epsilon ∉ a) :
    .epsilon ∉ b := by
  intro hb
  refine h.forall_mem (P := fun s => s ≠ .epsilon) ?_ ?_ _ hb rfl
  · exact fun s hs heq => ha (heq ▸ hs)
  · exact fun p _ s hs => Rule.ne_epsilon_of_mem_reducedBody hs

/-- In a form derived from a nonterminal, what starts the rest behind a nonterminal is among the
facts about it. -/
theorem FollowClosed.mem_of_derives (hfirst : g.FirstClosed first) (hf : g.FollowClosed first f)
    {h : String} {form : Form} (hder : g.Derives [.nonterminal h] form) {left right : Form}
    (hform : form = left ++ .nonterminal n :: right) (hs : s ≠ .epsilon)
    (hstarts : first.Starts right s) : (n, s) ∈ f := by
  induction hder generalizing n left right with
  | refl =>
    obtain ⟨rfl, rfl⟩ : left = [] ∧ right = [] := by
      have := congrArg List.length hform
      simp only [List.length_append, List.length_cons, List.length_nil] at this
      exact ⟨List.length_eq_zero_iff.mp (by omega), List.length_eq_zero_iff.mp (by omega)⟩
    exact absurd hstarts hs
  | tail _ hstep ih =>
    cases hstep with | @step p l r hp
    rw [List.append_assoc] at hform
    -- The nonterminal stands before the rewritten one, in its body, or behind it.
    rcases append_eq_append_cons hform with ⟨rest, rfl, rfl⟩ | ⟨rest, rfl, hbr⟩
    · have hsame : (left ++ .nonterminal n :: rest) ++ .nonterminal p.head :: r =
          left ++ .nonterminal n :: (rest ++ .nonterminal p.head :: r) := by simp
      apply ih hsame
      have hback := Produces.step rest r hp
      exact hfirst.starts_of_produces hback (by simpa using hstarts)
    · rcases append_eq_append_cons hbr with ⟨rest', hbody, rfl⟩ | ⟨rest', rfl, rfl⟩
      · rcases Facts.starts_append.mp hstarts with ⟨hstarts, -⟩ | ⟨hvanish, hstarts⟩
        · exact hf p hp rest n rest' hbody s hs (.inl hstarts)
        · exact hf p hp rest n rest' hbody s hs (.inr ⟨hvanish, ih rfl hstarts⟩)
      · have hsame : l ++ .nonterminal p.head :: (rest' ++ .nonterminal n :: right) =
            (l ++ .nonterminal p.head :: rest') ++ .nonterminal n :: right := by simp
        exact ih hsame hstarts

theorem FollowClosed.mem (hfirst : g.FirstClosed first) (hf : g.FollowClosed first f)
    (h : g.Follows n s) : (n, s) ∈ f := by
  obtain ⟨hterminal, h, -, left, right, hder⟩ := h
  have hs : s ≠ .epsilon := by
    rintro rfl
    exact hder.epsilon_not_mem (by simp) (by simp)
  exact hf.mem_of_derives hfirst hder rfl hs
    (.inl ⟨(Facts.mem_setOf_terminal hterminal).mpr rfl, hs⟩)

/-- The sets of a grammar whose nonterminals are declared. -/
theorem exists_sets (hg : g.Declared) : ∃ s, g.sets = .ok s := by
  obtain ⟨first, hfirst, hwithin⟩ := exists_firstFacts hg.mem_of_mem_body
  have hheads : ∀ o ∈ g.occurrences, first.Starts o.rest .epsilon → o.head ∈ g.names := by
    intro o ho _
    obtain ⟨p, hp, hhead, -⟩ := mem_occurrences.mp ho
    exact hhead ▸ hg.head_mem hp
  obtain ⟨follow, hfollow, -⟩ := exists_followFacts hg.mem_of_mem_body hheads hwithin
  simp only [sets, hfirst, hfollow]
  exact ⟨_, rfl⟩

theorem sets_ok {s : Sets} (h : g.sets = .ok s) :
    s.grammar = g ∧ g.firstFacts = .ok s.first ∧ g.followFacts s.first = .ok s.follow := by
  unfold sets at h
  cases hfirst : g.firstFacts with
  | error e =>
    rw [hfirst] at h
    cases h
  | ok first =>
    simp only [hfirst] at h
    cases hfollow : g.followFacts first with
    | error e =>
      rw [hfollow] at h
      cases h
    | ok follow =>
      rw [hfollow] at h
      cases h
      exact ⟨rfl, rfl, hfollow⟩

theorem follow_closed {s : Sets} (h : g.sets = .ok s) : g.FollowClosed s.first s.follow :=
  followFacts_closed (firstFacts_within (sets_ok h).2.1) (sets_ok h).2.2

theorem follow_within {s : Sets} (h : g.sets = .ok s) :
    s.follow.Within g.names g.factSymbols :=
  followFacts_within (firstFacts_within (sets_ok h).2.1) (sets_ok h).2.2

section Sets

variable {s : Sets} (hg : g.Declared) (h : g.sets = .ok s)

include hg h

theorem starts_first_iff {form : Form} {x : Symbol} : s.first.Starts form x ↔ g.First form x :=
  starts_iff_first hg (sets_ok h).2.1

/-- The facts found about FOLLOW are those that derivations show. -/
theorem mem_follow_iff {n : String} {x : Symbol} : (n, x) ∈ s.follow ↔ g.Follows n x := by
  obtain ⟨-, hfirst, hfollow⟩ := sets_ok h
  constructor
  · exact followFacts_sound hg (firstFacts_sound hg hfirst) hfollow n x
  · exact (follow_closed h).mem (firstFacts_closed hg hfirst)

end Sets

end Grammar

end ShiftReduce
