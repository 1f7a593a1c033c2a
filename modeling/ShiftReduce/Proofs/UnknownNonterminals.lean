import ShiftReduce.Proofs.Rounds

/-!
Nonterminals that a grammar does not have.

A body may have a nonterminal that is not one of the grammar, and so may a head be one. FIRST looks
at a body up to the first symbol that cannot vanish and may not come to the nonterminal; FOLLOW goes
through every occurrence of a nonterminal in every body. The head is only looked at where the rest
of its body can vanish behind a nonterminal. So the sets are made just if no body has such a
nonterminal and no such head is looked at, and an error tells one that is to blame.
-/

namespace ShiftReduce

section Passes

variable {σ α ε : Type} {step : σ → α → Except ε σ} {l : List α} {s t : σ}

/-- Every step of a pass that succeeds does. -/
theorem exists_step_of_foldlM (h : l.foldlM step s = .ok t) {a : α} (ha : a ∈ l) :
    ∃ u v, step u a = .ok v := by
  induction l generalizing s with
  | nil => simp at ha
  | cons b rest ih =>
    obtain ⟨u, hu, hrest⟩ := foldlM_cons_eq_ok.mp h
    rcases List.mem_cons.mp ha with rfl | ha
    · exact ⟨s, u, hu⟩
    · exact ih hrest ha

/-- Where saturation fails, a step has failed. -/
theorem exists_step_of_saturate_error {rank : σ → Nat} {pass : σ → Except ε σ} {e : ε}
    (h : saturate rank pass s = .error e) : ∃ u, pass u = .error e := by
  fun_induction saturate rank pass s with
  | case1 s e' he => exact ⟨s, he.trans h⟩
  | case2 s u hu hlt ih => exact ih h
  | case3 s u hu hge => cases h

end Passes

section Computed

variable {names : List String} {f : Facts} {form : Form} {x : Symbol} {e : Undeclared}

theorem firstOfSymbol_error (h : firstOfSymbol names f x = .error e) :
    x = .nonterminal e.name ∧ e.name ∉ names := by
  cases x with
  | nonterminal n =>
    simp only [firstOfSymbol] at h
    split at h
    · cases h
    · rename_i hn
      cases h
      exact ⟨rfl, hn⟩
  | _ => cases h

theorem firstOfString_error (h : firstOfString names f form = .error e) :
    .nonterminal e.name ∈ form ∧ e.name ∉ names := by
  induction form with
  | nil => cases h
  | cons x rest ih =>
    simp only [firstOfString] at h
    cases hx : firstOfSymbol names f x with
    | error e' =>
      rw [hx] at h
      cases h
      obtain ⟨rfl, hname⟩ := firstOfSymbol_error hx
      exact ⟨List.mem_cons_self, hname⟩
    | ok found =>
      simp only [hx] at h
      split at h
      · cases hrest : firstOfString names f rest with
        | error e' =>
          rw [hrest] at h
          cases h
          obtain ⟨hmem, hname⟩ := ih hrest
          exact ⟨List.mem_cons_of_mem _ hmem, hname⟩
        | ok more =>
          rw [hrest] at h
          cases h
      · cases h

end Computed

namespace Grammar

/-- A nonterminal that equals none of the augmented grammar. -/
def IsUnknown (g : Grammar) (x : Symbol) : Prop :=
  x.isNonterminal = true ∧ ∀ n ∈ g.augmentedNonterminals, n.symbol ≠ x

/-- The strings of symbols that can vanish, by the productions that belong to the nonterminals in
them. -/
inductive Vanishes (g : Grammar) : List Symbol → Prop where
  | nil : Vanishes g []
  | epsilon {rest : List Symbol} (h : Vanishes g rest) : Vanishes g (.epsilon :: rest)
  | nonterminal {o : String × Production} {rest : List Symbol} (ho : o ∈ g.owned)
      (hbody : Vanishes g o.2.body) (h : Vanishes g rest) : Vanishes g (.nonterminal o.1 :: rest)

/-- Behind some nonterminal of the body all can vanish, so that the FOLLOW set of the head is taken
over. -/
def HandsDown (g : Grammar) (p : Production) : Prop :=
  ∃ left n right, p.body = left ++ .nonterminal n :: right ∧ g.Vanishes right

/-- The grammar has no nonterminal of a name whose set is looked at. -/
inductive Lacks (g : Grammar) : String → Prop where
  | body {p : Production} {x : Symbol} (hp : p ∈ g.productions) (hx : x ∈ p.body)
      (h : g.IsUnknown x) : Lacks g x.name
  | head {p : Production} (hp : p ∈ g.productions) (hdown : g.HandsDown p)
      (h : g.IsUnknown (.nonterminal p.head)) : Lacks g p.head

variable {g : Grammar} {first f t : Facts} {p : Production} {o : Occurrence} {e : Undeclared}
  {n : String} {x : Symbol} {form rest : List Symbol}

theorem isUnknown_nonterminal : g.IsUnknown (.nonterminal n) ↔ n ∉ g.names := by
  simp [IsUnknown, names, Symbol.isNonterminal, Nonterminal.symbol]

/-- The production that augments the grammar has the start symbol in its body and a head of the
grammar. -/
theorem Lacks.of_body (hp : p ∈ g.augmentedProductions) (hmem : .nonterminal n ∈ p.body)
    (hn : n ∉ g.names) : g.Lacks n := by
  rcases mem_augmentedProductions.mp hp with rfl | hp
  · have hstart : n = g.start.name := by
      simpa [startProduction, Nonterminal.symbol] using hmem
    exact absurd (hstart ▸ List.mem_cons_of_mem _ g.start_mem_heads) hn
  · exact .body hp hmem (isUnknown_nonterminal.mpr hn)

theorem Lacks.of_head (hp : p ∈ g.augmentedProductions) (hdown : g.HandsDown p)
    (hn : p.head ∉ g.names) : g.Lacks p.head := by
  rcases mem_augmentedProductions.mp hp with rfl | hp
  · exact absurd List.mem_cons_self hn
  · exact .head hp hdown (isUnknown_nonterminal.mpr hn)

section Vanishing

theorem Vanishes.cons_of_singleton (h : g.Vanishes [.nonterminal n]) (hrest : g.Vanishes rest) :
    g.Vanishes (.nonterminal n :: rest) := by
  cases h with
  | nonterminal ho hbody _ => exact .nonterminal ho hbody hrest

/-- What the facts know to vanish does, if that is so of the single nonterminals. -/
theorem vanishes_of_starts (hf : ∀ n, (n, .epsilon) ∈ f → g.Vanishes [.nonterminal n])
    (h : f.Starts form .epsilon) : g.Vanishes form := by
  induction form with
  | nil => exact .nil
  | cons x rest ih =>
    rcases h with ⟨-, h⟩ | ⟨hx, h⟩
    · exact absurd rfl h
    · cases x with
      | nonterminal n => exact (hf n (Facts.mem_of.mp hx)).cons_of_singleton (ih h)
      | epsilon => exact .epsilon (ih h)
      | _ => simp [Facts.setOf] at hx

theorem addFirst_vanishes {o : String × Production} (ho : o ∈ g.owned)
    (hf : ∀ n, (n, .epsilon) ∈ f → g.Vanishes [.nonterminal n]) (h : g.addFirst f o = .ok t) :
    ∀ n, (n, .epsilon) ∈ t → g.Vanishes [.nonterminal n] := by
  obtain ⟨found, hfound, rfl⟩ := addFirst_ok h
  intro n hn
  rcases Facts.mem_addAll.mp hn with hn | ⟨s, hs, heq⟩
  · exact hf n hn
  · cases heq
    exact .nonterminal ho (vanishes_of_starts hf ((mem_firstOfString hfound).mp hs)) .nil

/-- The FIRST sets tell what can vanish. -/
theorem starts_epsilon_iff (h : g.firstFacts = .ok first) :
    first.Starts form .epsilon ↔ g.Vanishes form := by
  constructor
  · apply vanishes_of_starts
    refine saturate_keeps (P := fun f => ∀ n, (n, .epsilon) ∈ f → g.Vanishes [.nonterminal n])
      ?_ (by simp) h
    intro f t hf hpass
    exact foldlM_keeps (P := fun f => ∀ n, (n, .epsilon) ∈ f → g.Vanishes [.nonterminal n])
      (fun o ho f t hf => addFirst_vanishes ho hf) hf hpass
  · intro hform
    induction hform with
    | nil => rfl
    | epsilon _ ih => exact .inr ⟨List.mem_singleton.mpr rfl, ih⟩
    | nonterminal ho _ _ ihbody ih =>
      exact .inr ⟨Facts.mem_of.mpr (firstFacts_owned h ho ihbody), ih⟩

end Vanishing

theorem lacks_of_firstFacts_error (h : g.firstFacts = .error e) : g.Lacks e.name := by
  obtain ⟨f, hpass⟩ := exists_step_of_saturate_error h
  obtain ⟨done, o, rest, u, hsplit, -, ho⟩ := exists_of_foldlM_eq_error hpass
  unfold addFirst at ho
  cases hfound : firstOfString g.names u o.2.body with
  | ok found =>
    rw [hfound] at ho
    cases ho
  | error e' =>
    rw [hfound] at ho
    cases ho
    obtain ⟨hmem, hname⟩ := firstOfString_error hfound
    have howned : o ∈ g.owned := by simp [hsplit]
    exact .of_body (mem_of_owned howned) hmem hname

/-- A head is only missed where its set is taken over. -/
theorem inherited_error (h : g.inherited f o = .error e) : e.name = o.head ∧ o.head ∉ g.names := by
  unfold inherited at h
  split at h
  · cases h
  · split at h
    · cases h
    · cases h
      exact ⟨rfl, ‹_›⟩

theorem addFollow_error (hfirst : g.firstFacts = .ok first) (ho : o ∈ g.occurrences)
    (h : g.addFollow first f o = .error e) : g.Lacks e.name := by
  obtain ⟨p, hp, hhead, left, hbody⟩ := mem_occurrences.mp ho
  unfold addFollow at h
  split at h
  · cases hfound : firstOfString g.names first o.rest with
    | error e' =>
      rw [hfound] at h
      cases h
      obtain ⟨hmem, hname⟩ := firstOfString_error hfound
      exact .of_body hp (by simp [hbody, hmem]) hname
    | ok found =>
      simp only [hfound] at h
      by_cases hepsilon : .epsilon ∈ found
      · simp only [hepsilon, if_true] at h
        cases hmore : g.inherited f o with
        | ok more =>
          rw [hmore] at h
          cases h
        | error e' =>
          rw [hmore] at h
          cases h
          obtain ⟨hname, hmissing⟩ := inherited_error hmore
          have hvanishes := (starts_epsilon_iff hfirst).mp ((mem_firstOfString hfound).mp hepsilon)
          rw [hname, hhead]
          exact .of_head hp ⟨left, _, _, hbody, hvanishes⟩ (hhead ▸ hmissing)
      · simp only [hepsilon, if_false] at h
        cases h
  · rename_i hname
    cases h
    exact .of_body hp (by simp [hbody]) hname

theorem lacks_of_followFacts_error (hfirst : g.firstFacts = .ok first)
    (h : g.followFacts first = .error e) : g.Lacks e.name := by
  obtain ⟨f, hpass⟩ := exists_step_of_saturate_error h
  obtain ⟨done, o, rest, u, hsplit, -, ho⟩ := exists_of_foldlM_eq_error hpass
  exact addFollow_error hfirst (by simp [hsplit]) ho

/-- An error tells a nonterminal that the grammar lacks. -/
theorem lacks_of_sets_error (h : g.sets = .error e) : g.Lacks e.name := by
  unfold sets at h
  cases hfirst : g.firstFacts with
  | error e' =>
    rw [hfirst] at h
    cases h
    exact lacks_of_firstFacts_error hfirst
  | ok first =>
    simp only [hfirst] at h
    cases hfollow : g.followFacts first with
    | error e' =>
      rw [hfollow] at h
      cases h
      exact lacks_of_followFacts_error hfirst hfollow
    | ok follow =>
      rw [hfollow] at h
      cases h

/-- What is taken over is there to be taken. -/
theorem head_mem_of_addFollow (h : g.addFollow first f o = .ok t)
    (hvanishes : first.Starts o.rest .epsilon) : o.head ∈ g.names := by
  obtain ⟨hname, found, hfound, -⟩ := addFollow_ok h
  have hepsilon := (mem_firstOfString hfound).mpr hvanishes
  simp only [addFollow, hname, if_true, hfound, hepsilon, inherited] at h
  by_cases hsame : o.head = o.name
  · exact hsame ▸ hname
  · by_contra hmissing
    simp [hsame, hmissing] at h

/-- A pass over FOLLOW that succeeds has come to every occurrence of a nonterminal. -/
theorem not_lacks_of_sets_ok {s : Sets} (h : g.sets = .ok s) : ¬ g.Lacks n := by
  obtain ⟨-, hfirst, hfollow⟩ := sets_ok h
  have hstep : ∀ o ∈ g.occurrences, ∃ u v, g.addFollow s.first u o = .ok v := by
    obtain ⟨u, hpass, -⟩ := exists_step_of_saturate hfollow
    exact fun o ho => exists_step_of_foldlM hpass ho
  have hoccurs : ∀ {p left n right}, p ∈ g.productions →
      p.body = left ++ .nonterminal n :: right → ⟨p.head, n, right⟩ ∈ g.occurrences :=
    fun hp hbody => mem_occurrences.mpr ⟨_, mem_augmentedProductions.mpr (.inr hp), rfl, _, hbody⟩
  intro hlacks
  cases hlacks with
  | @body p x hp hx hunknown =>
    cases x with
    | nonterminal n =>
      obtain ⟨left, right, hbody⟩ := List.append_of_mem hx
      obtain ⟨u, v, hv⟩ := hstep _ (hoccurs hp hbody)
      exact isUnknown_nonterminal.mp hunknown (addFollow_ok hv).1
    | _ => cases hunknown.1
  | @head p hp hdown hunknown =>
    obtain ⟨left, m, right, hbody, hvanishes⟩ := hdown
    obtain ⟨u, v, hv⟩ := hstep _ (hoccurs hp hbody)
    exact isUnknown_nonterminal.mp hunknown
      (head_mem_of_addFollow hv ((starts_epsilon_iff hfirst).mpr hvanishes))

/-- The sets of a grammar are refused just if some body has a nonterminal that equals none of the
augmented grammar, wherever it stands there, or some head equals none and its FOLLOW set is taken
over. The error tells such a nonterminal, and in every other case the sets are made. Where all heads
are nonterminals of the grammar, the bodies decide alone. -/
theorem sets_refused_iff (g : Grammar) :
    ((∃ e, g.sets = .error e) ↔ ∃ name, g.Lacks name) ∧
    ((¬ ∃ name, g.Lacks name) → ∃ sets, g.sets = .ok sets) ∧
    (∀ e, g.sets = .error e → g.Lacks e.name) ∧
    ((∀ p ∈ g.productions, ¬ g.IsUnknown (.nonterminal p.head)) →
      ((∃ e, g.sets = .error e) ↔ ∃ p ∈ g.productions, ∃ x ∈ p.body, g.IsUnknown x)) := by
  have hiff : (∃ e, g.sets = .error e) ↔ ∃ name, g.Lacks name := by
    constructor
    · rintro ⟨e, he⟩
      exact ⟨e.name, lacks_of_sets_error he⟩
    · rintro ⟨n, hn⟩
      cases hsets : g.sets with
      | error e => exact ⟨e, rfl⟩
      | ok sets => exact absurd hn (not_lacks_of_sets_ok hsets)
  refine ⟨hiff, ?_, fun e he => lacks_of_sets_error he, ?_⟩
  · intro hnone
    cases hsets : g.sets with
    | error e => exact absurd ⟨e.name, lacks_of_sets_error hsets⟩ hnone
    | ok sets => exact ⟨sets, rfl⟩
  · intro hheads
    rw [hiff]
    constructor
    · rintro ⟨_, ⟨hp, hx, hunknown⟩ | ⟨hp, -, hunknown⟩⟩
      · exact ⟨_, hp, _, hx, hunknown⟩
      · exact absurd hunknown (hheads _ hp)
    · rintro ⟨p, hp, x, hx, hunknown⟩
      exact ⟨_, .body hp hx hunknown⟩

end Grammar

/-- A nonterminal that is not listed stands behind one that has no words and cannot vanish. -/
def Source.concealed : DeclaredSource where
  count := 3
  outlines := #v[
    ⟨"Start", [⟨"Start", .nonterminal (place 1), [.nonterminal (place 2)]⟩,
      ⟨"Start", .token "a", []⟩]⟩,
    ⟨"Loop", [⟨"Loop", .nonterminal (place 1), []⟩]⟩,
    ⟨"Ghost", [⟨"Ghost", .token "b", []⟩]⟩]
  listed := [place 0, place 1]
  start := place 0
  tokens := [.token "a"]

set_option maxRecDepth 100000 in
/-- No pass over FIRST comes to the nonterminal. -/
theorem Source.concealed_refused : ∃ g, concealed.load = .ok g ∧
    (∃ first, g.firstFacts = .ok first) ∧ ∃ e, g.sets = .error e ∧ g.Lacks e.name := by
  have h : Except.passes (fun g => Except.passes (fun _ => true) g.firstFacts &&
      decide (∃ p ∈ g.productions, .nonterminal "Ghost" ∈ p.body) && decide ("Ghost" ∉ g.names))
      concealed.load = true := by
    decide +kernel
  obtain ⟨g, hg, htest⟩ := Except.exists_of_passes h
  simp only [Bool.and_eq_true, decide_eq_true_eq] at htest
  obtain ⟨⟨hfirst, p, hp, hmem⟩, hname⟩ := htest
  obtain ⟨first, hfirst, -⟩ := Except.exists_of_passes hfirst
  obtain ⟨hiff, -, htells, -⟩ := Grammar.sets_refused_iff g
  obtain ⟨e, he⟩ := hiff.mpr ⟨_, .body hp hmem (Grammar.isUnknown_nonterminal.mpr hname)⟩
  exact ⟨g, hg, ⟨first, hfirst⟩, e, he, htells e he⟩

/-- The name of the synthetic start symbol stands in a body. -/
def Source.selfAugmented : DeclaredSource where
  count := 2
  outlines := #v[⟨"S", [⟨"S", .nonterminal (place 1), []⟩]⟩, ⟨Symbol.startName, []⟩]
  listed := [place 0]
  start := place 0
  tokens := []

/-- The start symbol lists a production of a nonterminal that is not listed. -/
def Source.misplaced : DeclaredSource where
  count := 1
  outlines := #v[⟨"S", [⟨"B", .nonterminal (place 0), []⟩, ⟨"S", .token "a", []⟩]⟩]
  listed := [place 0]
  start := place 0
  tokens := [.token "a"]

set_option maxRecDepth 100000 in
/-- A nonterminal of a body that is none of the grammar does not matter if it is the synthetic start
symbol, and the sets may be refused although all nonterminals of the bodies are nonterminals of the
grammar. -/
theorem Source.bodies_do_not_decide :
    (∃ g, selfAugmented.load = .ok g ∧ (∃ sets, g.sets = .ok sets) ∧
      ∃ p ∈ g.productions, ∃ x ∈ p.body, x.isNonterminal = true ∧
        ∀ n ∈ g.nonterminals, n.symbol ≠ x) ∧
    ∃ g, misplaced.load = .ok g ∧ (∃ e, g.sets = .error e) ∧
      ∀ p ∈ g.productions, ∀ x ∈ p.body, x.isNonterminal = true →
        ∃ n ∈ g.nonterminals, n.symbol = x := by
  constructor
  · have h : Except.passes (fun g => Except.passes (fun _ => true) g.sets &&
        decide (∃ p ∈ g.productions, ∃ x ∈ p.body, x.isNonterminal = true ∧
          ∀ n ∈ g.nonterminals, n.symbol ≠ x)) selfAugmented.load = true := by
      decide +kernel
    obtain ⟨g, hg, htest⟩ := Except.exists_of_passes h
    obtain ⟨hsets, hunknown⟩ := Bool.and_eq_true_iff.mp htest
    obtain ⟨sets, hsets, -⟩ := Except.exists_of_passes hsets
    exact ⟨g, hg, ⟨sets, hsets⟩, of_decide_eq_true hunknown⟩
  · have h : Except.passes (fun g => !Except.passes (fun _ => true) g.sets &&
        decide (∀ p ∈ g.productions, ∀ x ∈ p.body, x.isNonterminal = true →
          ∃ n ∈ g.nonterminals, n.symbol = x)) misplaced.load = true := by
      decide +kernel
    obtain ⟨g, hg, htest⟩ := Except.exists_of_passes h
    obtain ⟨hsets, hknown⟩ := Bool.and_eq_true_iff.mp htest
    refine ⟨g, hg, ?_, of_decide_eq_true hknown⟩
    cases he : g.sets with
    | error e => exact ⟨e, rfl⟩
    | ok sets =>
      rw [he] at hsets
      cases hsets

end ShiftReduce
