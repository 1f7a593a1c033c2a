import ShiftReduce.Proofs.CanonicalCollection
import ShiftReduce.Proofs.Questions

/-!
Grammars with the same rules.

What is said by derivations looks at the rules of a grammar only, whatever their order and their
numbers, and so do FIRST and FOLLOW. Items that differ in the numbers of their productions have the
same core; taken by their cores, closures and the canonical collection depend on the rules alone.
-/

namespace ShiftReduce

namespace Grammar

/-- The rules of the augmented grammar, without their order. -/
def rules (g : Grammar) : Set Rule := {r | ∃ p ∈ g.augmentedProductions, p.toRule = r}

variable {g g' : Grammar} {p : Production} {a b form : Form} {n : String} {x : Symbol}

theorem mem_rules (hp : p ∈ g.augmentedProductions) : p.toRule ∈ g.rules := ⟨p, hp, rfl⟩

theorem exists_of_rules_eq (h : g.rules = g'.rules) (hp : p ∈ g.augmentedProductions) :
    ∃ q ∈ g'.augmentedProductions, q.toRule = p.toRule := by
  have hmem := mem_rules hp
  rwa [h] at hmem

section Derivations

variable (h : g.rules = g'.rules)

include h

theorem produces_of_rules_eq (hab : g.Produces a b) : g'.Produces a b := by
  obtain ⟨left, right, hp⟩ := hab
  obtain ⟨q, hq, hrule⟩ := exists_of_rules_eq h hp
  rw [← hrule]
  exact .step left right hq

theorem derives_of_rules_eq (hab : g.Derives a b) : g'.Derives a b := by
  induction hab with
  | refl => exact .refl _
  | tail _ hstep ih => exact ih.tail (produces_of_rules_eq h hstep)

theorem derives_iff_of_rules_eq : g.Derives a b ↔ g'.Derives a b :=
  ⟨derives_of_rules_eq h, derives_of_rules_eq h.symm⟩

theorem first_iff_of_rules_eq : g.First form x ↔ g'.First form x := by
  simp only [First, derives_iff_of_rules_eq h]

end Derivations

/-- Every nonterminal has a rule. -/
theorem WellFormed.mem_names_iff (wf : g.WellFormed) : n ∈ g.names ↔ ∃ r ∈ g.rules, r.head = n := by
  constructor
  · intro hn
    rw [names_eq] at hn
    rcases List.mem_cons.mp hn with rfl | hn
    · exact ⟨_, mem_rules (mem_augmentedProductions.mpr (.inl rfl)), rfl⟩
    · obtain ⟨m, hm, rfl⟩ := List.mem_map.mp hn
      obtain ⟨p, hp⟩ := List.exists_mem_of_ne_nil _ (wf.productions_ne_nil m hm)
      have hmem := mem_productions.mpr ⟨m, hm, hp⟩
      exact ⟨_, mem_rules (mem_augmentedProductions.mpr (.inr hmem)), wf.head_eq m hm p hp⟩
  · rintro ⟨_, ⟨p, hp, rfl⟩, rfl⟩
    exact wf.head_mem_names hp

section WellFormed

variable (wf : g.WellFormed) (wf' : g'.WellFormed) (h : g.rules = g'.rules)

include wf wf' h

theorem mem_names_iff_of_rules_eq : n ∈ g.names ↔ n ∈ g'.names := by
  rw [wf.mem_names_iff, wf'.mem_names_iff, h]

theorem follows_iff_of_rules_eq : g.Follows n x ↔ g'.Follows n x := by
  simp only [Follows, mem_names_iff_of_rules_eq wf wf' h, derives_iff_of_rules_eq h]

omit wf in
/-- The start nonterminal is told by the rule of the synthetic start symbol. -/
theorem startProduction_eq_of_rules_eq : g.startProduction = g'.startProduction := by
  obtain ⟨q, hq, hrule⟩ := exists_of_rules_eq h (mem_augmentedProductions.mpr (.inl rfl))
  have hhead : q.head = Symbol.startName := congrArg Rule.head hrule
  rw [wf'.eq_startProduction_of_head hq hhead] at hrule
  have hstart : g.start.name = g'.start.name := by
    simpa [startProduction, Nonterminal.symbol, eq_comm] using hrule
  rw [startProduction, startProduction, Nonterminal.symbol, Nonterminal.symbol, hstart]

end WellFormed

end Grammar

section Answers

/-- An answer about a set, without the order of its members. -/
def members {ε : Type} (answer : Except ε (List Symbol)) : Except ε (Set Symbol) :=
  answer.map fun found => {x | x ∈ found}

theorem members_eq_iff {ε : Type} {a b : Except ε (List Symbol)} : members a = members b ↔
    (∃ e, a = .error e ∧ b = .error e) ∨
      ∃ l m, a = .ok l ∧ b = .ok m ∧ ∀ x, x ∈ l ↔ x ∈ m := by
  cases a <;> cases b <;> simp [members, Except.map, Set.ext_iff, eq_comm]

variable {names names' : List String} {f f' : Facts}
  (hnames : ∀ n, n ∈ names ↔ n ∈ names') (hfacts : ∀ fact, fact ∈ f ↔ fact ∈ f')

include hnames hfacts

theorem members_firstOfSymbol (x : Symbol) :
    members (firstOfSymbol names f x) = members (firstOfSymbol names' f' x) := by
  cases x with
  | nonterminal n =>
    simp only [firstOfSymbol, hnames n]
    split
    · simp [members, Except.map, hfacts]
    · rfl
  | _ => rfl

theorem members_firstOfString (form : Form) :
    members (firstOfString names f form) = members (firstOfString names' f' form) := by
  induction form with
  | nil => rfl
  | cons x rest ih =>
    rw [members_eq_iff] at ih ⊢
    rcases members_eq_iff.mp (members_firstOfSymbol hnames hfacts x) with
      ⟨e, he, he'⟩ | ⟨found, found', hfound, hfound', hiff⟩
    · simp only [firstOfString, he, he']
      exact .inl ⟨e, rfl, rfl⟩
    simp only [firstOfString, hfound, hfound', hiff]
    split
    · rcases ih with ⟨e, he, he'⟩ | ⟨more, more', hmore, hmore', hrest⟩
      · simp only [he, he']
        exact .inl ⟨e, rfl, rfl⟩
      · simp only [hmore, hmore']
        exact .inr ⟨_, _, rfl, rfl, by simp [hiff, hrest]⟩
    · exact .inr ⟨_, _, rfl, rfl, hiff⟩

end Answers

namespace Sets

/-- Questions about FIRST and FOLLOW are answered with the same sets. -/
structure Agree (s s' : Sets) : Prop where
  firstOf : ∀ form, members (s.firstOf form) = members (s'.firstOf form)
  firstSet : ∀ question, members (s.firstSet question) = members (s'.firstSet question)
  followSet : ∀ question, members (s.followSet question) = members (s'.followSet question)

variable {s : Sets}

/-- Only the name of a nonterminal that is looked up is made use of. -/
theorem map_nonterminal {α : Type} (f : String → α) (n : String) :
    (s.nonterminal n).map (fun m => f m.name) =
      if n ∈ s.grammar.names then .ok (f n) else .error (.unknownNonterminal n) := by
  unfold nonterminal
  split
  · rename_i m hm
    have hname : m.name = n := by simpa using List.find?_some hm
    have hmem : n ∈ s.grammar.names := hname ▸ List.mem_map_of_mem (List.mem_of_find?_eq_some hm)
    rw [if_pos hmem, ← hname]
    rfl
  · rename_i hnone
    have hmem : n ∉ s.grammar.names := by
      intro hmem
      obtain ⟨m, hm, -⟩ := Grammar.WellFormed.exists_nonterminal? hmem
      simp [hm] at hnone
    rw [if_neg hmem]
    rfl

end Sets

/-- A name of a token stands for the token of that name. -/
def Grammar.TokensNamed (g : Grammar) : Prop :=
  ∀ name, (Dictionary.get? g.tokens name).getD (.token name) = .token name

namespace Sets

variable {s s' : Sets}

theorem resolve_eq (hnames : ∀ n, n ∈ s.grammar.names ↔ n ∈ s'.grammar.names)
    (htokens : s.grammar.TokensNamed) (htokens' : s'.grammar.TokensNamed) (q : Designator) :
    s.resolve q = s'.resolve q := by
  have hsymbol : ∀ n, (s.nonterminal n).map Nonterminal.symbol =
      (s'.nonterminal n).map Nonterminal.symbol := by
    intro n
    have h := map_nonterminal (s := s) Symbol.nonterminal n
    have h' := map_nonterminal (s := s') Symbol.nonterminal n
    simp only [hnames n] at h
    exact h.trans h'.symm
  unfold resolve
  split
  · exact hsymbol _
  · rfl
  · split
    · exact hsymbol _
    · split
      · exact hsymbol _
      · rw [htokens, htokens']
      · rfl

/-- Sets that were found from the same facts, but for their order. -/
theorem agree_of_facts (hnames : ∀ n, n ∈ s.grammar.names ↔ n ∈ s'.grammar.names)
    (htokens : s.grammar.TokensNamed) (htokens' : s'.grammar.TokensNamed)
    (hfirst : ∀ fact, fact ∈ s.first ↔ fact ∈ s'.first)
    (hfollow : ∀ fact, fact ∈ s.follow ↔ fact ∈ s'.follow) : s.Agree s' where
  firstOf := members_firstOfString hnames hfirst
  firstSet q := by
    rw [firstSet, firstSet, resolve_eq hnames htokens htokens' q]
    cases s'.resolve q with
    | error e => rfl
    | ok x =>
      rcases members_eq_iff.mp (members_firstOfSymbol hnames hfirst x) with
        ⟨e, he, he'⟩ | ⟨found, found', hfound, hfound', hiff⟩
      · simp only [he, he']
      · simp only [hfound, hfound', members_eq_iff]
        exact .inr ⟨_, _, rfl, rfl, hiff⟩
  followSet q := by
    have h := map_nonterminal (s := s) s.follow.of q.text
    have h' := map_nonterminal (s := s') s'.follow.of q.text
    rw [followSet, followSet, h, h']
    simp only [hnames q.text]
    split
    · simp [members, Except.map, hfollow]
    · rfl

end Sets

namespace Grammar

variable {g g' : Grammar} {s s' : Sets} {A B : Set Item} {i j : Item} {x : Symbol}

theorem agree_of_rules_eq (wf : g.WellFormed) (wf' : g'.WellFormed) (h : g.rules = g'.rules)
    (htokens : g.TokensNamed) (htokens' : g'.TokensNamed) (hs : g.sets = .ok s)
    (hs' : g'.sets = .ok s') : s.Agree s' := by
  obtain ⟨rfl, -, -⟩ := sets_ok hs
  obtain ⟨rfl, -, -⟩ := sets_ok hs'
  apply Sets.agree_of_facts (fun n => mem_names_iff_of_rules_eq wf wf' h) htokens htokens'
  · rintro ⟨n, x⟩
    rw [← Facts.starts_singleton, ← Facts.starts_singleton, starts_first_iff wf.declared hs,
      starts_first_iff wf'.declared hs', first_iff_of_rules_eq h]
  · rintro ⟨n, x⟩
    rw [mem_follow_iff wf.declared hs, mem_follow_iff wf'.declared hs',
      follows_iff_of_rules_eq wf wf' h]

end Grammar

theorem ItemSet.same_iff_image {s t : ItemSet} :
    s.Same t ↔ Item.core '' s.carrier = Item.core '' t.carrier := by
  have hmem : ∀ (u : ItemSet) c, c ∈ u.cores ↔ c ∈ Item.core '' u.carrier := by
    intro u c
    simp [cores, carrier]
  rw [Set.Subset.antisymm_iff, Same]
  simp only [List.subset_def, Set.subset_def, hmem]

namespace Grammar

variable {g g' : Grammar} {s s' : Sets} {A B : Set Item} {i j : Item} {x : Symbol}

theorem exists_next?_of_image_eq (hAB : Item.core '' A = Item.core '' B)
    (h : ∃ i ∈ A, i.next? = some x) : ∃ j ∈ B, j.next? = some x := by
  obtain ⟨i, hi, hx⟩ := h
  obtain ⟨j, hj, hcore⟩ := hAB ▸ Set.mem_image_of_mem _ hi
  exact ⟨j, hj, (Item.next?_eq_of_core_eq hcore).trans hx⟩

theorem image_closure_subset (h : g.rules = g'.rules) (hAB : Item.core '' A ⊆ Item.core '' B) :
    Item.core '' g.Closure A ⊆ Item.core '' g'.Closure B := by
  rintro _ ⟨i, hi, rfl⟩
  induction hi with
  | kernel hi =>
    obtain ⟨j, hj, hcore⟩ := hAB (Set.mem_image_of_mem _ hi)
    exact ⟨j, .kernel hj, hcore⟩
  | expand _ hp hx ih =>
    obtain ⟨j, hj, hcore⟩ := ih
    obtain ⟨q, hq, hrule⟩ := exists_of_rules_eq h hp
    refine ⟨⟨q, 0⟩, .expand hj hq ?_, by rw [Item.core, Item.core, hrule]⟩
    rw [Item.next?_eq_of_core_eq hcore, hx, hrule]

theorem image_advanced_subset (hAB : Item.core '' A ⊆ Item.core '' B) :
    Item.core '' advanced A x ⊆ Item.core '' advanced B x := by
  rintro _ ⟨_, ⟨i, hi, hx, rfl⟩, rfl⟩
  obtain ⟨j, hj, hcore⟩ := hAB (Set.mem_image_of_mem _ hi)
  exact ⟨j.advance, ⟨j, hj, (Item.next?_eq_of_core_eq hcore).trans hx, rfl⟩,
    Item.core_advance_eq hcore⟩

/-- Closures after a symbol are the same when the sets are. -/
theorem image_goto_eq (h : g.rules = g'.rules) (hAB : Item.core '' A = Item.core '' B) :
    Item.core '' g.Closure (advanced A x) = Item.core '' g'.Closure (advanced B x) :=
  (image_closure_subset h (image_advanced_subset hAB.subset)).antisymm
    (image_closure_subset h.symm (image_advanced_subset hAB.superset))

/-- The canonical collections are the same, taken by cores. -/
theorem Canonical.exists_of_rules_eq (wf' : g'.WellFormed) (h : g.rules = g'.rules)
    (hA : g.Canonical A) : ∃ B, g'.Canonical B ∧ Item.core '' A = Item.core '' B := by
  induction hA with
  | start =>
    have hitem : g.startItem = g'.startItem := by
      rw [startItem, startItem, startProduction_eq_of_rules_eq wf' h]
    refine ⟨_, .start, ?_⟩
    rw [hitem]
    exact (image_closure_subset h subset_rfl).antisymm (image_closure_subset h.symm subset_rfl)
  | goto _ hne hx ih =>
    obtain ⟨B, hB, hAB⟩ := ih
    exact ⟨_, .goto hB hne (exists_next?_of_image_eq hAB hx), image_goto_eq h hAB⟩

end Grammar

end ShiftReduce
