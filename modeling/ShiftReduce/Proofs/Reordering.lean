import ShiftReduce.Proofs.Registry
import ShiftReduce.Proofs.Renumbering

/-!
The order in which a mapping declares its alternatives.

Alternatives that are put in another order are the same rules with other numbers. As long as the
first head stays where it is, the grammar has the same start symbol, so it has the same sets, and
the same automaton and table but for the numbers.
-/

namespace ShiftReduce

namespace Mapping

/-- Entries of one head whose alternatives are the same in some order. -/
def SameAlternatives (e e' : Datum × Datum) : Prop :=
  e.1 = e'.1 ∧ ∃ members members', e.2.sequence? = some (.ok ⟨members, none⟩) ∧
    e'.2.sequence? = some (.ok ⟨members', none⟩) ∧ members.Perm members'

/-- Mappings with the same first head that differ in the order of the other heads and of the
alternatives of each head only. -/
def Reordered (m m' : Mapping) : Prop :=
  ∃ first rest first' moved rest', m = first :: rest ∧ m' = first' :: rest' ∧
    SameAlternatives first first' ∧ rest.Perm moved ∧ List.Forall₂ SameAlternatives moved rest'

/-- The rule that an alternative says. -/
def rule? : Datum × Datum → Option Rule
  | (.text head, .text s) => some ⟨head, bodyOf (Text.words s)⟩
  | _ => none

variable {m m' : Mapping} {e e' entry : Datum × Datum} {heads : List String} {d : Declaration}
  {g g' : Grammar}

theorem SameAlternatives.perm (h : SameAlternatives e e') :
    (e.2.members.map (e.1, ·)).Perm (e'.2.members.map (e'.1, ·)) := by
  obtain ⟨hkey, members, members', hmembers, hmembers', hperm⟩ := h
  rw [hkey, Datum.members, Datum.members, hmembers, hmembers']
  exact hperm.map _

theorem perm_alternatives_of_forall₂ (h : List.Forall₂ SameAlternatives m m') :
    m.alternatives.Perm m'.alternatives := by
  induction h with
  | nil => exact .refl _
  | cons hsame _ ih => exact hsame.perm.append ih

/-- Nothing but the order of the alternatives changes. -/
theorem Reordered.perm_alternatives (h : m.Reordered m') :
    m.alternatives.Perm m'.alternatives := by
  obtain ⟨first, rest, first', moved, rest', rfl, rfl, hfirst, hperm, hrest⟩ := h
  exact hfirst.perm.append ((hperm.flatMap_right _).trans (perm_alternatives_of_forall₂ hrest))

theorem Says.filterMap_rule? (h : Says heads entry d) :
    (entry.2.members.map (entry.1, ·)).filterMap rule? = d.bodies.map (⟨d.name, ·⟩) := by
  obtain ⟨head, hhead, hname, -, texts, hmembers, -, hbodies⟩ := h
  rw [hhead.key_eq, hhead.members_eq, hmembers, hbodies, hname]
  simp [List.filterMap_map, Function.comp_def, rule?]

end Mapping

namespace Mapping

variable {m m' : Mapping} {g g' : Grammar}

theorem flatMap_rules {heads : List String} {ds : List Declaration}
    (h : List.Forall₂ (Says heads) m ds) :
    m.alternatives.filterMap rule? = ds.flatMap fun d => d.bodies.map (⟨d.name, ·⟩) := by
  induction h with
  | nil => rfl
  | cons hsays _ ih =>
    rw [List.flatMap_cons, ← ih, ← hsays.filterMap_rule?, ← List.filterMap_append]
    rfl

namespace SaysGrammar

/-- The rules of a grammar are the alternatives of its mapping in order. -/
theorem map_toRule (h : m.SaysGrammar g) :
    g.productions.map Production.toRule = m.alternatives.filterMap rule? := by
  obtain ⟨start, others, hsaid, rfl⟩ := h
  rw [flatMap_rules hsaid]
  exact Nonterminal.map_toRule_numberAll 1 (start :: others)

theorem start_eq {first : Datum × Datum} {rest : Mapping} (h : SaysGrammar (first :: rest) g) :
    first.1 = .text g.start.name := by
  obtain ⟨start, others, hsaid, rfl⟩ := h
  obtain ⟨⟨head, hhead, hname, -⟩, -⟩ := List.forall₂_cons.mp hsaid
  rw [hhead.key_eq, ← hname]
  rfl

theorem rules_eq (h : m.SaysGrammar g) (h' : m'.SaysGrammar g') (hreordered : m.Reordered m') :
    g.rules = g'.rules := by
  have hperm := hreordered.perm_alternatives.filterMap rule?
  rw [← h.map_toRule, ← h'.map_toRule] at hperm
  have hstart : g.startProduction = g'.startProduction := by
    obtain ⟨first, rest, first', moved, rest', rfl, rfl, ⟨hkey, -⟩, -, -⟩ := hreordered
    rw [h.start_eq, h'.start_eq, Datum.text.injEq] at hkey
    rw [Grammar.startProduction, Grammar.startProduction, Nonterminal.symbol, Nonterminal.symbol,
      hkey]
  ext r
  have hmem := hperm.mem_iff (a := r)
  simp only [List.mem_map] at hmem
  simp only [Grammar.rules, Grammar.mem_augmentedProductions, Set.mem_ofPred_eq, or_and_right,
    exists_or, exists_eq_left, hmem, hstart]

theorem tokensNamed (h : m.SaysGrammar g) : g.TokensNamed := by
  intro name
  cases hfound : Dictionary.get? g.tokens name with
  | none => rfl
  | some t =>
    obtain ⟨n, heq, -⟩ := h.token_of_mem (Dictionary.mem_of_get? hfound)
    obtain ⟨rfl, rfl⟩ := Prod.mk.inj heq
    rfl

end SaysGrammar

end Mapping

theorem Source.saysGrammar_of_load {d : Datum} {m : Mapping} {g : Grammar} (hm : d.IsMapping m)
    (hg : (Source.written d).load = .ok g) : m.SaysGrammar g := by
  obtain ⟨entries, rfl, -, rfl⟩ := hm
  obtain ⟨_, ⟨_, heq, -, rfl⟩, hsays⟩ := Source.load_eq_ok.mp hg
  rwa [Datum.mapping.inj heq]

/-- A mapping in another order has the same FIRST and FOLLOW sets, and the same collection but for
the numbers of the states. If one of them has a table without conflicts, so has the other, and the
tables are the same but for the numbers of states and productions. -/
theorem Source.reordered {d d' : Datum} {m m' : Mapping} {g g' : Grammar} (hm : d.IsMapping m)
    (hm' : d'.IsMapping m') (h : m.Reordered m') (hg : (Source.written d).load = .ok g)
    (hg' : (Source.written d').load = .ok g') :
    (∃ s s', g.sets = .ok s ∧ g'.sets = .ok s' ∧ s.Agree s') ∧
    g.collection.Renumbered g'.collection (g.collection.numberIn g'.collection) ∧
    ((∃ t, (Source.written d).table = .ok t ∧ t.conflicts = []) ↔
      ∃ t', (Source.written d').table = .ok t' ∧ t'.conflicts = []) ∧
    ∀ t t', (Source.written d).table = .ok t → t.conflicts = [] →
      (Source.written d').table = .ok t' →
        t.Renumbered t' (g.collection.numberIn g'.collection) (g.numberIn g') := by
  have wf := Source.load_wellFormed hg
  have wf' := Source.load_wellFormed hg'
  have hsays := Source.saysGrammar_of_load hm hg
  have hsays' := Source.saysGrammar_of_load hm' hg'
  have hrules := hsays.rules_eq hsays' h
  have hfree : (∃ t, (Source.written d).table = .ok t ∧ t.conflicts = []) ↔
      ∃ t', (Source.written d').table = .ok t' ∧ t'.conflicts = [] := by
    simp only [Source.table_eq_ok hg, Source.table_eq_ok hg']
    rw [wf.conflictFree_iff, wf'.conflictFree_iff]
    exact ⟨Grammar.isSLR1_of_rules_eq wf wf' hrules, Grammar.isSLR1_of_rules_eq wf' wf hrules.symm⟩
  refine ⟨?_, Grammar.collection_renumbered wf wf' hrules, hfree, ?_⟩
  · obtain ⟨s, hs⟩ := Grammar.exists_sets wf.declared
    obtain ⟨s', hs'⟩ := Grammar.exists_sets wf'.declared
    exact ⟨s, s', hs, hs', Grammar.agree_of_rules_eq wf wf' hrules hsays.tokensNamed
      hsays'.tokensNamed hs hs'⟩
  · intro t t' ht hconflicts ht'
    obtain ⟨u, hu, hconflicts'⟩ := hfree.mp ⟨t, ht, hconflicts⟩
    obtain rfl : u = t' := Except.ok.inj (hu.symm.trans ht')
    exact Grammar.table_renumbered wf wf' hrules ((Source.table_eq_ok hg).mp ht) hconflicts
      ((Source.table_eq_ok hg').mp ht') hconflicts'

/-- Arithmetic expressions. -/
def Source.expressions : Mapping :=
  [(.text "E", .list [.text "E + T", .text "T"]), (.text "T", .list [.text "T * F", .text "F"]),
    (.text "F", .list [.text "( E )", .text "id"])]

/-- The other heads and all alternatives the other way round. -/
def Source.turned : Mapping :=
  [(.text "E", .tuple [.text "T", .text "E + T"]), (.text "F", .list [.text "id", .text "( E )"]),
    (.text "T", .list [.text "F", .text "T * F"])]

theorem Source.turned_reordered : expressions.Reordered turned :=
  ⟨_, _, _, [(.text "F", .list [.text "( E )", .text "id"]),
    (.text "T", .list [.text "T * F", .text "F"])], _, rfl, rfl,
    ⟨rfl, _, _, rfl, rfl, .swap _ _ _⟩, .swap _ _ _,
    .cons ⟨rfl, _, _, rfl, rfl, .swap _ _ _⟩
      (.cons ⟨rfl, _, _, rfl, rfl, .swap _ _ _⟩ .nil)⟩

set_option maxRecDepth 100000 in
/-- Two states exchange their numbers, and most productions. -/
theorem Source.turned_renumbered : ∃ g g' t t',
    (Source.written (.mapping expressions)).load = .ok g ∧
    (Source.written (.mapping turned)).load = .ok g' ∧
    (Source.written (.mapping expressions)).table = .ok t ∧
    (Source.written (.mapping turned)).table = .ok t' ∧ t'.conflicts = [] ∧
    t.Renumbered t' (g.collection.numberIn g'.collection) (g.numberIn g') ∧
    (List.range 6).map (g.collection.numberIn g'.collection) = [0, 1, 2, 3, 5, 4] ∧
    [1, 2, 3, 4, 5, 6].map (g.numberIn g') = [2, 1, 6, 5, 4, 3] := by
  have h : Except.passes (fun t => decide (t.conflicts = []))
      (Source.written (.mapping expressions)).table = true := by
    decide +kernel
  obtain ⟨t, ht, hconflicts⟩ := Except.exists_of_passes h
  have hconflicts := of_decide_eq_true hconflicts
  have hnumbers : Except.passes (fun g => Except.passes (fun g' => decide (
      (List.range 6).map (g.collection.numberIn g'.collection) = [0, 1, 2, 3, 5, 4] ∧
      [1, 2, 3, 4, 5, 6].map (g.numberIn g') = [2, 1, 6, 5, 4, 3]))
      (Source.written (.mapping turned)).load) (Source.written (.mapping expressions)).load =
        true := by
    decide +kernel
  obtain ⟨g, hg, htest⟩ := Except.exists_of_passes hnumbers
  obtain ⟨g', hg', htest⟩ := Except.exists_of_passes htest
  have hm : Datum.IsMapping (.mapping expressions) expressions :=
    ⟨expressions, rfl, by simp [expressions], rfl⟩
  have hm' : Datum.IsMapping (.mapping turned) turned := ⟨turned, rfl, by simp [turned], rfl⟩
  obtain ⟨-, -, hfree, hrenumbered⟩ := Source.reordered hm hm' turned_reordered hg hg'
  obtain ⟨t', ht', hconflicts'⟩ := hfree.mp ⟨t, ht, hconflicts⟩
  exact ⟨g, g', t, t', hg, hg', ht, ht', hconflicts', hrenumbered t t' ht hconflicts ht',
    of_decide_eq_true htest⟩

end ShiftReduce
