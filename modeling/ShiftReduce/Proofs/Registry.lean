import Mathlib.Data.List.Dedup
import ShiftReduce.Proofs.Cells
import ShiftReduce.Proofs.Words

/-!
The reductions of a table say the grammar that the table was made from.

They are the alternatives of the mapping in order, each with its head and its names, however these
were set apart. Written down again as a mapping, with single spaces between the names, they are read
as the same declarations, and the same declarations have the same table.
-/

namespace ShiftReduce

section Grouping

variable {β : Type} {key : String} {values : List β} {pairs : List (String × β)}

/-- The values that come under each key, the keys in order of first appearance. -/
def grouped (pairs : List (String × β)) : List (String × List β) :=
  (pairs.map Prod.fst).eraseDups.map fun key =>
    (key, (pairs.filter (·.1 = key)).map Prod.snd)

theorem eraseDups_keys (hne : values ≠ []) (hpairs : ∀ p ∈ pairs, p.1 ≠ key) :
    ((values.map (key, ·) ++ pairs).map Prod.fst).eraseDups =
      key :: (pairs.map Prod.fst).eraseDups := by
  obtain ⟨v, rest, rfl⟩ := List.exists_cons_of_ne_nil hne
  have hrest : (rest.map fun _ => key).filter (fun k => !k == key) = [] := by simp
  have hother : (pairs.map Prod.fst).filter (fun k => !k == key) = pairs.map Prod.fst := by
    apply List.filter_eq_self.mpr
    intro k hk
    obtain ⟨p, hp, rfl⟩ := List.mem_map.mp hk
    simpa using hpairs p hp
  simp only [List.map_cons, List.cons_append, List.map_append, List.map_map, Function.comp_def,
    List.eraseDups_cons, List.filter_append, hrest, hother, List.nil_append]

/-- A key of its own makes a group of its own. -/
theorem grouped_append (hne : values ≠ []) (hpairs : ∀ p ∈ pairs, p.1 ≠ key) :
    grouped (values.map (key, ·) ++ pairs) = (key, values) :: grouped pairs := by
  have hown : (values.map (key, ·) ++ pairs).filter (·.1 = key) = values.map (key, ·) := by
    have hpairs : pairs.filter (·.1 = key) = [] :=
      List.filter_eq_nil_iff.mpr fun p hp => by simpa using hpairs p hp
    rw [List.filter_append, hpairs, List.append_nil]
    exact List.filter_eq_self.mpr (by simp)
  unfold grouped
  rw [eraseDups_keys hne hpairs, List.map_cons, hown]
  congr 1
  · simp [Function.comp_def]
  · apply List.map_congr_left
    intro k hk
    obtain ⟨p, hp, rfl⟩ := List.mem_map.mp (List.mem_eraseDups.mp hk)
    have hvalues : (values.map (key, ·)).filter (·.1 = p.1) = [] :=
      List.filter_eq_nil_iff.mpr (by simpa using fun _ _ heq => hpairs p hp heq.symm)
    rw [List.filter_append, hvalues, List.nil_append]

/-- Lists that were put together under different keys are taken apart again. -/
theorem grouped_flatMap {entries : List (String × List β)}
    (hnodup : (entries.map Prod.fst).Nodup) (hne : ∀ e ∈ entries, e.2 ≠ []) :
    grouped (entries.flatMap fun e => e.2.map (e.1, ·)) = entries := by
  induction entries with
  | nil => rfl
  | cons e rest ih =>
    obtain ⟨hkey, hnodup⟩ := List.nodup_cons.mp hnodup
    obtain ⟨hvalues, hne⟩ := List.forall_mem_cons.mp hne
    have hother : ∀ p ∈ rest.flatMap fun e => e.2.map (e.1, ·), p.1 ≠ e.1 := by
      intro p hp heq
      obtain ⟨e', he', hp⟩ := List.mem_flatMap.mp hp
      obtain ⟨v, -, rfl⟩ := List.mem_map.mp hp
      exact hkey (heq ▸ List.mem_map_of_mem he')
    rw [List.flatMap_cons, grouped_append hvalues hother, ih hnodup hne]

end Grouping

/-- The members that a sequence gives when it is gone through. -/
def Datum.members (d : Datum) : List Datum :=
  match d.sequence? with
  | some (.ok found) => found.members
  | _ => []

/-- The alternatives of a mapping, each behind its head. -/
def Mapping.alternatives (m : Mapping) : List (Datum × Datum) :=
  m.flatMap fun e => e.2.members.map (e.1, ·)

theorem Mapping.IsHead.members_eq {entry : Datum × Datum} {head : String × Members}
    (h : IsHead entry head) : entry.2.members = head.2.members := by
  rw [Datum.members, h.sequence?_eq]

namespace Reduction

/-- Heads with the names of a body, numbered through. -/
def numberFrom (n : Nat) (pairs : List (String × List String)) : List Reduction :=
  (pairs.zipIdx n).map fun e => ⟨e.2, e.1.2, e.1.1⟩

/-- The mapping that some reductions say, the names of a body set apart by single spaces. -/
def rewrite (rs : List Reduction) : Datum :=
  .mapping ((grouped (rs.map fun r => (r.head, r.body))).map fun e =>
    (.text e.1, .list (e.2.map fun body => .text (" ".intercalate body))))

variable {n : Nat} {pairs more : List (String × List String)}

theorem numberFrom_append : numberFrom n (pairs ++ more) =
    numberFrom n pairs ++ numberFrom (n + pairs.length) more := by
  simp [numberFrom, List.zipIdx_append]

theorem getElem?_numberFrom (k : Nat) :
    (numberFrom n pairs)[k]? = pairs[k]?.map fun e => ⟨n + k, e.2, e.1⟩ := by
  simp [numberFrom, List.getElem?_zipIdx, Option.map_map, Function.comp_def]

theorem length_numberFrom : (numberFrom n pairs).length = pairs.length := by
  simp [numberFrom]

/-- Numbering is undone by leaving the numbers out. -/
theorem map_numberFrom : ((numberFrom n pairs).map fun r => (r.head, r.body)) = pairs := by
  have hfst : ((numberFrom n pairs).map fun r => (r.head, r.body)) =
      (pairs.zipIdx n).map Prod.fst := by
    simp [numberFrom, Function.comp_def]
  rw [hfst, List.zipIdx_map_fst]

end Reduction

namespace Declaration

/-- The names of the bodies of some declarations, each behind its head. -/
def alternatives (ds : List Declaration) : List (String × List String) :=
  ds.flatMap fun d => (d.bodies.map (·.map Symbol.name)).map (d.name, ·)

/-- A declaration as an entry of a mapping. -/
def entry (d : Declaration) : Datum × Datum :=
  (.text d.name, .list (d.bodies.map fun body => .text (" ".intercalate (body.map Symbol.name))))

variable {ds : List Declaration}

theorem rewrite_alternatives (n : Nat) (hnodup : (ds.map Declaration.name).Nodup)
    (hne : ∀ d ∈ ds, d.bodies ≠ []) :
    Reduction.rewrite (Reduction.numberFrom n (alternatives ds)) = .mapping (ds.map entry) := by
  have hgrouped : grouped (alternatives ds) =
      ds.map fun d => (d.name, d.bodies.map (·.map Symbol.name)) := by
    have hflat : alternatives ds =
        (ds.map fun d => (d.name, d.bodies.map (·.map Symbol.name))).flatMap
          fun e => e.2.map (e.1, ·) := by
      rw [alternatives, List.flatMap_map]
    rw [hflat]
    apply grouped_flatMap
    · simpa [Function.comp_def] using hnodup
    · simpa using hne
  rw [Reduction.rewrite, Reduction.map_numberFrom, hgrouped]
  simp [entry, Function.comp_def]

end Declaration

namespace Nonterminal

theorem reductions_numberFrom (n : Nat) (head : String) (bodies : List (List Symbol)) :
    ((Production.numberFrom n head bodies).filterMap fun p =>
        p.number?.map fun m => (⟨m, p.body.map Symbol.name, p.head⟩ : Reduction)) =
      Reduction.numberFrom n ((bodies.map (·.map Symbol.name)).map (head, ·)) := by
  induction bodies generalizing n with
  | nil => rfl
  | cons body rest ih =>
    rw [Production.numberFrom, List.filterMap_cons, ih]
    rfl

/-- The reductions of several declarations are their alternatives, numbered through. -/
theorem reductions_numberAll (n : Nat) (ds : List Declaration) :
    (((numberAll n ds).flatMap Nonterminal.productions).filterMap fun p =>
        p.number?.map fun m => (⟨m, p.body.map Symbol.name, p.head⟩ : Reduction)) =
      Reduction.numberFrom n (Declaration.alternatives ds) := by
  induction ds generalizing n with
  | nil => rfl
  | cons d rest ih =>
    have hcons : Declaration.alternatives (d :: rest) =
        (d.bodies.map (·.map Symbol.name)).map (d.name, ·) ++ Declaration.alternatives rest := rfl
    rw [numberAll, List.flatMap_cons, List.filterMap_append, ih, hcons,
      Reduction.numberFrom_append, number, reductions_numberFrom, List.length_map, List.length_map]

end Nonterminal

theorem Grammar.reductions_ofDeclarations (start : Declaration) (others : List Declaration)
    (tokens : List Symbol) : (ofDeclarations start others tokens).reductions =
      Reduction.numberFrom 1 (Declaration.alternatives (start :: others)) :=
  Nonterminal.reductions_numberAll 1 (start :: others)

namespace Mapping

variable {heads : List String} {m : Mapping} {ds : List Declaration} {entry : Datum × Datum}
  {d : Declaration}

theorem map_name_bodyOf (names : List String) : (bodyOf names).map Symbol.name = names := by
  simp [bodyOf, Function.comp_def]

/-- The alternatives of an entry are those of its declaration, word by word. -/
theorem Says.alternatives (h : Says heads entry d) :
    List.Forall₂ (fun a pair => ∃ s, a = (.text pair.1, .text s) ∧ pair.2 = Text.words s)
      (entry.2.members.map (entry.1, ·))
      ((d.bodies.map (·.map Symbol.name)).map (d.name, ·)) := by
  obtain ⟨head, hhead, hname, -, texts, hmembers, -, hbodies⟩ := h
  rw [hhead.key_eq, hhead.members_eq, hmembers, hbodies, hname]
  simp only [List.map_map, List.forall₂_map_left_iff, List.forall₂_map_right_iff]
  refine List.forall₂_same.mpr fun s _ => ⟨s, rfl, ?_⟩
  simp [map_name_bodyOf]

theorem forall₂_alternatives (h : List.Forall₂ (Says heads) m ds) :
    List.Forall₂ (fun a pair => ∃ s, a = (.text pair.1, .text s) ∧ pair.2 = Text.words s)
      m.alternatives (Declaration.alternatives ds) := by
  induction h with
  | nil => exact .nil
  | cons hsays _ ih => exact List.rel_append hsays.alternatives ih

/-- A text that is written from the words of an alternative is an alternative as well. -/
theorem isAlternative_intercalate {s : String} (h : IsAlternative heads s) :
    IsAlternative heads (" ".intercalate (Text.words s)) := by
  have hwords : Text.words (" ".intercalate (Text.words s)) = Text.words s :=
    Text.words_intercalate fun w => Text.isWord_of_mem_words
  rwa [IsAlternative, hwords]

/-- What an entry says is also said by its declaration, written down again. -/
theorem Says.rewritten (h : Says heads entry d) : Says heads d.entry d := by
  obtain ⟨head, hhead, hname, hstop, texts, hmembers, htexts, hbodies⟩ := h
  have hwords : ∀ s, Text.words (" ".intercalate (Text.words s)) = Text.words s :=
    fun s => Text.words_intercalate fun w => Text.isWord_of_mem_words
  have hentry : d.entry = (.text head.1,
      .list ((texts.map fun s => " ".intercalate (Text.words s)).map .text)) := by
    simp [Declaration.entry, hname, hbodies, Function.comp_def, map_name_bodyOf]
  have hsame : (texts.map fun s => " ".intercalate (Text.words s)).map Text.words =
      texts.map Text.words := by
    simp [Function.comp_def, hwords]
  refine ⟨(head.1, ⟨(texts.map fun s => " ".intercalate (Text.words s)).map .text, none⟩),
    ⟨congrArg Prod.fst hentry, hhead.isCapital, ?_, ?_⟩, hname, rfl, _, rfl, ⟨?_, ?_⟩, ?_⟩
  · rw [hentry]
    rfl
  · intro hempty
    obtain rfl : texts = [] := by simpa using congrArg Members.members hempty
    have hnothing : head.2.members = [] := hmembers
    exact hhead.ne_empty (by rw [← hstop, ← hnothing])
  · intro s hs
    obtain ⟨written, hwritten, rfl⟩ := List.mem_map.mp hs
    exact isAlternative_intercalate (htexts.isAlternative written hwritten)
  · rw [hsame]
    exact htexts.nodup
  · rw [hsame]
    exact hbodies

theorem heads_entries (ds : List Declaration) :
    Mapping.heads (ds.map Declaration.entry) = ds.map Declaration.name := by
  induction ds with
  | nil => rfl
  | cons d rest ih =>
    rw [List.map_cons, List.map_cons, ← ih]
    rfl

end Mapping

theorem distinct_entries {ds : List Declaration} (h : (ds.map Declaration.name).Nodup) :
    Dictionary.Distinct (ds.map Declaration.entry) := by
  rw [List.Nodup, List.pairwise_map] at h
  rw [Dictionary.Distinct, List.pairwise_map]
  apply h.imp
  intro d e hne
  change Datum.same (.text d.name) (.text e.name) = false
  simpa [Datum.same] using hne

/-- Declarations that were read from a mapping are read again from their own entries. -/
theorem Grammar.ofDatum_entries {m : Mapping} {start : Declaration} {others : List Declaration}
    (hm : Dictionary.Distinct m)
    (hsaid : List.Forall₂ (Mapping.Says m.heads) m (start :: others)) :
    Grammar.ofDatum (.mapping ((start :: others).map Declaration.entry)) =
      .ok (ofDeclarations start others (Mapping.tokensOf (start :: others))) := by
  have hnames := Mapping.map_name_of_says hsaid
  have hdistinct := distinct_entries (hnames ▸ Mapping.heads_nodup hm)
  refine ((Grammar.ofDatum_settles _).ok_iff _).mpr
    ⟨_, ⟨_, rfl, by simp, hdistinct.ofList_eq⟩, start, others, ?_, rfl⟩
  rw [Mapping.heads_entries, hnames, List.forall₂_map_left_iff]
  refine List.forall₂_same.mpr fun d hd => ?_
  obtain ⟨entry, -, hentry⟩ := mem_of_forall₂ hsaid hd
  exact hentry.rewritten

namespace Source

variable {d : Datum} {g : Grammar} {t : Table}

theorem load_eq_ok : (written d).load = .ok g ↔ ∃ m, d.IsMapping m ∧ m.SaysGrammar g := by
  rw [← (Grammar.ofDatum_settles d).ok_iff g]
  exact mapError_eq_ok

end Source

/-- The reductions of a table are the alternatives of the mapping in order, each with its names and
its head. The mapping that they say has the very same table. -/
theorem Source.reductions_faithful {d : Datum} {t : Table} (h : (written d).table = .ok t) :
    ∃ m, d.IsMapping m ∧ t.reductions.length = m.alternatives.length ∧
      (∀ (k : Nat) (a : Datum × Datum), m.alternatives[k]? = some a →
        ∃ head s : String, a = (Datum.text head, Datum.text s) ∧
          t.reductions[k]? = some (⟨k + 1, Text.words s, head⟩ : Reduction)) ∧
      (written (Reduction.rewrite t.reductions)).table = .ok t := by
  obtain ⟨g, hg, wf, ht⟩ := Source.table_ok h
  obtain ⟨m, hm, start, others, hsaid, rfl⟩ := load_eq_ok.mp hg
  have hreductions : t.reductions =
      Reduction.numberFrom 1 (Declaration.alternatives (start :: others)) := by
    rw [Table.reductions, Grammar.grammar_of_table ht, Grammar.reductions_ofDeclarations]
  have hpairs := Mapping.forall₂_alternatives hsaid
  refine ⟨m, hm, ?_, ?_, ?_⟩
  · rw [hreductions, Reduction.length_numberFrom, hpairs.length_eq]
  · intro k a hk
    obtain ⟨pair, hpair, s, rfl, hwords⟩ := exists_getElem?_of_forall₂ hpairs hk
    refine ⟨pair.1, s, rfl, ?_⟩
    rw [hreductions, Reduction.getElem?_numberFrom, hpair, Option.map_some, hwords, Nat.add_comm]
  · have hdistinct : Dictionary.Distinct m := by
      obtain ⟨entries, -, -, rfl⟩ := hm
      exact Dictionary.distinct_ofList entries
    have hnodup : ((start :: others).map Declaration.name).Nodup :=
      Mapping.map_name_of_says hsaid ▸ Mapping.heads_nodup hdistinct
    have hne : ∀ decl ∈ start :: others, decl.bodies ≠ [] := by
      intro decl hdecl
      obtain ⟨entry, -, hentry⟩ := mem_of_forall₂ hsaid hdecl
      exact hentry.wellFormed.bodies_ne_nil
    have hload : (written (Reduction.rewrite t.reductions)).load =
        .ok (Grammar.ofDeclarations start others (Mapping.tokensOf (start :: others))) := by
      rw [hreductions, Declaration.rewrite_alternatives 1 hnodup hne]
      exact congrArg (Except.mapError LoadError.read) (Grammar.ofDatum_entries hdistinct hsaid)
    exact (table_eq_ok hload).mpr ht

/-- Heads with blanks in them, heads that come later, and names set apart in odd ways. -/
def Source.spaced : Datum :=
  .mapping [(.text "S", .list [.text "A\u2003b\n", .text " epsilon "]),
    (.text "A", .list [.text "\t c\u3000c"]), (.text "X y", .list [.text "d"])]

def Source.spacedReductions : List Reduction :=
  [⟨1, ["A", "b"], "S"⟩, ⟨2, ["epsilon"], "S"⟩, ⟨3, ["c", "c"], "A"⟩, ⟨4, ["d"], "X y"⟩]

set_option maxRecDepth 100000 in
theorem Source.spaced_faithful : ∃ t, (written spaced).table = .ok t ∧
    t.reductions = spacedReductions ∧
    (written (Reduction.rewrite spacedReductions)).table = .ok t := by
  have h : Except.passes (fun t => decide (t.reductions = spacedReductions))
      (written spaced).table = true := by
    decide +kernel
  obtain ⟨t, ht, hreductions⟩ := Except.exists_of_passes h
  have hreductions := of_decide_eq_true hreductions
  obtain ⟨m, -, -, -, hagain⟩ := Source.reductions_faithful ht
  exact ⟨t, ht, hreductions, hreductions ▸ hagain⟩

end ShiftReduce
