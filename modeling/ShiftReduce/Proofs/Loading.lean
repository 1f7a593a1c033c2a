import Mathlib.Algebra.GroupWithZero.Nat
import ShiftReduce.Proofs.Readers

/-!
A grammar that is read from a mapping is well formed.
-/

namespace ShiftReduce

/-- What holds of every declaration of a mapping that can be read. -/
structure Declaration.WellFormed (heads : List String) (d : Declaration) : Prop where
  ofName_name : Symbol.ofName d.name = .nonterminal d.name
  bodies_ne_nil : d.bodies ≠ []
  bodies_nodup : d.bodies.Nodup
  isBody : ∀ body ∈ d.bodies, IsBody heads body

namespace Mapping

variable {heads : List String} {head alternative name : String}

theorem IsName.cases_ofName {count : Nat} (h : IsName heads count name) :
    Symbol.ofName name = .epsilon ∧ count = 1 ∨ (Symbol.ofName name).Occurs heads := by
  by_cases hepsilon : name = Symbol.epsilonName
  · exact .inl ⟨hepsilon ▸ Symbol.ofName_epsilonName, h.alone hepsilon⟩
  · by_cases hcapital : Symbol.IsCapital name
    · have hname := Symbol.ofName_of_isCapital hcapital
      rw [hname]
      exact .inr ⟨h.defined hcapital, hname⟩
    · have hname := Symbol.ofName_of_not_isCapital hepsilon h.ne_endOfInput hcapital
      rw [hname]
      exact .inr ⟨hname, h.ne_start⟩

theorem IsAlternative.isBody {s : String} (h : IsAlternative heads s) :
    IsBody heads (bodyOf (Text.words s)) := by
  obtain ⟨hne, hnames⟩ := h
  by_cases hone : (Text.words s).length = 1
  · obtain ⟨name, hwords⟩ := List.length_eq_one_iff.mp hone
    have hbody : bodyOf (Text.words s) = [Symbol.ofName name] := by rw [hwords]; rfl
    rw [hbody]
    rcases (hnames name (by simp [hwords])).cases_ofName with ⟨h, -⟩ | h
    · exact .inl (by rw [h])
    · exact .inr ⟨by simp, by simpa using h⟩
  · refine .inr ⟨by simpa [bodyOf] using hne, ?_⟩
    intro symbol hsymbol
    obtain ⟨name, hname, rfl⟩ := List.mem_map.mp hsymbol
    exact (hnames name hname).cases_ofName.resolve_left fun h => hone h.2

theorem Says.wellFormed {entry : Datum × Datum} {d : Declaration} (h : Says heads entry d) :
    d.WellFormed heads := by
  obtain ⟨head, hhead, hname, hstop, texts, hmembers, htexts, hbodies⟩ := h
  constructor
  · exact Symbol.ofName_of_isCapital (hname ▸ hhead.isCapital)
  · rw [hbodies]
    intro hnil
    obtain rfl : texts = [] := by simpa using hnil
    have hempty : head.2.members = [] := hmembers
    exact hhead.ne_empty (by rw [← hstop, ← hempty])
  · rw [hbodies]
    exact htexts.nodup.map bodyOf_injective
  · rw [hbodies]
    intro body hbody
    simp only [List.map_map, List.mem_map] at hbody
    obtain ⟨s, hs, rfl⟩ := hbody
    exact (htexts.isAlternative s hs).isBody

/-- The tokens of a mapping stand in its alternatives and are known by their names. -/
theorem SaysGrammar.token_of_mem {m : Mapping} {g : Grammar} {entry : String × Symbol}
    (h : m.SaysGrammar g) (hentry : entry ∈ g.tokens) :
    ∃ n, entry = (n, .token n) ∧ (Symbol.token n).Occurs m.heads := by
  obtain ⟨start, others, hsaid, rfl⟩ := h
  obtain ⟨t, ht, rfl⟩ := List.mem_map.mp (Dictionary.mem_of_mem_ofList hentry)
  obtain ⟨ht, htoken⟩ := List.mem_filter.mp (List.mem_eraseDups.mp ht)
  obtain ⟨d, hd, hbodies⟩ := List.mem_flatMap.mp ht
  obtain ⟨body, hbody, ht⟩ := List.mem_flatten.mp hbodies
  obtain ⟨_, -, hsays⟩ := mem_of_forall₂ hsaid hd
  cases t with
  | token n =>
    rcases hsays.wellFormed.isBody body hbody with rfl | ⟨-, hoccurs⟩
    · simp at ht
    · exact ⟨n, rfl, hoccurs _ ht⟩
  | _ => cases htoken

theorem map_name_of_says {m : Mapping} {ds : List Declaration}
    (h : List.Forall₂ (Says heads) m ds) : ds.map Declaration.name = m.heads := by
  obtain ⟨entries, hentries, hds⟩ := forall₂_comp.mpr h
  rw [← map_fst_eq_heads hentries, ← List.forall₂_eq_eq_eq, List.forall₂_map_left_iff,
    List.forall₂_map_right_iff]
  exact (hds.imp fun _ _ hd => hd.name_eq).flip

theorem heads_nodup {m : Mapping} (hm : Dictionary.Distinct m) : m.heads.Nodup := by
  apply List.Pairwise.filterMap _ _ hm
  rintro ⟨key, _⟩ ⟨key', _⟩ hdiffer name hname name' hname' rfl
  cases key <;> cases hname
  cases key' <;> cases hname'
  simp [BEq.beq, Datum.same] at hdiffer

end Mapping

namespace Nonterminal

theorem map_origin_numberFrom (n : Nat) (head : String) (bodies : List (List Symbol)) :
    (Production.numberFrom n head bodies).map Production.origin =
      (List.range' n bodies.length).map .numbered := by
  induction bodies generalizing n with
  | nil => rfl
  | cons body rest ih =>
    simp only [Production.numberFrom, List.map_cons, ih, List.length_cons, List.range'_succ]

theorem map_body_numberFrom (n : Nat) (head : String) (bodies : List (List Symbol)) :
    ((Production.numberFrom n head bodies).map fun p => p.body) = bodies := by
  induction bodies generalizing n with
  | nil => rfl
  | cons body rest ih => simp only [Production.numberFrom, List.map_cons, ih]

theorem map_toRule_numberFrom (n : Nat) (head : String) (bodies : List (List Symbol)) :
    (Production.numberFrom n head bodies).map Production.toRule = bodies.map (⟨head, ·⟩) := by
  induction bodies generalizing n with
  | nil => rfl
  | cons body rest ih => rw [Production.numberFrom, List.map_cons, List.map_cons, ih]

theorem head_of_mem_numberFrom {n : Nat} {head : String} {bodies : List (List Symbol)}
    {p : Production} (hp : p ∈ Production.numberFrom n head bodies) : p.head = head := by
  induction bodies generalizing n with
  | nil => simp [Production.numberFrom] at hp
  | cons body rest ih =>
    rcases List.mem_cons.mp hp with rfl | hp
    · rfl
    · exact ih hp

theorem map_name_numberAll (n : Nat) (ds : List Declaration) :
    (numberAll n ds).map Nonterminal.name = ds.map Declaration.name := by
  induction ds generalizing n with
  | nil => rfl
  | cons d rest ih => simp only [numberAll, List.map_cons, ih, number]

theorem map_toRule_numberAll (n : Nat) (ds : List Declaration) :
    ((numberAll n ds).flatMap Nonterminal.productions).map Production.toRule =
      ds.flatMap fun d => d.bodies.map (⟨d.name, ·⟩) := by
  induction ds generalizing n with
  | nil => rfl
  | cons d rest ih =>
    rw [numberAll, List.flatMap_cons, List.flatMap_cons, List.map_append, ih, number,
      map_toRule_numberFrom]

theorem length_flatMap_numberAll (n : Nat) (ds : List Declaration) :
    ((numberAll n ds).flatMap Nonterminal.productions).length =
      (ds.map fun d => d.bodies.length).sum := by
  induction ds generalizing n with
  | nil => rfl
  | cons d rest ih =>
    have hd : (number n d).productions.length = d.bodies.length := by
      simpa [number] using congrArg List.length (map_body_numberFrom n d.name d.bodies)
    simp only [numberAll, List.flatMap_cons, List.length_append, ih, hd, List.map_cons,
      List.sum_cons]

/-- The productions of several declarations are numbered through. -/
theorem map_origin_numberAll (n : Nat) (ds : List Declaration) :
    ((numberAll n ds).flatMap Nonterminal.productions).map Production.origin =
      (List.range' n (ds.map fun d => d.bodies.length).sum).map .numbered := by
  induction ds generalizing n with
  | nil => rfl
  | cons d rest ih =>
    simp only [numberAll, List.flatMap_cons, List.map_append, ih, List.map_cons, List.sum_cons,
      number, map_origin_numberFrom]
    rw [← List.map_append, List.range'_append_1]

/-- A nonterminal that was numbered comes from one of the declarations. -/
theorem exists_declaration {n : Nat} {ds : List Declaration} {m : Nonterminal}
    (hm : m ∈ numberAll n ds) : ∃ d ∈ ds, ∃ k, m = number k d := by
  induction ds generalizing n with
  | nil => simp [numberAll] at hm
  | cons d rest ih =>
    rcases List.mem_cons.mp hm with rfl | hm
    · exact ⟨d, List.mem_cons_self, n, rfl⟩
    · obtain ⟨d', hd', k, rfl⟩ := ih hm
      exact ⟨d', List.mem_cons_of_mem _ hd', k, rfl⟩

end Nonterminal

namespace Grammar

theorem ofDeclarations_wellFormed {start : Declaration} {others : List Declaration}
    (tokens : List Symbol) (hnodup : ((start :: others).map Declaration.name).Nodup)
    (hall : ∀ d ∈ start :: others, d.WellFormed ((start :: others).map Declaration.name)) :
    (ofDeclarations start others tokens).WellFormed := by
  have hnonterminals : (ofDeclarations start others tokens).nonterminals =
      Nonterminal.numberAll 1 (start :: others) := rfl
  have hheads : (ofDeclarations start others tokens).heads =
      (start :: others).map Declaration.name :=
    Nonterminal.map_name_numberAll 1 (start :: others)
  constructor
  · rfl
  · rw [hheads]
    exact hnodup
  · intro n hn
    obtain ⟨d, hd, k, rfl⟩ := Nonterminal.exists_declaration (hnonterminals ▸ hn)
    exact (hall d hd).ofName_name
  · intro n hn p hp
    obtain ⟨d, -, k, rfl⟩ := Nonterminal.exists_declaration (hnonterminals ▸ hn)
    exact Nonterminal.head_of_mem_numberFrom hp
  · intro n hn
    obtain ⟨d, hd, k, rfl⟩ := Nonterminal.exists_declaration (hnonterminals ▸ hn)
    simp only [Nonterminal.number, Nonterminal.map_body_numberFrom]
    exact (hall d hd).bodies_nodup
  · intro n hn hempty
    obtain ⟨d, hd, k, rfl⟩ := Nonterminal.exists_declaration (hnonterminals ▸ hn)
    have := Nonterminal.map_body_numberFrom k d.name d.bodies
    rw [show Production.numberFrom k d.name d.bodies = [] from hempty] at this
    exact (hall d hd).bodies_ne_nil this.symm
  · intro p hp
    obtain ⟨n, hn, hp⟩ := mem_productions.mp hp
    obtain ⟨d, hd, k, rfl⟩ := Nonterminal.exists_declaration (hnonterminals ▸ hn)
    have hbody : p.body ∈ d.bodies := by
      rw [← Nonterminal.map_body_numberFrom k d.name d.bodies]
      exact List.mem_map_of_mem hp
    rw [hheads]
    exact (hall d hd).isBody _ hbody
  · unfold productions
    rw [hnonterminals, Nonterminal.map_origin_numberAll, Nonterminal.length_flatMap_numberAll]

end Grammar

theorem Grammar.ofDatum_wellFormed {d : Datum} {g : Grammar} (h : ofDatum d = .ok g) :
    g.WellFormed := by
  obtain ⟨_, ⟨entries, -, -, rfl⟩, start, others, hsaid, rfl⟩ :=
    ((ofDatum_settles d).ok_iff g).mp h
  have hnames := Mapping.map_name_of_says hsaid
  apply ofDeclarations_wellFormed
  · rw [hnames]
    exact Mapping.heads_nodup (Dictionary.distinct_ofList entries)
  · intro declaration hmem
    obtain ⟨entry, -, hentry⟩ := mem_of_forall₂ hsaid hmem
    rw [hnames]
    exact hentry.wellFormed

theorem Source.load_wellFormed {d : Datum} {g : Grammar} (h : (written d).load = .ok g) :
    g.WellFormed := by
  exact Grammar.ofDatum_wellFormed (mapError_eq_ok.mp h)

/-- Balanced parentheses. -/
def Source.balanced : Datum :=
  .mapping [(.text "S", .list [.text "( S ) S", .text "epsilon"])]

/-- The production that encloses balanced parentheses in a pair. -/
def Source.enclosing : Production :=
  ⟨⟨"S", [.token "(", .nonterminal "S", .token ")", .nonterminal "S"]⟩, .numbered 1⟩

/-- The production that ends balanced parentheses. -/
def Source.ending : Production := ⟨⟨"S", [.epsilon]⟩, .numbered 2⟩

/-- A result that passes a test. -/
def Except.passes {ε α : Type} (test : α → Bool) : Except ε α → Bool
  | .ok a => test a
  | .error _ => false

theorem Except.exists_of_passes {ε α : Type} {test : α → Bool} {x : Except ε α}
    (h : passes test x = true) : ∃ a, x = .ok a ∧ test a = true := by
  cases x with
  | ok a => exact ⟨a, rfl, h⟩
  | error e => cases h

end ShiftReduce
