import Mathlib.Data.List.Induction
import ShiftReduce.Proofs.WellWritten

/-!
What is read from a value, and why a value is refused.

Every reader is settled by what is said of the value alone, so a value is taken for a grammar just
if it is well written, and otherwise refused for the first of its faults.
-/

namespace ShiftReduce

namespace Mapping

section Readers

theorem readHead_settles (entry : Datum × Datum) :
    Settles (readHead entry.1 entry.2) (IsHead entry) (HeadFault entry) := by
  obtain ⟨key, alternatives⟩ := entry
  apply Settles.of
  · rintro ⟨name, found⟩ ⟨rfl, hcapital, hfound, hne⟩
    match found, hne with
    | ⟨[], none⟩, hne => exact absurd rfl hne
    | ⟨[], some r⟩, _ => simp_all [readHead, Symbol.isNonterminal_ofName]
    | ⟨member :: rest, stop⟩, _ => simp_all [readHead, Symbol.isNonterminal_ofName]
  · intro r hr
    cases hr with
    | notText h => cases key <;> first | rfl | exact absurd rfl (h _)
    | notCapital hkey h => simp_all [readHead, Symbol.isNonterminal_ofName]
    | notSequence hkey hcapital h => simp_all [readHead, Symbol.isNonterminal_ofName]
    | unmeasured hkey hcapital h => simp_all [readHead, Symbol.isNonterminal_ofName]
    | noAlternatives hkey hcapital h => simp_all [readHead, Symbol.isNonterminal_ofName]
  · by_cases hkey : ∃ name, key = .text name
    · obtain ⟨name, hkey⟩ := hkey
      by_cases hcapital : Symbol.IsCapital name
      · cases h : alternatives.sequence? with
        | none => exact .inr ⟨_, .notSequence hkey hcapital h⟩
        | some measured =>
          cases measured with
          | error r => exact .inr ⟨_, .unmeasured hkey hcapital h⟩
          | ok found =>
            by_cases hne : found = ⟨[], none⟩
            · exact .inr ⟨_, .noAlternatives hkey hcapital (hne ▸ h)⟩
            · exact .inl ⟨(name, found), hkey, hcapital, h, hne⟩
      · exact .inr ⟨_, .notCapital hkey hcapital⟩
    · exact .inr ⟨_, .notText fun name h => hkey ⟨name, h⟩⟩

variable (heads : List String) (head alternative : String)

theorem readName_settles (count : Nat) (name : String) :
    Settles (readName heads head alternative count name)
      (fun s => IsName heads count name ∧ .ofName name = s)
      (NameFault heads head alternative count name) := by
  apply Settles.of
  · rintro s ⟨h, rfl⟩
    unfold readName
    by_cases hepsilon : name = Symbol.epsilonName
    · simp [hepsilon, h.alone hepsilon]
    · by_cases hcapital : Symbol.IsCapital name
      · simp [Symbol.ofName_of_isCapital hcapital, h.defined hcapital]
      · simp [Symbol.ofName_of_not_isCapital hepsilon h.ne_endOfInput hcapital, h.ne_start]
  · intro e he
    cases he with
    | notAlone h => simp [readName, h]
    | endOfInput => simp [readName]
    | start => simp [readName]
    | undefined hcapital h => simp [readName, Symbol.ofName_of_isCapital hcapital, h]
  · by_cases hend : name = Symbol.endOfInputName
    · subst hend
      exact .inr ⟨_, .endOfInput⟩
    by_cases hstart : name = Symbol.startName
    · subst hstart
      exact .inr ⟨_, .start⟩
    by_cases hundefined : Symbol.IsCapital name ∧ name ∉ heads
    · exact .inr ⟨_, .undefined hundefined.1 hundefined.2⟩
    by_cases hepsilon : name = Symbol.epsilonName ∧ count ≠ 1
    · obtain ⟨rfl, hcount⟩ := hepsilon
      exact .inr ⟨_, .notAlone hcount⟩
    · exact .inl ⟨_, ⟨by tauto, hend, hstart, by tauto⟩, rfl⟩

/-- The body that the names of an alternative stand for. -/
def bodyOf (names : List String) : List Symbol :=
  names.map .ofName

theorem bodyOf_injective : Function.Injective bodyOf :=
  List.map_injective_iff.mpr Symbol.ofName_injective

theorem readNames_settles (count : Nat) (names : List String) :
    Settles (names.mapM (readName heads head alternative count))
      (fun body => (∀ name ∈ names, IsName heads count name) ∧ bodyOf names = body)
      (FirstFault (IsName heads count) (NameFault heads head alternative count) names) := by
  have h := Settles.mapM (readName_settles heads head alternative count) names
  constructor
  · intro body
    rw [h.ok_iff, List.forall₂_and_left, ← List.forall₂_map_left_iff, List.forall₂_eq_eq_eq]
    rfl
  · intro e
    rw [h.error_iff]
    simp

theorem readBody_settles : Settles (readBody heads head alternative)
    (fun body => IsAlternative heads alternative ∧ bodyOf (Text.words alternative) = body)
    (TextFault heads head alternative) := by
  have hnames := readNames_settles heads head alternative (Text.words alternative).length
    (Text.words alternative)
  apply Settles.of
  · rintro body ⟨⟨hne, hsound⟩, hbody⟩
    unfold readBody
    split
    · exact absurd ‹_› hne
    · exact (hnames.ok_iff body).mpr ⟨hsound, hbody⟩
  · intro e he
    unfold readBody
    cases he with
    | empty h => rw [h]
    | name h =>
      split
      · rename_i hwords
        rw [hwords] at h
        exact absurd h not_firstFault_nil
      · exact (hnames.error_iff e).mpr h
  · by_cases hwords : Text.words alternative = []
    · exact .inr ⟨_, .empty hwords⟩
    · rcases hnames.exists_or with ⟨body, hsound, hbody⟩ | ⟨e, he⟩
      · exact .inl ⟨body, ⟨hwords, hsound⟩, hbody⟩
      · exact .inr ⟨e, .name he⟩

/-- Reading goes past alternatives whose names are different and known from nowhere before. -/
theorem readBodies_append {texts : List String} (hsound : ∀ s ∈ texts, IsAlternative heads s)
    (earlier : List (List String)) (hnodup : (earlier ++ texts.map Text.words).Nodup)
    (rest : List Datum) :
    readBodies heads head (earlier.map bodyOf) (texts.map .text ++ rest) =
      readBodies heads head ((earlier ++ texts.map Text.words).map bodyOf) rest := by
  induction texts generalizing earlier with
  | nil => simp
  | cons s texts ih =>
    obtain ⟨hs, hsound⟩ := List.forall_mem_cons.mp hsound
    have hbody := ((readBody_settles heads head s).ok_iff _).mpr ⟨hs, rfl⟩
    have hnew : bodyOf (Text.words s) ∉ earlier.map bodyOf := by
      rw [List.mem_map_of_injective bodyOf_injective]
      intro hmem
      exact (List.nodup_append.mp hnodup).2.2 _ hmem _ (by simp) rfl
    rw [List.map_cons, List.cons_append, readBodies, hbody]
    simp only [hnew, if_false]
    have := ih hsound (earlier ++ [Text.words s]) (by simpa using hnodup)
    simpa using this

theorem soundAlternative_or_fault (earlier : List (List String)) (alternative : Datum) :
    (∃ s, alternative = .text s ∧ IsAlternative heads s ∧ Text.words s ∉ earlier) ∨
      ∃ e, AlternativeFault heads head earlier alternative e := by
  by_cases htext : ∃ s, alternative = .text s
  · obtain ⟨s, rfl⟩ := htext
    rcases (readBody_settles heads head s).exists_or with ⟨body, hs, -⟩ | ⟨e, he⟩
    · by_cases hmem : Text.words s ∈ earlier
      · exact .inr ⟨_, .duplicate hs hmem⟩
      · exact .inl ⟨s, rfl, hs, hmem⟩
    · exact .inr ⟨e, .text he⟩
  · exact .inr ⟨_, .notText fun s h => htext ⟨s, h⟩⟩

theorem areAlternatives_or_fault (members : List Datum) :
    (∃ texts : List String, members = texts.map .text ∧ AreAlternatives heads texts) ∨
      ∃ e texts alternative later, members = texts.map .text ++ alternative :: later ∧
        AreAlternatives heads texts ∧
        AlternativeFault heads head (texts.map Text.words) alternative e := by
  induction members using List.reverseRecOn with
  | nil => exact .inl ⟨[], rfl, by simp, List.nodup_nil⟩
  | append_singleton members alternative ih =>
    rcases ih with ⟨texts, rfl, h⟩ | ⟨e, texts, first, later, rfl, h, he⟩
    · rcases soundAlternative_or_fault heads head (texts.map Text.words) alternative with
        ⟨s, rfl, hs, hnew⟩ | ⟨e, he⟩
      · refine .inl ⟨texts ++ [s], by simp, ?_, ?_⟩
        · intro t ht
          rcases List.mem_append.mp ht with ht | ht
          · exact h.isAlternative t ht
          · obtain rfl := List.mem_singleton.mp ht
            exact hs
        · rw [List.map_append, List.map_singleton, ← List.concat_eq_append]
          exact h.nodup.concat hnew
      · exact .inr ⟨e, texts, alternative, [], rfl, h, he⟩
    · exact .inr ⟨e, texts, first, later ++ [alternative], by simp, h, he⟩

/-- What is wrong with the first of some members that is no alternative after those before it. -/
def MembersFault (members : List Datum) (e : FormatError) : Prop :=
  ∃ (texts : List String) (alternative : Datum) (later : List Datum),
    members = texts.map .text ++ alternative :: later ∧ AreAlternatives heads texts ∧
      AlternativeFault heads head (texts.map Text.words) alternative e

theorem readBodies_settles (members : List Datum) :
    Settles (readBodies heads head [] members)
      (fun bodies => ∃ texts : List String, members = texts.map .text ∧
        AreAlternatives heads texts ∧ (texts.map Text.words).map bodyOf = bodies)
      (MembersFault heads head members) := by
  apply Settles.of
  · rintro bodies ⟨texts, rfl, h, rfl⟩
    have hread := readBodies_append heads head h.isAlternative [] h.nodup []
    rw [List.append_nil] at hread
    exact hread
  · rintro e ⟨texts, alternative, later, rfl, h, he⟩
    refine (readBodies_append heads head h.isAlternative [] h.nodup _).trans ?_
    cases he with
    | notText htext => cases alternative <;> first | rfl | exact absurd rfl (htext _)
    | text he => rw [readBodies, ((readBody_settles heads head _).error_iff e).mpr he]
    | duplicate hs hmem =>
      rw [readBodies, ((readBody_settles heads head _).ok_iff _).mpr ⟨hs, rfl⟩]
      exact if_pos (List.mem_map_of_mem hmem)
  · rcases areAlternatives_or_fault heads head members with ⟨texts, hmembers, h⟩ | hfault
    · exact .inl ⟨_, texts, hmembers, h, rfl⟩
    · exact .inr hfault

/-- The declaration that a head with its alternatives is read as. -/
structure Declares (entry : String × Members) (d : Declaration) : Prop where
  name_eq : d.name = entry.1
  stop_eq : entry.2.stop = none
  bodies_eq : ∃ texts : List String, entry.2.members = texts.map .text ∧
    AreAlternatives heads texts ∧ d.bodies = (texts.map Text.words).map bodyOf

theorem readDeclaration_settles (entry : String × Members) :
    Settles (readDeclaration heads entry) (Declares heads entry)
      (AlternativesFault heads entry.1 entry.2) := by
  have hbodies := readBodies_settles heads entry.1 entry.2.members
  unfold readDeclaration
  apply Settles.of
  · rintro ⟨name, bodies⟩ ⟨rfl, hstop, texts, hmembers, htexts, rfl⟩
    rw [(hbodies.ok_iff _).mpr ⟨texts, hmembers, htexts, rfl⟩, hstop]
  · rintro r (⟨hmembers, htexts, h⟩ | ⟨hmembers, htexts, hstop⟩)
    · rw [(hbodies.error_iff _).mpr ⟨_, _, _, hmembers, htexts, h⟩]
    · rw [(hbodies.ok_iff _).mpr ⟨_, hmembers, htexts, rfl⟩, hstop]
  · rcases hbodies.exists_or with ⟨bodies, texts, hmembers, htexts, hread⟩ |
      ⟨e, texts, alternative, later, hmembers, htexts, h⟩
    · cases hstop : entry.2.stop with
      | none => exact .inl ⟨⟨entry.1, bodies⟩, rfl, hstop, texts, hmembers, htexts, hread.symm⟩
      | some r => exact .inr ⟨_, .stopped hmembers htexts hstop⟩
    · exact .inr ⟨_, .alternative hmembers htexts h⟩

end Readers

/-- The declaration that an entry of a mapping is read as. -/
def Says (heads : List String) (entry : Datum × Datum) (d : Declaration) : Prop :=
  ∃ head, IsHead entry head ∧ Declares heads head d

theorem map_fst_eq_heads {m : Mapping} {entries : List (String × Members)}
    (h : List.Forall₂ IsHead m entries) : entries.map Prod.fst = m.heads := by
  induction h with
  | nil => rfl
  | cons he _ ih =>
    rw [List.map_cons, ih, heads, heads, List.filterMap_cons, he.key_eq]
    rfl

theorem soundAlternatives_iff {heads : List String} {entry : Datum × Datum}
    {head : String × Members} (h : IsHead entry head) :
    SoundAlternatives heads entry ↔ ∃ d, Declares heads head d := by
  constructor
  · rintro ⟨texts, htexts, hsound⟩
    have hfound := Except.ok.inj (Option.some.inj (h.sequence?_eq.symm.trans htexts))
    exact ⟨⟨head.1, _⟩, rfl, congrArg Members.stop hfound, texts,
      congrArg Members.members hfound, hsound, rfl⟩
  · rintro ⟨d, -, hstop, texts, hmembers, hsound, -⟩
    have hfound : head.2 = ⟨texts.map .text, none⟩ := by
      rw [← hmembers, ← hstop]
    exact ⟨texts, hfound ▸ h.sequence?_eq, hsound⟩

theorem IsHead.unique {entry : Datum × Datum} {head head' : String × Members}
    (h : IsHead entry head) (h' : IsHead entry head') : head = head' := by
  have hname := Datum.text.inj (h.key_eq.symm.trans h'.key_eq)
  have hfound := Except.ok.inj (Option.some.inj (h.sequence?_eq.symm.trans h'.sequence?_eq))
  exact Prod.ext hname hfound

theorem wellWritten_iff {m : Mapping} :
    m.WellWritten ↔ ∀ entry ∈ m, ∃ d, Says m.heads entry d := by
  constructor
  · intro h entry hentry
    obtain ⟨head, hhead⟩ := h.soundHead entry hentry
    obtain ⟨d, hd⟩ := (soundAlternatives_iff hhead).mp (h.soundAlternatives entry hentry)
    exact ⟨d, head, hhead, hd⟩
  · intro h
    constructor
    · intro entry hentry
      obtain ⟨d, head, hhead, -⟩ := h entry hentry
      exact ⟨head, hhead⟩
    · intro entry hentry
      obtain ⟨d, head, hhead, hd⟩ := h entry hentry
      exact (soundAlternatives_iff hhead).mpr ⟨d, hd⟩

/-- Entries and the heads that they are with their alternatives have the same first fault. -/
theorem firstFault_iff {m : Mapping} {entries : List (String × Members)}
    (hentries : List.Forall₂ IsHead m entries) {heads : List String} {r : Refusal} :
    FirstFault (SoundAlternatives heads) (EntryFault heads) m r ↔
      FirstFault (fun head => ∃ d, Declares heads head d)
        (fun head => AlternativesFault heads head.1 head.2) entries r := by
  apply firstFault_of_forall₂ hentries
  · exact fun _ _ hhead => soundAlternatives_iff hhead
  · intro entry head hhead
    constructor
    · rintro ⟨head', hhead', hr⟩
      rwa [hhead.unique hhead']
    · exact fun hr => ⟨head, hhead, hr⟩

/-- The fault of a mapping whose heads are sound is that of the first of them whose alternatives
are not. -/
theorem fault_iff {m : Mapping} {r : Refusal} :
    m.Fault r ↔ FirstFault SoundHead HeadFault m r ∨
      ∃ entries, List.Forall₂ IsHead m entries ∧
        FirstFault (fun head => ∃ d, Declares m.heads head d)
          (fun head => AlternativesFault m.heads head.1 head.2) entries r := by
  constructor
  · rintro (h | ⟨hheads, h⟩)
    · exact .inl h
    · obtain ⟨entries, hentries⟩ := exists_forall₂.mpr hheads
      exact .inr ⟨entries, hentries, (firstFault_iff hentries).mp h⟩
  · rintro (h | ⟨entries, hentries, h⟩)
    · exact .head h
    · exact .alternative (exists_forall₂.mp ⟨entries, hentries⟩) ((firstFault_iff hentries).mpr h)

theorem read_eq (m : Mapping) : m.read =
    (m.mapM fun entry => readHead entry.1 entry.2) >>= fun entries =>
      (entries.mapM (readDeclaration (entries.map Prod.fst))).map fun ds => ⟨ds, tokensOf ds⟩ :=
  rfl

theorem read_settles (m : Mapping) : Settles m.read
    (fun r => List.Forall₂ (Says m.heads) m r.declarations ∧ r.tokens = tokensOf r.declarations)
    (Fault m) := by
  rw [read_eq]
  refine ((Settles.mapM readHead_settles m).bind fun entries hentries =>
    ((Settles.mapM (readDeclaration_settles (entries.map Prod.fst)) entries).map
      fun ds => (⟨ds, tokensOf ds⟩ : Reading))).congr (fun r => ?_) fun e => ?_
  · constructor
    · rintro ⟨entries, hentries, ds, hds, rfl⟩
      rw [map_fst_eq_heads hentries] at hds
      exact ⟨forall₂_comp.mp ⟨entries, hentries, hds⟩, rfl⟩
    · rintro ⟨hsaid, htokens⟩
      obtain ⟨entries, hentries, hds⟩ := forall₂_comp.mpr hsaid
      rw [← map_fst_eq_heads hentries] at hds
      refine ⟨entries, hentries, _, hds, ?_⟩
      rw [← htokens]
  · rw [fault_iff]
    apply or_congr Iff.rfl
    apply exists_congr
    intro entries
    apply and_congr_right
    intro hentries
    rw [map_fst_eq_heads hentries]

/-- The grammar of the declarations that the entries of a mapping are read as. -/
def SaysGrammar (m : Mapping) (g : Grammar) : Prop :=
  ∃ start others, List.Forall₂ (Says m.heads) m (start :: others) ∧
    Grammar.ofDeclarations start others (tokensOf (start :: others)) = g

theorem exists_saysGrammar {m : Mapping} (hne : m ≠ []) :
    (∃ g, m.SaysGrammar g) ↔ m.WellWritten := by
  rw [wellWritten_iff, ← exists_forall₂]
  constructor
  · rintro ⟨g, start, others, h, -⟩
    exact ⟨_, h⟩
  · rintro ⟨ds, h⟩
    cases ds with
    | nil => exact absurd (List.forall₂_nil_right_iff.mp h) hne
    | cons start others => exact ⟨_, start, others, h, rfl⟩

end Mapping

theorem Reader.load_ofMapping (m : Mapping) : (ofMapping m).load.1 =
    match m.read with
    | .error r => .error (.refused r)
    | .ok reading =>
      match reading.declarations with
      | [] => .error .noHeads
      | start :: others => .ok (.ofDeclarations start others reading.tokens) := by
  simp only [ofMapping, load, getNonterminals, read]
  cases hm : m.read with
  | error e => rfl
  | ok reading =>
    cases hd : reading.declarations with
    | nil =>
      simp only [hd]
      rfl
    | cons start others =>
      simp only [hd]
      rfl

theorem Reader.load_settles {m : Mapping} (hne : m ≠ []) :
    Settles (ofMapping m).load.1 m.SaysGrammar fun e => ∃ r, e = .refused r ∧ m.Fault r := by
  have hread := Mapping.read_settles m
  rw [load_ofMapping]
  apply Settles.of
  · rintro g ⟨start, others, h, rfl⟩
    rw [(hread.ok_iff ⟨start :: others, Mapping.tokensOf (start :: others)⟩).mpr ⟨h, rfl⟩]
  · rintro e ⟨f, rfl, hf⟩
    rw [(hread.error_iff f).mpr hf]
  · rcases hread.exists_or with ⟨reading, h, -⟩ | ⟨f, hf⟩
    · exact .inl ((Mapping.exists_saysGrammar hne).mpr
        (Mapping.wellWritten_iff.mpr (exists_forall₂.mp ⟨_, h⟩)))
    · exact .inr ⟨_, f, rfl, hf⟩

theorem Grammar.ofDatum_of_isMapping {d : Datum} {m : Mapping} (h : d.IsMapping m) :
    m ≠ [] ∧ ofDatum d = (Reader.ofMapping m).load.1 := by
  obtain ⟨entries, rfl, hne, rfl⟩ := h
  refine ⟨Dictionary.ofList_ne_nil hne, ?_⟩
  cases entries with
  | nil => exact absurd rfl hne
  | cons e rest => rfl

theorem Grammar.ofDatum_settles (d : Datum) :
    Settles (ofDatum d) (fun g => ∃ m, d.IsMapping m ∧ m.SaysGrammar g)
      fun e => ∃ r, e = .refused r ∧ d.Fault r := by
  apply Settles.of
  · rintro g ⟨m, hm, hg⟩
    obtain ⟨hne, hd⟩ := ofDatum_of_isMapping hm
    rw [hd]
    exact ((Reader.load_settles hne).ok_iff g).mpr hg
  · rintro e ⟨f, rfl, hf⟩
    cases hf with
    | notMapping h => cases d <;> first | rfl | exact absurd rfl (h _)
    | noProductions => rfl
    | mapping hm h =>
      obtain ⟨hne, hd⟩ := ofDatum_of_isMapping hm
      rw [hd]
      exact ((Reader.load_settles hne).error_iff _).mpr ⟨f, rfl, h⟩
  · by_cases hmapping : ∃ entries, d = .mapping entries
    · obtain ⟨entries, rfl⟩ := hmapping
      by_cases hentries : entries = []
      · subst hentries
        exact .inr ⟨_, _, rfl, .noProductions⟩
      · have hm : Datum.IsMapping (.mapping entries) _ := ⟨entries, rfl, hentries, rfl⟩
        rcases (Reader.load_settles (ofDatum_of_isMapping hm).1).exists_or with
          ⟨g, hg⟩ | ⟨e, f, rfl, hf⟩
        · exact .inl ⟨g, _, hm, hg⟩
        · exact .inr ⟨_, f, rfl, .mapping hm hf⟩
    · exact .inr ⟨_, _, rfl, .notMapping fun entries h => hmapping ⟨entries, h⟩⟩

end ShiftReduce
