import Mathlib.Data.List.Induction
import ShiftReduce.Proofs.Readers
import ShiftReduce.Table.Build

/-!
Calls on one reader, between which the mapping that it refers to may change.

A question is answered from what is kept or else by a reading, and a change of the mapping leaves
what is kept alone. After any calls, what is kept comes from one reading, and a call that fails
changes nothing, except that asking for what a mapping without heads says leaves an empty list of
tokens.
-/

namespace ShiftReduce

inductive Question where
  | tokens
  | nonterminals
  | grammar
  | table

/-- What can be asked of a reader, and what can be done to its mapping. -/
inductive Call where
  | ask (q : Question)
  | assign (head alternatives : Datum)
  | remove (head : Datum)

inductive CallError where
  | read (e : ReadError)
  | table (e : TableError)
  | noHead (head : Datum)

inductive Answer where
  | tokens (found : Serial (List Symbol))
  | nonterminals (found : Serial Declarations)
  | grammar (g : Grammar)
  | table (t : Table)
  | heads (count : Nat)

/-- The reading from which a list comes that is returned. -/
def Answer.reading? : Answer → Option Nat
  | tokens found => some found.number
  | nonterminals found => some found.number
  | _ => none

/-- What is found out by a reading. -/
abbrev Findings := Serial Declarations × Serial (List Symbol)

def Findings.grammar (f : Findings) : Grammar :=
  .ofDeclarations f.1.value.start f.1.value.others f.2.value

/-- The answer that a reading gives to a question. -/
def Question.answer (found : Except ReadError Findings) : Question → Except CallError Answer
  | tokens => (found.mapError .read).map fun f => .tokens f.2
  | nonterminals => (found.mapError .read).map fun f => .nonterminals f.1
  | grammar => (found.mapError .read).map fun f => .grammar f.grammar
  | table => (found.mapError .read).bind fun f => (f.grammar.table.mapError .table).map .table

theorem Question.answer_eq_read {q : Question} {found : Except ReadError Findings} {e : ReadError} :
    q.answer found = .error (.read e) ↔ found = .error e := by
  cases found with
  | error e' => cases q <;> simp [answer, Except.mapError, Except.map, Except.bind]
  | ok f =>
    cases q with
    | table =>
      simp only [answer, Except.mapError, Except.bind]
      cases f.grammar.table <;> simp [Except.map]
    | _ => simp [answer, Except.mapError, Except.map]

theorem Question.exists_of_answer_eq_table {q : Question} {found : Except ReadError Findings}
    {e : TableError} (h : q.answer found = .error (.table e)) :
    ∃ f, found = .ok f ∧ f.grammar.table = .error e := by
  cases found with
  | error e' => cases q <;> simp [answer, Except.mapError, Except.map, Except.bind] at h
  | ok f =>
    cases q with
    | table =>
      refine ⟨f, rfl, ?_⟩
      simp only [answer, Except.mapError, Except.bind] at h
      cases ht : f.grammar.table with
      | error e' =>
        rw [ht] at h
        cases h
        rfl
      | ok t =>
        rw [ht] at h
        cases h
    | _ => simp [answer, Except.mapError, Except.map] at h

namespace Mapping

def change (m : Mapping) : Call → Mapping
  | .ask _ => m
  | .assign head alternatives => Dictionary.insert m head alternatives
  | .remove head => (Dictionary.erase? m head).getD m

def after (m : Mapping) (calls : List Call) : Mapping :=
  calls.foldl change m

theorem after_concat (m : Mapping) (calls : List Call) (c : Call) :
    m.after (calls ++ [c]) = (m.after calls).change c := by
  simp [after]

end Mapping

namespace Reader

def ask (r : Reader) : Question → Except CallError Answer × Reader
  | .tokens => ((r.getTokens.1.mapError .read).map .tokens, r.getTokens.2)
  | .nonterminals =>
    ((r.getNonterminals.1.mapError .read).map .nonterminals, r.getNonterminals.2)
  | .grammar => ((r.load.1.mapError .read).map .grammar, r.load.2)
  | .table =>
    ((r.load.1.mapError .read).bind fun g => (g.table.mapError .table).map .table, r.load.2)

def call (r : Reader) : Call → Except CallError Answer × Reader
  | .ask q => r.ask q
  | .assign head alternatives =>
    (.ok (.heads (r.assign head alternatives).1), (r.assign head alternatives).2)
  | .remove head =>
    match r.remove? head with
    | some (count, r) => (.ok (.heads count), r)
    | none => (.error (.noHead head), r)

def after (r : Reader) (calls : List Call) : Reader :=
  calls.foldl (fun r c => (r.call c).2) r

/-- The same reader, over a mapping that has changed. -/
def withMapping (r : Reader) (m : Mapping) : Reader :=
  { r with mapping := m }

variable {r : Reader} {ns : Serial Declarations} {ts : Serial (List Symbol)} {q : Question}

/-- A question is answered from what is kept. -/
theorem ask_of_kept (hns : r.nonterminals = some ns) (hts : r.tokens = some ts) (q : Question) :
    r.ask q = (q.answer (.ok (ns, ts)), r) := by
  cases q <;> simp [ask, getTokens, getNonterminals, load, hns, hts, Question.answer,
    Findings.grammar, Except.map, Except.mapError, Except.bind]

theorem read_of_refused {e : Refusal} (h : r.mapping.read = .error e) :
    r.read = (.error (.refused e), r) := by
  simp [read, h]

theorem read_of_emptied (h : r.mapping = []) :
    r.read = (.error .noHeads,
      { r with readings := r.readings + 1, tokens := some ⟨r.readings + 1, []⟩ }) := by
  simp only [read, h]
  rfl

theorem read_of_ok {reading : Reading} {start : Declaration} {others : List Declaration}
    (h : r.mapping.read = .ok reading) (hd : reading.declarations = start :: others) :
    r.read = (.ok (⟨r.readings + 1, ⟨start, others⟩⟩, ⟨r.readings + 1, reading.tokens⟩),
      { r with readings := r.readings + 1
               nonterminals := some ⟨r.readings + 1, ⟨start, others⟩⟩
               tokens := some ⟨r.readings + 1, reading.tokens⟩ }) := by
  simp only [read, h, hd]

/-- The three ends that a reading may have. -/
theorem read_cases (r : Reader) :
    (∃ e, r.mapping.read = .error e) ∨ r.mapping = [] ∨
      ∃ reading start others, r.mapping.read = .ok reading ∧
        reading.declarations = start :: others := by
  cases h : r.mapping.read with
  | error e => exact .inl ⟨e, rfl⟩
  | ok reading =>
    obtain ⟨hsaid, -⟩ := ((Mapping.read_settles r.mapping).ok_iff reading).mp h
    cases hd : reading.declarations with
    | nil =>
      rw [hd] at hsaid
      exact .inr (.inl (List.forall₂_nil_right_iff.mp hsaid))
    | cons start others => exact .inr (.inr ⟨reading, start, others, rfl, hd⟩)

theorem withMapping_mapping (r : Reader) : r.withMapping r.mapping = r := rfl

theorem mapping_read (r : Reader) : r.read.2.mapping = r.mapping := by
  rcases read_cases r with ⟨e, he⟩ | hempty | ⟨reading, start, others, hok, hd⟩
  · rw [read_of_refused he]
  · rw [read_of_emptied hempty]
  · rw [read_of_ok hok hd]

/-- A reading that comes to an end is kept, under one number. -/
theorem kept_of_read (h : r.read.1 = .ok (ns, ts)) :
    r.read.2.nonterminals = some ns ∧ r.read.2.tokens = some ts ∧
      ns.number = r.readings + 1 ∧ ts.number = r.readings + 1 := by
  rcases read_cases r with ⟨e, he⟩ | hempty | ⟨reading, start, others, hok, hd⟩
  · rw [read_of_refused he] at h
    cases h
  · rw [read_of_emptied hempty] at h
    cases h
  · rw [read_of_ok hok hd] at h ⊢
    cases h
    exact ⟨rfl, rfl, rfl, rfl⟩

theorem load_of_none (hns : r.nonterminals = none) :
    r.load = (r.read.1.map Findings.grammar, r.read.2) := by
  simp only [load, getNonterminals, hns]
  cases h : r.read.1 with
  | error e => rfl
  | ok found =>
    obtain ⟨-, hts, -, -⟩ := kept_of_read h
    simp only [Except.map, getTokens, hts]
    rfl

/-- Without nonterminals, all that is asked for is read, unless it is tokens that are kept. -/
theorem ask_of_none (hns : r.nonterminals = none) (hts : q = .tokens → r.tokens = none) :
    r.ask q = (q.answer r.read.1, r.read.2) := by
  cases q with
  | tokens =>
    simp only [ask, getTokens, hts rfl, Question.answer]
    cases r.read.1 <;> rfl
  | nonterminals =>
    simp only [ask, getNonterminals, hns, Question.answer]
    cases r.read.1 <;> rfl
  | grammar =>
    simp only [ask, load_of_none hns, Question.answer]
    cases r.read.1 <;> rfl
  | table =>
    simp only [ask, load_of_none hns, Question.answer]
    cases r.read.1 <;> rfl

theorem ask_tokens_of_some (hts : r.tokens = some ts) : r.ask .tokens = (.ok (.tokens ts), r) := by
  simp [ask, getTokens, hts, Except.map, Except.mapError]

theorem ask_ne_noHead (r : Reader) (q : Question) (head : Datum) :
    (r.ask q).1 ≠ .error (.noHead head) := by
  cases q with
  | tokens => cases h : r.getTokens.1 <;> simp [ask, h, Except.mapError, Except.map]
  | nonterminals => cases h : r.getNonterminals.1 <;> simp [ask, h, Except.mapError, Except.map]
  | grammar => cases h : r.load.1 <;> simp [ask, h, Except.mapError, Except.map]
  | table =>
    cases h : r.load.1 with
    | error e => simp [ask, h, Except.mapError, Except.bind]
    | ok g =>
      cases ht : g.table <;> simp [ask, h, ht, Except.mapError, Except.map, Except.bind]

/-- A change of the mapping reads nothing and returns nothing that was read. It fails only for a head
that is not there, and then changes nothing. -/
theorem call_change {c : Call} (hc : ∀ q, c ≠ .ask q) :
    (r.call c).2 = r.withMapping (r.mapping.change c) ∧
      (∀ e, (r.call c).1 = .error e → (∃ head, e = .noHead head) ∧ (r.call c).2 = r) ∧
      ∀ a, (r.call c).1 = .ok a → a.reading? = none := by
  cases c with
  | ask q => exact absurd rfl (hc q)
  | assign head alternatives =>
    refine ⟨rfl, ?_, ?_⟩
    · intro e h
      cases h
    · intro a h
      cases h
      rfl
  | remove head =>
    simp only [call, remove?, Mapping.change]
    cases Dictionary.erase? r.mapping head with
    | none =>
      refine ⟨rfl, ?_, ?_⟩
      · intro e h
        cases h
        exact ⟨⟨head, rfl⟩, rfl⟩
      · intro a h
        cases h
    | some m =>
      refine ⟨rfl, ?_, ?_⟩
      · intro e h
        cases h
      · intro a h
        cases h
        rfl

/-- What is kept comes from one reading; without nonterminals there are no tokens, or an empty list
of them. -/
structure Consistent (r : Reader) : Prop where
  of_some : ∀ ns, r.nonterminals = some ns → ∃ m reading, Mapping.read m = .ok reading ∧
    reading.declarations = ns.value.start :: ns.value.others ∧
      r.tokens = some ⟨ns.number, reading.tokens⟩
  of_none : r.nonterminals = none → ∀ ts, r.tokens = some ts → ts.value = []

theorem consistent_ofMapping (m : Mapping) : (ofMapping m).Consistent := by
  constructor
  · intro ns h
    cases h
  · intro _ ts h
    cases h

theorem Consistent.read (h : r.Consistent) (hns : r.nonterminals = none) :
    r.read.2.Consistent := by
  rcases read_cases r with ⟨e, he⟩ | hempty | ⟨reading, start, others, hok, hd⟩
  · rw [read_of_refused he]
    exact h
  · rw [read_of_emptied hempty]
    constructor
    · intro ns hsome
      cases hns.symm.trans hsome
    · intro _ ts hts
      cases hts
      rfl
  · rw [read_of_ok hok hd]
    constructor
    · intro ns hsome
      cases hsome
      exact ⟨_, reading, hok, hd, rfl⟩
    · intro hnone
      cases hnone

/-- A question is answered from what is kept, or else by a reading. -/
theorem Consistent.ask_cases (h : r.Consistent) (q : Question) :
    (r.ask q).2 = r ∧ (∀ e, (r.ask q).1 ≠ .error (.read e)) ∨
      r.nonterminals = none ∧ r.ask q = (q.answer r.read.1, r.read.2) := by
  cases hns : r.nonterminals with
  | some ns =>
    obtain ⟨_, _, _, _, hts⟩ := h.of_some ns hns
    rw [ask_of_kept hns hts]
    refine .inl ⟨rfl, fun e he => ?_⟩
    cases Question.answer_eq_read.mp he
  | none =>
    by_cases hkept : q = .tokens ∧ r.tokens ≠ none
    · obtain ⟨rfl, hkept⟩ := hkept
      obtain ⟨ts, hts⟩ := Option.ne_none_iff_exists'.mp hkept
      rw [ask_tokens_of_some hts]
      exact .inl ⟨rfl, fun e he => by cases he⟩
    · exact .inr ⟨rfl, ask_of_none hns fun hq => by_contra fun hne => hkept ⟨hq, hne⟩⟩

theorem Consistent.call (h : r.Consistent) (c : Call) : (r.call c).2.Consistent := by
  by_cases hc : ∃ q, c = .ask q
  · obtain ⟨q, rfl⟩ := hc
    change (r.ask q).2.Consistent
    rcases h.ask_cases q with ⟨hsame, -⟩ | ⟨hns, hread⟩
    · rw [hsame]
      exact h
    · rw [hread]
      exact h.read hns
  · rw [(call_change fun q hq => hc ⟨q, hq⟩).1]
    exact ⟨h.of_some, h.of_none⟩

theorem after_concat (r : Reader) (calls : List Call) (c : Call) :
    r.after (calls ++ [c]) = ((r.after calls).call c).2 := by
  simp [after]

/-- What is kept is consistent after all calls. -/
theorem consistent_after (m : Mapping) (calls : List Call) :
    ((ofMapping m).after calls).Consistent := by
  induction calls using List.reverseRecOn with
  | nil => exact consistent_ofMapping m
  | append_singleton calls c ih =>
    rw [after_concat]
    exact ih.call c

/-- A reading that is refused changes nothing. One of a mapping without heads leaves an
empty list of tokens. -/
theorem Consistent.ask_eq_read_error (h : r.Consistent) {e : ReadError}
    (he : (r.ask q).1 = .error (.read e)) :
    r.nonterminals = none ∧ ((∃ f, e = .refused f) ∧ (r.ask q).2 = r ∨
      e = .noHeads ∧ r.mapping = [] ∧ (r.ask q).2 =
        { r with readings := r.readings + 1, tokens := some ⟨r.readings + 1, []⟩ }) := by
  rcases h.ask_cases q with ⟨-, hnone⟩ | ⟨hns, hread⟩
  · exact absurd he (hnone e)
  · refine ⟨hns, ?_⟩
    rw [hread] at he ⊢
    have he' := Question.answer_eq_read.mp he
    rcases read_cases r with ⟨f, hf⟩ | hempty | ⟨reading, start, others, hok, hd⟩
    · rw [read_of_refused hf] at he' ⊢
      cases he'
      exact .inl ⟨⟨f, rfl⟩, rfl⟩
    · rw [read_of_emptied hempty] at he' ⊢
      cases he'
      exact .inr ⟨rfl, hempty, rfl⟩
    · rw [read_of_ok hok hd] at he'
      cases he'

/-- A table is refused after its grammar has been read, and the reading is kept. -/
theorem Consistent.ask_eq_table_error (h : r.Consistent) {e : TableError}
    (he : (r.ask q).1 = .error (.table e)) :
    ∃ found : Findings, (r.ask q).2.nonterminals = some found.1 ∧
      (r.ask q).2.tokens = some found.2 ∧ found.grammar.table = .error e := by
  cases hns : r.nonterminals with
  | some ns =>
    obtain ⟨_, _, _, _, hts⟩ := h.of_some ns hns
    rw [ask_of_kept hns hts] at he ⊢
    obtain ⟨f, hf, htable⟩ := Question.exists_of_answer_eq_table he
    cases hf
    exact ⟨_, hns, hts, htable⟩
  | none =>
    have hq : q = .tokens → r.tokens = none := by
      rintro rfl
      cases hts : r.tokens with
      | none => rfl
      | some ts =>
        rw [ask_tokens_of_some hts] at he
        cases he
    rw [ask_of_none hns hq] at he ⊢
    obtain ⟨f, hf, htable⟩ := Question.exists_of_answer_eq_table he
    obtain ⟨hkept, htokens, -, -⟩ := kept_of_read hf
    exact ⟨f, hkept, htokens, htable⟩

/-- What a failing call does to a reader. -/
structure FailsAs (r : Reader) (c : Call) : Prop where
  refused : ∀ f, (r.call c).1 = .error (.read (.refused f)) → (r.call c).2 = r
  noHead : ∀ head, (r.call c).1 = .error (.noHead head) → (r.call c).2 = r
  noHeads : (r.call c).1 = .error (.read .noHeads) → r.mapping = [] ∧ r.nonterminals = none ∧
    (r.call c).2 = { r with readings := r.readings + 1, tokens := some ⟨r.readings + 1, []⟩ }
  table : ∀ e, (r.call c).1 = .error (.table e) → ∃ found : Findings,
    (r.call c).2.nonterminals = some found.1 ∧ (r.call c).2.tokens = some found.2 ∧
      found.grammar.table = .error e

theorem Consistent.failsAs (h : r.Consistent) (c : Call) : r.FailsAs c := by
  by_cases hc : ∃ q, c = .ask q
  · obtain ⟨q, rfl⟩ := hc
    constructor
    · intro f hf
      rcases h.ask_eq_read_error hf with ⟨-, ⟨-, hsame⟩ | ⟨hnoHeads, -⟩⟩
      · exact hsame
      · cases hnoHeads
    · exact fun head hhead => absurd hhead (ask_ne_noHead r q head)
    · intro hnoHeads
      rcases h.ask_eq_read_error hnoHeads with ⟨hns, ⟨⟨f, hf⟩, -⟩ | ⟨-, hempty, hafter⟩⟩
      · cases hf
      · exact ⟨hempty, hns, hafter⟩
    · exact fun e he => h.ask_eq_table_error he
  · obtain ⟨-, hfails, -⟩ := call_change (r := r) fun q hq => hc ⟨q, hq⟩
    constructor
    · exact fun f hf => (hfails _ hf).2
    · exact fun head hhead => (hfails _ hhead).2
    · intro hnoHeads
      obtain ⟨⟨head, hhead⟩, -⟩ := hfails _ hnoHeads
      cases hhead
    · intro e he
      obtain ⟨⟨head, hhead⟩, -⟩ := hfails _ he
      cases hhead

end Reader

end ShiftReduce
