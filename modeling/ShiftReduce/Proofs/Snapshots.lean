import ShiftReduce.Proofs.Calls

/-!
The reading that a reader goes on answering from.

A question that is not answered from what is kept calls for a reading. Readings that fail leave
nothing from which a grammar can be made; the first that comes to its end is kept for good, so all
grammars and tables are those of the mapping as it was then, whatever becomes of it.
-/

namespace ShiftReduce

theorem Mapping.distinct_change {m : Mapping} (h : Dictionary.Distinct m) (c : Call) :
    Dictionary.Distinct (m.change c) := by
  cases c with
  | ask q => exact h
  | assign head alternatives => exact h.insert head alternatives
  | remove head =>
    rw [change, Dictionary.erase?]
    split
    · exact List.Pairwise.filter _ h
    · exact h

namespace Reader

/-- A question calls for a reading when what it asks for is not kept. -/
def needsReading (r : Reader) : Question → Bool
  | .tokens => r.tokens.isNone
  | _ => r.nonterminals.isNone

/-- The mapping that a call reads to the end. -/
def completedBy? (r : Reader) : Call → Option Mapping
  | .ask q => if r.needsReading q ∧ r.read.1.isOk then some r.mapping else none
  | _ => none

/-- The mapping as it was at the first reading that came to its end. -/
def firstCompleted? (r : Reader) : List Call → Option Mapping
  | [] => none
  | c :: rest => (r.completedBy? c).or ((r.call c).2.firstCompleted? rest)

/-- A reader keeps what is found in a mapping, or no nonterminals at all. -/
def Keeps (r : Reader) : Option Mapping → Prop
  | none => r.nonterminals = none
  | some k => ∃ (found : Findings) (ns : Serial Declarations) (ts : Serial (List Symbol)),
      (ofMapping k).read.1 = .ok found ∧ r.nonterminals = some ns ∧ r.tokens = some ts ∧
        ns.value = found.1.value ∧ ts.value = found.2.value

variable {r : Reader} {k : Mapping} {k? : Option Mapping} {q : Question} {c : Call}

/-- What is found does not depend on the readings before, but for their number. -/
theorem keeps_of_read {found : Findings} (h : r.read.1 = .ok found) :
    r.read.2.Keeps (some r.mapping) := by
  obtain ⟨hns, hts, -, -⟩ := kept_of_read h
  rcases read_cases r with ⟨e, he⟩ | hempty | ⟨reading, start, others, hok, hd⟩
  · rw [read_of_refused he] at h
    cases h
  · rw [read_of_emptied hempty] at h
    cases h
  · rw [read_of_ok hok hd] at h ⊢
    have hfresh : (ofMapping r.mapping).mapping.read = .ok reading := hok
    refine ⟨_, _, _, congrArg Prod.fst (read_of_ok hfresh hd), rfl, rfl, rfl, rfl⟩

theorem nonterminals_of_read_error {e : ReadError} (h : r.read.1 = .error e) :
    r.read.2.nonterminals = r.nonterminals := by
  rcases read_cases r with ⟨f, hf⟩ | hempty | ⟨reading, start, others, hok, hd⟩
  · rw [read_of_refused hf]
  · rw [read_of_emptied hempty]
  · rw [read_of_ok hok hd] at h
    cases h

/-- Without nonterminals a question leads to a reading, unless it is tokens that are kept. -/
theorem ask_of_needsReading (hnone : r.nonterminals = none) :
    r.needsReading q = true ∧ r.ask q = (q.answer r.read.1, r.read.2) ∨
      r.needsReading q = false ∧ q = .tokens ∧ (r.ask q).2 = r := by
  cases q with
  | tokens =>
    cases hts : r.tokens with
    | none => exact .inl ⟨by rw [needsReading, hts]; rfl, ask_of_none hnone fun _ => hts⟩
    | some ts =>
      rw [ask_tokens_of_some hts]
      exact .inr ⟨by rw [needsReading, hts]; rfl, rfl, rfl⟩
  | _ => exact .inl ⟨by simp [needsReading, hnone], ask_of_none hnone nofun⟩

/-- One call: what is kept stays, and otherwise a reading that comes to its end is kept. -/
theorem Keeps.call (h : r.Keeps k?) (c : Call) :
    (r.call c).2.Keeps (k?.or (r.completedBy? c)) := by
  by_cases hc : ∃ q, c = .ask q
  · obtain ⟨q, rfl⟩ := hc
    change (r.ask q).2.Keeps _
    cases k? with
    | some k =>
      obtain ⟨found, ns, ts, hfound, hns, hts, hvalues⟩ := h
      rw [ask_of_kept hns hts]
      exact ⟨found, ns, ts, hfound, hns, hts, hvalues⟩
    | none =>
      rw [Option.none_or, completedBy?]
      rcases ask_of_needsReading (q := q) h with ⟨hreads, hask⟩ | ⟨hkept, -, hask⟩
      · rw [hask, hreads]
        cases hread : r.read.1 with
        | error e => exact (nonterminals_of_read_error hread).trans h
        | ok found => exact keeps_of_read hread
      · rw [hask, hkept]
        exact h
  · have hnone : r.completedBy? c = none := by
      cases c <;> first | rfl | exact absurd ⟨_, rfl⟩ hc
    rw [(call_change fun q hq => hc ⟨q, hq⟩).1, hnone, Option.or_none]
    cases k? <;> exact h

theorem Keeps.after (h : r.Keeps k?) (calls : List Call) :
    (r.after calls).Keeps (k?.or (r.firstCompleted? calls)) := by
  induction calls generalizing r k? with
  | nil => simpa [Reader.after, firstCompleted?] using h
  | cons c rest ih =>
    rw [firstCompleted?, ← Option.or_assoc]
    exact ih (h.call c)

/-- Only a change changes the mapping. -/
theorem Keeps.mapping_call (h : r.Keeps k?) (c : Call) :
    (r.call c).2.mapping = r.mapping.change c := by
  by_cases hc : ∃ q, c = .ask q
  · obtain ⟨q, rfl⟩ := hc
    change (r.ask q).2.mapping = r.mapping
    cases k? with
    | some k =>
      obtain ⟨_, ns, ts, -, hns, hts, -⟩ := h
      rw [ask_of_kept hns hts]
    | none =>
      rcases ask_of_needsReading (q := q) h with ⟨-, hask⟩ | ⟨-, -, hask⟩
      · rw [hask, mapping_read]
      · rw [hask]
  · rw [(call_change fun q hq => hc ⟨q, hq⟩).1, withMapping]

theorem mapping_eq_of_completedBy? (h : r.completedBy? c = some k) : r.mapping = k := by
  cases c with
  | ask q => exact (Option.ite_none_right_eq_some.mp h).2 |> Option.some.inj
  | assign head alternatives => cases h
  | remove head => cases h

/-- No two keys of a mapping that is read are the same. -/
theorem Keeps.distinct (h : r.Keeps k?) (hr : Dictionary.Distinct r.mapping) {calls : List Call}
    (hk : r.firstCompleted? calls = some k) : Dictionary.Distinct k := by
  induction calls generalizing r k? with
  | nil => cases hk
  | cons c rest ih =>
    rcases Option.or_eq_some_iff.mp hk with hk | ⟨-, hk⟩
    · exact mapping_eq_of_completedBy? hk ▸ hr
    · apply ih (h.call c) _ hk
      rw [h.mapping_call]
      exact Mapping.distinct_change hr c

theorem firstCompleted?_concat (r : Reader) (calls : List Call) (c : Call) :
    r.firstCompleted? (calls ++ [c]) =
      (r.firstCompleted? calls).or ((r.after calls).completedBy? c) := by
  induction calls generalizing r with
  | nil => simp [firstCompleted?, after]
  | cons first rest ih =>
    rw [List.cons_append, firstCompleted?, firstCompleted?, ih, Option.or_assoc]
    rfl

/-- The grammar of what is kept is that of the mapping in which it was found. -/
theorem Keeps.load_eq (h : r.Keeps (some k)) :
    ∃ (ns : Serial Declarations) (ts : Serial (List Symbol)), r.nonterminals = some ns ∧
      r.tokens = some ts ∧ r.load = (.ok (Findings.grammar (ns, ts)), r) ∧
        (ofMapping k).load.1 = .ok (Findings.grammar (ns, ts)) := by
  obtain ⟨found, ns, ts, hfound, hns, hts, hnsvalue, htsvalue⟩ := h
  refine ⟨ns, ts, hns, hts, ?_, ?_⟩
  · simp [load, getNonterminals, getTokens, hns, hts, Findings.grammar]
  · rw [load_of_none rfl, hfound, Findings.grammar, hnsvalue, htsvalue]
    rfl

/-- A grammar that is returned is made of what is kept afterwards, and that was found in the mapping
that was read. -/
theorem Keeps.exists_of_load (h : r.Keeps k?) {g : Grammar} (hg : r.load.1 = .ok g) :
    ∃ (k : Mapping) (ns : Serial Declarations) (ts : Serial (List Symbol)),
      k?.or (r.completedBy? (.ask .grammar)) = some k ∧ (ofMapping k).load.1 = .ok g ∧
        r.load.2.nonterminals = some ns ∧ r.load.2.tokens = some ts ∧
          g = Findings.grammar (ns, ts) := by
  cases k? with
  | some k =>
    obtain ⟨ns, ts, hns, hts, hload, hfresh⟩ := h.load_eq
    rw [hload] at hg ⊢
    cases hg
    exact ⟨k, ns, ts, rfl, hfresh, hns, hts, rfl⟩
  | none =>
    rw [load_of_none h] at hg ⊢
    cases hread : r.read.1 with
    | error e =>
      rw [hread] at hg
      cases hg
    | ok found =>
      obtain ⟨ns, ts, hns, hts, -, hfresh⟩ := (keeps_of_read hread).load_eq
      obtain ⟨hns', hts', -, -⟩ := kept_of_read hread
      have hfound : found = (ns, ts) :=
        Prod.ext (Option.some.inj (hns'.symm.trans hns)) (Option.some.inj (hts'.symm.trans hts))
      have hby : r.completedBy? (.ask .grammar) = some r.mapping := by
        have hnone : r.nonterminals = none := h
        simp [completedBy?, needsReading, hnone, hread, Except.isOk, Except.toBool]
      rw [hread, hfound] at hg
      cases hg
      exact ⟨r.mapping, ns, ts, hby, hfresh, hns, hts, rfl⟩

end Reader

end ShiftReduce
