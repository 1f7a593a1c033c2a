import ShiftReduce.Proofs.Calls

/-!
What a reader answers while its mapping changes.

A reader is compared with a fresh one over the mapping as it was when it could first be read. The
two agree on every answer as long as nothing is asked before of a mapping that has lost all its
heads; such a question leaves an empty list of tokens behind, which stays until the nonterminals
are read.
-/

namespace ShiftReduce

namespace Mapping

def isReadable (m : Mapping) : Bool :=
  (Reader.ofMapping m).read.1.isOk

/-- The mapping that a call can read. -/
def readBy? (m : Mapping) : Call → Option Mapping
  | .ask _ => if m.isReadable then some m else none
  | _ => none

/-- The mapping as it was when something was first asked that could be read from it. -/
def firstRead? (m : Mapping) : List Call → Option Mapping
  | [] => none
  | c :: rest => (m.readBy? c).or (firstRead? (m.change c) rest)

/-- Nothing is asked of a mapping without heads before it has been read. -/
def KeepsHeads (m : Mapping) (calls : List Call) : Prop :=
  ∀ before q later, calls = before ++ .ask q :: later → m.after before = [] →
    m.firstRead? before ≠ none

theorem firstRead?_concat (m : Mapping) (calls : List Call) (c : Call) :
    m.firstRead? (calls ++ [c]) = (m.firstRead? calls).or ((m.after calls).readBy? c) := by
  induction calls generalizing m with
  | nil => simp [firstRead?, after]
  | cons first rest ih =>
    rw [List.cons_append, firstRead?, firstRead?, ih, Option.or_assoc]
    rfl

theorem isReadable_of_readBy? {m k : Mapping} {c : Call} (h : m.readBy? c = some k) :
    k.isReadable = true := by
  cases c with
  | ask q =>
    simp only [readBy?, Option.ite_none_right_eq_some, Option.some.injEq] at h
    exact h.2 ▸ h.1
  | assign head alternatives => cases h
  | remove head => cases h

theorem isReadable_of_firstRead? {m k : Mapping} {calls : List Call}
    (h : m.firstRead? calls = some k) : k.isReadable = true := by
  induction calls generalizing m with
  | nil => cases h
  | cons c rest ih =>
    rcases Option.or_eq_some_iff.mp h with h | ⟨-, h⟩
    · exact isReadable_of_readBy? h
    · exact ih h

/-- A mapping that is read at once may lose its heads afterwards. -/
theorem keepsHeads_of_isReadable {m : Mapping} (h : m.isReadable = true) (q : Question)
    (calls : List Call) : m.KeepsHeads (.ask q :: calls) := by
  intro before q' later hcalls hempty
  cases before with
  | nil =>
    subst hempty
    cases h
  | cons c before =>
    obtain ⟨rfl, -⟩ := List.cons.inj hcalls
    simp [firstRead?, readBy?, h]

theorem KeepsHeads.of_concat {m : Mapping} {calls : List Call} {c : Call}
    (h : m.KeepsHeads (calls ++ [c])) : m.KeepsHeads calls := by
  rintro before q later rfl
  exact h before q (later ++ [c]) (by simp)

end Mapping

namespace Reader

/-- The reader over a mapping after some calls, as the first reading determines it. -/
def reached (m : Mapping) (calls : List Call) : Reader :=
  match m.firstRead? calls with
  | none => ofMapping (m.after calls)
  | some k => (ofMapping k).read.2.withMapping (m.after calls)

section Fresh

variable {m : Mapping} {q : Question}

theorem ask_ofMapping (m : Mapping) (q : Question) :
    (ofMapping m).ask q = (q.answer (ofMapping m).read.1, (ofMapping m).read.2) :=
  ask_of_none rfl fun _ => rfl

theorem exists_findings (h : m.isReadable = true) :
    ∃ ns ts, (ofMapping m).read.1 = .ok (ns, ts) ∧ ns.number = 1 ∧ ts.number = 1 := by
  cases hm : (ofMapping m).read.1 with
  | error e =>
    rw [Mapping.isReadable, hm] at h
    cases h
  | ok found =>
    obtain ⟨-, -, hns, hts⟩ := kept_of_read hm
    exact ⟨found.1, found.2, rfl, hns, hts⟩

/-- A reader that has read a mapping answers as a fresh one over it, and is not changed. -/
theorem ask_of_read (h : m.isReadable = true) (now : Mapping) (q : Question) :
    ((ofMapping m).read.2.withMapping now).ask q =
      (((ofMapping m).ask q).1, (ofMapping m).read.2.withMapping now) := by
  obtain ⟨ns, ts, hread, -, -⟩ := exists_findings h
  obtain ⟨hns, hts, -, -⟩ := kept_of_read hread
  have hns' : ((ofMapping m).read.2.withMapping now).nonterminals = some ns := hns
  have hts' : ((ofMapping m).read.2.withMapping now).tokens = some ts := hts
  rw [ask_of_kept hns' hts', ask_ofMapping, hread]

theorem read_of_not_readable (hne : m ≠ []) (h : m.isReadable = false) :
    (ofMapping m).read.2 = ofMapping m := by
  rcases read_cases (ofMapping m) with ⟨e, he⟩ | hempty | ⟨reading, start, others, hok, hd⟩
  · rw [read_of_refused he]
  · exact absurd hempty hne
  · rw [Mapping.isReadable, read_of_ok hok hd] at h
    cases h

theorem reached_of_none {calls : List Call} (h : m.firstRead? calls = none) :
    reached m calls = ofMapping (m.after calls) := by
  rw [reached, h]

theorem reached_of_some {calls : List Call} {k : Mapping} (h : m.firstRead? calls = some k) :
    reached m calls = (ofMapping k).read.2.withMapping (m.after calls) := by
  rw [reached, h]

theorem mapping_reached (m : Mapping) (calls : List Call) :
    (reached m calls).mapping = m.after calls := by
  cases h : m.firstRead? calls with
  | none => rw [reached_of_none h, ofMapping]
  | some k => rw [reached_of_some h, withMapping]

/-- A reader that has read nothing goes on so until there is something that can be read. -/
theorem call_reached_of_none {calls : List Call} {c : Call} (hfirst : m.firstRead? calls = none)
    (hne : ∀ q, c = .ask q → m.after calls ≠ []) :
    ((ofMapping (m.after calls)).call c).2 = reached m (calls ++ [c]) := by
  have hconcat := Mapping.firstRead?_concat m calls c
  have hafter := Mapping.after_concat m calls c
  rw [hfirst, Option.none_or] at hconcat
  by_cases hc : ∃ q, c = .ask q
  · obtain ⟨q, rfl⟩ := hc
    change ((ofMapping (m.after calls)).ask q).2 = _
    rw [ask_ofMapping]
    cases hreadable : (m.after calls).isReadable with
    | true =>
      rw [Mapping.readBy?, hreadable, if_pos rfl] at hconcat
      rw [reached_of_some hconcat, hafter]
      have hsame := withMapping_mapping (ofMapping (m.after calls)).read.2
      rw [mapping_read] at hsame
      exact hsame.symm
    | false =>
      rw [Mapping.readBy?, hreadable, if_neg Bool.false_ne_true] at hconcat
      rw [reached_of_none hconcat, hafter]
      exact read_of_not_readable (hne q rfl) hreadable
  · have hnone : (m.after calls).readBy? c = none := by
      cases c <;> first | rfl | exact absurd ⟨_, rfl⟩ hc
    rw [hnone] at hconcat
    rw [(call_change fun q hq => hc ⟨q, hq⟩).1, reached_of_none hconcat, hafter]
    rfl

/-- What has been read once is kept, and no later call reads again. -/
theorem call_reached_of_some {calls : List Call} {c : Call} {k : Mapping}
    (hfirst : m.firstRead? calls = some k) :
    (((ofMapping k).read.2.withMapping (m.after calls)).call c).2 =
      reached m (calls ++ [c]) := by
  have hconcat := Mapping.firstRead?_concat m calls c
  rw [hfirst, Option.some_or] at hconcat
  rw [reached_of_some hconcat, Mapping.after_concat]
  have hk := Mapping.isReadable_of_firstRead? hfirst
  by_cases hc : ∃ q, c = .ask q
  · obtain ⟨q, rfl⟩ := hc
    exact congrArg Prod.snd (ask_of_read hk (m.after calls) q)
  · rw [(call_change fun q hq => hc ⟨q, hq⟩).1]
    rfl

theorem after_eq_reached {calls : List Call} (h : m.KeepsHeads calls) :
    (ofMapping m).after calls = reached m calls := by
  induction calls using List.reverseRecOn with
  | nil => rfl
  | append_singleton calls c ih =>
    rw [after_concat, ih h.of_concat]
    cases hfirst : m.firstRead? calls with
    | none =>
      rw [reached_of_none hfirst]
      apply call_reached_of_none hfirst
      rintro q rfl hempty
      exact h calls q [] rfl hempty hfirst
    | some k =>
      rw [reached_of_some hfirst]
      exact call_reached_of_some hfirst

/-- The mapping that answers a question. -/
theorem ask_reached {calls : List Call} (q : Question) :
    ((reached m calls).ask q).1 =
      ((ofMapping ((m.firstRead? calls).getD (m.after calls))).ask q).1 := by
  cases hfirst : m.firstRead? calls with
  | none => rw [reached_of_none hfirst, Option.getD_none]
  | some k =>
    rw [reached_of_some hfirst, ask_of_read (Mapping.isReadable_of_firstRead? hfirst)]
    rfl

/-- A fresh reader answers from its first reading. -/
theorem reading_eq_one {a : Answer} {n : Nat} (h : ((ofMapping m).ask q).1 = .ok a)
    (hn : a.reading? = some n) : n = 1 := by
  rw [ask_ofMapping] at h
  cases hread : (ofMapping m).read.1 with
  | error e =>
    rw [hread, Question.answer_eq_read.mpr rfl] at h
    cases h
  | ok found =>
    obtain ⟨-, -, hns, hts⟩ := kept_of_read hread
    rw [hread] at h
    cases q with
    | tokens =>
      cases h
      exact (Option.some.inj hn).symm.trans hts
    | nonterminals =>
      cases h
      exact (Option.some.inj hn).symm.trans hns
    | grammar =>
      cases h
      cases hn
    | table =>
      simp only [Question.answer, Except.mapError, Except.bind] at h
      cases htable : Grammar.table (Findings.grammar found) with
      | error e =>
        rw [htable] at h
        cases h
      | ok t =>
        rw [htable] at h
        cases h
        cases hn

end Fresh

/-- What a call does to a reader that only its first reading has determined: a reading that fails
changes nothing, and whatever is returned comes from the mapping as it was when it was first read,
or as it is now. -/
structure Atomic (m : Mapping) (calls : List Call) (c : Call) (r : Reader) : Prop where
  unchanged : ∀ e, (r.call c).1 = .error (.read e) → (r.call c).2 = r
  kept : (r.call c).2 = reached m (calls ++ [c])
  answer : ∀ q, c = .ask q →
    (r.call c).1 = ((ofMapping ((m.firstRead? calls).getD (m.after calls))).ask q).1
  reading : ∀ a n, (r.call c).1 = .ok a → a.reading? = some n → n = 1

/-- A reader never mixes two readings, and a reading that fails leaves it as it was, except that one
of a mapping which has lost its heads leaves an empty list of tokens. -/
theorem calls_atomic (m : Mapping) (calls : List Call) (c : Call) :
    ((ofMapping m).after calls).Consistent ∧ ((ofMapping m).after calls).FailsAs c ∧
      (m.KeepsHeads (calls ++ [c]) → Atomic m calls c ((ofMapping m).after calls)) := by
  have hconsistent := consistent_after m calls
  have hfails := hconsistent.failsAs c
  refine ⟨hconsistent, hfails, fun h => ?_⟩
  have hreached := after_eq_reached h.of_concat
  have hkept : (((ofMapping m).after calls).call c).2 = reached m (calls ++ [c]) := by
    rw [← after_concat]
    exact after_eq_reached h
  have hanswer : ∀ q, c = .ask q → (((ofMapping m).after calls).call c).1 =
      ((ofMapping ((m.firstRead? calls).getD (m.after calls))).ask q).1 := by
    rintro q rfl
    rw [hreached]
    exact ask_reached q
  by_cases hc : ∃ q, c = .ask q
  · obtain ⟨q, rfl⟩ := hc
    refine ⟨?_, hkept, hanswer, ?_⟩
    · intro e he
      cases e with
      | refused f => exact hfails.refused f he
      | noHeads =>
        obtain ⟨hempty, hns, -⟩ := hfails.noHeads he
        rw [hreached, mapping_reached] at hempty
        obtain ⟨k, hk⟩ := Option.ne_none_iff_exists'.mp (h calls q [] rfl hempty)
        obtain ⟨ns, ts, hread, -, -⟩ := exists_findings (Mapping.isReadable_of_firstRead? hk)
        rw [hreached, reached_of_some hk] at hns
        cases (kept_of_read hread).1.symm.trans hns
    · intro a n ha hn
      rw [hanswer q rfl] at ha
      exact reading_eq_one ha hn
  · obtain ⟨-, hsame, hnothing⟩ := call_change (r := (ofMapping m).after calls)
      fun q hq => hc ⟨q, hq⟩
    refine ⟨fun e he => (hsame _ he).2, hkept, hanswer, ?_⟩
    intro a n ha hn
    rw [hnothing a ha] at hn
    cases hn

/-- A mapping of one head. -/
def single : Mapping :=
  [(.text "S", .list [.text "a"])]

theorem single_atomic : single.KeepsHeads [.ask .tokens, .remove (.text "S"), .ask .nonterminals] ∧
    Atomic single [.ask .tokens, .remove (.text "S")] (.ask .nonterminals)
      ((ofMapping single).after [.ask .tokens, .remove (.text "S")]) ∧
    (((ofMapping single).after [.ask .tokens, .remove (.text "S")]).call (.ask .nonterminals)).1 =
      .ok (.nonterminals ⟨1, ⟨⟨"S", [[.token "a"]]⟩, []⟩⟩) := by
  have hkeeps : single.KeepsHeads [.ask .tokens, .remove (.text "S"), .ask .nonterminals] :=
    Mapping.keepsHeads_of_isReadable rfl _ _
  obtain ⟨-, -, hatomic⟩ := calls_atomic single [.ask .tokens, .remove (.text "S")]
    (.ask .nonterminals)
  exact ⟨hkeeps, hatomic hkeeps, rfl⟩

/-- Once all heads have been removed, asking for the tokens fails and leaves an empty list of them,
which is returned when the head is there again. -/
theorem single_emptied :
    (((ofMapping single).after [.remove (.text "S")]).ask .tokens).1 = .error (.read .noHeads) ∧
    ((ofMapping single).after [.remove (.text "S")]).tokens = none ∧
    ((ofMapping single).after [.remove (.text "S"), .ask .tokens]).tokens = some ⟨1, []⟩ ∧
    single.firstRead? [.remove (.text "S"), .ask .tokens,
      .assign (.text "S") (.list [.text "a"]), .ask .tokens] = some single ∧
    (((ofMapping single).after [.remove (.text "S"), .ask .tokens,
      .assign (.text "S") (.list [.text "a"])]).ask .tokens).1 = .ok (.tokens ⟨1, []⟩) ∧
    ((ofMapping single).ask .tokens).1 = .ok (.tokens ⟨1, [.token "a"]⟩) :=
  ⟨rfl, rfl, rfl, rfl, rfl, rfl⟩

end Reader

end ShiftReduce
