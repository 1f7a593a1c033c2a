import ShiftReduce.Proofs.Readers
import ShiftReduce.Proofs.Renderings
import ShiftReduce.Proofs.UnknownNonterminals
import ShiftReduce.Thrown

/-!
What is thrown for a value that says no grammar.

A value is refused for the first thing that is wrong with it. A format error shows the value at
fault, and when that has no text, what its text throws takes the place of the error. Besides, only a
sequence of alternatives can throw, and a mapping that breaks off.
-/

namespace ShiftReduce

/-- The value that a message shows. -/
def FormatError.shown? : FormatError → Option Datum
  | headNotText head => some head
  | alternativesNotSequence _ alternatives => some alternatives
  | alternativeNotText _ alternative => some alternative
  | _ => none

theorem FormatError.message_eq_error {limits : Limits} {f : FormatError} {r : Raised} :
    f.message limits = .error r ↔
      ∃ v, f.shown? = some v ∧ v.render limits limits.depth = .error r := by
  cases f <;> simp [message, shown?, map_eq_error]

namespace Refusal

variable {limits : Limits} {r : Refusal} {f : FormatError} {message : String} {raised : Raised}

theorem thrown_format (h : f.message limits = .ok message) :
    (format f).thrown limits = .format message := by
  simp only [thrown, FormatError.thrown, h]

theorem thrown_of_message (h : f.message limits = .error raised) :
    (format f).thrown limits = .raised raised := by
  simp only [thrown, FormatError.thrown, h]

theorem thrown_cases (limits : Limits) (r : Refusal) :
    (∃ message, r.thrown limits = .format message) ∨
      ∃ raised, r.thrown limits = .raised raised := by
  cases r with
  | raised r => exact .inr ⟨r, rfl⟩
  | format f =>
    cases hf : f.message limits with
    | ok message => exact .inl ⟨message, thrown_format hf⟩
    | error r => exact .inr ⟨r, thrown_of_message hf⟩

theorem thrown_eq_raised (h : r.thrown limits = .raised raised) : r = .raised raised ∨
    ∃ f v, r = .format f ∧ f.shown? = some v ∧ v.render limits limits.depth = .error raised := by
  cases r with
  | raised r =>
    obtain rfl : r = raised := Thrown.raised.inj h
    exact .inl rfl
  | format f =>
    cases hf : f.message limits with
    | ok message => cases (thrown_format hf).symm.trans h
    | error r =>
      obtain rfl : r = raised := Thrown.raised.inj ((thrown_of_message hf).symm.trans h)
      obtain ⟨v, hv, hrender⟩ := FormatError.message_eq_error.mp hf
      exact .inr ⟨f, v, rfl, hv, hrender⟩

end Refusal

namespace Mapping

/-- What is thrown by a value in a mapping: for want of a text, of a length or of more members. -/
inductive Throws (limits : Limits) (m : Mapping) (r : Raised) : Prop where
  | head {entry : Datum × Datum} (h : entry ∈ m)
      (hr : entry.1.Hindered limits limits.depth r)
  | alternatives {entry : Datum × Datum} (h : entry ∈ m)
      (hr : entry.2.Hindered limits limits.depth r)
  | unmeasured {entry : Datum × Datum} (h : entry ∈ m) (hr : entry.2.sequence? = some (.error r))
  | stopped {entry : Datum × Datum} {found : Members} (h : entry ∈ m)
      (hfound : entry.2.sequence? = some (.ok found)) (hr : found.stop = some r)
  | alternative {entry : Datum × Datum} {found : Members} {v : Datum} (h : entry ∈ m)
      (hfound : entry.2.sequence? = some (.ok found)) (hv : v ∈ found.members)
      (hr : v.Hindered limits limits.depth r)

variable {limits : Limits} {m : Mapping} {entry : Datum × Datum} {heads : List String}
  {head alternative : String} {earlier : List (List String)} {r : Refusal} {f : FormatError}
  {v w : Datum} {raised : Raised}

theorem HeadFault.throws (h : HeadFault entry r) (hentry : entry ∈ m)
    (hr : r.thrown limits = .raised raised) : m.Throws limits raised := by
  rcases Refusal.thrown_eq_raised hr with rfl | ⟨f, v, rfl, hv, hrender⟩
  · cases h with
    | unmeasured _ _ h => exact .unmeasured hentry h
  · cases h with
    | notText _ =>
      obtain rfl := Option.some.inj hv
      exact .head hentry (Datum.hindered_of_render _ _ hrender)
    | notSequence _ _ _ =>
      obtain rfl := Option.some.inj hv
      exact .alternatives hentry (Datum.hindered_of_render _ _ hrender)
    | notCapital _ _ => cases hv
    | noAlternatives _ _ _ => cases hv

/-- Only an alternative that is no text is shown. -/
theorem AlternativeFault.eq_of_shown? (h : AlternativeFault heads head earlier v f)
    (hw : f.shown? = some w) : w = v := by
  cases h with
  | notText _ => exact (Option.some.inj hw).symm
  | duplicate _ _ => cases hw
  | text h =>
    cases h with
    | empty _ => cases hw
    | name h =>
      obtain ⟨_, _, _, -, -, hname⟩ := h
      cases hname <;> cases hw

theorem EntryFault.throws (h : EntryFault heads entry r) (hentry : entry ∈ m)
    (hr : r.thrown limits = .raised raised) : m.Throws limits raised := by
  obtain ⟨head, hhead, hfault⟩ := h
  rcases Refusal.thrown_eq_raised hr with rfl | ⟨f, v, rfl, hv, hrender⟩
  · cases hfault with
    | stopped _ _ hstop => exact .stopped hentry hhead.sequence?_eq hstop
  · cases hfault with
    | alternative hmembers _ h =>
      obtain rfl := h.eq_of_shown? hv
      exact .alternative hentry hhead.sequence?_eq (by simp [hmembers])
        (Datum.hindered_of_render _ _ hrender)

theorem Fault.throws (h : m.Fault r) (hr : r.thrown limits = .raised raised) :
    m.Throws limits raised := by
  cases h with
  | head h =>
    obtain ⟨before, entry, after, rfl, -, h⟩ := h
    exact h.throws (by simp) hr
  | alternative _ h =>
    obtain ⟨before, entry, after, rfl, -, h⟩ := h
    exact h.throws (by simp) hr

end Mapping

namespace Datum

/-- What is thrown for a value that says no grammar: the message of its fault, or what is thrown
instead of a text of the value that the message shows, or what a sequence throws. -/
inductive Refused (limits : Limits) (d : Datum) : Thrown → Prop where
  | told {f : FormatError} {message : String} (h : d.Fault (.format f))
      (hmessage : f.message limits = .ok message) : Refused limits d (.format message)
  | untold {f : FormatError} {v : Datum} {r : Raised} (h : d.Fault (.format f))
      (hv : f.shown? = some v) (hrender : v.render limits limits.depth = .error r) :
    Refused limits d (.raised r)
  | raised {r : Raised} (h : d.Fault (.raised r)) : Refused limits d (.raised r)

variable {limits : Limits} {d : Datum} {r : Refusal} {e : Thrown}

theorem Fault.refused (limits : Limits) (h : d.Fault r) : d.Refused limits (r.thrown limits) := by
  cases r with
  | raised r => exact .raised h
  | format f =>
    cases hf : f.message limits with
    | ok message =>
      rw [Refusal.thrown_format hf]
      exact .told h hf
    | error r =>
      obtain ⟨v, hv, hrender⟩ := FormatError.message_eq_error.mp hf
      rw [Refusal.thrown_of_message hf]
      exact .untold h hv hrender

theorem Refused.exists_fault (h : d.Refused limits e) : ∃ r, d.Fault r ∧ r.thrown limits = e := by
  cases h with
  | told h hmessage => exact ⟨_, h, Refusal.thrown_format hmessage⟩
  | untold h hv hrender =>
    exact ⟨_, h, Refusal.thrown_of_message (FormatError.message_eq_error.mpr ⟨_, hv, hrender⟩)⟩
  | raised h => exact ⟨_, h, rfl⟩

/-- Where nothing in the value throws, all that is told is a message about its format. -/
theorem Refused.cases (h : d.Refused limits e) : (∃ message, e = .format message) ∨
    ∃ m r, d.IsMapping m ∧ m.Throws limits r ∧ e = .raised r := by
  obtain ⟨r, hr, rfl⟩ := h.exists_fault
  rcases r.thrown_cases limits with hmessage | ⟨raised, hraised⟩
  · exact .inl hmessage
  · cases hr with
    | notMapping _ => cases hraised
    | noProductions => cases hraised
    | mapping hm hr => exact .inr ⟨_, raised, hm, hr.throws hraised, hraised⟩

end Datum

namespace Source

variable {limits : Limits} {d : Datum} {g : Grammar} {r : Refusal} {e : Thrown}

end Source

end ShiftReduce
