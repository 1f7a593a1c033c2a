import ShiftReduce.Datum
import ShiftReduce.Proofs.Outcomes

/-!
Which values have a text.

A value has a text unless something that it holds stands in the way: a number with too many digits,
an object that does not tell its text, or anything that lies deeper than there is room for. What is
thrown comes from one of these.
-/

namespace ShiftReduce

namespace Datum

/-- What a value holds, itself included, with how deep it lies. The members of a set lie in a list
in it. -/
inductive Holds : Datum → Nat → Datum → Prop where
  | self (v : Datum) : Holds v 0 v
  | list {members : List Datum} {m x : Datum} {k : Nat} (hm : m ∈ members) (h : Holds m k x) :
    Holds (.list members) (k + 1) x
  | tuple {members : List Datum} {m x : Datum} {k : Nat} (hm : m ∈ members) (h : Holds m k x) :
    Holds (.tuple members) (k + 1) x
  | set {members : List Datum} {m x : Datum} {k : Nat} (hm : m ∈ members) (h : Holds m k x) :
    Holds (.set members) (k + 2) x
  | key {entries : List (Datum × Datum)} {entry : Datum × Datum} {x : Datum} {k : Nat}
      (he : entry ∈ entries) (h : Holds entry.1 k x) : Holds (.mapping entries) (k + 1) x
  | value {entries : List (Datum × Datum)} {entry : Datum × Datum} {x : Datum} {k : Nat}
      (he : entry ∈ entries) (h : Holds entry.2 k x) : Holds (.mapping entries) (k + 1) x

/-- What stands in the way of a text, for a value that lies `k` deep where there is room for so
many. -/
inductive Hinders (limits : Limits) (room k : Nat) : Datum → Raised → Prop where
  | deep {x : Datum} (h : room < k) : Hinders limits room k x .nestedTooDeep
  | int {n : Int} (h : Nat.pow 10 limits.digits ≤ n.natAbs) :
    Hinders limits room k (.int n) (.tooManyDigits limits.digits)
  | sequence {o : Object} {unmeasured : Option Raised} {members : List Datum}
      {stop : Option Raised} {r : Raised} (h : o.text = .error r) :
    Hinders limits room k (.sequence o unmeasured members stop) r
  | object {o : Object} {r : Raised} (h : o.text = .error r) : Hinders limits room k (.object o) r

/-- Something in a value is in the way of its text. -/
def Hindered (limits : Limits) (room : Nat) (v : Datum) (r : Raised) : Prop :=
  ∃ k x, Holds v k x ∧ Hinders limits room k x r

variable {limits : Limits} {room k : Nat} {v x : Datum} {r : Raised}

/-- What is in the way does not depend on where the counting starts. -/
theorem hinders_add (n : Nat) :
    Hinders limits (room + n) (k + n) x r ↔ Hinders limits room k x r := by
  constructor
  all_goals
    intro h
    cases h with
    | deep h => exact .deep (by omega)
    | int h => exact .int h
    | sequence h => exact .sequence h
    | object h => exact .object h

theorem roomBelow_eq_ok {inner : Nat} : roomBelow room = .ok inner ↔ room = inner + 1 := by
  cases room with
  | zero => simp [roomBelow]
  | succ n => simp [roomBelow]

theorem roomBelow_eq_error : roomBelow room = .error r ↔ room = 0 ∧ r = .nestedTooDeep := by
  cases room with
  | zero => simp [roomBelow, eq_comm]
  | succ n => simp [roomBelow]

/-- A member has no text where there is no room for it, or for what it holds. -/
def FailsBelow (limits : Limits) (room : Nat) (m : Datum) (r : Raised) : Prop :=
  room = 0 ∧ r = .nestedTooDeep ∨ ∃ inner, room = inner + 1 ∧ render limits inner m = .error r

theorem failsBelow_of_roomBelow {m : Datum} (h : roomBelow room = .error r) :
    FailsBelow limits room m r :=
  .inl (roomBelow_eq_error.mp h)

theorem failsBelow_of_render {inner : Nat} {m : Datum} (hinner : roomBelow room = .ok inner)
    (h : render limits inner m = .error r) : FailsBelow limits room m r :=
  .inr ⟨inner, roomBelow_eq_ok.mp hinner, h⟩

variable {members : List Datum} {entries : List (Datum × Datum)} {m : Datum}
  {entry : Datum × Datum} {texts : List String}

theorem exists_failsBelow (h : renderAll limits room members = .error r) :
    ∃ m ∈ members, FailsBelow limits room m r := by
  induction members with
  | nil => cases h
  | cons first rest ih =>
    rw [renderAll] at h
    rcases bind_eq_error.mp h with h | ⟨inner, hinner, h⟩
    · exact ⟨first, List.mem_cons_self, failsBelow_of_roomBelow h⟩
    rcases bind_eq_error.mp h with h | ⟨t, -, h⟩
    · exact ⟨first, List.mem_cons_self, failsBelow_of_render hinner h⟩
    rcases bind_eq_error.mp h with h | ⟨ts, -, h⟩
    · obtain ⟨m, hm, hfails⟩ := ih h
      exact ⟨m, List.mem_cons_of_mem _ hm, hfails⟩
    · cases h

theorem exists_failsBelow_entries (h : renderEntries limits room entries = .error r) :
    ∃ entry ∈ entries, FailsBelow limits room entry.1 r ∨ FailsBelow limits room entry.2 r := by
  induction entries with
  | nil => cases h
  | cons first rest ih =>
    rw [renderEntries] at h
    rcases bind_eq_error.mp h with h | ⟨inner, hinner, h⟩
    · exact ⟨first, List.mem_cons_self, .inl (failsBelow_of_roomBelow h)⟩
    rcases bind_eq_error.mp h with h | ⟨t, -, h⟩
    · exact ⟨first, List.mem_cons_self, .inl (failsBelow_of_render hinner h)⟩
    rcases bind_eq_error.mp h with h | ⟨u, -, h⟩
    · exact ⟨first, List.mem_cons_self, .inr (failsBelow_of_render hinner h)⟩
    rcases bind_eq_error.mp h with h | ⟨ts, -, h⟩
    · obtain ⟨entry, he, hfails⟩ := ih h
      exact ⟨entry, List.mem_cons_of_mem _ he, hfails⟩
    · cases h

theorem exists_failsBelow_set (h : render limits room (set members) = .error r) :
    ∃ m ∈ members, room = 0 ∧ r = .nestedTooDeep ∨
      ∃ inner, room = inner + 1 ∧ FailsBelow limits inner m r := by
  cases members with
  | nil => cases h
  | cons first rest =>
    rw [render] at h
    rcases bind_eq_error.mp h with hroom | ⟨inner, hinner, hrest⟩
    · exact ⟨first, List.mem_cons_self, .inl (roomBelow_eq_error.mp hroom)⟩
    rcases bind_eq_error.mp hrest with hall | ⟨texts, -, h⟩
    · obtain ⟨m, hm, hfails⟩ := exists_failsBelow hall
      exact ⟨m, hm, .inr ⟨inner, roomBelow_eq_ok.mp hinner, hfails⟩⟩
    · cases h

/-- What is in the way of a member is in the way of what holds it. -/
theorem FailsBelow.exists_hindrance {m : Datum} (h : FailsBelow limits room m r)
    (ih : ∀ inner, render limits inner m = .error r → Hindered limits inner m r) :
    ∃ k x, Holds m k x ∧ Hinders limits room (k + 1) x r := by
  rcases h with ⟨rfl, rfl⟩ | ⟨inner, rfl, h⟩
  · exact ⟨0, m, .self m, .deep (by omega)⟩
  · obtain ⟨k, x, hx, hhinders⟩ := ih inner h
    exact ⟨k, x, hx, (hinders_add 1).mpr hhinders⟩

theorem sizeOf_lt_list (h : v ∈ members) : sizeOf v < sizeOf (list members) := by
  have := List.sizeOf_lt_of_mem h
  simp only [list.sizeOf_spec]
  omega

theorem sizeOf_lt_tuple (h : v ∈ members) : sizeOf v < sizeOf (tuple members) := by
  have := List.sizeOf_lt_of_mem h
  simp only [tuple.sizeOf_spec]
  omega

theorem sizeOf_lt_set (h : v ∈ members) : sizeOf v < sizeOf (set members) := by
  have := List.sizeOf_lt_of_mem h
  simp only [set.sizeOf_spec]
  omega

theorem sizeOf_lt_mapping (h : entry ∈ entries) :
    sizeOf entry.1 < sizeOf (mapping entries) ∧ sizeOf entry.2 < sizeOf (mapping entries) := by
  have := List.sizeOf_lt_of_mem h
  have : sizeOf entry = 1 + sizeOf entry.1 + sizeOf entry.2 := rfl
  simp only [mapping.sizeOf_spec]
  omega

/-- Where no text is made, something that the value holds is in the way. -/
theorem hindered_of_render (v : Datum) (room : Nat) (h : render limits room v = .error r) :
    Hindered limits room v r := by
  cases v with
  | null | bool | decimal | text | bytes => cases h
  | int n =>
    rw [render] at h
    split at h
    · cases h
    · cases h
      exact ⟨0, _, .self _, .int (by omega)⟩
  | list members =>
    rw [render] at h
    obtain ⟨m, hm, hfails⟩ := exists_failsBelow (map_eq_error.mp h)
    obtain ⟨k, x, hx, hhinders⟩ := hfails.exists_hindrance fun inner => hindered_of_render m inner
    exact ⟨k + 1, x, .list hm hx, hhinders⟩
  | tuple members =>
    rw [render] at h
    obtain ⟨m, hm, hfails⟩ := exists_failsBelow (map_eq_error.mp h)
    obtain ⟨k, x, hx, hhinders⟩ := hfails.exists_hindrance fun inner => hindered_of_render m inner
    exact ⟨k + 1, x, .tuple hm hx, hhinders⟩
  | set members =>
    obtain ⟨m, hm, ⟨rfl, rfl⟩ | ⟨inner, rfl, hfails⟩⟩ := exists_failsBelow_set h
    · exact ⟨2, m, .set hm (.self m), .deep (by omega)⟩
    · obtain ⟨k, x, hx, hhinders⟩ := hfails.exists_hindrance fun inner => hindered_of_render m inner
      exact ⟨k + 2, x, .set hm hx, (hinders_add 1).mpr hhinders⟩
  | mapping entries =>
    rw [render] at h
    obtain ⟨entry, he, hfails | hfails⟩ := exists_failsBelow_entries (map_eq_error.mp h)
    · obtain ⟨k, x, hx, hhinders⟩ :=
        hfails.exists_hindrance fun inner => hindered_of_render entry.1 inner
      exact ⟨k + 1, x, .key he hx, hhinders⟩
    · obtain ⟨k, x, hx, hhinders⟩ :=
        hfails.exists_hindrance fun inner => hindered_of_render entry.2 inner
      exact ⟨k + 1, x, .value he hx, hhinders⟩
  | sequence o unmeasured members stop => exact ⟨0, _, .self _, .sequence h⟩
  | object o => exact ⟨0, _, .self _, .object h⟩
termination_by sizeOf v
decreasing_by
  all_goals subst v
  · exact sizeOf_lt_list hm
  · exact sizeOf_lt_tuple hm
  · exact sizeOf_lt_set hm
  · exact (sizeOf_lt_mapping he).1
  · exact (sizeOf_lt_mapping he).2

end Datum

end ShiftReduce
