import Mathlib.Data.List.Basic
import Mathlib.Data.List.TakeWhile
import ShiftReduce.Proofs.Words

/-!
The words of a text are its maximal runs.

A text is made of parts without blanks and of the blanks that cut them off, and the proofs follow
this structure. Between two parts it makes no difference how many blanks there are and of which
kind: nothing but the blanks is lost, and words that are joined with any gaps are read back.
-/

namespace ShiftReduce.Text

/-- A part that is not empty and has no blanks in it, with blanks or nothing on both sides. -/
structure IsRun (before run after : List Char) : Prop where
  ne_nil : run ≠ []
  notBlank : ∀ c ∈ run, isBlank c = false
  left : ∀ c ∈ before.getLast?, isBlank c = true
  right : ∀ c ∈ after.head?, isBlank c = true

/-- There is a run at a place of a text. -/
def IsRunAt (cs : List Char) (start : Nat) (run : List Char) : Prop :=
  ∃ before after, cs = before ++ run ++ after ∧ before.length = start ∧ IsRun before run after

/-- All runs of a text with their places, from left to right. -/
structure AreRuns (cs : List Char) (runs : List (Nat × List Char)) : Prop where
  ordered : runs.Pairwise fun a b => a.1 < b.1
  mem_iff : ∀ start run, (start, run) ∈ runs ↔ IsRunAt cs start run

/-- A text of blanks that is not empty. -/
structure IsGap (u : String) : Prop where
  ne_empty : u ≠ ""
  blank : ∀ c ∈ u.toList, isBlank c = true

/-- A text in which some words follow one another with gaps between them. -/
inductive Joins : List String → String → Prop where
  | nil : Joins [] ""
  | single (w : String) : Joins [w] w
  | cons {v w u text : String} {rest : List String} :
      IsGap u → Joins (v :: rest) text → Joins (w :: v :: rest) (w ++ u ++ text)

theorem length_lt_of_dropWhile {p : Char → Bool} {c : Char} {cs rest : List Char}
    (h : cs.dropWhile p = c :: rest) : rest.length < cs.length := by
  have hlength := (List.dropWhile_sublist (l := cs) p).length_le
  rwa [h, List.length_cons] at hlength

/-- What is between the gaps when each is cut out as a whole; before the first and behind the last
there may be nothing. -/
def segments (cs : List Char) : List (List Char) :=
  match h : cs.dropWhile fun c => !isBlank c with
  | [] => [cs]
  | _ :: rest =>
    have := length_lt_of_dropWhile h
    (cs.takeWhile fun c => !isBlank c) :: segments (rest.dropWhile isBlank)
termination_by cs.length
decreasing_by
  have := (List.dropWhile_sublist (l := rest) isBlank).length_le
  omega

def lineFeedsToSpaces (cs : List Char) : List Char :=
  cs.map fun c => if c = '\n' then ' ' else c

variable {c : Char} {cs gap before run after : List Char} {start : Nat}

/-- What holds of parts without blanks, and of two texts with a blank between them when it holds of
both, holds of all texts. -/
theorem blank_induction {P : List Char → Prop}
    (part : ∀ cs, (∀ c ∈ cs, isBlank c = false) → P cs)
    (cut : ∀ before c after, isBlank c = true → P before → P after → P (before ++ c :: after))
    (cs : List Char) : P cs := by
  by_cases h : ∃ c ∈ cs, isBlank c = true
  · obtain ⟨c, hc, hblank⟩ := h
    obtain ⟨before, after, rfl⟩ := List.append_of_mem hc
    exact cut before c after hblank (blank_induction part cut before)
      (blank_induction part cut after)
  · exact part cs fun c hc => by simpa using fun hblank => h ⟨c, hc, hblank⟩
termination_by cs.length
decreasing_by
  all_goals
    rename_i heq
    simp only [heq, List.length_append, List.length_cons]
    omega

section Runs

theorem isRunAt_of_notBlank (h : ∀ c ∈ cs, isBlank c = false) :
    IsRunAt cs start run ↔ start = 0 ∧ run = cs ∧ cs ≠ [] := by
  constructor
  · rintro ⟨before, after, rfl, rfl, hrun⟩
    have hbefore : before = [] := by
      by_contra hne
      have hlast := hrun.left _ (List.getLast?_eq_some_getLast hne)
      rw [h _ (by simp)] at hlast
      cases hlast
    have hafter : after = [] := by
      by_contra hne
      have hhead := hrun.right _ (List.head?_eq_some_head hne)
      rw [h _ (by simp)] at hhead
      cases hhead
    subst hbefore hafter
    simpa using hrun.ne_nil
  · rintro ⟨rfl, rfl, hne⟩
    exact ⟨[], [], by simp, rfl, hne, h, by simp, by simp⟩

theorem isRun_cut_left (h : isBlank c = true) :
    IsRun (before ++ c :: gap) run after ↔ IsRun gap run after := by
  have hlast : (∀ b ∈ (before ++ c :: gap).getLast?, isBlank b = true) ↔
      ∀ b ∈ gap.getLast?, isBlank b = true := by
    rcases List.eq_nil_or_concat' gap with rfl | ⟨most, last, rfl⟩
    · simp [h]
    · rw [← List.cons_append, ← List.append_assoc, List.getLast?_concat, List.getLast?_concat]
  exact ⟨fun hrun => ⟨hrun.ne_nil, hrun.notBlank, hlast.mp hrun.left, hrun.right⟩,
    fun hrun => ⟨hrun.ne_nil, hrun.notBlank, hlast.mpr hrun.left, hrun.right⟩⟩

theorem isRun_cut_right (h : isBlank c = true) :
    IsRun before run (gap ++ c :: after) ↔ IsRun before run gap := by
  have hhead : (∀ b ∈ (gap ++ c :: after).head?, isBlank b = true) ↔
      ∀ b ∈ gap.head?, isBlank b = true := by
    cases gap with
    | nil => simp [h]
    | cons first rest => rfl
  exact ⟨fun hrun => ⟨hrun.ne_nil, hrun.notBlank, hrun.left, hhead.mp hrun.right⟩,
    fun hrun => ⟨hrun.ne_nil, hrun.notBlank, hrun.left, hhead.mpr hrun.right⟩⟩

/-- A part without blanks is on one side of a blank. -/
theorem append_eq_append_of_blank {left right : List Char} (h : isBlank c = true)
    (hrun : ∀ c ∈ run, isBlank c = false) (hne : run ≠ [])
    (heq : before ++ c :: after = left ++ run ++ right) :
    (∃ inner, before = left ++ run ++ inner ∧ right = inner ++ c :: after) ∨
      ∃ inner, left = before ++ c :: inner ∧ after = inner ++ run ++ right := by
  have hnotin : c ∉ run := fun hc => by simp [hrun c hc] at h
  rw [List.append_assoc] at heq
  rcases List.append_eq_append_iff.mp heq with ⟨inner, rfl, hc⟩ | ⟨inner, rfl, hc⟩
  · cases inner with
    | nil =>
      obtain ⟨first, rest, rfl⟩ := List.exists_cons_of_ne_nil hne
      obtain ⟨rfl, -⟩ := List.cons.inj hc
      exact absurd List.mem_cons_self hnotin
    | cons first inner =>
      obtain ⟨rfl, rfl⟩ := List.cons.inj hc
      exact .inr ⟨inner, rfl, (List.append_assoc _ _ _).symm⟩
  · rcases List.append_eq_append_iff.mp hc with ⟨rest, rfl, hright⟩ | ⟨rest, rfl, hright⟩
    · exact .inl ⟨rest, (List.append_assoc _ _ _).symm, hright⟩
    · cases rest with
      | nil => exact .inl ⟨[], by simp, hright.symm⟩
      | cons first rest =>
        obtain ⟨rfl, -⟩ := List.cons.inj hright
        exact absurd (List.mem_append_right _ List.mem_cons_self) hnotin

/-- No run goes over a blank: the runs around it are those before it and those behind it. -/
theorem isRunAt_append (h : isBlank c = true) : IsRunAt (before ++ c :: after) start run ↔
    IsRunAt before start run ∨ ∃ k, start = before.length + 1 + k ∧ IsRunAt after k run := by
  constructor
  · rintro ⟨left, right, heq, rfl, hrun⟩
    rcases append_eq_append_of_blank h hrun.notBlank hrun.ne_nil heq with
      ⟨inner, rfl, rfl⟩ | ⟨inner, rfl, rfl⟩
    · exact .inl ⟨left, inner, rfl, rfl, (isRun_cut_right h).mp hrun⟩
    · refine .inr ⟨inner.length, ?_, inner, right, rfl, rfl, (isRun_cut_left h).mp hrun⟩
      simp only [List.length_append, List.length_cons]
      omega
  · rintro (⟨left, right, rfl, rfl, hrun⟩ | ⟨-, rfl, left, right, rfl, rfl, hrun⟩)
    · exact ⟨left, right ++ c :: after, by simp, rfl, (isRun_cut_right h).mpr hrun⟩
    · refine ⟨before ++ c :: left, right, by simp, ?_, (isRun_cut_left h).mpr hrun⟩
      simp only [List.length_append, List.length_cons]
      omega

theorem IsRunAt.lt_length (h : IsRunAt cs start run) : start < cs.length := by
  obtain ⟨before, after, rfl, rfl, hrun⟩ := h
  have := List.length_pos_iff.mpr hrun.ne_nil
  simp only [List.length_append]
  omega

/-- What is left of the pieces without the empty ones are the runs. -/
theorem exists_areRuns (cs : List Char) :
    ∃ runs, AreRuns cs runs ∧ (pieces cs).filter (· ≠ []) = runs.map Prod.snd := by
  induction cs using blank_induction with
  | part cs h =>
    rw [pieces_of_notBlank h]
    by_cases hcs : cs = []
    · refine ⟨[], ⟨List.Pairwise.nil, fun start run => ?_⟩, by simp [hcs]⟩
      rw [isRunAt_of_notBlank h]
      simp [hcs]
    · refine ⟨[(0, cs)], ⟨List.pairwise_singleton _ _, fun start run => ?_⟩, by simp [hcs]⟩
      rw [isRunAt_of_notBlank h]
      simp [hcs]
  | cut before c after hc ihbefore ihafter =>
    obtain ⟨first, hfirst, hfirst_eq⟩ := ihbefore
    obtain ⟨second, hsecond, hsecond_eq⟩ := ihafter
    refine ⟨first ++ second.map fun r => (before.length + 1 + r.1, r.2), ⟨?_, ?_⟩, ?_⟩
    · refine List.pairwise_append.mpr ⟨hfirst.ordered, ?_, ?_⟩
      · refine List.pairwise_map.mpr (hsecond.ordered.imp ?_)
        intro a b hab
        exact Nat.add_lt_add_left hab _
      · rintro ⟨start, run⟩ hmem _ hshifted
        obtain ⟨r, -, rfl⟩ := List.mem_map.mp hshifted
        have := ((hfirst.mem_iff start run).mp hmem).lt_length
        simp only
        omega
    · intro start run
      rw [isRunAt_append hc, List.mem_append, hfirst.mem_iff, List.mem_map]
      apply or_congr_right
      constructor
      · rintro ⟨⟨k, run'⟩, hmem, heq⟩
        obtain ⟨rfl, rfl⟩ := Prod.mk.inj heq
        exact ⟨k, rfl, (hsecond.mem_iff k run').mp hmem⟩
      · rintro ⟨k, rfl, hrun⟩
        exact ⟨(k, run), (hsecond.mem_iff k run).mpr hrun, rfl⟩
    · rw [pieces_append hc, List.filter_append, hfirst_eq, hsecond_eq, List.map_append,
        List.map_map]
      rfl

end Runs

section Gaps

theorem flatten_pieces (cs : List Char) :
    (pieces cs).flatten = cs.filter fun c => !isBlank c := by
  induction cs using blank_induction with
  | part cs h =>
    rw [pieces_of_notBlank h, List.flatten_singleton, List.filter_eq_self.mpr]
    simpa using h
  | cut before c after hc ihbefore ihafter =>
    rw [pieces_append hc, List.flatten_append, ihbefore, ihafter, List.filter_append,
      List.filter_cons_of_neg (by simp [hc])]

/-- Blanks in front of a text bring no words. -/
theorem filter_pieces_append (h : ∀ c ∈ gap, isBlank c = true) (cs : List Char) :
    (pieces (gap ++ cs)).filter (· ≠ []) = (pieces cs).filter (· ≠ []) := by
  induction gap with
  | nil => rfl
  | cons c rest ih =>
    obtain ⟨hc, hrest⟩ := List.forall_mem_cons.mp h
    rw [List.cons_append, pieces_blank _ hc, List.filter_cons_of_neg (by simp), ih hrest]

theorem filter_pieces_dropWhile (cs : List Char) :
    (pieces (cs.dropWhile isBlank)).filter (· ≠ []) = (pieces cs).filter (· ≠ []) := by
  have hgap : ∀ c ∈ cs.takeWhile isBlank, isBlank c = true := fun _ => List.mem_takeWhile_imp
  have happend := filter_pieces_append hgap (cs.dropWhile isBlank)
  rw [List.takeWhile_append_dropWhile] at happend
  exact happend.symm

/-- A gap counts as one blank. -/
theorem words_append_gap {u : String} (h : IsGap u) (s t : String) :
    words (s ++ u ++ t) = words s ++ words t := by
  obtain ⟨c, rest, hu⟩ := List.exists_cons_of_ne_nil (l := u.toList) (by simpa using h.ne_empty)
  have hblank := h.blank
  rw [hu] at hblank
  obtain ⟨hc, hrest⟩ := List.forall_mem_cons.mp hblank
  simp only [words, String.toList_append, hu, List.append_assoc, List.cons_append,
    pieces_append hc, List.filter_append, filter_pieces_append hrest, List.map_append]

/-- Words that are joined with gaps are read back. -/
theorem Joins.words_eq {names : List String} {s : String} (h : Joins names s)
    (hnames : ∀ w ∈ names, IsWord w) : words s = names := by
  induction h with
  | nil => rfl
  | single w => exact words_of_isWord (hnames w List.mem_cons_self)
  | cons hgap _ ih =>
    obtain ⟨hw, hrest⟩ := List.forall_mem_cons.mp hnames
    rw [words_append_gap hgap, words_of_isWord hw, ih hrest]
    rfl

/-- It makes no difference to the pieces which blanks there are. -/
theorem pieces_map {f : Char → Char} (hblank : ∀ c, isBlank (f c) = isBlank c)
    (hf : ∀ c, isBlank c = false → f c = c) (cs : List Char) : pieces (cs.map f) = pieces cs := by
  induction cs with
  | nil => rfl
  | cons c rest ih =>
    rw [List.map_cons, pieces, pieces, hblank, ih]
    cases hc : isBlank c with
    | true => rfl
    | false => rw [hf c hc]

theorem pieces_lineFeedsToSpaces (cs : List Char) : pieces (lineFeedsToSpaces cs) = pieces cs := by
  have hfeed : isBlank '\n' = true := by decide
  have hspace : isBlank ' ' = true := by decide
  apply pieces_map
  · intro c
    split
    · rename_i h
      rw [h, hfeed, hspace]
    · rfl
  · intro c hc
    have hne : c ≠ '\n' := fun h => by simp [h, hfeed] at hc
    exact if_neg hne

/-- Cut out as wholes the gaps leave the same words as when they are cut at every blank. -/
theorem filter_segments (cs : List Char) :
    (segments cs).filter (· ≠ []) = (pieces cs).filter (· ≠ []) := by
  fun_induction segments cs with
  | case1 cs h =>
    rw [pieces_of_notBlank]
    simpa using List.dropWhile_eq_nil_iff.mp h
  | case2 cs blank rest h this ih =>
    have hblank : isBlank blank = true := by
      have hhead := List.head?_dropWhile_not (fun c => !isBlank c) cs
      simpa [h] using hhead
    have hpart : ∀ c ∈ cs.takeWhile (fun c => !isBlank c), isBlank c = false :=
      fun c hc => by simpa using List.mem_takeWhile_imp hc
    have hcs : cs = cs.takeWhile (fun c => !isBlank c) ++ blank :: rest := by
      rw [← h, List.takeWhile_append_dropWhile]
    calc (cs.takeWhile (fun c => !isBlank c) :: segments (rest.dropWhile isBlank)).filter (· ≠ [])
      _ = ([cs.takeWhile fun c => !isBlank c] ++ pieces rest).filter (· ≠ []) := by
        rw [← List.singleton_append, List.filter_append, ih, filter_pieces_dropWhile,
          List.filter_append]
      _ = (pieces (cs.takeWhile (fun c => !isBlank c) ++ blank :: rest)).filter (· ≠ []) := by
        rw [pieces_append hblank, pieces_of_notBlank hpart]
      _ = (pieces cs).filter (· ≠ []) := by rw [← hcs]

end Gaps

/-- The words of a text are its maximal runs in order, so that none is empty or has a blank in it and
together they are the text without its blanks. Cutting the gaps out as wholes, line feeds having
become spaces, leaves the same words. A text with a gap in it has the words before and behind it,
and words that are joined with gaps are read back. -/
theorem words_exact (s : String) :
    (∃ runs, AreRuns s.toList runs ∧ words s = runs.map fun r => String.ofList r.2) ∧
    (∀ w ∈ words s, IsWord w) ∧
    String.join (words s) = String.ofList (s.toList.filter fun c => !isBlank c) ∧
    words s = ((segments (lineFeedsToSpaces s.toList)).filter (· ≠ [])).map String.ofList ∧
    (∀ u t, IsGap u → words (s ++ u ++ t) = words s ++ words t) ∧
    ∀ names, Joins names s → (∀ w ∈ names, IsWord w) → words s = names := by
  refine ⟨?_, fun _ => isWord_of_mem_words, ?_, ?_, fun u t h => words_append_gap h s t,
    fun names h hnames => h.words_eq hnames⟩
  · obtain ⟨runs, hruns, heq⟩ := exists_areRuns s.toList
    refine ⟨runs, hruns, ?_⟩
    rw [words, heq, List.map_map]
    rfl
  · rw [← flatten_pieces, ← List.flatten_filter_ne_nil]
    apply String.toList_injective
    rw [String.toList_join, String.toList_ofList, words, List.flatMap_map]
    simp
  · rw [filter_segments, pieces_lineFeedsToSpaces, words]

/-- Words with gaps of several blanks, some of them not ASCII and one a line feed. -/
def spread : String := "E" ++ "\u00a0\n" ++ ("+" ++ "\u2003" ++ "T")

theorem spread_words : Joins ["E", "+", "T"] spread ∧ words spread = ["E", "+", "T"] ∧
    words (spread ++ "\t \u3000" ++ "| id") = ["E", "+", "T", "|", "id"] := by
  have hfirst : IsGap "\u00a0\n" := ⟨by decide, List.all_eq_true.mp (by decide)⟩
  have hsecond : IsGap "\u2003" := ⟨by decide, List.all_eq_true.mp (by decide)⟩
  have hthird : IsGap "\t \u3000" := ⟨by decide, List.all_eq_true.mp (by decide)⟩
  have hnames : ∀ w ∈ ["E", "+", "T"], IsWord w := by
    have h : ∀ w ∈ ["E", "+", "T"], w ≠ "" ∧ (w.toList.all fun c => !isBlank c) = true := by
      decide
    exact fun w hw => ⟨(h w hw).1, by simpa using (h w hw).2⟩
  have hjoins : Joins ["E", "+", "T"] spread := .cons hfirst (.cons hsecond (.single "T"))
  obtain ⟨-, -, -, -, hgap, hread⟩ := words_exact spread
  have hwords := hread _ hjoins hnames
  refine ⟨hjoins, hwords, ?_⟩
  rw [hgap _ "| id" hthird, hwords]
  decide

end ShiftReduce.Text
