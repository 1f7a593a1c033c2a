import ShiftReduce.Text.Blank

/-!
The words of a text, and texts that are written from words.

Everything follows from what a blank does: the pieces of a text with a blank in it are those before
it and those behind it. A word is cut out whole, so words that are set apart by single spaces are
read back as they were.
-/

namespace ShiftReduce.Text

/-- A text that is not empty and has no blanks in it. -/
structure IsWord (w : String) : Prop where
  ne_empty : w ≠ ""
  notBlank : ∀ c ∈ w.toList, isBlank c = false

variable {c : Char} {w : String}

/-- A blank cuts a text in two. -/
theorem pieces_append (h : isBlank c = true) (before after : List Char) :
    pieces (before ++ c :: after) = pieces before ++ pieces after := by
  induction before with
  | nil => exact pieces_blank after h
  | cons b rest ih =>
    rw [List.cons_append, pieces, pieces, ih]
    split
    · rfl
    · obtain ⟨piece, more, hpieces⟩ := List.exists_cons_of_ne_nil (pieces_ne_nil rest)
      rw [hpieces]
      rfl

theorem pieces_of_notBlank {cs : List Char} (h : ∀ c ∈ cs, isBlank c = false) :
    pieces cs = [cs] := by
  induction cs with
  | nil => rfl
  | cons c rest ih =>
    obtain ⟨hc, hrest⟩ := List.forall_mem_cons.mp h
    rw [pieces, ih hrest, hc]
    rfl

theorem notBlank_of_mem_pieces {cs piece : List Char} (h : piece ∈ pieces cs) :
    ∀ c ∈ piece, isBlank c = false := by
  induction cs generalizing piece with
  | nil =>
    rw [pieces, List.mem_singleton] at h
    simp [h]
  | cons c rest ih =>
    cases hc : isBlank c with
    | true =>
      rw [pieces_blank rest hc] at h
      rcases List.mem_cons.mp h with rfl | h
      · simp
      · exact ih h
    | false =>
      obtain ⟨first, more, hpieces⟩ := List.exists_cons_of_ne_nil (pieces_ne_nil rest)
      rw [pieces, hc, if_neg Bool.false_ne_true, hpieces] at h
      rw [hpieces] at ih
      rcases List.mem_cons.mp h with rfl | h
      · exact List.forall_mem_cons.mpr ⟨hc, ih List.mem_cons_self⟩
      · exact ih (List.mem_cons_of_mem _ h)

theorem isWord_of_mem_words {s : String} (h : w ∈ words s) : IsWord w := by
  obtain ⟨piece, hpiece, rfl⟩ := List.mem_map.mp h
  obtain ⟨hpiece, hne⟩ := List.mem_filter.mp hpiece
  constructor
  · intro hempty
    have : piece = [] := by simpa using hempty
    simp [this] at hne
  · simpa using notBlank_of_mem_pieces hpiece

theorem words_of_isWord (h : IsWord w) : words w = [w] := by
  have hne : w.toList ≠ [] := by simpa using h.ne_empty
  simp [words, pieces_of_notBlank h.notBlank, hne]

/-- The words of a text with a blank in it are those before it and those behind it. -/
theorem words_append (h : isBlank c = true) (s t : String) :
    words (s ++ c.toString ++ t) = words s ++ words t := by
  simp [words, pieces_append h]

/-- Words that are set apart by single spaces are read back. -/
theorem words_intercalate {names : List String} (h : ∀ w ∈ names, IsWord w) :
    words (" ".intercalate names) = names := by
  induction names with
  | nil => rfl
  | cons w rest ih =>
    obtain ⟨hw, hrest⟩ := List.forall_mem_cons.mp h
    cases rest with
    | nil => simpa using words_of_isWord hw
    | cons v rest =>
      have hsplit : " ".intercalate (w :: v :: rest) =
          w ++ ' '.toString ++ " ".intercalate (v :: rest) := by
        simp
      rw [hsplit, words_append (by decide), words_of_isWord hw, ih hrest]
      rfl

end ShiftReduce.Text
