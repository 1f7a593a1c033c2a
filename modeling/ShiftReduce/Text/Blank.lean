/-!
Blank characters and the words between them.

`isBlank` is Unicode white space together with the four ASCII information separators.
`words` cuts a text at every blank and keeps the pieces that are not empty, so it returns the
maximal runs of characters that are not blank.
-/

namespace ShiftReduce.Text

/-- First and last code point of each range of blank characters, in increasing order. -/
def blankRanges : List (Nat × Nat) :=
  [(0x0009, 0x000D), (0x001C, 0x0020), (0x0085, 0x0085), (0x00A0, 0x00A0), (0x1680, 0x1680),
    (0x2000, 0x200A), (0x2028, 0x2029), (0x202F, 0x202F), (0x205F, 0x205F), (0x3000, 0x3000)]

def isBlank (c : Char) : Bool :=
  blankRanges.any fun r => r.1 ≤ c.toNat && c.toNat ≤ r.2

theorem isBlank_of_isWhitespace {c : Char} (h : c.isWhitespace = true) : isBlank c = true := by
  simp only [Char.isWhitespace, Bool.or_eq_true, decide_eq_true_eq] at h
  rcases h with ((rfl | rfl) | rfl) | rfl <;> decide

/-- The pieces between blanks, one more than there are blanks; a piece may be empty. -/
def pieces : List Char → List (List Char)
  | [] => [[]]
  | c :: rest =>
    if isBlank c then [] :: pieces rest
    else match pieces rest with
      | [] => [[c]]
      | piece :: more => (c :: piece) :: more

def words (s : String) : List String :=
  ((pieces s.toList).filter (· ≠ [])).map String.ofList

theorem pieces_ne_nil (cs : List Char) : pieces cs ≠ [] := by
  cases cs with
  | nil => simp [pieces]
  | cons c rest =>
    simp only [pieces]
    split
    · simp
    · split <;> simp

theorem pieces_blank {c : Char} (rest : List Char) (h : isBlank c = true) :
    pieces (c :: rest) = [] :: pieces rest := by
  simp [pieces, h]

end ShiftReduce.Text
