import Respell.Text.Blank

/-!
# Trivia

The text between two tokens: runs of blanks, line comments, block comments and `#!` lines, in any
order and number. Recognisers work on the characters at hand and answer with a number of
characters, zero if there is no such piece here.
-/

namespace Respell.Trivia

open Text

/-- The length of the run of characters before the next line break. -/
def toLineBreak (cs : List Char) : Nat := (cs.takeWhile fun c => !isLineBreak c).length

/-- The number of characters up to and including the first `*/`. -/
def throughClose? : List Char → Option Nat
  | '*' :: '/' :: _ => some 2
  | _ :: cs => (throughClose? cs).map (· + 1)
  | [] => none

/-- The length of the piece of trivia that begins here: a run of blanks; a `//` comment or a `#!` line
    that holds at least one more character, each up to the line break; or a closed block comment. -/
def piece : List Char → Nat
  | '/' :: '/' :: cs => 2 + toLineBreak cs
  | '/' :: '*' :: cs => ((throughClose? cs).map (· + 2)).getD 0
  | '#' :: '!' :: c :: cs => if isLineBreak c then 0 else 3 + toLineBreak cs
  | cs => (cs.takeWhile isBlank).length

/-- Where there are no characters there is no piece. -/
theorem ne_nil_of_piece {cs : List Char} (h : piece cs ≠ 0) : cs ≠ [] := by
  rintro rfl
  exact h rfl

/-- The number of characters of trivia that stand before the next token. -/
def length (cs : List Char) : Nat :=
  if _h : piece cs = 0 then 0
  else piece cs + length (cs.drop (piece cs))
termination_by cs.length
decreasing_by
  have : 0 < cs.length := List.length_pos_iff.mpr (ne_nil_of_piece _h)
  simp only [List.length_drop]
  omega

end Respell.Trivia
