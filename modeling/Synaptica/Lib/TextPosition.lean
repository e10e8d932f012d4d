import Mathlib

/-!
# Lines and columns

Where a text ends: the line it ends in, and the column, both counted from one. A reader that keeps
the two while it goes through a text keeps what `line` and `column` say of the text it has read.
-/

namespace TextPosition

/-- The line in which the text ends. -/
def line (text : List Char) : Nat := 1 + text.count '\n'

/-- The column behind the last character of the text. -/
def column (text : List Char) : Nat := 1 + (text.reverse.takeWhile (· != '\n')).length

@[simp] theorem line_nil : line [] = 1 := rfl

@[simp] theorem column_nil : column [] = 1 := rfl

theorem line_newline (text : List Char) : line (text ++ ['\n']) = line text + 1 := by
  simp [line, Nat.add_assoc]

theorem column_newline (text : List Char) : column (text ++ ['\n']) = 1 := by
  simp [column]

theorem line_other (text : List Char) {c : Char} (hc : c ≠ '\n') :
    line (text ++ [c]) = line text := by
  simp [line, hc]

theorem column_other (text : List Char) {c : Char} (hc : c ≠ '\n') :
    column (text ++ [c]) = column text + 1 := by
  simp [column, hc, Nat.add_assoc]

end TextPosition
