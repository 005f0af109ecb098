/-
  Columns.

  Text set into a column of a given width, filled up with blanks and never cut.  Every character
  counts, also those a terminal swallows.
-/

namespace Chip8.Column

/-- Blanks that fill a text of this length up to the width. -/
def blanks (width : Nat) (text : String) : String :=
  String.ofList (List.replicate (width - text.length) ' ')

/-- Text at the right end of the column. -/
def right (width : Nat) (text : String) : String := blanks width text ++ text

/-- Text at the left end of the column. -/
def left (width : Nat) (text : String) : String := text ++ blanks width text

/-! ## Examples -/

example : right 3 "7" = "  7" ∧ right 3 "1000" = "1000" ∧ left 3 "ab" = "ab " := by decide

end Chip8.Column
