/-!
# Columns and lines

Texts filled up with blanks to a width; a text that is longer stays whole.
-/

namespace Behaviour.Text

/-- A text with the end of its line. -/
def line (text : String) : String := text ++ "\n"

/-- The text at the left edge of a column. -/
def padRight (width : Nat) (s : String) : String :=
  s ++ String.ofList (List.replicate (width - s.length) ' ')

/-- The text at the right edge of a column. -/
def padLeft (width : Nat) (s : String) : String :=
  String.ofList (List.replicate (width - s.length) ' ') ++ s

end Behaviour.Text
