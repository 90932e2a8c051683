import ClassdefDoc.Text.Basic

/-!
# Text inside comments

A comment of the pseudo-code ends at the first `*/`. Text inside it is written with a space between the
two characters.
-/

namespace ClassdefDoc.Comment

/-- The text with a space in each terminator. -/
def escape : Text → Text
  | '*' :: '/' :: cs => '*' :: ' ' :: '/' :: escape cs
  | c :: cs => c :: escape cs
  | [] => []

/-- A comment around the lines of a block. -/
def ofLines (lines : List Text) : Text :=
  Text.join ["/*", escape (Text.joinWith "\n" lines), " */"]

end ClassdefDoc.Comment
