import ClassdefDoc.Cursor
import ClassdefDoc.Proofs.Text

/-!
# Cursors of a text

A cursor that a scanner meets stands between a part `past` of its text and the part `ahead`, and its
position and its offset are those of `past`: it is `Cursor.between past ahead`. Moving on takes
characters from `ahead` to `past` (`next_between`, `advance_between`, `skipGap_between`), so a
statement about a run over a text is a statement about how the text is cut in two.
-/

namespace ClassdefDoc.Cursor

/-- The cursor behind `past` and before `ahead`. -/
def between (past ahead : Text) : Cursor :=
  ⟨past.reverse, ahead, Position.start.advance past, Text.bytes past⟩

section

variable (a b : Text)

@[simp] theorem between_ahead : (between a b).ahead = b := rfl

@[simp] theorem between_position : (between a b).position = Position.start.advance a := rfl

@[simp] theorem between_offset : (between a b).offset = Text.bytes a := rfl

@[simp] theorem past_between : (between a b).past = a := List.reverse_reverse a

theorem startOfLine_between : (between a b).startOfLine = (a.reverse.takeWhile (· != '\n')).reverse := rfl

end

theorem ofText_eq (t : Text) : ofText t = between [] t := rfl

@[simp] theorem next_between_nil (a : Text) : (between a []).next = between a [] := rfl

@[simp] theorem next_between (a : Text) (c : Char) (b : Text) :
    (between a (c :: b)).next = between (a ++ [c]) b := by
  simp [next, between, Position.advance_append]

theorem advance_between (n : Nat) (a b : Text) :
    (between a b).advance n = between (a ++ b.take n) (b.drop n) := by
  induction n generalizing a b with
  | zero => simp [advance]
  | succ n ih =>
    cases b with
    | nil => rw [advance, next_between_nil, ih]; simp
    | cons c b => rw [advance, next_between, ih]; simp

theorem skipGap_between (a b : Text) :
    (between a b).skipGap = between (a ++ b.takeWhile isGap) (b.dropWhile isGap) := by
  rw [skipGap, advance_between]
  simp only [gap, between_ahead, Text.take_takeWhile_length, Text.drop_takeWhile_length]

end ClassdefDoc.Cursor
