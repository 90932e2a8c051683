import ClassdefDoc.Text.Basic

/-!
# Quoted text

Quoted text stands between double quotes. A backslash stands before each quote, backslash and line end
inside it. Backslashes are replaced before the others, for these bring backslashes of their own; so each
character is escaped on its own (`escape_eq_flatMap`).
-/

namespace ClassdefDoc.Quoted

/-- The text between the quotes. -/
def escape (t : Text) : Text :=
  Text.replace '\n' "\\\n" (Text.replace '"' "\\\"" (Text.replace '\\' "\\\\" t))

def quote (t : Text) : Text := Text.join ["\"", escape t, "\""]

def needsEscape (c : Char) : Bool := c == '\\' || c == '"' || c == '\n'

theorem escape_append (a b : Text) : escape (a ++ b) = escape a ++ escape b := by
  simp only [escape, Text.replace, List.flatMap_append]

theorem escape_singleton (c : Char) : escape [c] = if needsEscape c then ['\\', c] else [c] := by
  by_cases hc : needsEscape c
  · rw [if_pos hc]
    simp only [needsEscape, Bool.or_eq_true, beq_iff_eq] at hc
    rcases hc with (rfl | rfl) | rfl <;> rfl
  · rw [if_neg hc]
    simp only [needsEscape, Bool.or_eq_true, beq_iff_eq, not_or] at hc
    simp [escape, Text.replace, hc]

/-- The three replacements are one. -/
theorem escape_eq_flatMap (t : Text) :
    escape t = t.flatMap fun c => if needsEscape c then ['\\', c] else [c] := by
  induction t with
  | nil => rfl
  | cons c t ih => rw [← List.singleton_append, escape_append,
    escape_singleton, ih, List.singleton_append, List.flatMap_cons]

end ClassdefDoc.Quoted
