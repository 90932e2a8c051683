import ClassdefDoc.Text.Basic

/-!
# Byte offsets

Offsets into a text count the bytes of its UTF-8 form. `slice?` cuts a text between two offsets and
refuses a cut inside a character, a cut after the end and an end before the start.
-/

namespace ClassdefDoc.Text

/-- The length of the UTF-8 form. -/
def bytes : Text → Nat
  | [] => 0
  | c :: t => c.utf8Size + bytes t

@[simp] theorem bytes_nil : bytes [] = 0 := rfl

@[simp] theorem bytes_cons (c : Char) (t : Text) : bytes (c :: t) = c.utf8Size + bytes t := rfl

@[simp] theorem bytes_append (a b : Text) : bytes (a ++ b) = bytes a + bytes b := by
  induction a with
  | nil => simp
  | cons c a ih => rw [List.cons_append, bytes_cons, bytes_cons, ih, Nat.add_assoc]

/-- The text after its first `n` bytes. -/
def dropBytes? : Nat → Text → Option Text
  | 0, t => some t
  | _ + 1, [] => none
  | n + 1, c :: t => if c.utf8Size ≤ n + 1 then dropBytes? (n + 1 - c.utf8Size) t else none

/-- The first `n` bytes of a text. -/
def takeBytes? : Nat → Text → Option Text
  | 0, _ => some []
  | _ + 1, [] => none
  | n + 1, c :: t =>
    if c.utf8Size ≤ n + 1 then (takeBytes? (n + 1 - c.utf8Size) t).map (c :: ·) else none

/-- The text between two byte offsets. -/
def slice? (t : Text) (start stop : Nat) : Option Text :=
  if start ≤ stop then (dropBytes? start t).bind (takeBytes? (stop - start)) else none

theorem dropBytes?_bytes (a b : Text) : dropBytes? (bytes a) (a ++ b) = some b := by
  induction a with
  | nil => cases b <;> rfl
  | cons c a ih =>
    obtain ⟨n, hn⟩ : ∃ n, bytes (c :: a) = n + 1 :=
      ⟨bytes (c :: a) - 1, by have := c.utf8Size_pos; simp only [bytes_cons]; omega⟩
    have hsub : n + 1 - c.utf8Size = bytes a := by rw [← hn, bytes_cons]; omega
    have hle : c.utf8Size ≤ n + 1 := by rw [← hn, bytes_cons]; omega
    rw [hn, List.cons_append, dropBytes?, if_pos hle, hsub, ih]

theorem takeBytes?_bytes (a b : Text) : takeBytes? (bytes a) (a ++ b) = some a := by
  induction a with
  | nil => cases b <;> rfl
  | cons c a ih =>
    obtain ⟨n, hn⟩ : ∃ n, bytes (c :: a) = n + 1 :=
      ⟨bytes (c :: a) - 1, by have := c.utf8Size_pos; simp only [bytes_cons]; omega⟩
    have hsub : n + 1 - c.utf8Size = bytes a := by rw [← hn, bytes_cons]; omega
    have hle : c.utf8Size ≤ n + 1 := by rw [← hn, bytes_cons]; omega
    rw [hn, List.cons_append, takeBytes?, if_pos hle, hsub, ih, Option.map_some]

/-- A middle part is cut out between the offsets of its two ends. -/
theorem slice?_middle (a b c : Text) : slice? (a ++ b ++ c) (bytes a) (bytes (a ++ b)) = some b := by
  rw [slice?, if_pos (by simp), List.append_assoc, dropBytes?_bytes, Option.bind_some,
    show bytes (a ++ b) - bytes a = bytes b by simp, takeBytes?_bytes]

end ClassdefDoc.Text
