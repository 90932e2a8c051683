import ClassdefDoc.Proofs.LineEnd.Return
import ClassdefDoc.Proofs.Parse.Likeness

/-!
# A text and its form with carriage returns

The places of a text and of its form with carriage returns correspond (`Text.Abreast`); in
front of a line end the second place may stand on either side of the return. `Likeness.crlf`
puts together what follows for the parts of the two texts: the lines of comments differ by a
return at the end (`Text.Ended`), and parts are the same up to returns.
-/

namespace ClassdefDoc

open List

namespace Text

/-- The second line may have a carriage return at its end. -/
def Ended (l l' : Text) : Prop := l' = l ∨ l' = l ++ ['\r']

/-- A place in a text, between `past` and `ahead`, and one in its form with carriage returns. -/
inductive Abreast : Text → Text → Text → Text → Prop
  | even {past ahead} : Abreast past ahead (crlf past) (crlf ahead)
  | skew {past rest} : Abreast past ('\n' :: rest) (crlf past ++ ['\r']) ('\n' :: crlf rest)

variable {past ahead past' ahead' l l' : Text}

theorem Ended.sown (h : Ended l l') : Sown l l' := by
  rcases h with rfl | rfl
  · exact .refl _
  · have hreturn : Sown [] ['\r'] := .sow (by simp) .nil
    have := hreturn.behind l
    rwa [append_nil] at this

/-- A text with what may be the return at its end. -/
theorem Ended.behind {y : Text} (hy : Ended [] y) (t : Text) : Ended t (t ++ y) := by
  rcases hy with rfl | rfl
  · exact .inl (append_nil t)
  · exact .inr rfl

theorem Ended.newline_notMem (h : Ended l l') (hl : '\n' ∉ l) : '\n' ∉ l' := by
  rcases h with rfl | rfl
  · exact hl
  · simpa using hl

theorem Ended.isBlank_eq (h : Ended l l') : isBlank l' = isBlank l := h.sown.isBlank_eq

theorem Ended.trim_eq (h : Ended l l') : trim l' = trim l := by
  rcases h with rfl | rfl
  · rfl
  · exact trim_append_return l

theorem Ended.dropWhile {p : Char → Bool} (hp : p '\r' = false) (h : Ended l l') :
    Ended (l.dropWhile p) (l'.dropWhile p) := by
  rcases h with rfl | rfl
  · exact .inl rfl
  · induction l with
    | nil => exact .inr (by rw [nil_append, dropWhile_cons_of_neg (by simp [hp])]; rfl)
    | cons c l ih =>
      rw [cons_append, dropWhile_cons, dropWhile_cons]
      split_ifs
      · exact ih
      · exact .inr rfl

namespace Abreast

section

variable (h : Abreast past ahead past' ahead')
include h

theorem append_eq : past' ++ ahead' = crlf (past ++ ahead) := by
  cases h with
  | even => rw [crlf_append]
  | skew => simp

/-- The second place may have one more carriage return behind it. -/
theorem past_eq : Ended (crlf past) past' := by
  cases h with
  | even => exact .inl rfl
  | skew => exact .inr rfl

theorem line_eq :
    (Position.start.advance past).line = (Position.start.advance past').line :=
  ((Sown.crlf past).line_advance rfl).trans (h.past_eq.sown.line_advance rfl)

end

theorem takeWhile_reverse_crlf (t : Text) :
    (crlf t).reverse.takeWhile (· != '\n') = t.reverse.takeWhile (· != '\n') := by
  induction t using List.reverseRecOn with
  | nil => rfl
  | append_singleton t c ih =>
    by_cases hc : c = '\n'
    · subst hc
      simp
    · rw [crlf_append, crlf_cons_of_ne hc, crlf_nil]
      simp only [reverse_append, reverse_singleton, singleton_append]
      rw [takeWhile_cons_of_pos (by simpa using hc), takeWhile_cons_of_pos (by simpa using hc), ih]

/-- The line starts with white space in both texts or in none. -/
theorem isBlank_startOfLine (h : Abreast past ahead past' ahead') :
    isBlank (past'.reverse.takeWhile (· != '\n')).reverse =
    isBlank (past.reverse.takeWhile (· != '\n')).reverse := by
  cases h with
  | even => rw [takeWhile_reverse_crlf]
  | skew =>
    rw [reverse_append, reverse_singleton, singleton_append, takeWhile_cons_of_pos (by decide),
      takeWhile_reverse_crlf, reverse_cons]
    exact Ended.isBlank_eq (.inr rfl)

end Abreast

/-- Parts of the two texts: up to carriage returns, and the same when white space is taken from the ends. -/
structure SamePart (p p' : Text) : Prop where
  bare_eq : bare p' = p
  trim_eq : trim p' = crlf (trim p)

/-- What stands between corresponding places corresponds. -/
theorem Abreast.samePart {rest rest' m m' : Text} (h : Abreast past (m ++ rest) past' (m' ++ rest'))
    (h' : Abreast (past ++ m) rest (past' ++ m') rest') (hm : '\r' ∉ m) : SamePart m m' := by
  -- up to a return before it and one behind it, the second part is the form of the first with returns
  obtain ⟨x, y, hx, hy, heq⟩ : ∃ x y, Ended [] x ∧ Ended [] y ∧ x ++ m' = crlf m ++ y := by
    have hends : ∀ {a b : Text}, Ended a b → ∃ x, Ended [] x ∧ b = a ++ x := by
      rintro a b (rfl | rfl)
      · exact ⟨[], .inl rfl, (append_nil _).symm⟩
      · exact ⟨['\r'], .inr rfl, rfl⟩
    obtain ⟨x, hx, hpast⟩ := hends h.past_eq
    obtain ⟨y, hy, hstop⟩ := hends h'.past_eq
    refine ⟨x, y, hx, hy, (append_right_inj (crlf past)).1 ?_⟩
    rw [← append_assoc, ← hpast, hstop, crlf_append, append_assoc]
  constructor
  · calc bare m' = bare (x ++ m') := by rcases hx with rfl | rfl <;> rfl
      _ = bare (crlf m ++ y) := by rw [heq]
      _ = bare m := by
        rw [bare_append, (Sown.crlf m).bare_eq]
        rcases hy with rfl | rfl <;> exact append_nil _
      _ = m := bare_of_notMem hm
  · calc trim m' = trim (x ++ m') := by rcases hx with rfl | rfl <;> rfl
      _ = trim (crlf m ++ y) := by rw [heq]
      _ = trim (crlf m) := by
        rcases hy with rfl | rfl
        · rw [append_nil]
        · exact trim_append_return _
      _ = crlf (trim m) := trim_crlf m

/-- Offsets of corresponding places. -/
def AbreastAt (text : Text) (n n' : Nat) : Prop :=
  ∃ past ahead past' ahead', text = past ++ ahead ∧ Abreast past ahead past' ahead' ∧
    n = bytes past ∧ n' = bytes past'

theorem AbreastAt.rel_slice? {text : Text} (htext : '\r' ∉ text) {a a' b b' : Nat} (ha : AbreastAt text a a')
    (hb : AbreastAt text b b') (hle : a ≤ b ↔ a' ≤ b') :
    Option.Rel SamePart (text.slice? a b) ((crlf text).slice? a' b') := by
  obtain ⟨past, ahead, past', ahead', rfl, hplace, rfl, rfl⟩ := ha
  obtain ⟨stop, rest, stop', rest', hcut, hstop, rfl, rfl⟩ := hb
  by_cases h : bytes past ≤ bytes stop
  · obtain ⟨m, rfl, rfl⟩ := exists_append_of_bytes_le hcut h
    have hcut' : past' ++ ahead' = stop' ++ rest' := by
      rw [hplace.append_eq, hstop.append_eq, append_assoc]
    obtain ⟨m', rfl, rfl⟩ := exists_append_of_bytes_le hcut' (hle.1 h)
    have hm : '\r' ∉ m := fun hmem => htext (by simp [hmem])
    rw [slice?_of_eq (b := m) (c := rest) (by simp) rfl rfl,
      slice?_of_eq (b := m') (c := rest') (by rw [← hplace.append_eq, append_assoc]) rfl rfl]
    exact .some (hplace.samePart hstop hm)
  · rw [slice?, slice?, if_neg h, if_neg (mt hle.2 h)]
    exact .none

end Text

/-- A text without carriage returns, and its form with a return before each line end. -/
def Likeness.crlf (text : Text) (h : '\r' ∉ text) : Likeness where
  text := text
  text' := Text.crlf text
  line := Text.Ended
  part := Text.SamePart
  word w := '\n' ∉ w
  place p p' := p.line = p'.line
  offset := Text.AbreastAt text
  line_eq_of_place := id
  isBlank_of_line hl := hl.isBlank_eq.symm
  part_dots := ⟨rfl, rfl⟩
  part_slice? := Text.AbreastAt.rel_slice? h

end ClassdefDoc
