import ClassdefDoc.Name
import Mathlib.Tactic

/-!
# Characters of names

What starts a name goes on in one (`isContinue_of_isStart`), digits do not
start names, and no white space is part of a name (`isSpace_of_isContinue`).
-/

namespace ClassdefDoc.Name

variable {c : Char} {w : Text}

theorem isContinue_of_isStart (h : isStart c) : isContinue c := by
  simp only [isStart] at h
  simp [isContinue, Char.isAlphanum, h]

/-- Digits start no name. -/
theorem isStart_of_isDigit (h : c.isDigit) : isStart c = false := by
  refine Bool.eq_false_iff.2 fun hstart => ?_
  have hdigit : c.val ≤ '9'.val := of_decide_eq_true (Bool.and_eq_true_iff.1 h).2
  have hletter : 'A'.val ≤ c.val := by
    rcases Bool.or_eq_true_iff.1 hstart with hupper | hlower
    · exact (of_decide_eq_true hupper).1
    · have hlower : 'a'.val ≤ c.val := of_decide_eq_true (Bool.and_eq_true_iff.1 hlower).1
      exact UInt32.le_trans (by decide) hlower
  exact absurd (UInt32.le_trans hletter hdigit) (by decide)

/-- The characters of an identifier are letters, digits and underscores. -/
theorem isContinue_of_isIdentifier (h : isIdentifier w) :
    ∀ c ∈ w, isContinue c := by
  cases w with
  | nil => simp
  | cons c w =>
    simp only [isIdentifier, Bool.and_eq_true, List.all_eq_true] at h
    intro d hd
    rcases List.mem_cons.1 hd with rfl | hd
    · exact isContinue_of_isStart h.1
    · exact h.2 d hd

theorem ne_nil_of_isIdentifier (h : isIdentifier w) : w ≠ [] := by
  rintro rfl
  simp [isIdentifier] at h

theorem isSpace_of_isContinue (h : isContinue c) : Text.isSpace c = false := by
  have hchar : (65 ≤ c.toNat ∧ c.toNat ≤ 90) ∨ (97 ≤ c.toNat ∧ c.toNat ≤ 122) ∨
      (48 ≤ c.toNat ∧ c.toNat ≤ 57) ∨ c.toNat = 95 := by
    rcases Bool.or_eq_true_iff.1 h with hletter | hunderscore
    · rcases Bool.or_eq_true_iff.1 hletter with hletter | hdigit
      · rcases Bool.or_eq_true_iff.1 hletter with hupper | hlower
        · exact .inl (of_decide_eq_true hupper)
        · exact .inr (.inl ((Bool.and_eq_true_iff.1 hlower).imp of_decide_eq_true of_decide_eq_true))
      · exact .inr (.inr (.inl ((Bool.and_eq_true_iff.1 hdigit).imp of_decide_eq_true of_decide_eq_true)))
    · exact .inr (.inr (.inr (by rw [beq_iff_eq.1 hunderscore]; rfl)))
  simp only [Text.isSpace, Bool.or_eq_false_iff, Bool.and_eq_false_iff,
    beq_eq_false_iff_ne, decide_eq_false_iff_not]
  omega

end ClassdefDoc.Name
