import ClassdefDoc.Position
import ClassdefDoc.Proofs.Text
import ClassdefDoc.Pseudocode.Comment

/-!
# Carriage returns

`Text.crlf` writes each line end of a text as a carriage return and a line end, and `Text.bare` takes the
carriage returns out again. Carriage returns are white space, so trimming goes with `crlf` (`trim_crlf`).
`Text.Sown t t'` says that `t'` is `t` with carriage returns put in, none of them before a slash: then
`t'` is `t` up to carriage returns, also where the ends of comments are escaped (`Sown.escape`).
-/

namespace ClassdefDoc.Comment

open List

theorem escape_cons {c : Char} {t : Text} (h : c ≠ '*' ∨ t.head? ≠ some '/') :
    escape (c :: t) = c :: escape t := by
  rw [escape.eq_def]
  split
  · rename_i heq
    obtain ⟨rfl, rfl⟩ := List.cons.inj heq
    exact absurd rfl (h.resolve_left (not_not_intro rfl))
  · rename_i heq
    obtain ⟨rfl, rfl⟩ := List.cons.inj heq
    rfl
  · rename_i heq
    cases heq

theorem escape_star_slash (t : Text) : escape ('*' :: '/' :: t) = '*' :: ' ' :: escape ('/' :: t) := by
  rw [escape_cons (c := '/') (.inl (by decide)), escape]

theorem head?_escape (t : Text) : (escape t).head? = t.head? := by
  cases t with
  | nil => rfl
  | cons c t =>
    by_cases h : c ≠ '*' ∨ t.head? ≠ some '/'
    · rw [escape_cons h]
      rfl
    · obtain ⟨hc, ht⟩ := not_or.1 h
      obtain ⟨rest, rfl⟩ := head?_eq_some_iff.1 (not_not.1 ht)
      rw [not_not.1 hc, escape_star_slash]
      rfl

end ClassdefDoc.Comment

namespace ClassdefDoc.Text

open List

variable {c : Char} {t : Text}

/-- The text with a carriage return before each line end. -/
def crlf (t : Text) : Text := t.flatMap fun c => if c = '\n' then ['\r', '\n'] else [c]

/-- The text without its carriage returns. -/
def bare (t : Text) : Text := t.filter (· != '\r')

@[simp] theorem crlf_nil : crlf [] = [] := rfl

@[simp] theorem crlf_newline_cons (t : Text) : crlf ('\n' :: t) = '\r' :: '\n' :: crlf t := rfl

theorem crlf_cons_of_ne (hc : c ≠ '\n') (t : Text) : crlf (c :: t) = c :: crlf t := by
  rw [crlf, flatMap_cons, if_neg hc]
  rfl

@[simp] theorem crlf_append (a b : Text) : crlf (a ++ b) = crlf a ++ crlf b := flatMap_append

/-- A line end gets a return before it, and every other character stays. -/
@[elab_as_elim]
theorem crlf_induction {F : Text → Text → Prop} (t : Text) (nil : F [] [])
    (newline : ∀ t, F t (crlf t) → F ('\n' :: t) ('\r' :: '\n' :: crlf t))
    (cons : ∀ c t, c ≠ '\n' → F t (crlf t) → F (c :: t) (c :: crlf t)) : F t (crlf t) := by
  induction t with
  | nil => exact nil
  | cons c t ih =>
    by_cases hc : c = '\n'
    · rw [hc]
      exact newline t ih
    · rw [crlf_cons_of_ne hc]
      exact cons c t hc ih

theorem crlf_of_notMem (h : '\n' ∉ t) : crlf t = t := by
  induction t with
  | nil => rfl
  | cons c t ih =>
    obtain ⟨hc, ht⟩ := not_or.1 (fun hm => h (mem_cons.2 hm))
    rw [crlf_cons_of_ne (Ne.symm hc), ih ht]

theorem head?_crlf_ne_newline (t : Text) : (crlf t).head? ≠ some '\n' :=
  crlf_induction t (by simp) (by simp) fun c t hc _ => by simpa using hc

theorem crlf_injective {a b : Text} (h : crlf a = crlf b) : a = b := by
  revert h
  refine crlf_induction (F := fun a a' => ∀ b,
    a' = crlf b → a = b) a (fun b => ?_) (fun a ih b => ?_) (fun c a hc ih b => ?_) b
  all_goals refine crlf_induction b ?_ (fun b _ h => ?_) fun d b hd _ h => ?_
  · exact fun _ => rfl
  · cases h
  · cases h
  · rintro ⟨⟩
  · rw [ih b (List.cons.inj (List.cons.inj h).2).2]
  -- a line end alone starts no text with carriage returns
  · exact absurd (by rw [← (List.cons.inj h).2]; rfl) (head?_crlf_ne_newline b)
  · rintro ⟨⟩
  · exact absurd (by rw [(List.cons.inj h).2]; rfl) (head?_crlf_ne_newline a)
  · rw [(List.cons.inj h).1, ih b (List.cons.inj h).2]

@[simp] theorem bare_nil : bare [] = [] := rfl

@[simp] theorem bare_return_cons (t : Text) : bare ('\r' :: t) = bare t := rfl

@[simp] theorem bare_append (a b : Text) : bare (a ++ b) = bare a ++ bare b := filter_append ..

theorem bare_of_notMem (h : '\r' ∉ t) : bare t = t := by
  refine filter_eq_self.2 fun c hc => ?_
  rw [bne_iff_ne]
  rintro rfl
  exact h hc

section

variable (t : Text)

theorem return_notMem_bare : '\r' ∉ bare t := by
  intro h
  simpa using of_mem_filter h

theorem bare_bare : bare (bare t) = bare t := bare_of_notMem (return_notMem_bare t)

/-! ## White space -/

theorem trimStart_crlf : trimStart (crlf t) = crlf (trimStart t) := by
  refine crlf_induction t rfl (fun t ih => ih) fun c t hc ih => ?_
  rw [trimStart, trimStart, dropWhile_cons, dropWhile_cons]
  split_ifs
  · exact ih
  · exact (crlf_cons_of_ne hc t).symm

theorem trimEnd_append_of_isSpace (hc : isSpace c) : trimEnd (t ++ [c]) = trimEnd t := by
  rw [trimEnd, reverse_append, reverse_singleton, singleton_append, dropWhile_cons, if_pos hc, trimEnd]

theorem trimEnd_append_of_not_isSpace (hc : isSpace c = false) : trimEnd (t ++ [c]) = t ++ [c] := by
  rw [trimEnd, reverse_append, reverse_singleton, singleton_append, dropWhile_cons, hc,
    if_neg (by decide), reverse_cons, reverse_reverse]

theorem trimEnd_crlf : trimEnd (crlf t) = crlf (trimEnd t) := by
  induction t using List.reverseRecOn with
  | nil => rfl
  | append_singleton t c ih =>
    by_cases hc : c = '\n'
    · subst hc
      have hends : crlf (t ++ ['\n']) = crlf t ++ ['\r'] ++ ['\n'] := by simp
      rw [hends, trimEnd_append_of_isSpace _ (by decide), trimEnd_append_of_isSpace _ (by decide),
        trimEnd_append_of_isSpace _ (by decide), ih]
    · rw [crlf_append, crlf_cons_of_ne hc, crlf_nil]
      cases hs : isSpace c with
      | true => rw [trimEnd_append_of_isSpace _ hs, trimEnd_append_of_isSpace _ hs, ih]
      | false =>
        rw [trimEnd_append_of_not_isSpace _ hs, trimEnd_append_of_not_isSpace _ hs,
          crlf_append, crlf_cons_of_ne hc, crlf_nil]

theorem trim_crlf : trim (crlf t) = crlf (trim t) := by
  rw [trim, trimStart_crlf, trimEnd_crlf, trim]

end

theorem trimStart_append_of_not_isBlank (h : isBlank t = false) (x : Text) :
    trimStart (t ++ x) = trimStart t ++ x := by
  induction t with
  | nil => cases h
  | cons c t ih =>
    rw [cons_append, trimStart, trimStart, dropWhile_cons, dropWhile_cons]
    split_ifs with hc
    · refine ih ?_
      rwa [isBlank, all_cons, hc, Bool.true_and] at h
    · rfl

theorem trimStart_of_isBlank (h : isBlank t) : trimStart t = [] := by
  rw [trimStart, dropWhile_eq_nil_iff]
  exact all_eq_true.1 h

theorem trim_append_return (t : Text) : trim (t ++ ['\r']) = trim t := by
  cases ht : isBlank t with
  | true =>
    have hblank : isBlank (t ++ ['\r']) := by
      rw [isBlank, all_append, ← isBlank, ht]
      rfl
    rw [trim, trim, trimStart_of_isBlank ht, trimStart_of_isBlank hblank]
  | false => rw [trim, trimStart_append_of_not_isBlank ht, trimEnd_append_of_isSpace _ (by decide), trim]

/-! ## Texts with more carriage returns -/

/-- The second text is the first one with carriage returns put in, none of them before a slash. -/
inductive Sown : Text → Text → Prop
  | nil : Sown [] []
  | cons {t t'} (c : Char) : Sown t t' → Sown (c :: t) (c :: t')
  | sow {t t'} : t.head? ≠ some '/' → Sown t t' → Sown t ('\r' :: t')

namespace Sown

variable {a a' b b' t t' : Text}

theorem refl (t : Text) : Sown t t := by
  induction t with
  | nil => exact .nil
  | cons c t ih => exact .cons c ih

theorem append (h : Sown a a') (hb : Sown b b') (hslash : b.head? ≠ some '/') : Sown (a ++ b) (a' ++ b') := by
  induction h with
  | nil => exact hb
  | cons c _ ih => exact .cons c ih
  | @sow t t' ht _ ih =>
    refine .sow ?_ ih
    cases t with
    | nil => exact hslash
    | cons c t => exact ht

/-- A text in front stays as it is. -/
theorem behind (x : Text) (h : Sown t t') : Sown (x ++ t) (x ++ t') := by
  induction x with
  | nil => exact h
  | cons c x ih => exact .cons c ih

theorem crlf (t : Text) : Sown t (crlf t) :=
  crlf_induction t .nil (fun t ih => .sow (by simp) (.cons '\n' ih)) fun c _ _ ih => .cons c ih

section

variable (h : Sown t t')
include h

theorem bare_eq : bare t' = bare t := by
  induction h with
  | nil => rfl
  | cons c _ ih => rw [bare, bare, filter_cons, filter_cons, ← bare, ← bare, ih]
  | sow _ _ ih => exact ih

theorem isBlank_eq : isBlank t' = isBlank t := by
  induction h with
  | nil => rfl
  | cons c _ ih => exact congrArg (isSpace c && ·) ih
  | sow _ _ ih => exact ih

theorem head?_ne_slash (ht : t.head? ≠ some '/') : t'.head? ≠ some '/' := by
  cases h with
  | nil => exact ht
  | cons c => exact ht
  | sow => simp

/-- The ends of comments stay where they are. -/
theorem escape : Sown (Comment.escape t) (Comment.escape t') := by
  induction h with
  | nil => exact .nil
  | @cons t t' c hrest ih =>
    by_cases hslash : t.head? = some '/'
    · -- no return stands before the slash
      cases hrest with
      | nil => cases hslash
      | sow ht => exact absurd hslash ht
      | cons d =>
        obtain rfl : d = '/' := Option.some.inj hslash
        by_cases hc : c = '*'
        · subst hc
          rw [Comment.escape_star_slash, Comment.escape_star_slash]
          exact .cons '*' (.cons ' ' ih)
        · rw [Comment.escape_cons (.inl hc), Comment.escape_cons (.inl hc)]
          exact .cons c ih
    · rw [Comment.escape_cons (.inr hslash), Comment.escape_cons (.inr (hrest.head?_ne_slash hslash))]
      exact .cons c ih
  | @sow t t' ht _ ih =>
    rw [Comment.escape_cons (.inl (by decide))]
    exact .sow (by rwa [Comment.head?_escape]) ih

/-- Carriage returns start no line. -/
theorem line_advance {p q : Position} (hpq : p.line = q.line) : (p.advance t).line = (q.advance t').line := by
  induction h generalizing p q with
  | nil => exact hpq
  | cons c _ ih =>
    rw [Position.advance_cons, Position.advance_cons]
    refine ih ?_
    unfold Position.next
    split_ifs
    · exact congrArg (· + 1) hpq
    · exact hpq
  | sow _ _ ih => exact ih hpq

end

end Sown

end ClassdefDoc.Text
