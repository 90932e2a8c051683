import ClassdefDoc.Proofs.LineEnd.Place
import ClassdefDoc.Proofs.LineEnd.Resolve
import ClassdefDoc.Pseudocode.Default

/-!
# Default values with carriage returns

A default value that runs over several lines has a carriage return before each line
end inside. It is no number and no name with or without them, and the ways to read it
as a literal or between brackets go with `Text.crlf`. So it is rendered in the same
form, with returns before the line ends that are escaped (`Default.sown_render`).
-/

namespace ClassdefDoc

open List

variable {c q : Char} {s : Scan}

namespace Text

variable {p : Char → Bool}

theorem isEmpty_crlf (t : Text) : (crlf t).isEmpty = t.isEmpty :=
  crlf_induction t rfl (fun _ _ => rfl) fun _ _ _ _ => rfl

/-- A line end is refused with or without a return before it. -/
theorem all_crlf (hnewline : p '\n' = false) (t : Text) : (crlf t).all p = t.all p := by
  refine crlf_induction t rfl (fun t _ => by simp [hnewline]) fun c t _ ih => ?_
  rw [all_cons, all_cons, ih]

section

variable (hnewline : p '\n' = false) (hreturn : p '\r' = false)
include hnewline hreturn

theorem takeWhile_crlf (t : Text) : (crlf t).takeWhile p = t.takeWhile p := by
  refine crlf_induction t rfl (fun t _ => by simp [hnewline, hreturn]) fun c t _ ih => ?_
  rw [takeWhile_cons, takeWhile_cons, ih]

theorem dropWhile_crlf (t : Text) : (crlf t).dropWhile p = crlf (t.dropWhile p) := by
  refine crlf_induction t rfl (fun t _ => by simp [hnewline, hreturn]) fun c t hc ih => ?_
  rw [dropWhile_cons, dropWhile_cons]
  split_ifs
  · exact ih
  · exact (crlf_cons_of_ne hc t).symm

end

theorem sameWord_crlf {w : Text} (hw : '\n' ∉ w) (t : Text) : sameWord w (crlf t) = sameWord w t := by
  rw [sameWord, sameWord, lower_crlf, Bool.eq_iff_iff, beq_iff_eq, beq_iff_eq, eq_comm,
    crlf_eq_iff (newline_notMem_lower hw), eq_comm]

theorem dropLast?_crlf (hc : c ≠ '\n') (t : Text) : dropLast? c (crlf t) = (dropLast? c t).map crlf := by
  induction t using List.reverseRecOn with
  | nil => rfl
  | append_singleton t d =>
    by_cases hd : d = '\n'
    · subst hd
      simp [dropLast?, Ne.symm hc]
    · rw [crlf_append, crlf_cons_of_ne hd, crlf_nil]
      simp only [dropLast?, reverse_append, reverse_singleton, singleton_append, reverse_reverse]
      split_ifs <;> rfl

theorem dropLead?_crlf {lead : Text} (hlead : '\n' ∉ lead) (hreturn : '\r' ∉ lead) (t : Text) :
    dropLead? lead (crlf t) = (dropLead? lead t).map crlf := by
  induction lead generalizing t with
  | nil => simp [dropLead?]
  | cons d lead ih =>
    obtain ⟨hd, hlead⟩ := not_or.1 (fun hm => hlead (mem_cons.2 hm))
    obtain ⟨hd', hreturn⟩ := not_or.1 (fun hm => hreturn (mem_cons.2 hm))
    cases t with
    | nil => rfl
    | cons c t =>
      have hrest := ih hlead hreturn t
      by_cases hc : c = '\n'
      · subst hc
        simp [dropLead?, Ne.symm hd, Ne.symm hd']
      · rw [crlf_cons_of_ne hc]
        unfold dropLead? at hrest ⊢
        simp only [isPrefixOf_cons_cons, length_cons, drop_succ_cons]
        by_cases hdc : d = c
        · simpa [hdc] using hrest
        · simp [hdc]

/-- A text in front and one behind stay as they are. -/
theorem Sown.bracketed (x : Text) {t t' y : Text} (h : Sown t t') (hy : y.head? ≠ some '/') :
    Sown (join [x, t, y]) (join [x, t', y]) := by
  simp only [join, flatten_cons, flatten_nil, append_nil]
  exact (h.append (.refl y) hy).behind x

/-- The return stands before the backslash that escapes a line end. -/
theorem Sown.quote (t : Text) : Sown (Quoted.quote t) (Quoted.quote (Text.crlf t)) := by
  have hescape : Sown (Quoted.escape t) (Quoted.escape (Text.crlf t)) := by
    rw [Quoted.escape_eq_flatMap, Quoted.escape_eq_flatMap]
    refine crlf_induction t .nil (fun t ih => ?_) fun c t _ ih => ih.behind _
    exact .sow (by simp [Quoted.needsEscape]) (ih.behind ['\\', '\n'])
  exact .bracketed _ hescape (by decide)

end Text

open Text (Sown)

theorem Name.isIdentifier_crlf (t : Text) : isIdentifier (Text.crlf t) = isIdentifier t := by
  refine Text.crlf_induction t rfl (fun _ _ => rfl) fun c t _ _ => ?_
  rw [isIdentifier, isIdentifier, Text.all_crlf (by decide)]

namespace Default

/-! ## Numbers -/

theorem dropSign_crlf (t : Text) : dropSign (Text.crlf t) = Text.crlf (dropSign t) := by
  refine Text.crlf_induction t rfl (fun _ _ => rfl) fun c t hc _ => ?_
  by_cases hplus : c = '+'
  · subst hplus
    rfl
  by_cases hminus : c = '-'
  · subst hminus
    rfl
  have hsign (u : Text) : dropSign (c :: u) = c :: u := by simp [dropSign, hplus, hminus]
  rw [hsign, hsign, Text.crlf_cons_of_ne hc]

theorem isExponent_crlf (t : Text) : isExponent (Text.crlf t) = isExponent t := by
  refine Text.crlf_induction t rfl (fun _ _ => rfl) fun c t _ _ => ?_
  rw [isExponent, isExponent, dropSign_crlf, Text.all_crlf (by decide), Text.isEmpty_crlf]

theorem mantissa?_crlf (t : Text) : mantissa? (Text.crlf t) = (mantissa? t).map Text.crlf := by
  unfold mantissa?
  have hnewline : Char.isDigit '\n' = false := by decide
  have hreturn : Char.isDigit '\r' = false := by decide
  rw [Text.takeWhile_crlf hnewline hreturn, Text.dropWhile_crlf hnewline hreturn]
  cases t.dropWhile Char.isDigit with
  | nil =>
    simp only [Text.crlf_nil]
    split_ifs <;> rfl
  | cons c rest =>
    by_cases hc : c = '\n'
    · subst hc
      simp only [Text.crlf_newline_cons]
      split_ifs <;> rfl
    by_cases hpoint : c = '.'
    · subst hpoint
      simp only [Text.crlf_cons_of_ne hc, Text.takeWhile_crlf hnewline hreturn,
        Text.dropWhile_crlf hnewline hreturn]
      split_ifs <;> rfl
    · rw [Text.crlf_cons_of_ne hc]
      split
      · rename_i heq
        exact absurd (List.cons.inj heq).1 hpoint
      · split
        · rename_i heq
          exact absurd (List.cons.inj heq).1 hpoint
        · simp only
          split_ifs
          · rfl
          · exact congrArg some (Text.crlf_cons_of_ne hc rest).symm

theorem isNumber_crlf (t : Text) : isNumber (Text.crlf t) = isNumber t := by
  unfold isNumber
  simp only [dropSign_crlf, mantissa?_crlf, Option.any_map, isExponent_crlf, any_cons, any_nil]
  rw [Text.sameWord_crlf (by decide), Text.sameWord_crlf (by decide), Text.sameWord_crlf (by decide)]

/-! ## Literals and brackets -/

theorem undouble?_cons_of_ne (h : c ≠ q) (t : Text) :
    undouble? q (c :: t) = (undouble? q t).map (c :: ·) := by
  rw [undouble?.eq_def]
  simp [h]

theorem undouble?_doubled (q : Char) (t : Text) :
    undouble? q (q :: q :: t) = (undouble? q t).map (q :: ·) := by
  rw [undouble?.eq_def]
  simp

theorem undouble?_lone (h : c ≠ q) (t : Text) : undouble? q (q :: c :: t) = none := by
  rw [undouble?.eq_def]
  simp [h]

theorem undouble?_crlf (hq : q ≠ '\n') (hreturn : q ≠ '\r') (t : Text) :
    undouble? q (Text.crlf t) = (undouble? q t).map Text.crlf := by
  fun_induction undouble? q t with
  | case1 => rfl
  | case2 ds ih =>
    rw [Text.crlf_cons_of_ne hq, Text.crlf_cons_of_ne hq, undouble?_doubled, ih]
    cases undouble? q ds <;> simp [Text.crlf_cons_of_ne hq]
  | case3 d ds hd =>
    rw [Text.crlf_cons_of_ne hq]
    by_cases hnewline : d = '\n'
    · rw [hnewline, Text.crlf_newline_cons, undouble?_lone (Ne.symm hreturn)]
      rfl
    · rw [Text.crlf_cons_of_ne hnewline, undouble?_lone hd]
      rfl
  | case4 => simp [Text.crlf_cons_of_ne hq, undouble?]
  | case5 c cs hc ih =>
    by_cases hnewline : c = '\n'
    · rw [hnewline, Text.crlf_newline_cons, undouble?_cons_of_ne (Ne.symm hreturn),
        undouble?_cons_of_ne (Ne.symm hq), ih]
      cases undouble? q cs <;> rfl
    · rw [Text.crlf_cons_of_ne hnewline, undouble?_cons_of_ne hc, ih]
      cases undouble? q cs <;> simp [Text.crlf_cons_of_ne hnewline]

theorem literal?_crlf (t : Text) : literal? (Text.crlf t) = (literal? t).map Text.crlf := by
  refine Text.crlf_induction t rfl (fun _ _ => rfl) fun c t hc _ => ?_
  rw [literal?, literal?]
  split_ifs with hquote
  · have hreturn : c ≠ '\r' := by
      rintro rfl
      cases hquote
    rw [Text.dropLast?_crlf hc]
    cases Text.dropLast? c t with
    | none => rfl
    | some inner => exact undouble?_crlf hc hreturn inner
  · rfl

/-- A carriage return is neither a quote nor a bracket. -/
theorem step_return (b : Bracket) (hs : s.literal ≠ some '\r') : Scan.step b s '\r' = some s := by
  obtain ⟨depth, literal, last⟩ := s
  cases literal with
  | none => cases b <;> rfl
  | some q =>
    have hq : '\r' ≠ q := by
      rintro rfl
      exact hs rfl
    simp only [Scan.step, if_neg hq]
    rfl

theorem literal_of_step {b : Bracket} {s' : Scan} (h : Scan.step b s c = some s')
    (hs : s.literal ≠ some '\r') :
    s'.literal ≠ some '\r' := by
  cases hliteral : s.literal with
  | some q =>
    simp only [Scan.step, hliteral] at h
    generalize (if Text.isSpace c = true then s.last else c) = last at h
    cases h
    split_ifs
    · simp
    · rwa [hliteral] at hs
  | none =>
    simp only [Scan.step, hliteral] at h
    generalize (if Text.isSpace c = true then s.last else c) = last at h
    split_ifs at h with hquote
    · cases h
      rintro ⟨⟩
      cases hquote
    · cases h
      simp
    · split at h
      · cases h
      · cases h
        simp
    · cases h
      simp

theorem foldlM_step_crlf (b : Bracket) (t : Text) (hs : s.literal ≠ some '\r') :
    (Text.crlf t).foldlM (Scan.step b) s = t.foldlM (Scan.step b) s := by
  induction t generalizing s with
  | nil => rfl
  | cons c t ih =>
    have hstep : (c :: Text.crlf t).foldlM (Scan.step b) s = (c :: t).foldlM (Scan.step b) s := by
      rw [foldlM_cons, foldlM_cons]
      cases hc : Scan.step b s c with
      | none => rfl
      | some s' => exact ih (literal_of_step hc hs)
    by_cases hc : c = '\n'
    · subst hc
      rw [Text.crlf_newline_cons, foldlM_cons, step_return b hs]
      exact hstep
    · rw [Text.crlf_cons_of_ne hc]
      exact hstep

theorem enclosed?_crlf (b : Bracket) (t : Text) :
    enclosed? b (Text.crlf t) = (enclosed? b t).map Text.crlf := by
  have hopener : b.opener ≠ '\n' ∧ b.opener ≠ '\r' := by cases b <;> decide
  have hcloser : b.closer ≠ '\n' := by cases b <;> decide
  refine Text.crlf_induction t rfl (fun t _ => by simp [enclosed?, Ne.symm hopener.1, Ne.symm hopener.2])
    fun c t _ _ => ?_
  simp only [enclosed?, Text.dropLast?_crlf hcloser]
  split_ifs
  · rfl
  cases Text.dropLast? b.closer t with
  | none => rfl
  | some inner =>
    simp only [Option.map_some, foldlM_step_crlf b inner (s := { last := b.opener }) (by rintro ⟨⟩)]
    cases inner.foldlM (Scan.step b) { last := b.opener } with
    | none => rfl
    | some s =>
      simp only
      split_ifs <;> rfl

/-! ## Rendering -/

theorem struct?_crlf (t : Text) :
    (Text.dropLead? "struct" (Text.crlf t)).bind (fun rest => enclosed? .paren (Text.trimStart rest)) =
      ((Text.dropLead? "struct" t).bind fun rest =>
        enclosed? .paren (Text.trimStart rest)).map Text.crlf := by
  rw [Text.dropLead?_crlf (by decide) (by decide)]
  cases Text.dropLead? "struct" t with
  | none => rfl
  | some rest =>
    simp only [Option.map_some, Option.bind_some]
    rw [Text.trimStart_crlf, enclosed?_crlf]

theorem sown_render {v v' : Text} (h : Text.SamePart v v') : Sown (render v) (render v') := by
  unfold render
  simp only [h.trim_eq, isNumber_crlf, Name.isIdentifier_crlf, literal?_crlf, struct?_crlf, enclosed?_crlf]
  generalize Text.trim v = t
  split_ifs
  · exact .crlf t
  cases literal? t with
  | some value => exact .quote value
  | none =>
    simp only [Option.map_none]
    cases (Text.dropLead? "struct" t).bind (fun rest => enclosed? .paren (Text.trimStart rest)) with
    | some inner => exact Sown.bracketed _ (.quote inner) (by decide)
    | none =>
      simp only [Option.map_none]
      cases enclosed? .brace t with
      | some inner => exact Sown.bracketed _ (.quote inner) (by decide)
      | none => exact .quote t

end Default

end ClassdefDoc
