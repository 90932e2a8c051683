import ClassdefDoc.Proofs.Balance.Parts

/-!
# Where comments and quoted text end, and texts put together

The reader of brackets leaves quoted text at the quote that is written last (`read_quoted`),
and a comment at the terminator that is written last (`comments_end`), whatever they hold and
whatever follows. Balanced texts are balanced when they are put behind each other or between
brackets (`balanced_compose`); only at the seam of two texts a comment may come up or go on.
-/

namespace ClassdefDoc

open List

/-! ## Quoted text -/

/-- The text with one backslash taken out before each character that is skipped. -/
def Quoted.unescape : Text → Text
  | '\\' :: c :: t => c :: unescape t
  | c :: t => c :: unescape t
  | [] => []

theorem Quoted.unescape_escape (t : Text) : unescape (escape t) = t := by
  induction t with
  | nil => rfl
  | cons c t ih =>
    rw [escape_eq_flatMap, flatMap_cons, ← escape_eq_flatMap]
    by_cases hc : needsEscape c
    · rw [if_pos hc]
      exact congrArg (c :: ·) ih
    · have hslash : c ≠ '\\' := by
        rintro rfl
        exact hc rfl
      rw [if_neg hc, singleton_append, unescape, ih]
      exact fun _ _ h => absurd h hslash

namespace Balance

variable {m : Mode} {a b t : Text}

/-- Up to a prefix of text that is no code the open brackets stay. -/
theorem TakenFor.read_prefix {r : Role} {m' : Mode} (h : TakenFor r m m' t) (hr : r ≠ .code) (ha : a <+: t)
    (stack : List Bracket) : Balance.read ⟨m, stack⟩ a = some ⟨m.run a, stack⟩ := by
  obtain ⟨b, rfl⟩ := ha
  have htold := congrArg codeOf h.told
  rw [Mode.told_append, codeOf_append, codeOf_map_of_ne hr, append_eq_nil_iff] at htold
  rw [read_eq, htold.1]
  rfl

/-- Quoted text is closed at its second quote and nowhere before, and it can be read back. -/
theorem read_quoted (hm : m = .code ∨ m = .slash) (stack : List Bracket) (t rest : Text) :
    (∀ a, a <+: Quoted.escape t → ∃ m', m'.inQuotes ∧ read ⟨m, stack⟩ ('"' :: a) = some ⟨m', stack⟩) ∧
      read ⟨m, stack⟩ ('"' :: (Quoted.escape t ++ '"' :: rest)) = read ⟨.code, stack⟩ rest ∧
      Quoted.unescape (Quoted.escape t) = t ∧ Function.Injective Quoted.escape := by
  have hinner := staysIn_quoted_escape t
  have hopen : step ⟨m, stack⟩ '"' = some ⟨.quoted, stack⟩ := by rcases hm with rfl | rfl <;> rfl
  refine ⟨fun a ha => ⟨_, hinner.of_prefix ha, ?_⟩, ?_, Quoted.unescape_escape t, ?_⟩
  · rw [read_cons, hopen, Option.bind_some, hinner.quoted.read_prefix (by decide) ha]
  · have hquote := read_quote hm t stack
    rw [← read_append_of hquote, Quoted.quote]
    simp
  · exact Function.LeftInverse.injective Quoted.unescape_escape

/-- A text of backslashes, quotes and a line end, behind a slash. -/
theorem read_quoted_slashes :
    read ⟨.slash, [.paren]⟩ ('"' :: (Quoted.escape "\\\"\n\\".toList ++ '"' :: ")".toList)) = read ⟨.code,
      [.paren]⟩ ")".toList ∧
      Quoted.escape "\\\"\n\\".toList = "\\\\\\\"\\\n\\\\".toList :=
  ⟨(read_quoted (.inr rfl) [.paren] _ _).2.1, by decide⟩

end Balance

/-! ## Text of comments -/

namespace Comment

variable {t : Text}

/-- The two characters that end a comment. -/
def terminator : Text := ['*', '/']

theorem not_terminator_of_stays {m m' : Balance.Mode} (h : Balance.StaysIn Balance.Mode.inBlock m m' t) :
    ¬terminator <:+: t := by
  rintro ⟨a, b, rfl⟩
  have hin := h.of_prefix (a := a) ⟨terminator ++ b, by simp⟩
  have hout := h.of_prefix (a := a ++ terminator) ⟨b, rfl⟩
  rw [Balance.Mode.run_append] at hout
  revert hin hout
  cases m.run a with
  | block star => cases star <;> exact fun _ => by decide
  | code | slash | lineComment | quoted | escaped => exact fun h => absurd h (by decide)

/-- Escaped text does not hold a terminator. -/
theorem not_terminator_escape (t : Text) : ¬terminator <:+: escape t := by
  obtain ⟨star, hinner⟩ := Balance.staysIn_escape t false (by simp)
  exact not_terminator_of_stays hinner

/-- Text without a terminator is left as it is. -/
theorem escape_eq_self (h : ¬terminator <:+: t) : escape t = t := by
  fun_induction escape t with
  | case1 cs => exact absurd (prefix_append ['*', '/'] cs).isInfix h
  | case2 c cs _ ih => rw [ih fun hcs => h (hcs.trans (suffix_cons c cs).isInfix)]
  | case3 => rfl

/-- A text and its escaped form are the same parts, with the terminator or its spaced form between them. -/
theorem exists_parts (t : Text) : ∃ p ps, (∀ q ∈ p :: ps, ¬terminator <:+: q) ∧
    t = Text.joinWith terminator (p :: ps) ∧ escape t = Text.joinWith "* /" (p :: ps) := by
  fun_induction escape t with
  | case1 cs ih =>
    obtain ⟨p, ps, hparts, ht, he⟩ := ih
    refine ⟨[], p :: ps, forall_mem_cons.2 ⟨by decide, hparts⟩, ?_, ?_⟩
    · rw [Text.joinWith_cons_cons, ← ht]
      rfl
    · rw [Text.joinWith_cons_cons, ← he]
      rfl
  | case2 c cs hc ih =>
    obtain ⟨p, ps, hparts, ht, he⟩ := ih
    have hcons (sep : Text) : Text.joinWith sep ((c :: p) :: ps) = c :: Text.joinWith sep (p :: ps) := by
      cases ps <;> simp
    refine ⟨c :: p, ps,
      forall_mem_cons.2 ⟨fun h => ?_, (forall_mem_cons.1 hparts).2⟩, by rw [hcons, ← ht], by rw [hcons, ← he]⟩
    -- a terminator at the seam would be one of the text itself
    rcases infix_cons_iff.1 h with h | h
    · obtain ⟨rfl, hslash⟩ := cons_prefix_cons.1 h
      obtain ⟨p', rfl⟩ := hslash
      refine hc (cs.tail) rfl ?_
      rw [ht]
      cases ps <;> simp
    · exact (forall_mem_cons.1 hparts).1 h
  | case3 => exact ⟨[], [], by decide, rfl, rfl⟩

end Comment

namespace Balance

variable {t : Text}

/-- What the reader makes of a comment: it is inside from the opening mark up to the last
character of the terminator, and behind it the reader goes on as if there had been no comment. -/
structure ReadAsComment (t : Text) : Prop where
  opens : "/*".toList <+: t
  closes : Comment.terminator <:+ t
  inside : ∀ stack a, "/*".toList <+: a → a <+: t → a ≠ t →
    ∃ m, m.inBlock ∧ read ⟨.code, stack⟩ a = some ⟨m, stack⟩
  behind : ∀ stack rest, read ⟨.code, stack⟩ (t ++ rest) = read ⟨.code, stack⟩ rest

theorem IsComment.readAsComment (h : IsComment t) : ReadAsComment t := by
  have htaken := h.takenFor
  obtain ⟨inner, rfl, hinner⟩ := h
  refine ⟨⟨inner ++ ['/'], rfl⟩, ?_, fun stack a hopen ha hne => ?_,
    fun stack rest => read_append_of (htaken.read (by decide) stack) rest⟩
  · -- the text inside ends with the star of the terminator
    obtain rfl | ⟨u, c, rfl⟩ := eq_nil_or_concat' inner
    · exact absurd hinner.run (by decide)
    · have hstay := hinner.of_prefix (prefix_append u [c])
      have hlast := hinner.run
      rw [Mode.run_append, Mode.run_cons, Mode.run_nil] at hlast
      have hstar : c = '*' := by
        revert hstay hlast
        cases Mode.run (.block false) u with
        | block star =>
          intro _ hlast
          rw [Mode.next] at hlast
          split_ifs at hlast
          simpa using hlast
        | code | slash | lineComment | quoted | escaped => exact fun h => absurd h (by decide)
      exact ⟨'/' :: '*' :: u, by simp [hstar, Comment.terminator]⟩
  · obtain ⟨u, rfl⟩ := hopen
    have hu : u <+: inner := by
      have hu : u <+: inner ++ ['/'] := by simpa using ha
      rcases prefix_concat_iff.1 hu with rfl | hu
      · exact absurd rfl hne
      · exact hu
    exact ⟨_, hinner.of_prefix hu, htaken.read_prefix (by decide) ha stack⟩

/-- Escaped text holds no terminator, is the text with a space in each of them, and
stays as it is when it is escaped again. The documentation block of a member or a
class and the comment around the lines of a block are read as one comment each. -/
theorem comments_end :
    (∀ t, ¬Comment.terminator <:+: Comment.escape t ∧ Comment.escape (Comment.escape t) = Comment.escape t ∧
      ∃ parts, (∀ p ∈ parts, ¬Comment.terminator <:+: p) ∧ t = Text.joinWith Comment.terminator parts ∧
        Comment.escape t = Text.joinWith "* /" parts) ∧
    (∀ header doc notes trailer, doc.hasText || !notes.isEmpty →
      ∃ block, DocBlock.ofMember header doc notes trailer = Page.line block ∧ ReadAsComment block) ∧
    (∀ name group doc notes, Name.isIdentifier name →
      ∃ block, DocBlock.ofClass name group doc notes = Page.line block ∧ ReadAsComment block) ∧
    ∀ lines, ReadAsComment (Comment.ofLines lines) := by
  refine ⟨fun t => ⟨Comment.not_terminator_escape t,
    Comment.escape_eq_self (Comment.not_terminator_escape t), ?_⟩, ?_, ?_, ?_⟩
  · obtain ⟨p, ps, hparts⟩ := Comment.exists_parts t
    exact ⟨p :: ps, hparts⟩
  · intro header doc notes trailer h
    obtain ⟨block, hblock, hcomment⟩ := isComment_ofMember header h trailer
    exact ⟨block, hblock, hcomment.readAsComment⟩
  · intro name group doc notes hname
    obtain ⟨block, hblock, hcomment⟩ := isComment_ofClass hname group doc notes
    exact ⟨block, hblock, hcomment.readAsComment⟩
  · exact fun lines => (isComment_ofLines lines).readAsComment

/-- Notes with terminators and marks at their ends. -/
theorem comments_end_notes :
    (∃ block, DocBlock.ofMember "/**/" {} ["/*/", "*"] ["/"] = Page.line block ∧ ReadAsComment block) ∧
      ∃ block, DocBlock.ofClass "Lamp" none {} ["*/*/"] = Page.line block ∧ ReadAsComment block :=
  ⟨comments_end.2.1 _ _ _ _ (by decide), comments_end.2.2.1 _ _ _ _ (by decide)⟩

/-! ## Texts put together -/

/-- Brackets that are open below stay open. -/
theorem walk_below {stack stack' : List Bracket} (h : walk stack t = some stack') (below : List Bracket) :
    walk (stack ++ below) t = some (stack' ++ below) := by
  induction t generalizing stack with
  | nil =>
    cases h
    rfl
  | cons c t ih =>
    rw [walk_cons] at h ⊢
    obtain ⟨inner, hcode, hrest⟩ := Option.bind_eq_some_iff.1 h
    have hbelow : (code (stack ++ below) c).map (·.stack) = some (inner ++ below) := by
      revert hcode
      unfold code
      split
      · rintro ⟨⟩
        rfl
      · cases stack with
        | nil => rintro ⟨⟩
        | cons top stack =>
          simp only [cons_append]
          split_ifs
          · rintro ⟨⟩
            rfl
          · rintro ⟨⟩
      · split_ifs <;> (rintro ⟨⟩; rfl)
    rw [hbelow]
    exact ih hrest

/-- A text is balanced if its code is and the reader does not end in a block comment or in quoted text. -/
theorem balanced_iff : balanced t ↔ walk [] (codeOf (roles t)) = some [] ∧ (Mode.code.run t).closed := by
  rw [balanced, show ({} : State) = ⟨.code, []⟩ from rfl, read_code_eq]
  cases walk [] (codeOf (roles t)) with
  | none => simp
  | some stack => simp [State.closed, and_comm]

/-- The last character is a slash that is code exactly if the reader waits for the next one. -/
theorem getLast?_roles (t : Text) : (roles t).getLast? = some (.code, '/') ↔ Mode.code.run t = .slash := by
  constructor
  · intro h
    by_contra hrun
    have hwait : (Mode.code.run t).waiting = [] := by
      revert hrun
      cases Mode.code.run t <;> simp [Mode.waiting]
    obtain rfl | ⟨u, c, rfl⟩ := eq_nil_or_concat' t
    · simp [roles, Mode.waiting] at h
    · rw [roles, hwait, map_nil, append_nil, Mode.told_append, Mode.told_cons, Mode.told_nil, append_nil] at h
      rw [Mode.run_append, Mode.run_cons, Mode.run_nil] at hrun
      have hcode (hc : c ≠ '/') (xs : List (Role × Char)) :
          (xs ++ Mode.tellsCode c).getLast? ≠ some (.code, '/') := by
        simp [Mode.tellsCode, hc]
      revert h hrun
      cases Mode.code.run u with
      | code =>
        intro h hrun
        refine hcode ?_ _ h
        rintro rfl
        exact hrun rfl
      | slash =>
        intro h hrun
        by_cases hmark : c = '*' ∨ c = '/'
        · rcases hmark with rfl | rfl <;> simp [Mode.tells] at h
        · simp only [not_or] at hmark
          simp only [Mode.tells, hmark.1, hmark.2, decide_false,
            Bool.or_self, Bool.false_eq_true, if_false] at h
          rw [append_cons] at h
          exact hcode hmark.2 _ h
      | lineComment =>
        intro h _
        simp only [Mode.tells] at h
        split_ifs at h with hc
        · simp [hc] at h
        · simp at h
      | block star | quoted | escaped =>
        intro h _
        simp [Mode.tells] at h
  · intro h
    simp [roles, h, Mode.waiting]

/-- The seam of two texts: the first does not end in a line comment, and a
slash at its end is not part of a mark. -/
theorem append_of_seam {a b : Text} (ha : (Mode.code.run a).closed) (hline : Mode.code.run a ≠ .lineComment)
    (hseam : Mode.code.run a = .slash → StartsApart b) :
    roles (a ++ b) = roles a ++ roles b ∧ ((Mode.code.run b).closed → (Mode.code.run (a ++ b)).closed) := by
  rw [Mode.run_append]
  cases hrun : Mode.code.run a with
  | code => exact ⟨roles_append hrun b, id⟩
  | slash =>
    refine ⟨roles_append_of_slash hrun (hseam hrun), fun hb => ?_⟩
    by_cases hne : b = []
    · rw [hne]
      rfl
    · rwa [(Mode.slash_told (hseam hrun) hne).1]
  | lineComment => exact absurd hrun hline
  | block star | quoted | escaped =>
    rw [hrun] at ha
    cases ha

/-- Balanced texts behind each other and a balanced text between brackets
are balanced, unless a comment goes on or comes up at the seam. -/
theorem balanced_compose {a : Text} (ha : balanced a)
    (hline : ∀ s, read {} a = some s → s.mode ≠ .lineComment) :
    (∀ b, balanced b → ((roles a).getLast? = some (.code, '/') → StartsApart b) → balanced (a ++ b)) ∧
      ∀ k : Bracket, balanced (k.opener :: (a ++ [k.closer])) := by
  obtain ⟨hwalk, hclosed⟩ := balanced_iff.1 ha
  have hline : Mode.code.run a ≠ .lineComment := hline ⟨_, []⟩ (by rw [read_code_eq, hwalk]; rfl)
  simp only [getLast?_roles]
  constructor
  · intro b hb hseam
    obtain ⟨hwalk', hclosed'⟩ := balanced_iff.1 hb
    obtain ⟨hroles, hend⟩ := append_of_seam hclosed hline hseam
    refine balanced_iff.2 ⟨?_, hend hclosed'⟩
    rw [hroles, codeOf_append, walk_append_of hwalk, hwalk']
  · intro k
    have hopen : Mode.code.run [k.opener] = .code ∧ codeOf (roles [k.opener]) = [k.opener] := by
      cases k <;> decide
    have hclose : Mode.code.run [k.closer] = .code ∧ codeOf (roles [k.closer]) = [k.closer] := by
      cases k <;> decide
    have hapart : StartsApart [k.closer] := by
      rintro c ⟨⟩
      cases k <;> decide
    obtain ⟨hroles, hend⟩ := append_of_seam hclosed hline fun _ => hapart
    have hinner : walk [k] (codeOf (roles a)) = some [k] := walk_below hwalk [k]
    rw [balanced_iff, ← singleton_append, roles_append hopen.1,
      codeOf_append, hopen.2, walk_append_of (walk_opener k []),
      hroles, codeOf_append, walk_append_of hinner, hclose.2, walk_closer, Mode.run_append, hopen.1]
    exact ⟨rfl, hend (by rw [hclose.1]; rfl)⟩

/-- A text that ends with a slash. -/
theorem balanced_compose_slash :
    balanced "f(1)/".toList ∧ balanced ("f(1)/".toList ++ "[2]".toList) ∧ balanced "\x7bf(1)/\x7d".toList :=
  have h := balanced_compose (a := "f(1)/".toList) (by decide) (by rintro s ⟨⟩; decide)
  ⟨by decide, h.1 "[2]" (by decide) fun _ => by rintro c ⟨⟩; decide, h.2 .brace⟩

/-- At the seam two balanced texts may start a comment. -/
example : balanced "/" ∧ balanced "*" ∧ ¬balanced "/*" := by decide

end Balance

end ClassdefDoc
