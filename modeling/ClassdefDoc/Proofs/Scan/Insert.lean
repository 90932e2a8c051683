import ClassdefDoc.Proofs.Scan.Beside
import ClassdefDoc.Proofs.Scan.Order
import ClassdefDoc.Proofs.Scan.Statement

/-!
# Scanning a text with one more line end

A line end, or a comment with its line end, is written between two tokens inside brackets. The tokens
before it stay the same and those behind it are the same but for their places (`exists_scan_inserted`).
-/

namespace ClassdefDoc

open List Scanner
open Cursor (isGap past_between ofText_eq)

variable {c : Char} {gap rest lead : Text}

namespace Text

/-- A line end, or a line comment with its line end, that is written behind
`lead`: alone on its line, `%{` is no line comment. -/
inductive IsLine (lead : Text) : Text → Prop
  | newline : IsLine lead ['\n']
  | comment {body : Text} : '\n' ∉ body → (isBlankEnd lead && Lexeme.opensBlock ('%' :: body)) = false →
    IsLine lead ('%' :: body ++ ['\n'])

variable {lead line : Text}

theorem IsLine.exists_append (h : IsLine lead line) : ∃ body, line = body ++ ['\n'] ∧ '\n' ∉ body := by
  cases h with
  | newline => exact ⟨[], rfl, not_mem_nil⟩
  | @comment body hbody _ => exact ⟨'%' :: body, rfl, by simpa using hbody⟩

theorem IsLine.atBreak (h : IsLine lead line) (t : Text) : AtBreak (line ++ t) := by
  cases h with
  | newline => exact atBreak_cons (by decide) t
  | comment => exact atBreak_cons (by decide) _

/-- A line that is written behind `a`. -/
abbrev Distance.insert (a line : Text) : Distance := .between a (a ++ line)

theorem level_insert (a line : Text) : Level (.insert a line) a (a ++ line) :=
  level_between (by simp [bytes_append])

theorem isSpace_of_isGap (h : isGap c) : isSpace c ∧ c ≠ '\n' := by
  have hcases : (c = ' ' ∨ c = '\t') ∨ c = '\r' := by simpa [isGap] using h
  rcases hcases with (rfl | rfl) | rfl <;> decide

/-- Only blanks stand on a line that has just begun. -/
theorem isBlankEnd_of_isLine (h : IsLine lead line) (a : Text) (hgap : ∀ c ∈ gap, isGap c) :
    isBlankEnd (a ++ line ++ gap) := by
  obtain ⟨body, rfl, -⟩ := h.exists_append
  have hreverse : (a ++ (body ++ ['\n']) ++ gap).reverse = gap.reverse ++ '\n' :: (a ++ body).reverse := by
    simp
  have hline : ∀ c ∈ gap.reverse, (c != '\n') :=
    fun c hc => by simpa using (isSpace_of_isGap (hgap c (mem_reverse.1 hc))).2
  rw [isBlankEnd, hreverse, takeWhile_append_of_pos hline, takeWhile_cons_of_neg (by simp),
    append_nil, reverse_reverse]
  exact all_eq_true.2 fun c hc => (isSpace_of_isGap (hgap c hc)).1

end Text

/-- The tokens of a line end, or of a comment with its line end. -/
inductive LineTokens : List Token → Prop
  | newline {t : Token} : t.kind = .newline → LineTokens [t]
  | comment {t u : Token} {body : Text} : t.kind = .comment body → u.kind = .newline → LineTokens [t, u]

/-- A token inside brackets is the same on a line of its own, unless it is a
transpose or opens a block comment there. -/
theorem Lexeme.read_behind_line {s s' : Surroundings} {l : Lexeme} (hread : read s c rest = .ok l)
    (hlead : s'.leadsLine) (hprevious : s'.previous = some .newline) (hinner : s'.innermost = s.innermost)
    (hbracket : s.innermost.isNone = false) (hquote : l.kind ≠ .operator .transpose)
    (hblock : ∀ body, l.kind = .comment body → opensBlock (Text.firstLine (c :: rest)) = false) :
    read s' c rest = .ok l := by
  by_cases hpercent : c = '%'
  · subst hpercent
    rw [read_percent] at hread ⊢
    rw [hlead, Bool.true_and]
    cases hopens : opensBlock (Text.firstLine ('%' :: rest)) with
    | false => simpa [hopens] using hread
    | true =>
      cases hs : s.leadsLine with
      | true => simpa [hopens, hs] using hread
      | false =>
        rw [hs, Bool.false_and, if_neg (by decide)] at hread
        cases hread
        cases (hblock _ rfl).symm.trans hopens
  · refine (read_congr (fun h => absurd h hpercent) ?_ fun _ => ?_).trans hread
    · rintro rfl
      have htransposes' : transposes s' = false := by simp [transposes, hprevious, TokenKind.endsOperand]
      rw [htransposes']
      cases htransposes : transposes s with
      | false => rfl
      | true =>
        have hquoted : (if transposes s = true then Except.ok ⟨.operator .transpose,
            1⟩ else readLiteral .single ('\'' :: rest)) = .ok l := hread
        rw [if_pos htransposes] at hquoted
        cases hquoted
        exact absurd rfl hquote
    · simp only [readWord, hinner, hbracket, Bool.and_false]

namespace Scanner

variable {s s' : Scanner} {past gap ahead line text : Text} {ts : List Token}

/-- The token before a scanner, and what the text has behind it. -/
theorem last_of_chain (h : Chain step (.start text) ts s)
    (hs : s.cursor = .between past ahead) :
    past = [] ∨ ∃ u p hidden, ts.getLast? = some u ∧ past = p ++ hidden ∧
      u.endOffset = Text.bytes p ∧ (hidden = [] ∨ hidden = ['\n']) := by
  rcases eq_nil_or_concat ts with rfl | ⟨init, u, rfl⟩
  · cases h with
    | nil =>
      have hpast := congrArg Cursor.past hs
      rw [past_between] at hpast
      exact .inl hpast.symm
  · rw [concat_eq_append] at h ⊢
    obtain ⟨s₁, hinit, hlast⟩ := h.of_append
    obtain ⟨past₁, ahead₁, hs₁, -⟩ := (over_start text).of_chain hinit
    cases hlast with
    | cons hstep hnil =>
      cases hnil with
      | nil =>
        obtain ⟨gap, lexeme, hidden, rest, -, htook⟩ := took_of_step hs₁ hstep
        have hpast := congrArg Cursor.past (hs.symm.trans htook.cursor_eq)
        rw [past_between, past_between] at hpast
        exact .inr ⟨u, _, hidden, getLast?_concat, hpast, htook.endOffset_eq, htook.hidden_eq⟩

/-- Blanks behind the tokens `ts` belong to the blanks before the next token. -/
theorem exists_blanks {gap₀ : Text} (h : Chain step (.start text) ts s)
    (hs : s.cursor = .between past ahead) (hpast : past ++ gap₀ = lead ++ gap)
    (hlead : ∀ u ∈ ts, u.endOffset ≤ Text.bytes lead) (hgap : ∀ c ∈ gap, isGap c) :
    ∃ y, lead = past ++ y ∧ gap₀ = y ++ gap := by
  refine Text.exists_append_of_bytes_le hpast ?_
  rcases last_of_chain h hs with rfl | ⟨u, p, hidden, hu, rfl, hend, hhidden⟩
  · exact Nat.zero_le _
  · by_contra hlt
    obtain ⟨m, hm, hrest⟩ := Text.exists_append_of_bytes_le hpast.symm (Nat.le_of_lt (Nat.lt_of_not_le hlt))
    obtain ⟨k, rfl, hk⟩ := Text.exists_append_of_bytes_le hm (hend ▸ hlead u (mem_of_getLast? hu))
    -- only a line end that a continuation hides could stand in between
    cases m with
    | nil => exact hlt (by rw [hm, append_nil])
    | cons c m =>
      have hc : c ∈ hidden := by
        rw [hk]
        simp
      have hblank := hgap c (by rw [hrest]; exact mem_cons_self)
      rcases hhidden with rfl | rfl
      · cases hc
      · rw [mem_singleton.1 hc] at hblank
        cases hblank

theorem step_comment {body : Text} (hs : s.cursor = .between past (gap ++ '%' :: (body ++ '\n' :: ahead)))
    (hgap : ∀ c ∈ gap, isGap c) (hbody : '\n' ∉ body)
    (hopens : (Text.isBlankEnd (past ++ gap) && Lexeme.opensBlock ('%' :: body)) = false) :
    ∃ v, step s = .ok (.item (s.tokenAt past gap ('%' :: body) (.comment v))
      (s.moveOn (past ++ gap ++ '%' :: body) ('\n' :: ahead) (.comment v) s.brackets)) := by
  have hend : Text.AtLineEnd ('\n' :: ahead) := fun c hc => (Option.some.inj hc).symm
  have hline : '\n' ∉ '%' :: body := by simpa using hbody
  have hread : Lexeme.read (s.sees past gap) '%' (body ++ '\n' :: ahead) =
      .ok ⟨.comment (('%' :: body).dropWhile (· == '%')), ('%' :: body).length⟩ := by
    rw [Lexeme.read_percent, ← cons_append, Text.firstLine_append hline hend,
      show (s.sees past gap).leadsLine = Text.isBlankEnd (past ++ gap) from rfl,
      hopens, if_neg (by decide), Lexeme.readComment_line hline hend]
  exact ⟨_, step_of_lexes ⟨hs, hgap, rfl, hread, rfl⟩⟩

/-- The tokens of a line that is written inside brackets. -/
theorem exists_chain_line (hline : Text.IsLine (past ++ gap) line)
    (hs : s.cursor = .between past (gap ++ (line ++ ahead)))
    (hgap : ∀ c ∈ gap, isGap c) (hopen : s.brackets ≠ []) :
    ∃ inserted s', Chain step s inserted s' ∧ LineTokens inserted ∧
      s'.cursor = .between (past ++ gap ++ line) ahead ∧ s'.brackets = s.brackets ∧
      s'.startsStatement = s.startsStatement ∧
      s'.previous = some .newline := by
  have hempty : s.brackets.isEmpty = false := by simpa using hopen
  cases hline with
  | newline =>
    refine ⟨_, _, .single (step_newline hs hgap), .newline rfl, moveOn_cursor rfl .., rfl, ?_, rfl⟩
    simp only [moveOn, statementAfter, hempty, Bool.or_false]
  | @comment body hbody hopens =>
    have hcut : s.cursor = .between past (gap ++ '%' :: (body ++ '\n' :: ahead)) := by
      rw [hs]
      simp
    obtain ⟨v, hstep⟩ := step_comment hcut hgap hbody hopens
    have hcursor : (s.moveOn (past ++ gap ++ '%' :: body) ('\n' :: ahead) (.comment v) s.brackets).cursor =
        .between (past ++ gap ++ '%' :: body) ([] ++ '\n' :: ahead) := moveOn_cursor rfl ..
    refine ⟨_, _, .cons hstep (.single (step_newline hcursor (forall_mem_nil _))),
      .comment rfl rfl, ?_, rfl, ?_, rfl⟩
    · rw [moveOn_cursor rfl, append_nil, append_assoc _ ('%' :: body)]
    · simp only [moveOn, statementAfter, hempty, Bool.or_false]

end Scanner

/-- A place inside brackets, behind `lead` and the tokens `before` and in front of the token `w`, where
a line may be written: no comment ends there, and behind the line the token would be the same. -/
structure LinePlace (lead gap rest line : Text) (before : List Token) (w : Token) : Prop where
  inside : 0 < depth before
  ends_le : ∀ u ∈ before, u.endOffset ≤ Text.bytes lead
  blank : ∀ c ∈ gap, isGap c
  offset : w.offset = Text.bytes (lead ++ gap)
  isLine : lead.IsLine line
  comment : ∀ u ∈ before.getLast?, u.kind.isComment = false
  quote : w.kind ≠ .operator .transpose
  block : Lexeme.opensBlock (Text.firstLine (gap ++ rest)) → ∃ lines, w.kind = .blockComment lines

/-- The tokens of a text in which a line is written behind `lead`, and those of `lead` itself. -/
theorem exists_scan_inserted {line : Text} {before after : List Token} {w : Token}
    (hscan : scan (lead ++ (gap ++ rest)) = .ok (before ++ w :: after))
    (hplace : LinePlace lead gap rest line before w) :
    ∃ inserted w' after' e, scan (lead ++ (line ++ (gap ++ rest))) =
      .ok (before ++ inserted ++ w' :: after') ∧
      LineTokens inserted ∧ Forall₂ (Token.Kept (.insert lead line)) (w :: after) (w' :: after') ∧
      e.kind = .eof ∧ Laid none [] (before ++ [e]) lead := by
  obtain ⟨s, hchain, hyields⟩ := exists_yields_of_scan hscan
  obtain ⟨hinside, hlead, hgap, hoffset, hline, hcomment, hquote, hblock⟩ := hplace
  have hopen : s.brackets ≠ [] := by
    rintro h
    simp [(behind_of_chain hchain).depth, h] at hinside
  obtain ⟨past, ahead, hcursor, htext⟩ := (Scanner.over_start _).of_chain hchain
  cases hyields with
  | done hdone => exact absurd (ended_of_step hcursor hdone).2.2 hopen
  | @item _ _ next _ hstep hrest =>
    obtain ⟨gap₀, c, x, after₀, l, brackets, rfl, hlex, -, htoken, -⟩ := read_of_step hcursor hstep
    have hkind : w.kind = l.kind := by rw [htoken]; rfl
    -- the blanks before the token start in `lead`
    obtain ⟨hpast, rfl⟩ : past ++ gap₀ = lead ++ gap ∧ rest = c :: (x ++ after₀) := by
      have hbytes : Text.bytes (past ++ gap₀) = Text.bytes (lead ++ gap) := by
        rw [← hoffset, htoken]
        rfl
      have heq : past ++ gap₀ ++ c :: (x ++ after₀) = lead ++ gap ++ rest := by
        rw [append_assoc, htext, append_assoc]
      obtain ⟨hpast, hrest⟩ := Text.append_inj_of_bytes heq hbytes
      exact ⟨hpast, hrest.symm⟩
    obtain ⟨y, rfl, rfl⟩ := exists_blanks hchain hcursor hpast hlead hgap
    have hy : ∀ c ∈ y, isGap c := fun c hc => hlex.blank c (mem_append_left _ hc)
    obtain ⟨chain, hlaid⟩ := chain_lead (b := gap ++ c :: (x ++ after₀)) hchain
      (hcursor.trans (by rw [append_assoc])) hy (by simp) hcomment
    obtain ⟨inserted, s₂, hinserted, htokens, hcursor₂, hbrackets₂, hstatement₂, hprevious₂⟩ :=
      exists_chain_line hline
      (upTo_cursor hcursor (y ++ (line ++ (gap ++ c :: (x ++ after₀))))) hy (show (s.upTo _).brackets ≠
        [] from hopen)
    have hlevel : Text.Level (.insert (past ++ y) line) (past ++ (y ++ gap)) (past ++ y ++ line ++ gap) := by
      rw [← append_assoc]
      exact (Text.level_insert (past ++ y) line).append gap
    have hblanks : ∀ c ∈ gap, Text.isSpace c ∧ c ≠ '\n' := fun c hc => Text.isSpace_of_isGap (hgap c hc)
    have hread' : Lexeme.read (s₂.sees (past ++ y ++ line) gap) c (x ++ after₀) = .ok l := by
      refine Lexeme.read_behind_line hlex.cut.read (Text.isBlankEnd_of_isLine hline (past ++ y) hgap)
        hprevious₂ ?_ ?_ (hkind ▸ hquote) fun body hl => ?_
      · simp only [sees, hbrackets₂]
        rfl
      · simpa [sees] using hopen
      · cases hopens : Lexeme.opensBlock (Text.firstLine (c :: (x ++ after₀))) with
        | false => rfl
        | true =>
          obtain ⟨lines, hlines⟩ := hblock ((Text.opensBlock_append hblanks _).trans hopens)
          cases hl.symm.trans (hkind.symm.trans hlines)
    have hraised : Text.Raised (.insert (past ++ y) line) (past ++ (y ++ gap) ++ c :: x)
        (past ++ y ++ line ++ gap ++ c :: x) after₀ := by
      cases hopens : Lexeme.opensBlock (Text.firstLine (gap ++ c :: (x ++ after₀))) with
      | false =>
        have hline : Text.Raised (.insert (past ++ y) line) (past ++ y)
            (past ++ y ++ line) (gap ++ c :: x ++ after₀) :=
          ⟨Text.level_insert (past ++ y) line, .inr (by simpa using hopens)⟩
        simpa only [append_assoc] using hline.append
      | true =>
        obtain ⟨lines, hlines⟩ := hblock hopens
        have hreads := Lexeme.reads_of_cut hlex.cut
        rw [← hkind, hlines] at hreads
        cases hreads with
        | blockComment _ hhead =>
          obtain rfl : c = '%' := Option.some.inj hhead
          exact hlevel.raised (by decide) x after₀
    obtain ⟨-, w', next', hstep', hkind', hw, hbeside⟩ :=
      exists_step_of_lexes hlex ⟨hcursor₂, hgap, hlex.starts, hread', hlex.cut.length⟩
      (.same _) (by rw [hbrackets₂]; rfl) hlevel hraised hstep
    have hkept : w.Kept (.insert (past ++ y) line) w' := ⟨hw, hkind.trans hkind'.symm⟩
    obtain ⟨hs, hp⟩ := hbeside.same_states hcursor hcursor₂ hstep hstep' hstatement₂.symm hkept.kind
    obtain ⟨after', hyields', hafter⟩ := hbeside.exists_yields hs hp hrest
    exact ⟨inserted, w', after', _, scan_of_yields ((chain (hline.atBreak _)).append hinserted)
      (.item hstep' hyields'), htokens, .cons hkept hafter, rfl, hlaid⟩

end ClassdefDoc
