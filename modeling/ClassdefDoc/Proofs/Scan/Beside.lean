import ClassdefDoc.Proofs.Print.Spelling
import ClassdefDoc.Proofs.Scan.Cut
import ClassdefDoc.Proofs.Scan.Lossless

/-!
# Scanning two texts side by side

Two texts that go on alike behind a place give the same tokens there but for
their places (`Beside.exists_yields`).
-/

namespace ClassdefDoc

open List

variable {ahead : Text} {t' : Token} {p : Position} {k k' : TokenKind}

namespace Text

variable {c : Char} {t : Text}

/-- Whether only white space stands behind the last line end. -/
def isBlankEnd (t : Text) : Bool := isBlank (t.reverse.takeWhile (· != '\n')).reverse

/-- What stands before a line end or a character that is no white space does not matter behind it. -/
theorem isBlankEnd_append_cons (hc : isSpace c = false ∨ c = '\n') (past past' t : Text) :
    isBlankEnd (past ++ c :: t) = isBlankEnd (past' ++ c :: t) := by
  have hreverse (p : Text) : (p ++ c :: t).reverse = t.reverse ++ c :: p.reverse := by simp
  rw [isBlankEnd, isBlankEnd, hreverse, hreverse, takeWhile_append, takeWhile_append]
  by_cases hline : c = '\n'
  · simp [hline]
  · have hc := hc.resolve_right hline
    split_ifs
    · simp [isBlank, hline, hc]
    · rfl

/-- Blanks before it do not matter for a line that opens a block comment. -/
theorem opensBlock_append (ht : ∀ c ∈ t, isSpace c ∧ c ≠ '\n') (ahead : Text) :
    Lexeme.opensBlock (firstLine (t ++ ahead)) = Lexeme.opensBlock (firstLine ahead) := by
  have hline : firstLine (t ++ ahead) = t ++ firstLine ahead :=
    takeWhile_append_of_pos fun c hc => by simpa using (ht c hc).2
  have htrim : trimStart (t ++ firstLine ahead) = trimStart (firstLine ahead) :=
    dropWhile_append_of_pos fun c hc => (ht c hc).1
  rw [Lexeme.opensBlock, hline, trim, htrim]
  rfl

/-- How far texts are apart that are read alike from the offset `start` of the first
one on: the second has `bytes` more, and their lines differ by `lines` and `lines'`. -/
structure Distance where
  start : Nat
  bytes : Nat
  lines : Nat
  lines' : Nat

/-- Texts at this distance. -/
structure Level (m : Distance) (past past' : Text) : Prop where
  start_le : m.start ≤ bytes past
  bytes : bytes past + m.bytes = bytes past'
  line : (Position.start.advance past).line + m.lines' = (Position.start.advance past').line + m.lines

/-- The distance of texts that go on alike behind `past` and `past'`. -/
def Distance.between (past past' : Text) : Distance :=
  ⟨Text.bytes past, Text.bytes past' - Text.bytes past, (Position.start.advance past).line,
    (Position.start.advance past').line⟩

theorem level_between {past past' : Text} (h : bytes past ≤ bytes past') :
    Level (.between past past') past past' :=
  ⟨le_rfl, Nat.add_sub_cancel' h, Nat.add_comm _ _⟩

/-- In addition, what is written behind them leads its line in both or in
none, or the line ahead does not open a block comment. -/
structure Raised (m : Distance) (past past' ahead : Text) : Prop extends Level m past past' where
  blank : (∀ t, isBlankEnd (past ++ t) = isBlankEnd (past' ++ t)) ∨
    Lexeme.opensBlock (firstLine ahead) = false

variable {m : Distance} {past past' : Text}

theorem line_advance_add {q : Position} (h : p.line + m.lines' = q.line + m.lines) (t : Text) :
    (p.advance t).line + m.lines' = (q.advance t).line + m.lines := by
  induction t generalizing p q with
  | nil => exact h
  | cons c t ih =>
    refine ih ?_
    unfold Position.next
    split_ifs
    · dsimp only
      omega
    · exact h

theorem Level.append (h : Level m past past') (t : Text) : Level m (past ++ t) (past' ++ t) where
  start_le := by
    rw [bytes_append]
    exact h.start_le.trans (Nat.le_add_right _ _)
  bytes := by
    have := h.bytes
    rw [bytes_append, bytes_append]
    omega
  line := by
    rw [Position.advance_append, Position.advance_append]
    exact line_advance_add h.line t

theorem Raised.append (h : Raised m past past' (t ++ ahead)) :
    Raised m (past ++ t) (past' ++ t) ahead where
  toLevel := h.toLevel.append t
  blank := by
    have shown {u v : Text} {c : Char} (ht : t = u ++ c :: v) (hc : isSpace c = false ∨ c = '\n') (w : Text) :
        isBlankEnd (past ++ t ++ w) = isBlankEnd (past' ++ t ++ w) := by
      have hlist (p : Text) : p ++ t ++ w = (p ++ u) ++ c :: (v ++ w) := by rw [ht]; simp
      rw [hlist, hlist]
      exact isBlankEnd_append_cons hc ..
    by_cases hany : ∃ c ∈ t, isSpace c = false ∨ c = '\n'
    · obtain ⟨c, hmem, hc⟩ := hany
      obtain ⟨u, v, ht⟩ := append_of_mem hmem
      exact .inl (shown ht hc)
    · refine h.blank.imp (fun hblank w => ?_) fun hopens => ?_
      · rw [append_assoc, append_assoc]
        exact hblank (t ++ w)
      · have ht : ∀ c ∈ t, isSpace c ∧ c ≠ '\n' := fun c hc =>
          ⟨by simpa using fun h => hany ⟨c, hc, .inl h⟩, fun h => hany ⟨c, hc, .inr h⟩⟩
        rwa [opensBlock_append ht] at hopens

theorem Level.raised (h : Level m past past') (hc : isSpace c = false) (t ahead : Text) :
    Raised m (past ++ c :: t) (past' ++ c :: t) ahead where
  toLevel := h.append (c :: t)
  blank := .inl fun u => by
    rw [append_assoc, append_assoc]
    exact isBlankEnd_append_cons (.inl hc) past past' (t ++ u)

end Text
/-! ## Tokens at a distance -/

/-- The same lexeme in texts at a distance. -/
structure Token.Raised (m : Text.Distance) (t t' : Token) : Prop where
  lexeme : t.lexeme = t'.lexeme
  offset : t.offset + m.bytes = t'.offset
  start_le : m.start ≤ t.offset
  line : t.line + m.lines' = t'.line + m.lines

theorem Token.Raised.endOffset {m : Text.Distance} {t : Token} (h : t.Raised m t') :
    t.endOffset + m.bytes = t'.endOffset := by
  rw [Token.endOffset, Token.endOffset, ← h.offset, ← h.lexeme]
  omega

/-- In addition, of one kind. -/
structure Token.Kept (m : Text.Distance) (t t' : Token) : Prop extends t.Raised m t' where
  kind : t.kind = t'.kind

/-- A keyword may be read as a name. -/
inductive TokenKind.Lowered : TokenKind → TokenKind → Prop
  | same (k : TokenKind) : Lowered k k
  | word (k : Keyword) : Lowered (.keyword k) (.identifier k.word)

theorem TokenKind.Lowered.isContinuation (h : k.Lowered k') : k'.isContinuation = k.isContinuation := by
  cases h <;> rfl
namespace Lexeme

variable {s s' : Surroundings} {c : Char} {rest : Text}

/-- Only words and single quotes depend on the tokens before. -/
theorem read_congr (hlead : c = '%' → s'.leadsLine = s.leadsLine)
    (hquote : c = '\'' → transposes s' = transposes s)
    (hword : Name.isStart c → readWord s' (c :: rest) = readWord s (c :: rest)) :
    read s' c rest = read s c rest := by
  by_cases hstart : Name.isStart c
  · rw [read_of_isStart hstart, read_of_isStart hstart, hword hstart]
  · by_cases hc : c = '\''
    · subst hc
      show (if transposes s' = true then _ else _) = if transposes s = true then _ else _
      rw [hquote rfl]
    · by_cases hpercent : c = '%'
      · subst hpercent
        rw [read_percent, read_percent, hlead rfl]
      · simp only [read, if_neg hstart, if_neg hc, if_neg hpercent]

/-- Whether it leads its line matters only for a line that opens a block comment. -/
theorem read_lead {lead lead' starts spaced : Bool} {previous : Option TokenKind} {inner : Option Bracket}
    (h : c = '%' → lead' = lead ∨ opensBlock (Text.firstLine (c :: rest)) = false) :
    read ⟨lead', starts, spaced, previous, inner⟩ c rest =
    read ⟨lead, starts, spaced, previous, inner⟩ c rest := by
  by_cases hc : c = '%'
  · rcases h hc with rfl | hopens
    · rfl
    · subst hc
      simp only [read_percent, hopens, Bool.and_false]
  · exact read_congr (fun e => absurd e hc) (fun _ => rfl) fun _ => rfl

end Lexeme

namespace Scanner

variable {s s' next : Scanner} {past x y b tail : Text} {t : Token} {ts : List Token}

/-! ## Up to the place -/

/-- The tokens up to some blanks are those of a text that breaks off there, and they stay the same where
it goes on in another way. -/
theorem chain_lead (h : Chain step (.start (past ++ y ++ b)) ts s) (hs : s.cursor = .between past (y ++ b))
    (hy : ∀ c ∈ y, Cursor.isGap c) (hb : b ≠ []) (hcomment : ∀ u ∈ ts.getLast?, u.kind.isComment = false) :
    (∀ {tail}, Text.AtBreak tail → Chain step (.start (past ++ y ++ tail)) ts (s.upTo (y ++ tail))) ∧
      Laid none [] (ts ++ [s.tokenAt past y [] .eof]) (past ++ y) := by
  have chain {tail : Text} (htail : Text.AtBreak tail) :
      Chain step (.start (past ++ y ++ tail)) ts (s.upTo (y ++ tail)) :=
    chain_break htail h (Cursor.ofText_eq _) (by rw [hs, Cursor.between_ahead]) hy hb fun u hu h =>
      absurd (hcomment u hu) (by simp [h])
  refine ⟨chain, ?_⟩
  have hlaid : Laid none [] (ts ++ [s.tokenAt past y [] .eof]) ([] ++ (past ++ y ++ [])) := by
    refine laid_of_chain_blank (chain Text.atBreak_nil) (fun {p a} hp => ?_) (Cursor.ofText_eq _) rfl
    rw [upTo_cursor hs, append_nil] at hp
    obtain rfl : past = p := by simpa using congrArg Cursor.past hp
    obtain rfl : y = a := congrArg Cursor.ahead hp
    exact ⟨hy, rfl⟩
  rwa [nil_append, append_nil] at hlaid

/-! ## Behind the place -/

/-- Scanners of the two texts behind the line end, with the same text ahead. -/
structure Beside (m : Text.Distance) (s s' : Scanner) : Prop where
  place : ∃ past past' ahead, s.cursor = .between past ahead ∧
    s'.cursor = .between past' ahead ∧ Text.Raised m past past' ahead
  brackets : s.brackets.map (·.1) = s'.brackets.map (·.1)

variable {m : Text.Distance} {past' gap gap' after ahead' : Text} {c : Char} {l l' : Lexeme} {next' : Scanner}

theorem bracketsAfter_lowered (hk : k.Lowered k')
    {open₁ open₂ brackets : List (Bracket × Position)} (hopen : open₁.map (·.1) = open₂.map (·.1))
    {p' : Position} (h : bracketsAfter open₁ k p = .ok brackets) :
    ∃ brackets', bracketsAfter open₂ k' p' = .ok brackets' ∧ brackets.map (·.1) = brackets'.map (·.1) := by
  have hafter := Bracket.after_of_bracketsAfter h
  have hafter' : Bracket.after (open₂.map (·.1)) k' = some (brackets.map (·.1)) := by
    rw [← hopen, ← hafter]
    cases hk <;> rfl
  obtain ⟨brackets', hbrackets, hmap⟩ := bracketsAfter_of_after hafter'
  exact ⟨brackets', hbrackets, hmap.symm⟩

/-- Both scanners take the same lexeme. -/
theorem exists_step_of_lexes (h : Lexes s past gap c x after l)
    (h' : Lexes s' past' gap' c x after l') (hkind : l.kind.Lowered l'.kind)
    (hbrackets : s.brackets.map (·.1) = s'.brackets.map (·.1))
    (hlevel : Text.Level m (past ++ gap) (past' ++ gap'))
    (hraised : Text.Raised m (past ++ gap ++ c :: x) (past' ++ gap' ++ c :: x) after)
    (hstep : step s = .ok (.item t next)) :
    t.kind = l.kind ∧ ∃ t' next', step s' = .ok (.item t' next') ∧
    t'.kind = l'.kind ∧ t.Raised m t' ∧ Beside m next next' := by
  rw [step_of_lexes h] at hstep
  cases hafter : bracketsAfter s.brackets l.kind (Position.start.advance (past ++ gap)) with
  | error e =>
    rw [hafter] at hstep
    cases hstep
  | ok brackets =>
    rw [hafter] at hstep
    cases hstep
    obtain ⟨brackets', hafter', hopen⟩ := bracketsAfter_lowered hkind hbrackets hafter
    refine ⟨rfl, s'.tokenAt past' gap' (c :: x) l'.kind,
      s'.moveOn (past' ++ gap' ++ c :: x) after l'.kind brackets',
      ?_, rfl, ⟨rfl, hlevel.bytes, hlevel.start_le, hlevel.line⟩, ⟨?_, hopen⟩⟩
    · rw [step_of_lexes h', hafter']
      rfl
    · have hhidden : hiddenBy l'.kind after = hiddenBy l.kind after := by
        rw [hiddenBy, hiddenBy, hkind.isContinuation]
      rw [← hiddenBy_append l.kind after] at hraised
      refine ⟨_, _, _, rfl, ?_, hraised.append⟩
      simp only [moveOn, hhidden]

/-- The states of both scanners behind a token. -/
theorem Beside.states (hnext : Beside m next next')
    (hs : s.cursor = .between past ahead) (hs' : s'.cursor = .between past' ahead')
    (hstep : step s = .ok (.item t next)) (hstep' : step s' = .ok (.item t' next')) :
    next.startsStatement = statementAfter s.startsStatement next.brackets.isEmpty t.kind ∧
      next'.startsStatement = statementAfter s'.startsStatement next.brackets.isEmpty t'.kind ∧
      next.previous = some t.kind ∧ next'.previous = some t'.kind := by
  obtain ⟨gap, lexeme, hidden, rest, -, htook⟩ := took_of_step hs hstep
  obtain ⟨gap', lexeme', hidden', rest', -, htook'⟩ := took_of_step hs' hstep'
  have hempty : next'.brackets.isEmpty = next.brackets.isEmpty := by
    rw [← isEmpty_map, ← hnext.brackets, isEmpty_map]
  exact ⟨htook.startsStatement_eq, hempty ▸ htook'.startsStatement_eq, htook.previous_eq, htook'.previous_eq⟩

/-- Scanners in the same state that take the same token are in the same state behind it. -/
theorem Beside.same_states (hnext : Beside m next next')
    (hs : s.cursor = .between past ahead) (hs' : s'.cursor = .between past' ahead')
    (hstep : step s = .ok (.item t next)) (hstep' : step s' = .ok (.item t' next'))
    (hstatement : s.startsStatement = s'.startsStatement) (hkind : t.kind = t'.kind) :
    next.startsStatement = next'.startsStatement ∧ next.previous = next'.previous := by
  obtain ⟨hs, hs', hp, hp'⟩ := hnext.states hs hs' hstep hstep'
  exact ⟨by rw [hs, hs', hstatement, hkind], by rw [hp, hp', hkind]⟩

section

variable (h : Beside m s s')
include h

/-- What both scanners see of the next token. -/
theorem Beside.exists_read (hstep : step s = .ok (.item t next)) :
    ∃ lead spaced c rest l, Lexeme.read ⟨lead, s.startsStatement,
      spaced, s.previous, s.brackets.head?.map (·.1)⟩ c rest = .ok l ∧
      t.kind = l.kind ∧ ∀ l', Lexeme.read ⟨lead, s'.startsStatement,
        spaced, s'.previous, s.brackets.head?.map (·.1)⟩ c rest = .ok l' →
        l'.length = l.length → l.kind.Lowered l'.kind →
        ∃ t' next', step s' = .ok (.item t' next') ∧ t'.kind = l'.kind ∧
          t.Raised m t' ∧ Beside m next next' := by
  obtain ⟨past, past', ahead, hcursor, hcursor', hraised⟩ := h.place
  obtain ⟨gap, c, x, after, l, brackets, rfl, hlex, -, htoken, -⟩ := read_of_step hcursor hstep
  refine ⟨Text.isBlankEnd (past ++ gap), !gap.isEmpty, c, x ++ after,
    l, hlex.cut.read, by rw [htoken]; rfl, fun l' hread' hlength' hkind => ?_⟩
  have hraised := hraised.append
  have hsees : s'.sees past' gap = ⟨Text.isBlankEnd (past' ++ gap),
      s'.startsStatement, !gap.isEmpty, s'.previous, s.brackets.head?.map (·.1)⟩ := by
    have hinner : s'.brackets.head?.map (·.1) = s.brackets.head?.map (·.1) := by
      rw [← head?_map, ← head?_map, h.brackets]
    rw [← hinner]
    rfl
  have hlead : c = '%' → Text.isBlankEnd (past' ++ gap) = Text.isBlankEnd (past ++ gap) ∨
      Lexeme.opensBlock (Text.firstLine (c :: (x ++ after))) = false := fun _ => by
    refine hraised.blank.imp (fun hblank => ?_) id
    simpa using (hblank []).symm
  have hread' : Lexeme.read (s'.sees past' gap) c (x ++ after) = .ok l' := by
    rw [hsees, ← hread']
    exact Lexeme.read_lead hlead
  exact (exists_step_of_lexes hlex ⟨hcursor', hlex.blank, hlex.starts,
    hread', hlength'.trans hlex.cut.length⟩ hkind h.brackets
    hraised.toLevel (Text.Raised.append (t := c :: x) hraised) hstep).2

/-- Both scanners come to the end of their texts. -/
theorem Beside.exists_done {e : Token} (hdone : step s = .ok (.done e)) :
    ∃ ts', s'.Yields ts' ∧ Forall₂ (Token.Kept m) [e] ts' := by
  obtain ⟨past, past', ahead, hcursor, hcursor', hraised⟩ := h.place
  obtain ⟨hgap, rfl, hbrackets⟩ := ended_of_step hcursor hdone
  have hbrackets' : s'.brackets = [] := by
    have := h.brackets
    rw [hbrackets] at this
    exact map_eq_nil_iff.1 this.symm
  have hlevel := hraised.toLevel.append ahead
  exact ⟨_, .done (step_blank hcursor' hgap hbrackets'),
    .cons ⟨⟨rfl, hlevel.bytes, hlevel.start_le, hlevel.line⟩, rfl⟩ .nil⟩

variable (hstatement : s.startsStatement = s'.startsStatement)
include hstatement

/-- Both scanners take the same token, and are in the same state behind it. -/
theorem Beside.exists_yields_of_step
    (hstep : step s = .ok (.item t next)) (hsame : ∀ lead spaced inner c rest l,
      Lexeme.read ⟨lead, s.startsStatement, spaced, s.previous, inner⟩ c rest = .ok l →
      l.kind = t.kind → Lexeme.read ⟨lead, s'.startsStatement, spaced, s'.previous, inner⟩ c rest = .ok l)
    (hrest : ∀ next', Beside m next next' → next.startsStatement = next'.startsStatement →
      next.previous = next'.previous → ∃ ts', next'.Yields ts' ∧ Forall₂ (Token.Kept m) ts ts') :
    ∃ ts', s'.Yields ts' ∧ Forall₂ (Token.Kept m) (t :: ts) ts' := by
  obtain ⟨lead, spaced, c, rest, l, hread, hkind, hgoes⟩ := h.exists_read hstep
  obtain ⟨t', next', hstep', hkind', ht, hnext⟩ := hgoes l (hsame _ _ _ _ _ _ hread hkind.symm) rfl (.same _)
  have hkinds : t.kind = t'.kind := hkind.trans hkind'.symm
  obtain ⟨past, past', ahead, hcursor, hcursor', -⟩ := h.place
  obtain ⟨hs, hp⟩ := hnext.same_states hcursor hcursor' hstep hstep' hstatement hkinds
  obtain ⟨ts', hyields', hts⟩ := hrest next' hnext hs hp
  exact ⟨t' :: ts', .item hstep' hyields', .cons ⟨ht, hkinds⟩ hts⟩

/-- Scanners in the same state but for their places give the same tokens. -/
theorem Beside.exists_yields (hprevious : s.previous = s'.previous) (hyields : s.Yields ts) :
    ∃ ts', s'.Yields ts' ∧ Forall₂ (Token.Kept m) ts ts' := by
  induction hyields generalizing s' with
  | done hdone => exact h.exists_done hdone
  | item hstep _ ih =>
    exact h.exists_yields_of_step hstatement hstep (fun lead spaced inner c rest l hread _ => by
      rwa [← hstatement, ← hprevious]) fun _ => ih

end

end Scanner

end ClassdefDoc
