import ClassdefDoc.Proofs.Collect
import ClassdefDoc.Proofs.Scan.Cursor
import ClassdefDoc.Proofs.Scan.Lookahead
import ClassdefDoc.Token.Scan

/-!
# Runs of the scanner

`step_between` computes one step of the scanner from how the text ahead is cut into blanks and the rest.
`Scanner.Took` says all that a step does when it takes a token: the blanks, the lexeme, the line end that a
continuation hides and the rest, what the token holds and what the next state is. `took_of_step` and
`ended_of_step` are the inversions of the step, and `scan_eq_ok_iff` says that `scan` succeeds with the
tokens of a run that ends.
-/

namespace ClassdefDoc.Scanner

open List Cursor Lexeme Text

variable {hidden lexeme rest text x after : Text} {t : Token} {c : Char} {l : Lexeme}

/-- What a scanner sees of the token behind `past ++ gap`. -/
def sees (s : Scanner) (past gap : Text) : Surroundings where
  leadsLine := isBlank ((past ++ gap).reverse.takeWhile (· != '\n')).reverse
  startsStatement := s.startsStatement
  spaced := !gap.isEmpty
  previous := s.previous
  innermost := s.brackets.head?.map (·.1)

/-- The token of kind `k` that stands behind `past ++ gap`. -/
def tokenAt (s : Scanner) (past gap lexeme : Text) (k : TokenKind) : Token where
  kind := k
  lexeme := lexeme
  span := ⟨Position.start.advance (past ++ gap), Position.start.advance (past ++ gap ++ lexeme)⟩
  offset := bytes (past ++ gap)
  spaced := !gap.isEmpty
  leadsLine := (s.sees past gap).leadsLine

/-- The line end that a token of kind `k` hides, when `after` follows it. -/
def hiddenBy (k : TokenKind) (after : Text) : Text := if k.isContinuation then after.take 1 else []

/-- The scanner behind a token of kind `k`, when `after` follows the lexeme. -/
def moveOn (s : Scanner) (past after : Text) (k : TokenKind) (brackets : List (Bracket × Position)) :
    Scanner where
  cursor := .between (past ++ hiddenBy k after) (after.drop (hiddenBy k after).length)
  brackets := brackets
  startsStatement := statementAfter s.startsStatement brackets.isEmpty k
  previous := some k

theorem hiddenBy_append (k : TokenKind) (after : Text) :
    hiddenBy k after ++ after.drop (hiddenBy k after).length = after := by
  unfold hiddenBy
  split_ifs
  · cases after <;> simp
  · simp

variable {s s' : Scanner} {past gap ahead : Text}

theorem cursor_after (k : TokenKind) (a b : Text) :
    (if k.isContinuation = true then (between a b).next else .between a b) =
      .between (a ++ hiddenBy k b) (b.drop (hiddenBy k b).length) := by
  unfold hiddenBy
  split_ifs
  · cases b <;> simp
  · simp

/-- One step, when `gap` are the blanks ahead and `text` follows them. -/
theorem step_between (hs : s.cursor = .between past (gap ++ text)) (hgap : ∀ c ∈ gap, isGap c)
    (htext : ∀ c, text.head? = some c → isGap c = false) :
    step s = match text with
      | [] =>
        match s.brackets with
        | [] => .ok (.done (s.tokenAt past gap [] .eof))
        | (b, p) :: _ => .error ⟨.unclosed b, p⟩
      | c :: rest =>
        match read (s.sees past gap) c rest with
        | .error e => .error ⟨e, Position.start.advance (past ++ gap)⟩
        | .ok l =>
          match bracketsAfter s.brackets l.kind (Position.start.advance (past ++ gap)) with
          | .error e => .error e
          | .ok brackets =>
            .ok (.item (s.tokenAt past gap (text.take l.length) l.kind)
              (s.moveOn (past ++ gap ++ text.take l.length) (text.drop l.length) l.kind brackets)) := by
  have htake : (gap ++ text).takeWhile isGap = gap := takeWhile_append_stop hgap htext
  have hdrop : (gap ++ text).dropWhile isGap = text := dropWhile_append_stop hgap htext
  have hspaced : ((between past (gap ++ text)).gap != 0) = !gap.isEmpty := by
    simp only [Cursor.gap, between_ahead, htake]
    cases gap <;> rfl
  have hsees (rest : Text) : s.surroundings (.between (past ++ gap) rest)
      ((between past (gap ++ text)).gap != 0) = s.sees past gap := by
    simp only [surroundings, sees, startOfLine_between, hspaced]
  cases text with
  | nil =>
    simp only [step, hs, skipGap_between, htake, hdrop, between_ahead]
    cases s.brackets with
    | nil =>
      simp only [tokenBetween, hspaced, between_ahead, between_position,
        between_offset, take_nil, spanFrom, startOfLine_between]
      simp only [tokenAt, sees, append_nil]
    | cons => rfl
  | cons c rest =>
    simp only [step, hs, skipGap_between, htake, hdrop, between_ahead, hsees]
    cases read (s.sees past gap) c rest with
    | error e => rfl
    | ok l =>
      simp only [Except.mapError, bind, Except.bind, between_position]
      cases bracketsAfter s.brackets l.kind (Position.start.advance (past ++ gap)) with
      | error e => rfl
      | ok brackets =>
        simp only [advance_between, cursor_after, tokenBetween, spanFrom, hspaced,
          between_ahead, between_position, between_offset, tokenAt, moveOn, sees,
          startOfLine_between]

/-- A text ahead is cut into blanks and what follows them. -/
theorem exists_gap (ahead : Text) : ∃ gap text, ahead = gap ++ text ∧
    (∀ c ∈ gap, isGap c) ∧ ∀ c, text.head? = some c → isGap c = false :=
  ⟨ahead.takeWhile isGap, ahead.dropWhile isGap, takeWhile_append_dropWhile.symm,
    fun _ => mem_takeWhile_imp, fun _ => not_of_head?_dropWhile⟩

/-- Behind `past` and `gap` the scanner reads the lexeme `l`, which is `c :: x`. -/
structure Lexes (s : Scanner) (past gap : Text) (c : Char) (x after : Text) (l : Lexeme) : Prop where
  cursor : s.cursor = .between past (gap ++ c :: (x ++ after))
  blank : ∀ c ∈ gap, isGap c
  starts : isGap c = false
  cut : Cut (s.sees past gap) c x after l

/-- What one step reads when it takes a token. -/
theorem read_of_step (hs : s.cursor = .between past ahead) (h : step s = .ok (.item t s')) :
    ∃ gap c x after l brackets, ahead = gap ++ c :: (x ++ after) ∧ Lexes s past gap c x after l ∧
      bracketsAfter s.brackets l.kind (Position.start.advance (past ++ gap)) = .ok brackets ∧
      t = s.tokenAt past gap (c :: x) l.kind ∧
      s' = s.moveOn (past ++ gap ++ c :: x) after l.kind brackets := by
  obtain ⟨gap, text, rfl, hgap, htext⟩ := exists_gap ahead
  rw [step_between hs hgap htext] at h
  cases text with
  | nil =>
    simp only at h
    split at h <;> cases h
  | cons c text =>
    simp only at h
    split at h
    · cases h
    · rename_i l hread
      split at h
      · cases h
      · rename_i brackets hbrackets
        obtain ⟨x, after, rfl, hcut⟩ := exists_cut_of_read hread
        rw [hcut.length, take_succ_cons, take_left, drop_succ_cons, drop_left] at h
        cases h
        exact ⟨gap, c, x, after, l, brackets, rfl, ⟨hs, hgap, htext c rfl, hcut⟩, hbrackets, rfl, rfl⟩

/-- A step takes the lexeme that is read, unless its bracket does not match. -/
theorem step_of_lexes (h : Lexes s past gap c x after l) :
    step s = (bracketsAfter s.brackets l.kind (Position.start.advance (past ++ gap))).map fun brackets =>
      .item (s.tokenAt past gap (c :: x) l.kind)
      (s.moveOn (past ++ gap ++ c :: x) after l.kind brackets) := by
  have htext : ∀ d, (c :: (x ++ after)).head? = some d → isGap d = false := by
    intro d hd
    rw [← Option.some.inj hd, h.starts]
  rw [step_between h.cursor h.blank htext]
  simp only [h.cut.read, h.cut.length, take_succ_cons, take_left, drop_succ_cons, drop_left]
  cases bracketsAfter s.brackets l.kind (Position.start.advance (past ++ gap)) <;> rfl

theorem moveOn_cursor {k : TokenKind} (hk : k.isContinuation = false)
    (s : Scanner) (past after : Text) (brackets : List (Bracket × Position)) :
    (s.moveOn past after k brackets).cursor = .between past after := by
  simp [moveOn, hiddenBy, hk]

theorem step_newline (hs : s.cursor = .between past (gap ++ '\n' :: ahead)) (hgap : ∀ c ∈ gap, isGap c) :
    step s = .ok (.item (s.tokenAt past gap ['\n'] .newline)
      (s.moveOn (past ++ gap ++ ['\n']) ahead .newline s.brackets)) :=
  step_of_lexes (x := []) ⟨hs, hgap, rfl, rfl, rfl⟩

/-- The end of a text in which no bracket is open gives the last token. -/
theorem step_blank (hs : s.cursor = .between past gap) (hgap : ∀ c ∈ gap, isGap c)
    (hbrackets : s.brackets = []) :
    step s = .ok (.done (s.tokenAt past gap [] .eof)) := by
  have hahead : s.cursor = .between past (gap ++ []) := by rw [hs, append_nil]
  rw [step_between hahead hgap (by simp)]
  simp only [hbrackets]

/-- The scanner, which stands behind `past`, takes the token `t`: the text ahead is `gap`, the lexeme,
the line end that a continuation hides, and the rest. -/
structure Took (s : Scanner) (past gap lexeme hidden rest : Text) (t : Token) (s' : Scanner) : Prop where
  blank : ∀ c ∈ gap, isGap c
  starts : ∀ c, lexeme.head? = some c → isGap c = false
  reads : Reads (s.sees past gap) t.kind lexeme (hidden ++ rest)
  hides : hidden = hiddenBy t.kind (hidden ++ rest)
  token_eq : t = s.tokenAt past gap lexeme t.kind
  cursor_eq : s'.cursor = .between (past ++ gap ++ lexeme ++ hidden) rest
  brackets_eq : bracketsAfter s.brackets t.kind t.span.start = .ok s'.brackets
  startsStatement_eq : s'.startsStatement = statementAfter s.startsStatement s'.brackets.isEmpty t.kind
  previous_eq : s'.previous = some t.kind

/-- What the token before hides at the start of the text behind it. -/
def Hides (k : Option TokenKind) (hidden ahead : Text) : Prop :=
  if k.any (·.isContinuation) then hidden = ['\n'] ∨ (hidden = [] ∧ ahead = []) else hidden = []

section

variable (h : Took s past gap lexeme hidden rest t s')
include h

theorem Took.hides_of : Hides (some t.kind) hidden rest := by
  have hhidden := h.hides
  have hreads := h.reads
  unfold hiddenBy at hhidden
  unfold Hides
  simp only [Option.any_some]
  split_ifs at hhidden ⊢ with hk
  · -- only a continuation hides a line end, and it reaches up to one or to the end of the text
    cases hkind : t.kind with
    | continuation body =>
      rw [hkind] at hreads
      cases hreads with
      | continuation _ hline =>
        cases hafter : hidden ++ rest with
        | nil => exact .inr (append_eq_nil_iff.1 hafter)
        | cons c after =>
          rw [hafter] at hhidden hline
          rw [hhidden, hline c rfl]
          exact .inl rfl
    | _ => rw [hkind] at hk; simp [TokenKind.isContinuation] at hk
  · exact hhidden

theorem Took.hidden_eq : hidden = [] ∨ hidden = ['\n'] := by
  have hhides := h.hides_of
  unfold Hides at hhides
  split_ifs at hhides
  · exact hhides.symm.imp_left And.left
  · exact .inl hhides

theorem Took.hidden_eq_nil (hk : t.kind.isContinuation = false) : hidden = [] := by
  rw [h.hides, hiddenBy, hk, if_neg (by decide)]

theorem Took.newline (hk : t.kind = .newline) : lexeme = ['\n'] ∧ hidden = [] := by
  have hreads := h.reads
  rw [hk] at hreads
  refine ⟨?_, h.hidden_eq_nil (by rw [hk]; rfl)⟩
  cases hreads
  rfl

theorem Took.lexeme_eq : t.lexeme = lexeme := by rw [h.token_eq]; rfl

theorem Took.offset_eq : t.offset = bytes (past ++ gap) := by
  rw [h.token_eq]; rfl

theorem Took.endOffset_eq : t.endOffset = bytes (past ++ gap ++ lexeme) := by
  rw [Token.endOffset, h.offset_eq, h.lexeme_eq, bytes_append (past ++ gap)]

end

section

variable (hs : s.cursor = .between past ahead)
include hs

/-- What one step does when it takes a token. -/
theorem took_of_step (h : step s = .ok (.item t s')) :
    ∃ gap lexeme hidden rest, ahead = gap ++ lexeme ++ hidden ++ rest ∧
      Took s past gap lexeme hidden rest t s' := by
  obtain ⟨gap, c, x, after, l, brackets, rfl, hlex, hbrackets, rfl, rfl⟩ := read_of_step hs h
  have hreads := reads_of_cut hlex.cut
  refine ⟨gap, c :: x, hiddenBy l.kind after, after.drop (hiddenBy l.kind after).length, ?_,
    ⟨hlex.blank, fun d hd => Option.some.inj hd ▸ hlex.starts, ?_, ?_, rfl, rfl, hbrackets, rfl, rfl⟩⟩
  · rw [append_assoc, hiddenBy_append, append_assoc, cons_append]
  · rwa [hiddenBy_append]
  · rw [hiddenBy_append]
    rfl

/-- What the last step does. -/
theorem ended_of_step {e : Token} (h : step s = .ok (.done e)) :
    (∀ c ∈ ahead, isGap c) ∧ e = s.tokenAt past ahead [] .eof ∧ s.brackets = [] := by
  obtain ⟨gap, text, rfl, hgap, htext⟩ := exists_gap ahead
  rw [step_between hs hgap htext] at h
  cases text with
  | nil =>
    simp only at h
    split at h
    · rename_i hbrackets
      cases h
      rw [append_nil]
      exact ⟨hgap, rfl, hbrackets⟩
    · cases h
  | cons c text =>
    simp only at h
    split at h
    · cases h
    · split at h <;> cases h

/-- A step that takes a token leaves less text ahead. -/
theorem length_ahead_lt_of_step
    (h : step s = .ok (.item t s')) : s'.cursor.ahead.length < s.cursor.ahead.length := by
  obtain ⟨gap, lexeme, hidden, rest, rfl, htook⟩ := took_of_step hs h
  have := length_pos_iff.2 htook.reads.ne_nil
  rw [htook.cursor_eq, hs]
  simp only [between_ahead, length_append]
  omega

end

/-! ## Runs over a text -/

/-- The scanner stands in `text`. -/
def Over (text : Text) (s : Scanner) : Prop :=
  ∃ past ahead, s.cursor = .between past ahead ∧ past ++ ahead = text

theorem over_start (text : Text) : Over text (start text) := ⟨[], text, rfl, rfl⟩

theorem Over.of_step (hs : Over text s) (h : step s = .ok (.item t s')) : Over text s' := by
  obtain ⟨past, ahead, hcursor, rfl⟩ := hs
  obtain ⟨gap, lexeme, hidden, rest, rfl, htook⟩ := took_of_step hcursor h
  exact ⟨_, _, htook.cursor_eq, by simp only [append_assoc]⟩

theorem Over.of_chain {ts : List Token} (hs : Over text s) (h : Chain step s ts s') : Over text s' :=
  h.keeps Over.of_step hs

end ClassdefDoc.Scanner

namespace ClassdefDoc

/-- Scanning succeeds with the tokens of a run that ends. -/
theorem scan_eq_ok_iff {text : Text} {tokens : List Token} :
    scan text = .ok tokens ↔ ∃ ts s e, Chain Scanner.step (Scanner.start text) ts s ∧
      Scanner.step s = .ok (.done e) ∧ tokens = ts ++ [e] := by
  constructor
  · intro h
    cases hrun : collect ⟨.broken .tokens, .start⟩ Scanner.step (text.length + 1) (Scanner.start text) with
    | error f => simp [scan, hrun, Except.map] at h
    | ok r =>
      simp only [scan, hrun, Except.map, Except.ok.injEq] at h
      have hcollected : Collected Scanner.step (Scanner.start text) r.1 r.2 := collected_of_collect hrun
      obtain ⟨s, hchain, hdone⟩ := hcollected.chain
      exact ⟨r.1, s, r.2, hchain, hdone, h.symm⟩
  · rintro ⟨ts, s, e, hchain, hdone, rfl⟩
    have hrun := hchain.collected hdone
    have hlen : ts.length ≤ text.length :=
      hrun.length_le (fun s => s.cursor.ahead.length) (Scanner.over_start text) fun hs hstep => by
        obtain ⟨past, ahead, hcursor, -⟩ := id hs
        exact ⟨hs.of_step hstep, Scanner.length_ahead_lt_of_step hcursor hstep⟩
    rw [scan, hrun.collect_eq (Nat.lt_succ_of_le hlen)]
    rfl

end ClassdefDoc
