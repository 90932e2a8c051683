import ClassdefDoc.Proofs.Scan.Insert

/-!
# Scanning at the end of a statement

Nothing that a scanner keeps reaches over a line end outside brackets. Behind such a line end the scanner
of a longer text is in the state of one that starts there, but for the places of what it has read
(`Scanner.After`), and a step keeps this (`After.step`). So the tokens of two texts, one behind the other,
are those of the first and then those of the second, moved down by the lines of the first (`scan_append`).
-/

namespace ClassdefDoc

open List Text Lexeme

/-! ## Places behind a text -/

/-- The position in a text, when the lines of `a` stand above it. -/
def Position.behind (a : Text) (p : Position) : Position := ⟨p.line + a.count '\n', p.column⟩

/-- The token of a text, when `a` stands before the text. -/
def Token.behind (a : Text) (t : Token) : Token :=
  { t with
    span := ⟨t.span.start.behind a, t.span.stop.behind a⟩
    offset := t.offset + bytes a }

/-- The cause of a fault in a text, when `a` stands before the text: it may
name the position of an open bracket. -/
def Cause.behind (a : Text) : Cause → Cause
  | mismatched closing opened openedAt => mismatched closing opened (openedAt.behind a)
  | cause => cause

def Fault.behind (a : Text) (f : Fault) : Fault := ⟨f.cause.behind a, f.position.behind a⟩

theorem Cause.kind_behind (a : Text) (c : Cause) : (c.behind a).kind = c.kind := by cases c <;> rfl

namespace Position

variable {a : Text}

theorem advance_behind (p : Position) (t : Text) : (p.behind a).advance t = (p.advance t).behind a := by
  induction t generalizing p with
  | nil => rfl
  | cons c t ih =>
    have hnext : (p.behind a).next c = (p.next c).behind a := by
      unfold next
      split_ifs
      · exact congrArg (Position.mk · 1) (Nat.add_right_comm ..)
      · rfl
    rw [advance_cons, advance_cons, hnext, ih]

/-- Behind a line end positions are counted as in a text that starts there. -/
theorem start_advance_append (ha : a.getLast? = some '\n') (t : Text) :
    start.advance (a ++ t) = (start.advance t).behind a := by
  obtain ⟨lines, rfl⟩ := getLast?_eq_some_iff.1 ha
  have hend : start.advance (lines ++ ['\n']) = start.behind (lines ++ ['\n']) := by
    have hline := line_advance start (lines ++ ['\n'])
    rw [advance_append] at hline ⊢
    exact congrArg (Position.mk · 1) hline
  rw [advance_append, hend, advance_behind]

end Position

/-! ## Scanners behind a text -/

namespace Scanner

/-- The second scanner has read `a` before what the first one has read, and is in the same state. -/
structure After (a : Text) (s s' : Scanner) : Prop where
  place : ∃ past ahead, s.cursor = .between past ahead ∧ s'.cursor = .between (a ++ past) ahead
  brackets : s'.brackets = s.brackets.map fun b => (b.1, b.2.behind a)
  startsStatement : s'.startsStatement = s.startsStatement
  previous : s'.previous.any (·.endsOperand) = s.previous.any (·.endsOperand)

variable {a past gap lexeme : Text} {s s' : Scanner} {k : TokenKind} {ts : List Token}

theorem bracketsAfter_behind (brackets : List (Bracket × Position)) (k : TokenKind) (p : Position) :
    bracketsAfter (brackets.map fun b => (b.1, b.2.behind a)) k (p.behind a) =
      match bracketsAfter brackets k p with
      | .error f => .error (f.behind a)
      | .ok brackets => .ok (brackets.map fun b => (b.1, b.2.behind a)) := by
  cases k with
  | delimiter d =>
    cases d with
    | opening b => rfl
    | closing b =>
      cases brackets with
      | nil => rfl
      | cons o brackets =>
        simp only [bracketsAfter, map_cons]
        split_ifs <;> rfl
    | comma | semicolon => rfl
  | _ => rfl

theorem leadsLine_behind (ha : a.getLast? = some '\n') (past gap : Text) :
    (s'.sees (a ++ past) gap).leadsLine = (s.sees past gap).leadsLine := by
  obtain ⟨lines, rfl⟩ := getLast?_eq_some_iff.1 ha
  have hline : isBlankEnd (lines ++ '\n' :: (past ++ gap)) = isBlankEnd ([] ++ '\n' :: (past ++ gap)) :=
    isBlankEnd_append_cons (.inr rfl) ..
  have hstart : isBlankEnd ('\n' :: (past ++ gap)) = isBlankEnd (past ++ gap) := by
    rw [isBlankEnd, isBlankEnd, reverse_cons, takeWhile_append]
    split_ifs with hlength
    · rw [(takeWhile_sublist _).eq_of_length hlength]
      simp
    · rfl
  show isBlankEnd _ = isBlankEnd _
  rw [← hstart, ← nil_append ('\n' :: (past ++ gap)), ← hline]
  simp

theorem tokenAt_behind (s s' : Scanner) (ha : a.getLast? = some '\n')
    (past gap lexeme : Text) (k : TokenKind) :
    s'.tokenAt (a ++ past) gap lexeme k = (s.tokenAt past gap lexeme k).behind a := by
  simp only [tokenAt, Token.behind, leadsLine_behind (s := s) ha,
    append_assoc a, Position.start_advance_append ha, bytes_append a]
  rw [Nat.add_comm]

theorem cause_behind_of_read {sight : Surroundings} {c : Char}
    {rest : Text} {e : Cause} (h : Lexeme.read sight c rest = .error e) :
    e.behind a = e := by
  rcases read_error_cases h with ⟨-, -, h⟩ | ⟨q, -, -, h⟩
  · unfold readBlockComment at h
    split at h
    · split at h <;> cases h
      rfl
    · cases h
      rfl
  · unfold readLiteral at h
    split at h <;> cases h
    rfl

/-- Both scanners read the same. -/
theorem After.read (ha : a.getLast? = some '\n') (h : After a s s')
    (past gap : Text) (c : Char) (rest : Text) :
    Lexeme.read (s'.sees (a ++ past) gap) c rest = Lexeme.read (s.sees past gap) c rest := by
  have hinner : (s'.sees (a ++ past) gap).innermost = (s.sees past gap).innermost := by
    show s'.brackets.head?.map (·.1) = s.brackets.head?.map (·.1)
    rw [h.brackets, head?_map, Option.map_map]
    rfl
  have hstatement : (s'.sees (a ++ past) gap).startsStatement = (s.sees past gap).startsStatement :=
    h.startsStatement
  refine read_congr (fun _ => leadsLine_behind ha past gap) (fun _ => ?_) fun _ => ?_
  · have hprevious : (s'.sees (a ++ past) gap).previous.any (·.endsOperand) =
        (s.sees past gap).previous.any (·.endsOperand) := h.previous
    simp only [transposes, hinner, hstatement, hprevious]
    rfl
  · simp only [readWord, hinner, hstatement]

/-- What both scanners do next. -/
theorem After.step (ha : a.getLast? = some '\n') (h : After a s s') :
    match step s with
    | .error f => Scanner.step s' = .error (f.behind a)
    | .ok (.done e) => Scanner.step s' = .ok (.done (e.behind a))
    | .ok (.item t next) =>
      ∃ next', Scanner.step s' = .ok (.item (t.behind a) next') ∧ After a next next' := by
  obtain ⟨past, ahead, hcursor, hcursor'⟩ := h.place
  obtain ⟨gap, text, rfl, hgap, htext⟩ := exists_gap ahead
  have hplace : Position.start.advance (a ++ past ++ gap) =
      (Position.start.advance (past ++ gap)).behind a := by
    rw [append_assoc, Position.start_advance_append ha]
  rw [step_between hcursor hgap htext, step_between hcursor' hgap htext]
  cases text with
  | nil =>
    simp only [h.brackets]
    cases s.brackets with
    | nil => exact congrArg (Except.ok ∘ Turn.done) (tokenAt_behind s s' ha past gap [] .eof)
    | cons b brackets => rfl
  | cons c text =>
    simp only [h.read ha, h.brackets, hplace]
    cases hread : Lexeme.read (s.sees past gap) c text with
    | error e => exact congrArg (fun e => Except.error (Fault.mk e _)) (cause_behind_of_read hread).symm
    | ok l =>
      simp only [bracketsAfter_behind]
      cases bracketsAfter s.brackets l.kind (Position.start.advance (past ++ gap)) with
      | error f => rfl
      | ok brackets =>
        have htoken := tokenAt_behind s s' ha past gap ((c :: text).take l.length) l.kind
        refine ⟨_, congrArg (fun t => Except.ok (Turn.item t _)) htoken, ⟨⟨_, _, rfl, ?_⟩, rfl, ?_, rfl⟩⟩
        · simp only [moveOn, append_assoc]
        · simp only [moveOn, h.startsStatement, isEmpty_map]

/-- What both scanners give up to the end of their texts. -/
theorem After.collect (stuck : Fault) {m n : Nat} (ha : a.getLast? = some '\n')
    (h : After a s s') (hm : s.cursor.ahead.length < m) (hn : s'.cursor.ahead.length < n) :
    collect stuck Scanner.step n s' = match ClassdefDoc.collect stuck Scanner.step m s with
      | .error f => .error (f.behind a)
      | .ok (ts, e) => .ok (ts.map (·.behind a), e.behind a) := by
  induction m generalizing n s s' with
  | zero => omega
  | succ m ih =>
    obtain ⟨n, rfl⟩ : ∃ k, n = k + 1 := ⟨n - 1, by omega⟩
    obtain ⟨past, ahead, hcursor, hcursor'⟩ := h.place
    have hturn := h.step ha
    simp only [ClassdefDoc.collect]
    cases hstep : Scanner.step s with
    | error f =>
      rw [hstep] at hturn
      simp only [hturn]
    | ok turn =>
      cases turn with
      | done e =>
        rw [hstep] at hturn
        simp only [hturn]
        rfl
      | item t next =>
        rw [hstep] at hturn
        obtain ⟨next', hstep', hnext⟩ := hturn
        have hlt := length_ahead_lt_of_step hcursor hstep
        have hlt' := length_ahead_lt_of_step hcursor' hstep'
        simp only [hstep', ih (n := n) hnext (by omega) (by omega)]
        cases ClassdefDoc.collect stuck Scanner.step m next with
        | error f => rfl
        | ok r => rfl

/-- The scanner behind the tokens of a text that ends with a line end token, when the text goes on. -/
theorem exists_chain_append {e : Token} (hscan : scan a = .ok (ts ++ [e]))
    (ha : a.getLast? = some '\n') (hlast : ts.getLast?.map (·.kind) = some .newline) (b : Text) :
    ∃ s, Chain step (.start (a ++ b)) ts s ∧ s.cursor = .between a b ∧ After a (.start b) s := by
  obtain ⟨ts', s, e', hchain, hdone, htokens⟩ := scan_eq_ok_iff.1 hscan
  obtain ⟨rfl, -⟩ := append_inj' htokens rfl
  obtain ⟨newline, hnewline, hkind⟩ := Option.map_eq_some_iff.1 hlast
  obtain ⟨ts, rfl⟩ := getLast?_eq_some_iff.1 hnewline
  obtain ⟨s₀, hbefore, hstep⟩ := hchain.of_append
  obtain ⟨past, ahead, hcursor, rfl⟩ := (over_start a).of_chain hbefore
  cases hstep with
  | cons hstep hnil =>
    cases hnil
    obtain ⟨gap, lexeme, hidden, rest, rfl, htook⟩ := took_of_step hcursor hstep
    obtain ⟨hrest, -, hbrackets⟩ := ended_of_step htook.cursor_eq hdone
    obtain ⟨rfl, rfl⟩ := htook.newline hkind
    -- only blanks follow the last token, and the text ends with a line end
    obtain rfl : rest = [] := by
      rcases eq_nil_or_concat rest with rfl | ⟨init, c, rfl⟩
      · rfl
      · have hc : c = '\n' := by
          rw [concat_eq_append, ← append_assoc, ← append_assoc, getLast?_concat] at ha
          exact Option.some.inj ha
        have hblank := hrest c (by simp)
        rw [hc] at hblank
        cases hblank
    have htext : past ++ (gap ++ ['\n'] ++ [] ++ []) = past ++ gap ++ ['\n'] := by simp
    have htext' : past ++ (gap ++ ['\n'] ++ [] ++ []) ++ b = past ++ gap ++ '\n' :: b := by simp
    have hend : AtLineEnd ('\n' :: b) := fun c hc => (Option.some.inj hc).symm
    have hchain' : Chain step (.start (past ++ gap ++ '\n' :: b)) ts (s₀.upTo (gap ++ '\n' :: b)) := by
      rw [htext] at hbefore
      exact chain_break hend.atBreak hbefore (Cursor.ofText_eq _)
        (by rw [hcursor]; simp) htook.blank (by simp) fun _ _ _ => hend
    have hnewline' : step (s₀.upTo (gap ++ '\n' :: b)) =
        .ok (.item newline (s₀.moveOn (past ++ gap ++ ['\n']) b .newline s₀.brackets)) := by
      rw [htook.token_eq, hkind]
      exact step_newline (upTo_cursor hcursor (gap ++ '\n' :: b)) htook.blank
    have hopen : s₀.brackets = [] := by
      have hafter := htook.brackets_eq
      rw [hkind, hbrackets] at hafter
      exact Except.ok.inj hafter
    rw [htext', htext]
    have hcursor' : (s₀.moveOn (past ++ gap ++ ['\n']) b .newline s₀.brackets).cursor =
        .between (past ++ gap ++ ['\n']) b := moveOn_cursor rfl ..
    refine ⟨_, hchain'.append (.single hnewline'), hcursor', ⟨⟨[], b, rfl, ?_⟩, hopen, ?_, rfl⟩⟩
    · rw [hcursor', append_nil]
    · show statementAfter s₀.startsStatement s₀.brackets.isEmpty .newline = true
      rw [hopen]
      exact Bool.or_true _

/-- Each token of a run takes at least one character. -/
theorem length_add_le_of_chain {text : Text} (hs : s.Over text) (h : Chain step s ts s') :
    ts.length + s'.cursor.ahead.length ≤ s.cursor.ahead.length := by
  induction h with
  | nil => simp
  | cons hstep _ ih =>
    obtain ⟨past, ahead, hcursor, -⟩ := id hs
    have hlt := length_ahead_lt_of_step hcursor hstep
    have hle := ih (hs.of_step hstep)
    simp only [length_cons]
    omega

end Scanner

theorem Token.behind_nil (t : Token) : t.behind [] = t := rfl

theorem Fault.behind_nil (f : Fault) : f.behind [] = f := by
  obtain ⟨cause, position⟩ := f
  cases cause <;> rfl

/-- A text may be scanned in two parts, where the first one is empty or ends
with a line end that is a token. -/
theorem scan_append {a b : Text} {ts : List Token} {e : Token} (hscan : scan a = .ok (ts ++ [e]))
    (hend : a = [] ∨ a.getLast? = some '\n' ∧ ts.getLast?.map (·.kind) = some .newline) :
    (∀ us, scan b = .ok us → scan (a ++ b) = .ok (ts ++ us.map (·.behind a))) ∧
      ∀ f, scan b = .error f → scan (a ++ b) = .error (f.behind a) ∧
        (f.behind a).cause.kind = f.cause.kind := by
  rcases hend with rfl | ⟨ha, hlast⟩
  · obtain rfl : ts = [] := by
      have hnil : scan [] = .ok ([] ++ [(Scanner.start []).tokenAt [] [] [] .eof]) := rfl
      exact (List.append_inj' (Except.ok.inj (hscan.symm.trans hnil)) rfl).1
    refine ⟨fun us hus => ?_, fun f hf => ⟨?_, f.cause.kind_behind []⟩⟩
    · simpa [Token.behind_nil] using hus
    · simpa [Fault.behind_nil] using hf
  · obtain ⟨s, hchain, hcursor, hafter⟩ := Scanner.exists_chain_append hscan ha hlast b
    have hahead : s.cursor.ahead.length = b.length := by rw [hcursor]; rfl
    have hlength := Scanner.length_add_le_of_chain (Scanner.over_start (a ++ b)) hchain
    obtain ⟨n, hn⟩ := Nat.exists_eq_add_of_le (Nat.le_of_add_right_le hlength)
    have hbudget : (a ++ b).length + 1 = ts.length + (n + 1) := congrArg (· + 1) hn
    have hrest := hafter.collect ⟨.broken .tokens, .start⟩ ha (Nat.lt_succ_self b.length)
      (show _ < n + 1 by omega)
    have happend : scan (a ++ b) = (collect ⟨.broken .tokens, .start⟩ Scanner.step (n + 1) s).map fun r =>
        ts ++ r.1 ++ [r.2] := by
      rw [scan, hbudget, hchain.collect_append]
      cases collect ⟨.broken .tokens, .start⟩ Scanner.step (n + 1) s <;> rfl
    rw [happend, hrest, scan]
    cases collect ⟨.broken .tokens, .start⟩ Scanner.step (b.length + 1) (Scanner.start b) with
    | error f =>
      refine ⟨(by rintro _ ⟨⟩), fun f' hf => ?_⟩
      cases hf
      exact ⟨rfl, f.cause.kind_behind a⟩
    | ok r =>
      refine ⟨fun us hus => ?_, by rintro _ ⟨⟩⟩
      cases hus
      simp [Except.map]

/-- The position of the open bracket that a cause names is moved down, too. -/
theorem scan_append_mismatched :
    ∃ ts e, scan "f(1)' % one\n" = .ok (ts ++ [e]) ∧ ts.getLast?.map (·.kind) = some .newline ∧
    scan "g(]" = .error ⟨.mismatched .square .paren ⟨1, 2⟩, ⟨1, 3⟩⟩ ∧
    scan ("f(1)' % one\n".toList ++ "g(]".toList) = .error ⟨.mismatched .square .paren ⟨2, 2⟩, ⟨2, 3⟩⟩ := by
  have hsecond : scan "g(]" = .error ⟨.mismatched .square .paren ⟨1, 2⟩, ⟨1, 3⟩⟩ := by decide +kernel
  obtain ⟨us, hscan, hlast⟩ : ∃ us, scan "f(1)' % one\n" = .ok us ∧
      us.dropLast.getLast?.map (·.kind) = some .newline := by decide +kernel
  obtain ⟨ts, s, e, -, -, rfl⟩ := scan_eq_ok_iff.1 hscan
  rw [List.dropLast_concat] at hlast
  exact ⟨ts, e, hscan, hlast, hsecond, ((scan_append hscan (.inr ⟨by decide, hlast⟩)).2 _ hsecond).1⟩

end ClassdefDoc
