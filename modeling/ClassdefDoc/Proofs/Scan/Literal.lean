import ClassdefDoc.Proofs.LineEnd.Default
import ClassdefDoc.Proofs.LineEnd.Lexeme
import ClassdefDoc.Proofs.Scan.Cut

/-!
# Literals as they are written

A literal is written as its quote, its value with each quote in it doubled, and its quote again
(`Quote.written`). Two readers take it apart: the scanner goes forward and stops at the first
quote that is not doubled, and `Default.literal?` strips both ends first. Each accepts exactly
the written forms, `literalValue_eq_some_iff` in front of a text that does not go on with the
quote and `literal?_eq_some_iff` as a whole text, so they agree (`literal_readers_agree`).
-/

namespace ClassdefDoc

open List Text

variable {value t text : Text} {q : Quote}

theorem Text.dropLast?_eq_some_iff {c : Char} {u : Text} : dropLast? c t = some u ↔ t = u ++ [c] := by
  constructor
  · intro h
    unfold dropLast? at h
    split at h
    · rename_i d r hreverse
      split_ifs at h with hd
      rw [← Option.some.inj h, ← hd, ← reverse_cons, ← hreverse, reverse_reverse]
    · cases h
  · rintro rfl
    simp [dropLast?]

/-- Whether a quote starts a literal, and is not read as a transpose. -/
def Quote.Opens (q : Quote) (s : Surroundings) : Prop := q = .single → Lexeme.transposes s = false

/-! ## The two readers -/

namespace Default

theorem undouble?_eq_some_iff {q : Char} :
    undouble? q t = some value ↔ t = doubled q value := by
  constructor
  · intro h
    fun_induction undouble? q t generalizing value with
    | case1 => cases h; rfl
    | case2 ds ih =>
      obtain ⟨v, hv, rfl⟩ := Option.map_eq_some_iff.1 h
      rw [doubled_cons_self, ih hv]
    | case3 => cases h
    | case4 => cases h
    | case5 c cs hc ih =>
      obtain ⟨v, hv, rfl⟩ := Option.map_eq_some_iff.1 h
      rw [doubled_cons_of_ne hc, ih hv]
  · rintro rfl
    induction value with
    | nil => rfl
    | cons c value ih =>
      by_cases hc : c = q
      · rw [hc, doubled_cons_self, undouble?_doubled, ih, Option.map_some]
      · rw [doubled_cons_of_ne hc, undouble?_cons_of_ne hc, ih, Option.map_some]

theorem literal?_written (q : Quote) (value : Text) : literal? (q.written value) = some value := by
  have hquote : (q.char = '\'' || q.char = '"') := by cases q <;> rfl
  simp only [literal?, Quote.written]
  rw [if_pos hquote, Text.dropLast?_eq_some_iff.2 rfl, Option.bind_some, undouble?_eq_some_iff.2 rfl]

/-- A text is one literal if it is the written form of its value. -/
theorem literal?_eq_some_iff : literal? t = some value ↔ ∃ q :
    Quote, t = q.written value := by
  constructor
  · intro h
    unfold literal? at h
    split at h
    · rename_i c rest
      split_ifs at h with hc
      obtain ⟨inner, hinner, hvalue⟩ := Option.bind_eq_some_iff.1 h
      obtain ⟨q, rfl⟩ : ∃ q : Quote, c = q.char := by
        rcases Bool.or_eq_true_iff.1 hc with hc | hc
        · exact ⟨.single, of_decide_eq_true hc⟩
        · exact ⟨.double, of_decide_eq_true hc⟩
      exact ⟨q, by rw [Quote.written, Text.dropLast?_eq_some_iff.1 hinner, undouble?_eq_some_iff.1 hvalue]⟩
    · cases h
  · rintro ⟨q, rfl⟩
    exact literal?_written q value

end Default

/-! ## Literals among the tokens -/

namespace Lexeme

/-- Where a quote starts a literal, a written form is read as its value. -/
theorem read_written {s : Surroundings} (hs : q.Opens s)
    {rest : Text} (hvalue : '\n' ∉ value) (hrest : rest.head? ≠ some q.char) :
    read s q.char (Text.doubled q.char value ++ [q.char] ++ rest) =
      .ok ⟨.literal q value, (Text.doubled q.char value ++ [q.char]).length + 1⟩ := by
  have hopens : ¬(q = .single ∧ transposes s) := fun h => absurd (hs h.1) (by rw [h.2]; decide)
  rw [read_quote, if_neg hopens, readLiteral, tail_cons, append_assoc, singleton_append,
    literalValue_doubled q.char_ne_newline hvalue hrest, length_append, length_singleton]

end Lexeme

namespace Scanner

variable {s s' : Scanner} {past gap rest : Text} {q : Quote} {value : Text} {t : Token}

/-- A written form is taken as one token where a quote starts a literal. -/
theorem step_written (hs : s.cursor = .between past (gap ++ q.written value ++ rest))
    (hgap : ∀ c ∈ gap, Cursor.isGap c) (hopens : q.Opens (s.sees past gap)) (hvalue : '\n' ∉ value)
    (hrest : rest.head? ≠ some q.char) :
    step s = .ok (.item (s.tokenAt past gap (q.written value) (.literal q value))
      (s.moveOn (past ++ gap ++ q.written value) rest (.literal q value) s.brackets)) := by
  have hahead : s.cursor =
      .between past (gap ++ q.char :: (Text.doubled q.char value ++ [q.char] ++ rest)) := by
    rw [hs, Quote.written]
    simp
  have hquote : Cursor.isGap q.char = false := by cases q <;> rfl
  rw [step_of_lexes ⟨hahead, hgap, hquote, Lexeme.read_written hopens hvalue hrest, rfl⟩]
  rfl

/-- A literal that a step takes is a written form. -/
theorem written_of_step (hs : s.Over text) (h : step s = .ok (.item t s'))
    (hkind : t.kind = .literal q value) :
    t.lexeme = q.written value := by
  obtain ⟨past, ahead, hcursor, -⟩ := hs
  obtain ⟨gap, c, x, after, l, brackets, -, hlex, -, rfl, -⟩ := read_of_step hcursor h
  exact (Lexeme.written_of_cut hlex.cut hkind).1

/-- Nothing stands before the first token of a text that starts with it. -/
theorem opens_start (q : Quote) (text : Text) : q.Opens ((start text).sees [] []) := fun _ => rfl

end Scanner

theorem written_of_scan {tokens : List Token} (h : scan text = .ok tokens)
    {t : Token} (ht : t ∈ tokens) (hkind : t.kind = .literal q value) :
    t.lexeme = q.written value := by
  obtain ⟨before, after, rfl⟩ := append_of_mem ht
  obtain ⟨s, hchain, hdone | ⟨hstep, -⟩⟩ := exists_yields_of_scan h
  · obtain ⟨past, ahead, hcursor, -⟩ := (Scanner.over_start text).of_chain hchain
    obtain ⟨-, heof, -⟩ := Scanner.ended_of_step hcursor hdone
    rw [heof] at hkind
    cases hkind
  · exact Scanner.written_of_step ((Scanner.over_start text).of_chain hchain) hstep hkind

/-- A written form by itself is scanned to its literal. -/
theorem scan_written (q : Quote) (hvalue : '\n' ∉ value) :
    ∃ t e, scan (q.written value) = .ok [t, e] ∧ t.kind = .literal q value ∧
      t.lexeme = q.written value ∧ e.kind = .eof := by
  have hstart : (Scanner.start (q.written value)).cursor = .between [] ([] ++ q.written value ++ []) := by
    rw [nil_append, append_nil]
    rfl
  have hstep := Scanner.step_written hstart (by simp) (Scanner.opens_start q _) hvalue (by simp)
  exact ⟨_, _, scan_eq_ok_iff.2 ⟨_, _, _, .single hstep, Scanner.step_blank rfl (by simp) rfl, rfl⟩,
    rfl, rfl, rfl⟩

/-- The two readers of literals agree, and each takes back the doubling of quotes. -/
theorem literal_readers_agree :
    (∀ t value : Text, '\n' ∉ t → (Default.literal? t = some value ↔
      ∃ q tok e, scan t = .ok [tok, e] ∧ tok.kind = .literal q value ∧ tok.lexeme = t ∧ e.kind = .eof)) ∧
    (∀ text tokens, scan text = .ok tokens → ∀ tok ∈ tokens, ∀ q value, tok.kind = .literal q value →
      tok.lexeme = q.written value) ∧
    ∀ (q : Quote) (value rest : Text), '\n' ∉ value → rest.head? ≠ some q.char →
      ∀ (s : Scanner) (past gap : Text), s.cursor = .between past (gap ++ q.written value ++ rest) →
        (∀ c ∈ gap, Cursor.isGap c = true) → q.Opens (s.sees past gap) →
        ∃ tok next, Scanner.step s = .ok (.item tok next) ∧ tok.kind = .literal q value ∧
          tok.lexeme = q.written value ∧
          tok.offset = Text.bytes (past ++ gap) ∧
          next.cursor = .between (past ++ gap ++ q.written value) rest ∧
          ∀ text before tokens, Chain Scanner.step (.start text) before s → scan text = .ok tokens →
            ∃ after, tokens = before ++ tok :: after := by
  refine ⟨fun t value ht => ⟨fun h => ?_, ?_⟩,
    fun text tokens h tok htok q value => written_of_scan h htok, ?_⟩
  · obtain ⟨q, rfl⟩ := Default.literal?_eq_some_iff.1 h
    have hvalue : '\n' ∉ value := fun hmem =>
      ht (List.mem_cons_of_mem _ (List.mem_append_left _ (Text.mem_doubled.2 hmem)))
    obtain ⟨tok, e, hscan, htok⟩ := scan_written q hvalue
    exact ⟨q, tok, e, hscan, htok⟩
  · rintro ⟨q, tok, e, hscan, hkind, hlexeme, -⟩
    exact Default.literal?_eq_some_iff.2 ⟨q,
      hlexeme.symm.trans (written_of_scan hscan List.mem_cons_self hkind)⟩
  · intro q value rest hvalue hrest s past gap hs hgap hopens
    have hstep := Scanner.step_written hs hgap hopens hvalue hrest
    refine ⟨_, _, hstep, rfl, rfl, rfl, ?_, fun text before tokens hchain hscan => ?_⟩
    · simp [Scanner.moveOn, Scanner.hiddenBy, TokenKind.isContinuation]
    · obtain ⟨ts, s', e, hrun, hdone, rfl⟩ := scan_eq_ok_iff.1 hscan
      obtain ⟨after, rfl, -⟩ := (hchain.append (.single hstep)).exists_append hrun hdone
      exact ⟨after ++ [e], by simp⟩

/-- Literals of quotes between brackets, and a transpose behind them. -/
def quotesText : Text := "[a '''' \"b\"\"\"]'"

/-- The scanner of `quotesText` behind its first name. -/
def quotesScanner : Scanner where
  cursor := .between "[a" " '''' \"b\"\"\"]'"
  brackets := [(.square, .start)]
  startsStatement := false
  previous := some (.identifier "a")

def quotesLiterals : List (Quote × Text) := [(.single, "'"), (.double, "b\"")]

def TokenKind.quoted? : TokenKind → Option (Quote × Text)
  | literal q value => some (q, value)
  | _ => none

theorem literal_readers_agree_quotes :
    (∃ q tok e, scan "''''''" = .ok [tok, e] ∧ tok.kind = .literal q "''" ∧
      tok.lexeme = "''''''".toList ∧ e.kind = .eof) ∧
    ∃ tokens, scan quotesText = .ok tokens ∧ tokens.filterMap (·.kind.quoted?) = quotesLiterals ∧
      (∀ tok ∈ tokens, ∀ q value, tok.kind = .literal q value → tok.lexeme = q.written value) ∧
      ∃ tok next, Scanner.step quotesScanner = .ok (.item tok next) ∧ tok.kind = .literal .single "'" ∧
        tok.lexeme = "''''".toList ∧ ∃ before after, before.length = 2 ∧ tokens = before ++ tok :: after := by
  obtain ⟨tokens, htokens, hquoted⟩ : ∃ tokens, scan quotesText = .ok tokens ∧
      tokens.filterMap (·.kind.quoted?) = quotesLiterals := by decide +kernel
  obtain ⟨tok, next, hstep, hkind, hlexeme, -, -, hrun⟩ :=
    literal_readers_agree.2.2 .single "'" " \"b\"\"\"]'" (by decide)
    (by decide) quotesScanner "[a" " " rfl (forall_mem_singleton.2 rfl) (fun _ => rfl)
  have hbefore : ∃ before, before.length = 2 ∧ Chain Scanner.step (.start quotesText) before quotesScanner :=
    ⟨_, rfl, .cons rfl (.cons rfl (.nil _))⟩
  obtain ⟨before, hlength, hchain⟩ := hbefore
  obtain ⟨after, hafter⟩ := hrun quotesText before tokens hchain htokens
  exact ⟨(literal_readers_agree.1 _ _ (by decide)).1 (by decide +kernel),
    tokens, htokens, hquoted, literal_readers_agree.2.1 _ _ htokens,
    tok, next, hstep, hkind, hlexeme, before, after, hlength, hafter⟩

end ClassdefDoc
