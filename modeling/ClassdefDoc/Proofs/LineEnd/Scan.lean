import ClassdefDoc.Proofs.LineEnd.Lexeme
import ClassdefDoc.Proofs.Parse.Twin
import ClassdefDoc.Proofs.Scan.Cut

/-!
# Scanning a text and its form with carriage returns

The scanners of the two texts run in step: they stand at corresponding places (`Scanner.InStep`), take tokens
that are alike and move on to corresponding places again (`Scanner.agree_step`), or stop with the same fault.
So the tokens of the two texts are alike (`agree_scan`), and so are their classes (`ClassDecl.agree_parse`).
-/

namespace ClassdefDoc

open List Lexeme
open Cursor (isGap)

variable {K : Likeness} {k k' : TokenKind}

namespace Text

/-- What follows behind blanks, at corresponding places: nothing, a line end, or a character of the line. -/
inductive Faces : Text → Text → Text → Text → Prop
  | ends {past} : Faces past [] (crlf past) []
  | newline {past rest} : Faces past ('\n' :: rest) (crlf past ++ ['\r']) ('\n' :: crlf rest)
  | inLine {past c rest} : c ≠ '\n' → Faces past (c :: rest) (crlf past) (c :: crlf rest)

variable {past ahead past' ahead' : Text}

theorem Faces.abreast (h : Faces past ahead past' ahead') : Abreast past ahead past' ahead' := by
  cases h with
  | ends => exact .even
  | newline => exact .skew
  | inLine hc =>
    rw [← crlf_cons_of_ne hc]
    exact .even

theorem newline_notMem_gap {gap : Text} (h : ∀ c ∈ gap, isGap c) : '\n' ∉ gap :=
  fun hmem => absurd (h _ hmem) (by decide)

/-- Blanks at corresponding places: they are the same, except that those
before a line end take up its return. -/
theorem Abreast.exists_gap (h : Abreast past ahead past' ahead') :
    ∃ gap text gap' text', ahead = gap ++ text ∧ ahead' = gap' ++ text' ∧ (∀ c ∈ gap, isGap c) ∧
      (∀ c, text.head? = some c → isGap c = false) ∧ (∀ c ∈ gap', isGap c) ∧
      (∀ c, text'.head? = some c → isGap c = false) ∧ Faces (past ++ gap) text (past' ++ gap') text' ∧
      (text.head? ≠ some '\n' → gap' = gap) := by
  have hreturn : isGap '\n' = false := by decide
  cases h with
  | @skew rest =>
    refine ⟨[], '\n' :: rest, [], '\n' :: crlf rest, rfl,
      rfl, by simp, by simpa, by simp, by simpa, ?_, fun _ => rfl⟩
    rw [append_nil, append_nil]
    exact .newline
  | even =>
    obtain ⟨gap, text, rfl, hgap, htext⟩ := Scanner.exists_gap ahead
    have hcrlf : crlf gap = gap := crlf_of_notMem (newline_notMem_gap hgap)
    have hpast : crlf past ++ gap = crlf (past ++ gap) := by rw [crlf_append, hcrlf]
    cases text with
    | nil =>
      refine ⟨gap, [], gap, [],
        rfl, by rw [crlf_append, hcrlf]; rfl, hgap, (by rintro _ ⟨⟩),
        hgap, (by rintro _ ⟨⟩), ?_, fun _ => rfl⟩
      rw [hpast]
      exact .ends
    | cons c text =>
      by_cases hc : c = '\n'
      · subst hc
        refine ⟨gap, '\n' :: text, gap ++ ['\r'], '\n' :: crlf text,
          rfl, by simp [hcrlf], hgap, by simpa, ?_, by simpa, ?_, fun h => absurd rfl h⟩
        · intro c hc
          rcases mem_append.1 hc with hc | hc
          · exact hgap c hc
          · rw [mem_singleton.1 hc]
            rfl
        · rw [← append_assoc, hpast]
          exact .newline
      · refine ⟨gap, c :: text, gap, c :: crlf text,
          rfl, by rw [crlf_append, hcrlf, crlf_cons_of_ne hc], hgap, htext, hgap, htext, ?_, fun _ => rfl⟩
        rw [hpast]
        exact .inLine hc

/-- At a line end, the second place may stand behind the return. -/
theorem exists_abreast_atLineEnd (h : AtLineEnd ahead) :
    ∃ y ahead', Ended [] y ∧ crlf ahead = y ++ ahead' ∧ AtLineEnd ahead' ∧
      ∀ past, Abreast past ahead (crlf past ++ y) ahead' := by
  cases ahead with
  | nil =>
    refine ⟨[], [], .inl rfl, rfl, (by rintro _ ⟨⟩), fun past => ?_⟩
    rw [append_nil]
    exact .even
  | cons d ahead =>
    obtain rfl := h d rfl
    exact ⟨['\r'], '\n' :: crlf ahead, .inr rfl, rfl, by simp [AtLineEnd], fun _ => .skew⟩

end Text

open Text (Abreast Faces Ended)

namespace Lexeme

variable {sight sight' : Surroundings} {c : Char} {x after text : Text} {l : Lexeme} {h : '\r' ∉ text}

/-- A lexeme that starts inside a line, in the form of its text with carriage returns. -/
theorem exists_cut_crlf (hsight : SameSight sight sight') (hc : c ≠ '\n') (hcut : Cut sight c x after l) :
    ∃ l' x' after', c :: Text.crlf (x ++ after) = c :: (x' ++ after') ∧ Cut sight' c x' after' l' ∧
      (Likeness.crlf text h).LikeKind l.kind l'.kind ∧
      ∀ past, Abreast (past ++ c :: x) after (Text.crlf past ++ c :: x') after' := by
  by_cases hline : l.kind.isComment ∨ l.kind.isContinuation
  · have hend := atLineEnd_of_cut hcut hline
    obtain ⟨y, after', hy, hafter, hend', hplace⟩ := Text.exists_abreast_atLineEnd hend
    obtain ⟨l', x', hx', hcut', hkind⟩ := cut_line_crlf (h := h) hsight hcut hline hy hend'
    refine ⟨l', x', after', ?_, hcut', hkind, fun past => ?_⟩
    · rw [← Text.crlf_cons_of_ne hc, ← cons_append, Text.crlf_append,
        hafter, ← append_assoc, hx', cons_append]
    · rw [← hx', ← append_assoc, ← Text.crlf_append]
      exact hplace (past ++ c :: x)
  · obtain ⟨hcomment, hcontinuation⟩ := not_or.1 hline
    rw [Bool.not_eq_true] at hcomment hcontinuation
    have hnewline : l.kind ≠ .newline := by
      intro hk
      have hreads := reads_of_cut hcut
      rw [hk] at hreads
      generalize hlexeme : c :: x = lexeme at hreads
      cases hreads
      exact hc (List.cons.inj hlexeme).1
    obtain ⟨hlexeme, hword⟩ := newline_notMem_of_cut hcut hnewline hcomment hcontinuation
    have hx : '\n' ∉ x := fun hmem => hlexeme (mem_cons_of_mem c hmem)
    refine ⟨l, x, Text.crlf after, by rw [Text.crlf_append, Text.crlf_of_notMem hx],
      cut_crlf hsight.toSameState hcut hcomment hcontinuation,
      .same hcomment hcontinuation hword, fun past => ?_⟩
    have hpast : Text.crlf past ++ c :: x = Text.crlf (past ++ c :: x) := by
      rw [Text.crlf_append, Text.crlf_of_notMem hlexeme]
    rw [hpast]
    exact .even

end Lexeme

theorem Likeness.LikeKind.endsOperand (h : K.LikeKind k k') :
    k.endsOperand = k'.endsOperand := by cases h <;> rfl

theorem Likeness.LikeKind.statementAfter (h : K.LikeKind k k') (before outside : Bool) :
    Scanner.statementAfter before outside k = Scanner.statementAfter before outside k' := by cases h <;> rfl

namespace Scanner

variable {brackets brackets' : List (Bracket × Position)}

/-- Open brackets of one kind on one line. -/
structure SameOpen (b b' : Bracket × Position) : Prop where
  bracket : b.1 = b'.1
  line : b.2.line = b'.2.line

/-- Scanners at corresponding places of a text and of its form with carriage returns. -/
structure InStep (text : Text) (h : '\r' ∉ text) (s s' : Scanner) : Prop where
  place : ∃ past ahead past' ahead', text = past ++ ahead ∧ s.cursor = .between past ahead ∧
    s'.cursor = .between past' ahead' ∧ Abreast past ahead past' ahead'
  brackets : Forall₂ SameOpen s.brackets s'.brackets
  startsStatement : s.startsStatement = s'.startsStatement
  previous : Option.Rel (Likeness.crlf text h).LikeKind s.previous s'.previous

/-- Turns of two scanners: both take tokens that are alike and move on, or both end. -/
inductive LikeTurn (text : Text) (h : '\r' ∉ text) (n n' : Nat) :
    Turn Scanner Token Token → Turn Scanner Token Token → Prop
  | done {e e'} : (Likeness.crlf text h).LikeToken e e' → e.kind = .eof → n ≤ e.offset → n' ≤ e'.offset →
    LikeTurn text h n n' (.done e) (.done e')
  | item {t t' next next'} : (Likeness.crlf text h).LikeToken t t' →
    t.kind ≠ .eof → n ≤ t.offset → n' ≤ t'.offset →
    t.endOffset ≤ next.cursor.offset → t'.endOffset ≤ next'.cursor.offset → InStep text h next next' →
    LikeTurn text h n n' (.item t next) (.item t' next')

variable {text ahead x x' : Text} {h : '\r' ∉ text} {s s' : Scanner} {past gap after past' gap' after' : Text}
  {k k' : TokenKind} {c : Char} {l l' : Lexeme}

theorem agree_bracketsAfter {p p' : Position}
    (hk : K.LikeKind k k') (hbrackets : Forall₂ SameOpen brackets brackets') (hp : p.line = p'.line) :
    Agree (Forall₂ SameOpen) (bracketsAfter brackets k p) (bracketsAfter brackets' k' p') := by
  cases hk with
  | comment | blockComment | continuation => exact .ok hbrackets
  | same =>
    cases k with
    | delimiter d =>
      cases d with
      | opening b => exact .ok (.cons ⟨rfl, hp⟩ hbrackets)
      | closing b =>
        cases hbrackets with
        | nil => exact .error ⟨rfl, hp⟩
        | @cons o o' rest rest' ho hrest =>
          simp only [bracketsAfter, ho.bracket]
          split_ifs
          · exact .ok hrest
          · exact .error ⟨rfl, hp⟩
      | comma | semicolon => exact .ok hbrackets
    | _ => exact .ok hbrackets

/-- What stands before a lexeme is the same for both scanners. -/
theorem InStep.sameSight {ahead' : Text} (hs : InStep text h s s')
    (hplace : Abreast (past ++ gap) ahead (past' ++ gap) ahead') :
    Lexeme.SameSight (s.sees past gap) (s'.sees past' gap) := by
  have hinnermost : s'.brackets.head?.map (·.1) = s.brackets.head?.map (·.1) :=
    hs.brackets.casesOn rfl fun ho _ => congrArg some ho.bracket.symm
  have hprevious : s'.previous.any (·.endsOperand) = s.previous.any (·.endsOperand) :=
    hs.previous.casesOn (fun hk => hk.endsOperand.symm) rfl
  refine ⟨⟨hs.startsStatement.symm, hinnermost, ?_⟩, hplace.isBlank_startOfLine⟩
  simp only [transposes, sees, hs.startsStatement, hprevious, hinnermost]

theorem endOffset_tokenAt (s : Scanner) (past gap lexeme : Text) (k : TokenKind) :
    (s.tokenAt past gap lexeme k).endOffset = Text.bytes (past ++ gap ++ lexeme) :=
  (Text.bytes_append _ _).symm

/-- Tokens between corresponding places are alike. -/
theorem likeToken_tokenAt {lexeme lexeme' : Text} (htext : text = past ++ gap ++ (lexeme ++ after))
    (hkind : (Likeness.crlf text h).LikeKind k k')
    (hstart : Abreast (past ++ gap) (lexeme ++ after) (past' ++ gap') (lexeme' ++ after'))
    (hstop : Abreast (past ++ gap ++ lexeme) after (past' ++ gap' ++ lexeme') after')
    (hne : k ≠ .eof → lexeme ≠ [] ∧ lexeme' ≠ []) (hnil : k = .eof → lexeme = [] ∧ lexeme' = []) :
    (Likeness.crlf text h).LikeToken (s.tokenAt past gap lexeme k) (s'.tokenAt past' gap' lexeme' k') where
  kind := hkind
  start := hstart.line_eq
  stop := hstop.line_eq
  leadsLine := hstart.isBlank_startOfLine.symm
  offset := ⟨_, _, _, _, htext, hstart, rfl, rfl⟩
  endOffset := by
    rw [endOffset_tokenAt, endOffset_tokenAt]
    exact ⟨_, _, _, _, by rw [htext, append_assoc (past ++ gap)], hstop, rfl, rfl⟩
  wide hk := by
    obtain ⟨hlexeme, hlexeme'⟩ := hne hk
    exact ⟨Nat.lt_add_of_pos_right (Text.bytes_pos hlexeme),
      Nat.lt_add_of_pos_right (Text.bytes_pos hlexeme')⟩
  empty hk := by
    obtain ⟨rfl, rfl⟩ := hnil hk
    exact ⟨rfl, rfl⟩

/-- Behind tokens that are alike, the scanners stand at corresponding places
again; a continuation hides the line end in both. -/
theorem InStep.moveOn {c' : Char} {sight sight' : Surroundings}
    (hs : InStep text h s s') (htext : text = past ++ after)
    (hplace : Abreast past after past' after') (hcut : Cut sight c x after l)
    (hcut' : Cut sight' c' x' after' l') (hkind : (Likeness.crlf text h).LikeKind l.kind l'.kind)
    (hbrackets : Forall₂ SameOpen brackets brackets') :
    InStep text h (s.moveOn past after l.kind brackets) (s'.moveOn past' after' l'.kind brackets') where
  place := by
    have hcontinuation := hkind.isContinuation
    cases hk : l.kind.isContinuation with
    | false =>
      have hnil {k : TokenKind} (hk : k.isContinuation = false) (after : Text) : hiddenBy k after = [] := by
        rw [hiddenBy, hk, if_neg (by decide)]
      refine ⟨past, after, past', after', htext, ?_, ?_, hplace⟩
      · simp only [Scanner.moveOn, hnil hk, append_nil, length_nil, drop_zero]
      · simp only [Scanner.moveOn, hnil (hcontinuation.symm.trans hk), append_nil, length_nil, drop_zero]
    | true =>
      have hend := atLineEnd_of_cut hcut (.inr hk)
      have hend' := atLineEnd_of_cut hcut' (.inr (hcontinuation.symm.trans hk))
      have hhidden {k : TokenKind} (hk : k.isContinuation) (after : Text) :
          hiddenBy k after = after.take 1 := by
        rw [hiddenBy, hk, if_pos rfl]
      simp only [Scanner.moveOn, hhidden hk, hhidden (hcontinuation.symm.trans hk)]
      cases hplace with
      | @skew rest => exact ⟨past ++ ['\n'], rest, _,
        Text.crlf rest, by simp [htext], rfl, rfl, by simpa using @Abreast.even (past ++ ['\n']) rest⟩
      | even =>
        cases after with
        | nil => exact ⟨past, [], Text.crlf past, [], htext, by simp, by simp, .even⟩
        | cons d after =>
          -- a line end has a return before it, so the second text does not stand at one
          obtain rfl := hend d rfl
          have hreturn := hend' _ rfl
          exact absurd hreturn (by decide)
  brackets := hbrackets
  startsStatement := by
    have hempty : brackets.isEmpty = brackets'.isEmpty := by cases hbrackets <;> rfl
    show statementAfter s.startsStatement brackets.isEmpty l.kind =
      statementAfter s'.startsStatement brackets'.isEmpty l'.kind
    rw [hs.startsStatement, hempty, hkind.statementAfter]
  previous := .some hkind

theorem le_offset_moveOn (s : Scanner) (past after : Text) (k : TokenKind)
    (brackets : List (Bracket × Position)) :
    Text.bytes past ≤ (s.moveOn past after k brackets).cursor.offset := by
  show Text.bytes past ≤
    (Cursor.between (past ++ hiddenBy k after) (after.drop (hiddenBy k after).length)).offset
  rw [Cursor.between_offset, Text.bytes_append]
  exact Nat.le_add_right _ _

theorem offset_le_bytes (hcursor : s.cursor = .between past ahead) (gap : Text) :
    s.cursor.offset ≤ Text.bytes (past ++ gap) := by
  rw [hcursor, Cursor.between_offset, Text.bytes_append]
  exact Nat.le_add_right _ _

section

variable (hs : InStep text h s s')
include hs

/-- Both scanners read lexemes of kinds that are alike, between corresponding places. -/
theorem agree_step_of_lexes
    (htext : text = past ++ gap ++ c :: (x ++ after)) (hlex : Lexes s past gap c x after l)
    (hlex' : Lexes s' past' gap' c x' after' l') (hkind : (Likeness.crlf text h).LikeKind l.kind l'.kind)
    (hstart : Abreast (past ++ gap) (c :: (x ++ after)) (past' ++ gap') (c :: (x' ++ after')))
    (hstop : Abreast (past ++ gap ++ c :: x) after (past' ++ gap' ++ c :: x') after') :
    Agree (LikeTurn text h s.cursor.offset s'.cursor.offset) (step s) (step s') := by
  rw [step_of_lexes hlex, step_of_lexes hlex']
  refine (agree_bracketsAfter hkind hs.brackets hstart.line_eq).map fun brackets brackets' hbrackets => ?_
  have heof : l.kind ≠ .eof := (reads_of_cut hlex.cut).kind_ne_eof
  have htoken : (Likeness.crlf text h).LikeToken (s.tokenAt past gap (c :: x) l.kind)
      (s'.tokenAt past' gap' (c :: x') l'.kind) :=
    likeToken_tokenAt htext hkind hstart hstop (fun _ => ⟨cons_ne_nil _ _, cons_ne_nil _ _⟩)
      (fun hk => absurd hk heof)
  have hmoved := hs.moveOn (by simp [htext]) hstop hlex.cut hlex'.cut hkind hbrackets
  refine .item htoken heof (offset_le_bytes hlex.cursor gap) (offset_le_bytes hlex'.cursor gap') ?_ ?_ hmoved
  · rw [endOffset_tokenAt]
    exact le_offset_moveOn ..
  · rw [endOffset_tokenAt]
    exact le_offset_moveOn ..

/-- Both scanners take tokens that are alike, both end, or both stop with the same fault. -/
theorem agree_step : Agree (LikeTurn text h s.cursor.offset s'.cursor.offset) (step s) (step s') := by
  obtain ⟨past, ahead, past', ahead', htext, hcursor, hcursor', hplace⟩ := hs.place
  obtain ⟨gap, rest, gap', rest', rfl, rfl, hgap, hrest, hgap', hrest', hfaces, hsame⟩ := hplace.exists_gap
  have habreast := hfaces.abreast
  rw [← append_assoc] at htext
  generalize hpast : past' ++ gap' = before at hfaces habreast
  cases hfaces with
  | ends =>
    rw [step_between hcursor hgap hrest, step_between hcursor' hgap' hrest']
    have htoken :
        (Likeness.crlf text h).LikeToken (s.tokenAt past gap [] .eof) (s'.tokenAt past' gap' [] .eof) := by
      have hstart : Abreast (past ++ gap) ([] ++ []) (past' ++ gap') ([] ++ []) := by rwa [hpast]
      have hstop : Abreast (past ++ gap ++ []) [] (past' ++ gap' ++ []) [] := by
        rwa [append_nil, append_nil, hpast]
      exact likeToken_tokenAt htext (.same rfl rfl (by rintro _ ⟨⟩))
        hstart hstop (absurd rfl ·) (fun _ => ⟨rfl, rfl⟩)
    refine hs.brackets.casesOn ?_ fun ho _ => ?_
    · exact .ok (.done htoken rfl (offset_le_bytes hcursor gap) (offset_le_bytes hcursor' gap'))
    · exact .error ⟨congrArg (fun b => (Cause.unclosed b).kind) ho.bracket, ho.line⟩
  | @newline rest =>
    have hcut (sight : Surroundings) (rest : Text) : Cut sight '\n' [] rest ⟨.newline, 1⟩ := ⟨rfl, rfl⟩
    refine agree_step_of_lexes hs htext ⟨hcursor, hgap, by decide, hcut _ _⟩ ⟨hcursor',
      hgap', by decide, hcut _ _⟩
      (.same rfl rfl (by rintro _ ⟨⟩)) (by rwa [hpast]) ?_
    have hbehind : past' ++ gap' ++ ['\n'] = Text.crlf (past ++ gap ++ ['\n']) := by
      rw [hpast]
      simp
    rw [hbehind]
    exact .even
  | @inLine c rest hc =>
    obtain rfl := hsame (by simpa using hc)
    have hsight : Lexeme.SameSight (s.sees past gap') (s'.sees past' gap') := hs.sameSight (by rwa [hpast])
    have hgapless : isGap c = false := hrest c rfl
    cases hread : Lexeme.read (s.sees past gap') c rest with
    | error e =>
      rw [step_between hcursor hgap hrest, step_between hcursor' hgap' hrest']
      simp only [hread, read_error_crlf hsight hread]
      exact .error ⟨rfl, by rw [hpast]; exact habreast.line_eq⟩
    | ok l =>
      obtain ⟨x, after, rfl, hcut⟩ := exists_cut_of_read hread
      obtain ⟨l', x', after', hrest, hcut', hkind, hstop⟩ := exists_cut_crlf (h := h) hsight hc hcut
      rw [hrest] at hcursor' habreast
      refine agree_step_of_lexes hs htext ⟨hcursor, hgap, hgapless,
        hcut⟩ ⟨hcursor', hgap', hgapless, hcut'⟩ hkind (by rwa [hpast]) ?_
      rw [hpast]
      exact hstop (past ++ gap')

theorem agree_collect {stuck : Fault} {m n : Nat} (hm : s.cursor.ahead.length < m)
    (hn : s'.cursor.ahead.length < n) :
    Agree (fun r r' => (Likeness.crlf text h).LikeStream s.cursor.offset s'.cursor.offset
      (r.1 ++ [r.2]) (r'.1 ++ [r'.2])) (collect stuck step m s) (collect stuck step n s') := by
  induction m generalizing n s s' with
  | zero => omega
  | succ m ih =>
    obtain ⟨n, rfl⟩ : ∃ k, n = k + 1 := ⟨n - 1, by omega⟩
    obtain ⟨past, ahead, past', ahead', -, hcursor, hcursor', -⟩ := hs.place
    have hagree := agree_step hs
    simp only [collect]
    generalize hstep : step s = turn at hagree ⊢
    generalize hstep' : step s' = turn' at hagree ⊢
    cases hagree with
    | error hf => exact .error hf
    | ok hturn =>
      cases hturn with
      | done htoken heof hoffset hoffset' => exact .ok (.eof htoken heof hoffset hoffset')
      | @item t t' next next' htoken heof hoffset hoffset' hle hle' hnext =>
        have hlt := length_ahead_lt_of_step hcursor hstep
        have hlt' := length_ahead_lt_of_step hcursor' hstep'
        dsimp only
        refine (ih (n := n) hnext (by omega) (by omega)).casesOn (fun hstream => ?_) .error
        exact .ok (.cons htoken heof hoffset hoffset' (hstream.mono hle hle'))

end

theorem inStep_start (text : Text) (h : '\r' ∉ text) :
    InStep text h (start text) (start (Text.crlf text)) where
  place := ⟨[], text, [], Text.crlf text, rfl, rfl, rfl, .even⟩
  brackets := .nil
  startsStatement := rfl
  previous := .none

end Scanner

/-- The tokens of a text and of its form with carriage returns are alike. -/
theorem agree_scan (text : Text) (h : '\r' ∉ text) :
    Agree ((Likeness.crlf text h).LikeStream 0 0) (scan text) (scan (Text.crlf text)) :=
  (Scanner.agree_collect (Scanner.inStep_start text h) (Nat.lt_succ_self _) (Nat.lt_succ_self _)).map
    fun _ _ hstream => hstream

/-- A text and its form with carriage returns give classes that are alike,
or are refused for the same reason. -/
theorem ClassDecl.agree_parse (limits : Limits) (text : Text) (h : '\r' ∉ text) :
    Agree (Likeness.crlf text h).LikeClass (parse limits text) (parse limits (Text.crlf text)) :=
  (agree_scan text h).bind fun _ _ hstream => Likeness.agree_ofTokens hstream

end ClassdefDoc
