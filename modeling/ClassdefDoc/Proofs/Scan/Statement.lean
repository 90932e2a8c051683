import ClassdefDoc.Proofs.Parse.Place

/-!
# Where statements start

The scanner does not know the tokens it has taken, but it keeps what it needs of them:
the brackets that are open, and whether a statement starts (`Scanner.Behind`). So the
brackets of a text are nested, and a word is a keyword exactly where a statement
starts outside brackets, told from the tokens before it (`keyword_iff_of_scan`).
-/

namespace ClassdefDoc

variable {k : TokenKind} {text w : Text}

/-! ## Nested brackets -/

namespace TokenKind

/-- The bracket that a token is. -/
def nesting? : TokenKind → Option Delimiter
  | delimiter (.opening b) => some (.opening b)
  | delimiter (.closing b) => some (.closing b)
  | _ => none

/-- The number of brackets that are opened less that of those that are closed. -/
def rise : TokenKind → Int
  | delimiter (.opening _) => 1
  | delimiter (.closing _) => -1
  | _ => 0

end TokenKind

namespace Bracket

/-- Each bracket that is opened is closed by one of its kind, the inner ones
first, and no others are closed. -/
inductive Nested : List Delimiter → Prop
  | nil : Nested []
  | pair {b : Bracket} {inner after : List Delimiter} : Nested inner → Nested after →
    Nested (.opening b :: inner ++ .closing b :: after)

/-- The brackets of `stack` are closed one after another, and all that are opened in between are. -/
inductive Closes : List Bracket → List Delimiter → Prop
  | nil {after : List Delimiter} : Nested after → Closes [] after
  | cons {b : Bracket} {stack : List Bracket} {inner after : List Delimiter} : Nested inner →
    Closes stack after →
    Closes (b :: stack) (inner ++ .closing b :: after)

variable {stack stack' : List Bracket} {inner after : List Delimiter}

theorem Closes.pair {b : Bracket} (hinner : Nested inner) (hafter : Closes stack after) :
    Closes stack (.opening b :: inner ++ .closing b :: after) := by
  cases hafter with
  | nil hafter => exact .nil (.pair hinner hafter)
  | @cons c stack inner' after hinner' hafter =>
    have := Closes.cons (b := c) (Nested.pair (b := b) hinner hinner') hafter
    rwa [List.append_assoc, List.cons_append] at this

/-- One more token in front of the brackets that follow it. -/
theorem Closes.of_after (h : Bracket.after stack k = some stack') (hafter : Closes stack' after) :
    Closes stack (k.nesting?.toList ++ after) := by
  cases k with
  | delimiter d =>
    cases d with
    | opening b =>
      cases h
      cases hafter with
      | cons hinner hafter => exact hafter.pair hinner
    | closing b =>
      obtain rfl := after_closing h
      exact .cons .nil hafter
    | comma | semicolon =>
      cases h
      exact hafter
  | _ =>
    cases h
    exact hafter

end Bracket

theorem nesting_cons (t : Token) (ts : List Token) :
    (t :: ts).filterMap (·.kind.nesting?) = t.kind.nesting?.toList ++ ts.filterMap (·.kind.nesting?) := by
  rw [List.filterMap_cons]
  cases t.kind.nesting? <;> rfl

/-- The brackets that are open behind some tokens. -/
def depth : List Token → Int
  | [] => 0
  | t :: ts => t.kind.rise + depth ts

theorem depth_append (ts us : List Token) : depth (ts ++ us) = depth ts + depth us := by
  induction ts with
  | nil => simp [depth]
  | cons t ts ih => rw [List.cons_append, depth, depth, ih, add_assoc]

theorem Bracket.length_after {stack stack' : List Bracket} (h : Bracket.after stack k = some stack') :
    (stack'.length : Int) = stack.length + k.rise := by
  cases k with
  | delimiter d =>
    cases d with
    | closing b =>
      obtain rfl := after_closing h
      simp [TokenKind.rise]
    | opening b | comma | semicolon =>
      cases h
      simp [TokenKind.rise]
  | _ =>
    cases h
    simp [TokenKind.rise]

theorem Scanner.closes_of_yields {s : Scanner} {ts : List Token} (hs : s.Over text) (h : s.Yields ts) :
    Bracket.Closes (s.brackets.map (·.1)) (ts.filterMap (·.kind.nesting?)) := by
  induction h with
  | done hdone =>
    obtain ⟨past, ahead, hcursor, -⟩ := hs
    obtain ⟨-, rfl, hbrackets⟩ := ended_of_step hcursor hdone
    rw [hbrackets]
    exact .nil .nil
  | @item s t s' ts hstep _ ih =>
    rw [nesting_cons]
    exact (ih (hs.of_step hstep)).of_after (after_of_step hs hstep)

/-! ## Statements -/

namespace TokenKind

/-- Kinds that stand between the tokens of a statement without being part of it. -/
def isPassedOver : TokenKind → Bool
  | comment _ | blockComment _ | continuation _ => true
  | _ => false

/-- Kinds behind which a statement starts. -/
def precedesStatement : TokenKind → Bool
  | newline | delimiter .comma | delimiter .semicolon | keyword .close => true
  | _ => false

end TokenKind

/-- Whether a statement starts behind some tokens: the last of them that is neither a
comment nor a continuation, if there is one, is a line end, a separator or `end`. -/
def startsBehind (before : List Token) : Bool :=
  (before.reverse.find? (!·.kind.isPassedOver)).all (·.kind.precedesStatement)

theorem startsBehind_append (before : List Token) (t : Token) :
    startsBehind (before ++ [t]) =
    if t.kind.isPassedOver then startsBehind before else t.kind.precedesStatement := by
  rw [startsBehind, startsBehind, List.reverse_append, List.reverse_singleton,
    List.singleton_append, List.find?_cons]
  cases t.kind.isPassedOver <;> rfl

/-- What a scanner keeps of the tokens it has taken. -/
structure Scanner.Behind (before : List Token) (s : Scanner) : Prop where
  depth : depth before = s.brackets.length
  statement : s.brackets = [] → s.startsStatement = startsBehind before

namespace Scanner

variable {text : Text} {s s' : Scanner} {before : List Token} {t : Token}

theorem behind_start (text : Text) : Behind [] (start text) := ⟨rfl, fun _ => rfl⟩

/-- Whether a statement starts behind a token outside brackets. -/
theorem statementAfter_outside (start : Bool) (hk : k ≠ .eof) :
    statementAfter start true k = if k.isPassedOver then start else k.precedesStatement := by
  unfold statementAfter
  split <;> simp_all [TokenKind.isPassedOver, TokenKind.precedesStatement]

theorem Behind.step (hs : s.Over text) (hbehind : s.Behind before) (h : step s = .ok (.item t s')) :
    s'.Behind (before ++ [t]) := by
  have hafter := after_of_step hs h
  obtain ⟨past, ahead, hcursor, -⟩ := hs
  obtain ⟨gap, lexeme, hidden, rest, -, htook⟩ := took_of_step hcursor h
  refine ⟨?_, fun hclosed => ?_⟩
  · have hlength := Bracket.length_after hafter
    simp only [List.length_map] at hlength
    rw [depth_append, hbehind.depth, hlength]
    simp [ClassdefDoc.depth]
  · rw [htook.startsStatement_eq, hclosed, List.isEmpty_nil,
      statementAfter_outside _ htook.reads.kind_ne_eof, startsBehind_append]
    split_ifs with hpassed
    · -- a token that is passed over opens and closes nothing
      refine hbehind.statement ?_
      rw [hclosed] at hafter
      cases hkind : t.kind <;> simp_all [TokenKind.isPassedOver, Bracket.after]
    · rfl

theorem behind_of_chain (h : Chain step (start text) before s) : s.Behind before := by
  induction before using List.reverseRecOn generalizing s with
  | nil =>
    cases h
    exact behind_start text
  | append_singleton before t ih =>
    obtain ⟨s₁, hbefore, hlast⟩ := h.of_append
    cases hlast with
    | cons hstep hnil =>
      cases hnil
      exact (ih hbefore).step ((over_start text).of_chain hbefore) hstep

end Scanner

/-! ## Keywords -/

theorem Keyword.ofWord?_eq_some_iff {k : Keyword} : ofWord? w = some k ↔ k.word = w := by
  refine ⟨word_of_ofWord?, ?_⟩
  rintro rfl
  cases k <;> decide

theorem Keyword.mem_words_iff : w ∈ all.map word ↔ ∃ k, ofWord? w = some k := by
  simp only [ofWord?_eq_some_iff, List.mem_map]
  refine exists_congr fun k => and_iff_right ?_
  cases k <;> decide

namespace Lexeme.Reads

variable {s : Surroundings} {k : TokenKind} {l after : Text}

/-- Identifiers are read as words, and nothing else is. -/
theorem isIdentifier_iff (h : Reads s k l after) :
    Name.isIdentifier l ↔ (∃ w, k = .keyword w) ∨ k = .identifier l := by
  constructor
  · intro hl
    refine h.isWord_of_head? ?_
    cases l with
    | nil => cases hl
    | cons c l => exact (Bool.and_eq_true_iff.1 hl).1
  · rintro (⟨w, rfl⟩ | rfl)
    · cases h with
      | keyword _ _ _ hl => exact hl
    · cases h with
      | identifier hl => exact hl

theorem keyword_iff (h : Reads s k l after) (hl : Name.isIdentifier l) : (∃ w, k = .keyword w ∧ w.word = l) ↔
    l ∈ Keyword.all.map (·.word) ∧ s.innermost = none ∧ s.startsStatement := by
  rw [Keyword.mem_words_iff]
  constructor
  · rintro ⟨w, rfl, -⟩
    cases h with
    | keyword hstarts hinnermost hw => exact ⟨⟨w, hw⟩, hinnermost, hstarts⟩
  · rintro ⟨⟨w, hw⟩, hinnermost, hstarts⟩
    rcases h.isIdentifier_iff.1 hl with ⟨w', rfl⟩ | rfl
    · cases h with
      | keyword _ _ hw' => exact ⟨w', rfl, Keyword.word_of_ofWord? hw'⟩
    · cases h with
      | identifier _ hnone =>
        rw [hnone hstarts hinnermost] at hw
        cases hw

end Lexeme.Reads

/-- The brackets of a text are nested. Its words are keywords or identifiers, and a word is a
keyword if it is one of the words for keywords, stands outside brackets and starts a statement. -/
theorem keyword_iff_of_scan {text : Text} {tokens : List Token} (h : scan text = .ok tokens) :
    Bracket.Nested (tokens.filterMap (·.kind.nesting?)) ∧
    ∀ (before : List Token) (t : Token) (after : List Token), tokens = before ++ t :: after →
      (Name.isIdentifier t.lexeme ↔ (∃ k, t.kind = .keyword k) ∨ ∃ w, t.kind = .identifier w) ∧
      (Name.isIdentifier t.lexeme →
        ((∃ k, t.kind = .keyword k ∧ k.word = t.lexeme) ↔
          t.lexeme ∈ Keyword.all.map (·.word) ∧ depth before = 0 ∧ startsBehind before) ∧
        ((∃ k, t.kind = .keyword k ∧ k.word = t.lexeme) ∨ t.kind = .identifier t.lexeme)) := by
  obtain ⟨ts, s, e, hchain, hdone, rfl⟩ := scan_eq_ok_iff.1 h
  constructor
  · have hcloses := Scanner.closes_of_yields (Scanner.over_start text) (Scanner.yields_of_chain hchain hdone)
    cases hcloses with
    | nil hnested => exact hnested
  · intro before t after hsplit
    obtain ⟨s, hbefore, hyields⟩ := exists_yields_of_scan (hsplit ▸ h)
    obtain ⟨past, ahead, hcursor, -⟩ := (Scanner.over_start text).of_chain hbefore
    rcases hyields with hend | ⟨hstep, -⟩
    · obtain ⟨-, rfl, -⟩ := Scanner.ended_of_step hcursor hend
      exact ⟨iff_of_false (by rintro ⟨⟩) (by rintro (⟨_, ⟨⟩⟩ | ⟨_, ⟨⟩⟩)), (by rintro ⟨⟩)⟩
    · obtain ⟨gap, lexeme, hidden, rest, -, htook⟩ := Scanner.took_of_step hcursor hstep
      rw [← htook.lexeme_eq] at htook
      have hreads := htook.reads
      have hbehind := Scanner.behind_of_chain hbefore
      have hplace : (s.sees past gap).innermost = none ∧ (s.sees past gap).startsStatement ↔
          depth before = 0 ∧ startsBehind before := by
        have hdepth : (s.sees past gap).innermost = none ↔ s.brackets = [] := by simp [Scanner.sees]
        have hdepth' : depth before = 0 ↔ s.brackets = [] := by simp [hbehind.depth]
        rw [hdepth, hdepth']
        exact and_congr_right fun hclosed => by rw [← hbehind.statement hclosed]; rfl
      refine ⟨?_, fun hword => ⟨?_, ?_⟩⟩
      · rw [hreads.isIdentifier_iff]
        refine or_congr_right ⟨fun hkind => ⟨_, hkind⟩, ?_⟩
        rintro ⟨w, hkind⟩
        rw [hkind] at hreads
        cases hreads with
        | identifier => exact hkind
      · rw [hreads.keyword_iff hword, hplace]
      · rcases hreads.isIdentifier_iff.1 hword with ⟨k, hkind⟩ | hkind
        · rw [hkind] at hreads
          cases hreads with
          | keyword _ _ hk => exact .inl ⟨k, hkind, Keyword.word_of_ofWord? hk⟩
        · exact .inr hkind

/-- The text of a word, with whether it is a keyword. -/
def TokenKind.wordOrKeyword? : TokenKind → Option (Text × Bool)
  | keyword k => some (k.word, true)
  | identifier w => some (w, false)
  | _ => none

/-- Keywords behind a comment and behind `end`, and words that are none. -/
def scatteredKeywords : Text := "if a(end,\n1) % if\nend end, x = if;"

def scatteredWords : List (Text × Bool) :=
  [("if", true), ("a", false), ("end", false), ("end", true), ("end", true), ("x", false), ("if", false)]

theorem keyword_iff_scattered : ∃ tokens, scan scatteredKeywords = .ok tokens ∧
    Bracket.Nested (tokens.filterMap (·.kind.nesting?)) ∧
    tokens.filterMap (·.kind.wordOrKeyword?) = scatteredWords := by
  obtain ⟨tokens, htokens, hwords⟩ : ∃ tokens, scan scatteredKeywords = .ok tokens ∧
      tokens.filterMap (·.kind.wordOrKeyword?) = scatteredWords := by decide +kernel
  exact ⟨tokens, htokens, (keyword_iff_of_scan htokens).1, hwords⟩

end ClassdefDoc
