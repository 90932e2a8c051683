import ClassdefDoc.Proofs.Name
import ClassdefDoc.Proofs.Scan.BlockComment

/-!
# What a lexeme looks like

`Lexeme.Reads s k l after` lists the forms that a lexeme `l` of kind `k` can have, when it stands in the
surroundings `s` and `after` follows it. `reads_of_read` is the inversion of `Lexeme.read`: later proofs
split on the cases of `Reads` and never open the reading functions again.
-/

namespace ClassdefDoc

open List Name Text

variable {c q : Char} {value : Text}

namespace Bracket

variable {b : Bracket}

theorem ofOpener?_eq_none : ofOpener? c = none ↔ c ≠ '(' ∧ c ≠ '[' ∧ c ≠ '\x7b' := by
  rw [ofOpener?, find?_eq_none]
  simp [all, opener, @eq_comm _ c]

theorem ofCloser?_eq_none : ofCloser? c = none ↔ c ≠ ')' ∧ c ≠ ']' ∧ c ≠ '\x7d' := by
  rw [ofCloser?, find?_eq_none]
  simp [all, closer, @eq_comm _ c]

theorem opener_of_ofOpener? (h : ofOpener? c = some b) : b.opener = c := by
  have := find?_some h
  simpa using this

theorem closer_of_ofCloser? (h : ofCloser? c = some b) : b.closer = c := by
  have := find?_some h
  simpa using this

@[simp] theorem ofOpener?_opener (b : Bracket) : ofOpener? b.opener = some b := by cases b <;> rfl

@[simp] theorem ofOpener?_closer (b : Bracket) : ofOpener? b.closer = none := by cases b <;> rfl

@[simp] theorem ofCloser?_closer (b : Bracket) : ofCloser? b.closer = some b := by cases b <;> rfl

end Bracket

theorem Keyword.word_of_ofWord? {w : Text} {k : Keyword} (h : ofWord? w = some k) : k.word = w := by
  simpa using find?_some h

/-- A character that neither opens nor closes a bracket, is no double quote and ends no line. -/
structure IsInner (c : Char) : Prop where
  opener : Bracket.ofOpener? c = none
  closer : Bracket.ofCloser? c = none
  quote : c ≠ '"'
  newline : c ≠ '\n'

instance (c : Char) : Decidable (IsInner c) :=
  decidable_of_iff (Bracket.ofOpener? c = none ∧ Bracket.ofCloser? c = none ∧ c ≠ '"' ∧ c ≠ '\n')
    ⟨fun h => ⟨h.1, h.2.1, h.2.2.1, h.2.2.2⟩, fun h => ⟨h.opener, h.closer, h.quote, h.newline⟩⟩

theorem Name.isInner_of_isContinue (h : isContinue c) : IsInner c := by
  refine ⟨Bracket.ofOpener?_eq_none.2 ⟨?_, ?_, ?_⟩, Bracket.ofCloser?_eq_none.2 ⟨?_, ?_, ?_⟩, ?_, ?_⟩ <;>
    (rintro rfl; revert h; decide)

namespace Text

/-- A text in which each `q` is written twice. -/
def doubled (q : Char) (value : Text) : Text := value.flatMap fun c => if c = q then [q, q] else [c]

@[simp] theorem doubled_nil (q : Char) : doubled q [] = [] := rfl

@[simp] theorem doubled_cons_self (q : Char) (value : Text) :
    doubled q (q :: value) = q :: q :: doubled q value := by
  simp [doubled]

theorem doubled_cons_of_ne (h : c ≠ q) (value : Text) : doubled q (c :: value) = c :: doubled q value := by
  simp [doubled, h]

theorem mem_doubled : c ∈ doubled q value ↔ c ∈ value := by
  have hc (d : Char) : c ∈ (if d = q then [q, q] else [d]) ↔ c = d := by
    split_ifs with h
    · simp [h]
    · exact mem_singleton
  simp [doubled, hc]

end Text

/-- A literal as it is written. -/
def Quote.written (q : Quote) (value : Text) : Text := q.char :: (Text.doubled q.char value ++ [q.char])

theorem Quote.char_ne_newline (q : Quote) : q.char ≠ '\n' := by cases q <;> decide

theorem Quote.newline_notMem_written (q : Quote) (h : '\n' ∉ value) : '\n' ∉ q.written value := by
  simp [written, Ne.symm q.char_ne_newline, mem_doubled, h]

namespace Lexeme

variable {rest : Text}

/-- The forms of a lexeme, by its kind: the surroundings, the kind, the lexeme and what follows it. -/
inductive Reads (s : Surroundings) : TokenKind → Text → Text → Prop
  | newline {after} : Reads s .newline ['\n'] after
  | comment {signs body after} : signs ≠ [] → (∀ c ∈ signs, c = '%') → '\n' ∉ body →
    AtLineEnd after → Reads s (.comment body) (signs ++ body) after
  | blockComment {lines l after} : s.leadsLine → l.head? = some '%' → AtLineEnd after →
    Reads s (.blockComment lines) l after
  | continuation {body after} : '\n' ∉ body → AtLineEnd after →
    Reads s (.continuation body) ("...".toList ++ body) after
  | literal {q value l after} : l.head? = some q.char → Reads s (.literal q value) l after
  | number {l after} : l ≠ [] → (∀ c ∈ l, IsInner c) → l.head?.any isStart = false →
    Reads s (.number l) l after
  | keyword {k w after} : s.startsStatement → s.innermost = none → Keyword.ofWord? w = some k →
    isIdentifier w → Reads s (.keyword k) w after
  | identifier {w after} : isIdentifier w →
    (s.startsStatement → s.innermost = none → Keyword.ofWord? w = none) →
    Reads s (.identifier w) w after
  | opening {b after} : Reads s (.delimiter (.opening b)) [b.opener] after
  | closing {b after} : Reads s (.delimiter (.closing b)) [b.closer] after
  | comma {after} : Reads s (.delimiter .comma) [','] after
  | semicolon {after} : Reads s (.delimiter .semicolon) [';'] after
  | operator {op l after} : l ≠ [] → (∀ c ∈ l, IsInner c) → l.head?.any isStart = false →
    Reads s (.operator op) l after

/-- What a reader gives for a text fits the text. -/
def Fits (s : Surroundings) (text : Text) (l : Lexeme) : Prop :=
  Reads s l.kind (text.take l.length) (text.drop l.length)

variable {s : Surroundings} {previous : Char} {text after : Text} {l : Lexeme} {k : TokenKind}

theorem fits_readComment (rest : Text) : Fits s ('%' :: rest) (readComment ('%' :: rest)) := by
  set text := '%' :: rest with htext
  have hcut : text.take (text.takeWhile (· == '%')).length = text.takeWhile (· == '%') :=
    take_takeWhile_length _ _
  simp only [Fits, readComment]
  rw [take_add, ← drop_drop, hcut, take_firstLine_length]
  refine .comment ?_ ?_ (newline_notMem_firstLine _) (atLineEnd_drop_firstLine _)
  · rw [htext, takeWhile_cons_of_pos (by decide)]
    exact cons_ne_nil _ _
  · intro c hc
    simpa using mem_takeWhile_imp hc

theorem fits_readContinuation (h : "...".toList.isPrefixOf text) : Fits s text (readContinuation text) := by
  obtain ⟨rest, rfl⟩ : ∃ rest, text = "...".toList ++ rest := by
    obtain ⟨rest, hrest⟩ := isPrefixOf_iff_prefix.1 h
    exact ⟨rest, hrest.symm⟩
  simp only [Fits, readContinuation]
  rw [take_add, ← drop_drop, show (3 : Nat) = "...".toList.length from rfl, take_left,
    drop_left, take_firstLine_length]
  exact .continuation (newline_notMem_firstLine _) (atLineEnd_drop_firstLine _)

theorem fits_readBlockComment (hs : s.leadsLine)
    (h : readBlockComment ('%' :: rest) = .ok l) : Fits s ('%' :: rest) l := by
  obtain ⟨first, lines, closing, more, htext, -, -, rfl⟩ := readBlockComment_eq_ok_iff.1 h
  have hcut : '%' :: rest = first ++ onLines (lines ++ [closing]) ++ onLines more := by simp [htext]
  obtain ⟨first, rfl⟩ : ∃ tail, first = '%' :: tail := by
    cases first with
    | nil => cases lines <;> simp at htext
    | cons c first => exact ⟨first, by rw [(List.cons.inj htext).1]⟩
  rw [Fits, hcut, take_left, drop_left]
  exact .blockComment hs rfl (atLineEnd_onLines more)

/-- Behind its opening quote the scanner reads a literal to its first quote that is not doubled. -/
theorem literalValue_doubled (hq : q ≠ '\n') (hvalue : '\n' ∉ value) (hrest : rest.head? ≠ some q) :
    literalValue q (Text.doubled q value ++ q :: rest) = some (value, (Text.doubled q value).length + 1) := by
  induction value with
  | nil =>
    cases rest with
    | nil => simp [literalValue, hq]
    | cons d rest =>
      have hd : d ≠ q := fun h => hrest (by rw [h]; rfl)
      simp [literalValue, hq, hd]
  | cons c value ih =>
    obtain ⟨hc, hvalue⟩ := ne_and_not_mem_of_not_mem_cons hvalue
    by_cases hcq : c = q
    · subst hcq
      simp [literalValue, hq, ih hvalue]
    · rw [doubled_cons_of_ne hcq, cons_append, literalValue.eq_def]
      simp [Ne.symm hc, hcq, ih hvalue]

/-- What the scanner takes for a literal is a written form that does not go on. -/
theorem exists_of_literalValue {r : Text × Nat} (h : literalValue q text = some r) :
    '\n' ∉ r.1 ∧ ∃ rest, text = Text.doubled q r.1 ++ q :: rest ∧ rest.head? ≠ some q ∧
      r.2 = (Text.doubled q r.1).length + 1 := by
  fun_induction literalValue q text generalizing r with
  | case1 => cases h
  | case2 => cases h
  | case3 ds hline ih =>
    obtain ⟨r', hr', rfl⟩ := Option.map_eq_some_iff.1 h
    obtain ⟨hvalue, rest, rfl, hrest, hlength⟩ := ih hr'
    exact ⟨not_mem_cons_of_ne_of_not_mem (Ne.symm hline) hvalue, rest, by simp, hrest, by simp [hlength]⟩
  | case4 d ds hd =>
    cases h
    exact ⟨not_mem_nil, d :: ds, rfl, fun h => hd (Option.some.inj h), rfl⟩
  | case5 =>
    cases h
    exact ⟨not_mem_nil, [], rfl, by simp, rfl⟩
  | case6 c cs hline hc ih =>
    obtain ⟨r', hr', rfl⟩ := Option.map_eq_some_iff.1 h
    obtain ⟨hvalue, rest, rfl, hrest, hlength⟩ := ih hr'
    refine ⟨not_mem_cons_of_ne_of_not_mem (Ne.symm hline) hvalue, rest, ?_, hrest, ?_⟩
    · rw [doubled_cons_of_ne hc, cons_append]
    · rw [doubled_cons_of_ne hc, length_cons, hlength]

theorem literalValue_eq_some_iff (hq : q ≠ '\n') {n : Nat} :
    literalValue q text = some (value, n) ↔ '\n' ∉ value ∧ ∃ rest, text = Text.doubled q value ++ q :: rest ∧
      rest.head? ≠ some q ∧ n = (Text.doubled q value).length + 1 := by
  constructor
  · exact exists_of_literalValue
  · rintro ⟨hvalue, rest, rfl, hrest, rfl⟩
    exact literalValue_doubled hq hvalue hrest

/-- A literal is read from its written form, in front of a text that does not go on with the quote. -/
theorem readLiteral_eq_ok_iff {q : Quote} : readLiteral q (c :: rest) = .ok l ↔ ∃ value more, '\n' ∉ value ∧
    rest = Text.doubled q.char value ++ q.char :: more ∧ more.head? ≠ some q.char ∧
      l = ⟨.literal q value, (Text.doubled q.char value).length + 2⟩ := by
  rw [readLiteral, tail_cons]
  constructor
  · intro h
    split at h
    · rename_i value n hvalue
      obtain ⟨hline, more, hrest, hmore, rfl⟩ := (literalValue_eq_some_iff q.char_ne_newline).1 hvalue
      exact ⟨value, more, hline, hrest, hmore, (Except.ok.inj h).symm⟩
    · cases h
  · rintro ⟨value, more, hline, rfl, hmore, rfl⟩
    rw [literalValue_doubled q.char_ne_newline hline hmore]

theorem readLiteral_cut_iff {q : Quote} {x : Text} (hlength : l.length = x.length + 1) :
    readLiteral q (c :: (x ++ after)) = .ok l ↔ ∃ value, '\n' ∉ value ∧
    x = Text.doubled q.char value ++ [q.char] ∧
      after.head? ≠ some q.char ∧ l.kind = .literal q value := by
  rw [readLiteral_eq_ok_iff]
  constructor
  · rintro ⟨value, more, hline, htext, hmore, rfl⟩
    have hcut : x ++ after = Text.doubled q.char value ++ [q.char] ++ more := by rw [htext, append_assoc]; rfl
    obtain ⟨rfl, rfl⟩ := append_inj hcut (by simpa using hlength.symm)
    exact ⟨value, hline, rfl, hmore, rfl⟩
  · rintro ⟨value, hline, rfl, hafter, hkind⟩
    refine ⟨value, after, hline, by simp, hafter, ?_⟩
    rw [length_append, length_singleton] at hlength
    rw [← hkind, ← hlength]

theorem fits_readLiteral {q : Quote} (h : readLiteral q (q.char :: rest) = .ok l) :
    Fits s (q.char :: rest) l := by
  obtain ⟨value, more, -, -, -, rfl⟩ := readLiteral_eq_ok_iff.1 h
  exact .literal rfl

theorem isInner_of_numberGoesOn (h : numberGoesOn previous c rest) : IsInner c := by
  simp only [numberGoesOn] at h
  split_ifs at h with h₁ h₂ h₃
  · exact isInner_of_isContinue h₁
  · rw [beq_iff_eq.1 h₂]
    decide
  · simp only [Bool.or_eq_true, beq_iff_eq] at h₃
    rcases h₃ with rfl | rfl <;> decide

theorem exists_numberGoesOn (h : c ∈ text.take (numberLength previous text)) :
    ∃ previous rest, numberGoesOn previous c rest := by
  induction text generalizing previous with
  | nil => simp at h
  | cons d text ih =>
    simp only [numberLength] at h
    split_ifs at h with hd
    · rw [take_succ_cons] at h
      rcases mem_cons.1 h with rfl | h
      · exact ⟨_, _, hd⟩
      · exact ih h
    · simp at h

theorem isInner_take_numberLength (previous : Char) (text : Text) :
    ∀ c ∈ text.take (numberLength previous text), IsInner c := by
  intro c hc
  obtain ⟨_, _, h⟩ := exists_numberGoesOn hc
  exact isInner_of_numberGoesOn h

section

variable (h : (c.isDigit || (c == '.' && rest.head?.any Char.isDigit)))
include h

theorem numberGoesOn_first : numberGoesOn '\x00' c rest := by
  simp only [Bool.or_eq_true, Bool.and_eq_true, beq_iff_eq] at h
  rcases h with h | ⟨rfl, h⟩
  · simp [numberGoesOn, Char.isAlphanum, h]
  · cases rest with
    | nil => simp at h
    | cons d rest =>
      have hd : d.isDigit := by simpa using h
      have hdot : ('.' == d) = false := by
        rw [beq_eq_false_iff_ne]
        rintro rfl
        exact absurd hd (by decide)
      have hop : ¬d = '*' ∧ ¬d = '/' ∧ ¬d = '\\' ∧ ¬d = '^' ∧ ¬d = '\'' := by
        refine ⟨?_, ?_, ?_, ?_, ?_⟩ <;> (rintro rfl; exact absurd hd (by decide))
      simpa [numberGoesOn, List.isPrefixOf, hdot] using hop

theorem fits_readNumber : Fits s (c :: rest) (readNumber (c :: rest)) := by
  have hlength : numberLength '\x00' (c :: rest) = numberLength c rest + 1 := by
    rw [numberLength, if_pos (numberGoesOn_first h)]
  have hstart : isStart c = false := by
    simp only [Bool.or_eq_true, Bool.and_eq_true, beq_iff_eq] at h
    rcases h with h | ⟨rfl, -⟩
    · exact isStart_of_isDigit h
    · decide
  refine .number ?_ (isInner_take_numberLength _ _) ?_
  · rw [hlength]
    exact cons_ne_nil _ _
  · rw [hlength, take_succ_cons, head?_cons, Option.any_some, hstart]

end

theorem isIdentifier_takeWhile (rest : Text) (h : isStart c) :
    isIdentifier ((c :: rest).takeWhile isContinue) := by
  rw [takeWhile_cons_of_pos (isContinue_of_isStart h), isIdentifier, h, Bool.true_and]
  exact all_takeWhile

theorem fits_readWord (h : isStart c) : Fits s (c :: rest) (readWord s (c :: rest)) := by
  have hcut := take_takeWhile_length isContinue (c :: rest)
  have hname := isIdentifier_takeWhile rest h
  simp only [Fits, readWord]
  split
  · rename_i k hk
    simp only [hcut]
    split_ifs at hk with hs
    simp only [Bool.and_eq_true, Option.isNone_iff_eq_none] at hs
    exact .keyword hs.1 hs.2 hk hname
  · rename_i hk
    simp only [hcut]
    refine .identifier hname fun hstart hinner => ?_
    rwa [if_pos (by simp [hstart, hinner])] at hk

/-- The characters that an operator of two characters ends with. -/
theorem mem_of_longOperators {d : Char} (h : longOperators.contains [c, d]) :
    d ∈ ['=', '&', '|', '*', '/', '\\', '^'] := by
  simp only [longOperators, contains_eq_mem, mem_cons, not_mem_nil, or_false, decide_eq_true_eq] at h
  rcases h with e | e | e | e | e | e | e | e | e | e | e <;>
    (injection e with _ e; injection e with e _; rw [e]; decide)

theorem fits_readOperator (h : IsInner c) (hstart : isStart c = false) :
    Fits s (c :: rest) (readOperator c rest) := by
  simp only [Fits, readOperator]
  split
  · rename_i d tail
    split_ifs with hlong hdot
    · have hinner : ∀ d ∈ ['=', '&', '|', '*', '/', '\\', '^'], IsInner d := by
        simp only [forall_mem_cons, not_mem_nil, IsEmpty.forall_iff, implies_true]
        decide
      have hd := hinner d (mem_of_longOperators hlong)
      exact .operator (cons_ne_nil _ _) (by simp [h, hd]) hstart
    · simp only [Bool.and_eq_true, decide_eq_true_eq] at hdot
      rw [hdot.1, hdot.2]
      exact .operator (l := ['.', '\'']) (cons_ne_nil _ _)
        (forall_mem_cons.2 ⟨by decide, forall_mem_singleton.2 (by decide)⟩) (by decide)
    · exact .operator (cons_ne_nil _ _) (by simp [h]) hstart
  · exact .operator (cons_ne_nil _ _) (by simp [h]) hstart

theorem length_readOperator_le (c : Char) (rest : Text) : (readOperator c rest).length ≤ rest.length + 1 := by
  unfold readOperator
  split
  · split_ifs <;> simp
  · simp

/-- The branches of `read`, with what each of them has found out. -/
inductive Branch (s : Surroundings) (c : Char) (rest : Text) (r : Except Cause Lexeme) : Prop
  | newline (hc : c = '\n') (h : .ok ⟨.newline, 1⟩ = r)
  | block (hc : c = '%') (hopens : s.leadsLine && opensBlock (firstLine (c :: rest)))
    (h : readBlockComment (c :: rest) = r)
  | comment (hc : c = '%') (h : .ok (readComment (c :: rest)) = r)
  | continuation (hdots : "...".toList.isPrefixOf (c :: rest)) (h : .ok (readContinuation (c :: rest)) = r)
  | transpose (hc : c = '\'') (h : .ok ⟨.operator .transpose, 1⟩ = r)
  | literal (q : Quote) (hc : c = q.char) (hq : ¬(q = .single ∧ transposes s))
    (h : readLiteral q (c :: rest) = r)
  | number (hdigit : c.isDigit || (c == '.' && rest.head?.any Char.isDigit))
    (h : .ok (readNumber (c :: rest)) = r)
  | word (hword : isStart c) (h : .ok (readWord s (c :: rest)) = r)
  | opening (b : Bracket) (hc : c = b.opener) (h : .ok ⟨.delimiter (.opening b), 1⟩ = r)
  | closing (b : Bracket) (hc : c = b.closer) (h : .ok ⟨.delimiter (.closing b), 1⟩ = r)
  | comma (hc : c = ',') (h : .ok ⟨.delimiter .comma, 1⟩ = r)
  | semicolon (hc : c = ';') (h : .ok ⟨.delimiter .semicolon, 1⟩ = r)
  | operator (hc : IsInner c) (hsingle : c ≠ '\'') (hword : isStart c =
    false) (h : .ok (readOperator c rest) = r)

theorem branch_of_read {r : Except Cause Lexeme} (h : read s c rest = r) : Branch s c rest r := by
  rw [read] at h
  split at h
  · exact .newline ‹_› h
  rename_i hline
  split at h
  · rename_i hpercent
    split at h
    · exact .block hpercent ‹_› h
    · exact .comment hpercent h
  split at h
  · exact .continuation ‹_› h
  split at h
  · rename_i hsingle
    split at h
    · exact .transpose hsingle h
    · rename_i htransposes
      exact .literal .single hsingle (fun hq => htransposes hq.2) h
  rename_i hsingle
  split at h
  · exact .literal .double ‹_› (fun hq => Quote.noConfusion hq.1) h
  rename_i hdouble
  split at h
  · exact .number ‹_› h
  split at h
  · exact .word ‹_› h
  rename_i hword
  split at h
  · exact .opening _ (Bracket.opener_of_ofOpener? ‹_›).symm h
  · exact .closing _ (Bracket.closer_of_ofCloser? ‹_›).symm h
  · rename_i ho hc
    split_ifs at h with hcomma hsemicolon
    · exact .comma hcomma h
    · exact .semicolon hsemicolon h
    · exact .operator ⟨ho, hc, hdouble, hline⟩ hsingle (Bool.eq_false_iff.2 hword) h

/-- A lexeme that is read has one of the listed forms. -/
theorem reads_of_read (h : read s c rest = .ok l) :
    Reads s l.kind ((c :: rest).take l.length) ((c :: rest).drop l.length) := by
  show Fits s (c :: rest) l
  cases branch_of_read h with
  | newline hc h =>
    cases h
    rw [hc]
    exact .newline
  | block hc hopens h =>
    subst hc
    simp only [Bool.and_eq_true] at hopens
    exact fits_readBlockComment hopens.1 h
  | comment hc h =>
    cases h
    rw [hc]
    exact fits_readComment rest
  | continuation hdots h =>
    cases h
    exact fits_readContinuation hdots
  | transpose hc h =>
    cases h
    rw [hc]
    exact .operator (l := ['\'']) (cons_ne_nil _ _) (forall_mem_singleton.2 (by decide)) (by decide)
  | literal q hc _ h =>
    subst hc
    exact fits_readLiteral h
  | number hdigit h =>
    cases h
    exact fits_readNumber hdigit
  | word hword h =>
    cases h
    exact fits_readWord hword
  | opening b hc h =>
    cases h
    rw [hc]
    exact .opening
  | closing b hc h =>
    cases h
    rw [hc]
    exact .closing
  | comma hc h =>
    cases h
    rw [hc]
    exact .comma
  | semicolon hc h =>
    cases h
    rw [hc]
    exact .semicolon
  | operator hc _ hword h =>
    cases h
    exact fits_readOperator hc hword

variable {l : Text} (h : Reads s k l after)
include h

theorem Reads.ne_nil : l ≠ [] := by
  cases h with
  | comment hsigns => simp [hsigns]
  | continuation => exact cons_ne_nil _ _
  | keyword _ _ _ hw | identifier hw => exact ne_nil_of_isIdentifier hw
  | blockComment _ hl | literal hl => exact ne_nil_of_mem (mem_of_head? hl)
  | number hl | operator hl => exact hl
  | newline | opening | closing | comma | semicolon => exact cons_ne_nil _ _

/-- Only a line end starts with a line end. -/
theorem Reads.head?_ne_newline (hk : k ≠ .newline) : l.head? ≠ some '\n' := by
  intro hhead
  cases h with
  | newline => exact hk rfl
  | comment hne hsigns =>
    rw [head?_append_of_ne_nil _ hne] at hhead
    exact absurd (hsigns _ (mem_of_head? hhead)) (by decide)
  | blockComment _ hl => exact absurd (hhead.symm.trans hl) (by decide)
  | continuation => exact absurd hhead (by simp)
  | literal hl =>
    rename_i q _
    exact absurd (hhead.symm.trans hl) (by cases q <;> decide)
  | number _ hl | operator _ hl => exact (hl _ (mem_of_head? hhead)).newline rfl
  | keyword _ _ _ hw | identifier hw =>
    exact absurd (isContinue_of_isIdentifier hw _ (mem_of_head? hhead)) (by decide)
  | opening | closing =>
    rename_i b
    exact absurd hhead (by cases b <;> decide)
  | comma | semicolon => exact absurd hhead (by decide)

/-- Only words start with a letter. -/
theorem Reads.isWord_of_head? (hl : l.head?.any isStart) : (∃ w, k = .keyword w) ∨ k = .identifier l := by
  cases h with
  | keyword => exact .inl ⟨_, rfl⟩
  | identifier => exact .inr rfl
  | number _ _ hstart | operator _ _ hstart =>
    rw [hstart] at hl
    cases hl
  | comment hne hsigns =>
    obtain ⟨c, signs, rfl⟩ := exists_cons_of_ne_nil hne
    rw [hsigns c mem_cons_self] at hl
    exact absurd (show isStart '%' = true from hl) (by decide)
  | blockComment _ hhead =>
    rw [hhead] at hl
    exact absurd hl (by decide)
  | literal hhead =>
    rename_i q _
    rw [hhead] at hl
    exact absurd hl (by cases q <;> decide)
  | opening | closing =>
    rename_i b
    exact absurd hl (by cases b <;> decide)
  | continuation => exact absurd (show isStart '.' = true from hl) (by decide)
  | newline | comma | semicolon => exact absurd hl (by decide)

theorem Reads.kind_ne_eof : k ≠ .eof := by
  rintro rfl
  cases h

end Lexeme

end ClassdefDoc
