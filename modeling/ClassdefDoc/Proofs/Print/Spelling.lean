import ClassdefDoc.Proofs.Parse.Place
import ClassdefDoc.Proofs.Scan.Run

/-!
# Scanning spelled tokens

A `Spelling` is one token as it is written, with the blanks before it. `Scans σ ps after σ'` says that a
scanner in the context `σ` takes the tokens `ps` from their text, when `after` follows it, and is in the
context `σ'` then. A context holds what decides how words are read: the open brackets and whether a
statement starts. Runs are put together by `Scans.append`; the rules for one token say what may follow it.
-/

namespace ClassdefDoc

open List Name
open Cursor (isGap)

variable {past cs : Text} {p : Spelling}

variable {around : Surroundings} {c : Char} {stack : List Bracket} {after : Text}

/-- One token as it is written. -/
structure Spelling where
  gap : Text
  kind : TokenKind
  lexeme : Text

namespace Spelling

/-- The text of some tokens. -/
def write (ps : List Spelling) : Text := ps.flatMap fun p => p.gap ++ p.lexeme

@[simp] theorem write_nil : write [] = [] := rfl

@[simp] theorem write_cons (p : Spelling) (ps : List Spelling) :
    write (p :: ps) = p.gap ++ (p.lexeme ++ write ps) := by
  simp [write]

@[simp] theorem write_append (ps qs : List Spelling) : write (ps ++ qs) = write ps ++ write qs :=
  flatMap_append

theorem write_flatMap {ι : Type} (f : ι → List Spelling) (l : List ι) :
    write (l.flatMap f) = l.flatMap fun x => write (f x) :=
  flatMap_assoc

/-- The token that stands behind `past`. -/
def token (past : Text) (p : Spelling) : Token where
  kind := p.kind
  lexeme := p.lexeme
  span := ⟨Position.start.advance (past ++ p.gap), Position.start.advance (past ++ p.gap ++ p.lexeme)⟩
  offset := Text.bytes (past ++ p.gap)
  spaced := !p.gap.isEmpty
  leadsLine := Text.isBlank ((past ++ p.gap).reverse.takeWhile (· != '\n')).reverse

/-- The tokens that stand behind `past` one after another. -/
def tokens (past : Text) : List Spelling → List Token
  | [] => []
  | p :: ps => p.token past :: tokens (past ++ p.gap ++ p.lexeme) ps

theorem tokens_append (past : Text) (ps qs : List Spelling) :
    tokens past (ps ++ qs) = tokens past ps ++ tokens (past ++ write ps) qs := by
  induction ps generalizing past with
  | nil => simp [tokens]
  | cons p ps ih => simp [tokens, ih]

@[simp] theorem map_kind_tokens (past : Text) (ps : List Spelling) :
    (tokens past ps).map (·.kind) = ps.map (·.kind) := by
  induction ps generalizing past with
  | nil => rfl
  | cons p ps ih => simp [tokens, ih, token]

theorem tokens_eq_nil {ps : List Spelling} : tokens past ps = [] ↔ ps = [] := by
  cases ps <;> simp [tokens]

/-- The last of some tokens ends where their text ends. -/
theorem endOffset_getLast {ps : List Spelling} {t : Token}
    (h : (tokens past ps).getLast? = some t) : t.endOffset = Text.bytes (past ++ write ps) := by
  induction ps generalizing past with
  | nil => simp [tokens] at h
  | cons p ps ih =>
    cases ps with
    | nil =>
      simp only [tokens, getLast?_singleton, Option.some.injEq] at h
      rw [← h]
      simp [Token.endOffset, token, Nat.add_assoc]
    | cons q ps =>
      rw [tokens, tokens, getLast?_cons_cons] at h
      rw [ih h]
      simp only [write_cons, append_assoc]

end Spelling

/-- What decides how a word is read. -/
structure Context where
  brackets : List Bracket
  startsStatement : Bool

/-- The scanner stands between `past` and `ahead` in the context `σ`. -/
structure Scanner.Stands (s : Scanner) (past ahead : Text) (σ : Context) : Prop where
  cursor : s.cursor = .between past ahead
  brackets : s.brackets.map (·.1) = σ.brackets
  startsStatement : s.startsStatement = σ.startsStatement

/-- From the context `σ` the tokens `ps` are scanned in front of `after`, up to the context `σ'`. -/
def Scans (σ : Context) (ps : List Spelling) (after : Text) (σ' : Context) : Prop :=
  ∀ ⦃s past⦄, s.Stands past (Spelling.write ps ++ after) σ →
    ∃ s', Chain Scanner.step s (Spelling.tokens past ps) s' ∧ s'.Stands (past ++ Spelling.write ps) after σ'

/-- One step over a spelled token, from how its lexeme is read. -/
theorem Scanner.step_spelling {s : Scanner}
    (hs : s.cursor = .between past (p.gap ++ (p.lexeme ++ after))) (hlexeme : p.lexeme = c :: cs)
    (hgap : ∀ c ∈ p.gap, isGap c) (hc : isGap c = false)
    (hread : Lexeme.read (s.sees past p.gap) c (cs ++ after) = .ok ⟨p.kind, p.lexeme.length⟩)
    (hkind : p.kind.isContinuation = false)
    (hafter : Bracket.after (s.brackets.map (·.1)) p.kind = some stack) :
    ∃ s', step s = .ok (.item (p.token past) s') ∧ s'.cursor = .between (past ++ p.gap ++ p.lexeme) after ∧
      s'.brackets.map (·.1) = stack ∧
      s'.startsStatement = statementAfter s.startsStatement stack.isEmpty p.kind ∧
      s'.previous = some p.kind := by
  have hcons : p.lexeme ++ after = c :: (cs ++ after) := by rw [hlexeme, cons_append]
  rw [hcons] at hs
  obtain ⟨brackets, hbrackets, hstack⟩ :=
    bracketsAfter_of_after (p := Position.start.advance (past ++ p.gap)) hafter
  have hstep := step_of_lexes ⟨hs, hgap, hc, hread, by rw [hlexeme, length_cons]⟩
  rw [hbrackets, ← hlexeme] at hstep
  refine ⟨_, hstep, moveOn_cursor hkind .., hstack, ?_, rfl⟩
  simp only [moveOn, ← hstack, isEmpty_map]

namespace Scans

variable {σ τ ρ : Context} {ps qs : List Spelling} {after : Text}

theorem nil : Scans σ [] after σ := by
  intro s past hs
  exact ⟨s, .nil s, by simpa using hs⟩

theorem append (h : Scans σ ps (Spelling.write qs ++ after) τ) (h' : Scans τ qs after ρ) :
    Scans σ (ps ++ qs) after ρ := by
  intro s past hs
  rw [Spelling.write_append, append_assoc] at hs
  obtain ⟨s₁, hchain₁, hs₁⟩ := h hs
  obtain ⟨s₂, hchain₂, hs₂⟩ := h' hs₁
  refine ⟨s₂, ?_, ?_⟩
  · rw [Spelling.tokens_append]
    exact hchain₁.append hchain₂
  · rwa [Spelling.write_append, ← append_assoc]

theorem cons (h : Scans σ [p] (Spelling.write ps ++ after) τ) (h' : Scans τ ps after ρ) :
    Scans σ (p :: ps) after ρ :=
  append h h'

/-- One token, from how its lexeme is read in the context. -/
theorem single (hlexeme : p.lexeme = c :: cs)
    (hgap : ∀ c ∈ p.gap, isGap c) (hc : isGap c = false)
    (hread : ∀ around : Surroundings, around.startsStatement = σ.startsStatement →
      around.innermost = σ.brackets.head? →
      Lexeme.read around c (cs ++ after) = .ok ⟨p.kind, p.lexeme.length⟩)
    (hkind : p.kind.isContinuation = false)
    (hafter : Bracket.after σ.brackets p.kind = some stack) :
    Scans σ [p] after ⟨stack, Scanner.statementAfter σ.startsStatement stack.isEmpty p.kind⟩ := by
  intro s past hs
  have hcursor := hs.cursor
  rw [Spelling.write_cons, Spelling.write_nil, append_nil, append_assoc] at hcursor
  obtain ⟨s', hstep, hcursor', hbrackets, hstarts, -⟩ := Scanner.step_spelling hcursor hlexeme hgap hc
    (hread _ hs.startsStatement (by rw [← hs.brackets, head?_map]; rfl)) hkind
    (hs.brackets ▸ hafter)
  refine ⟨s', .single hstep, ?_, hbrackets, by rw [hstarts, hs.startsStatement]⟩
  rw [hcursor', Spelling.write_cons, Spelling.write_nil, append_nil, append_assoc]

end Scans

/-! ## How one token is read -/

namespace Lexeme

variable {s : Surroundings} {c d : Char}

theorem isDigit_of_isStart (h : isStart c) : c.isDigit = false := by
  have hletter : (65 ≤ c.val ∧ c.val ≤ 90) ∨ (97 ≤ c.val ∧ c.val ≤ 122) := by
    rcases Bool.or_eq_true_iff.1 h with h | h
    · exact .inl (of_decide_eq_true h)
    · exact .inr ((Bool.and_eq_true_iff.1 h).imp of_decide_eq_true of_decide_eq_true)
  refine Bool.and_eq_false_iff.2 ?_
  grind

/-- Nothing but a word starts with a letter. -/
theorem read_of_isStart (hc : isStart c) (rest : Text) :
    read s c rest = .ok (readWord s (c :: rest)) := by
  have hne (d : Char) (hd : isStart d = false) : c ≠ d := by
    rintro rfl
    simp [hc] at hd
  have hdigit := isDigit_of_isStart hc
  have hdots : "...".toList.isPrefixOf (c :: rest) = false := by
    simp [List.isPrefixOf, Ne.symm (hne '.' (by decide))]
  rw [read, if_neg (hne _ (by decide)), if_neg (hne _ (by decide)), hdots, if_neg Bool.false_ne_true,
    if_neg (hne _ (by decide)), if_neg (hne _ (by decide)), hdigit, Bool.false_or,
    beq_eq_false_iff_ne.2 (hne '.' (by decide)), Bool.false_and, if_neg Bool.false_ne_true, if_pos hc]

theorem read_delimiter (d : Delimiter) (rest : Text) :
    read s d.char rest = .ok ⟨.delimiter d, 1⟩ := by
  rcases d with (_ | _ | _) | (_ | _ | _) | _ | _ <;> rfl

theorem read_newline (rest : Text) : read s '\n' rest = .ok ⟨.newline, 1⟩ := rfl

/-- A character that may follow an operator of one character in a printed text. -/
def EndsOperator (d : Char) : Prop := isStart d ∨ d ∈ [' ', ',', ')']

theorem EndsOperator.not_mem (h : EndsOperator d) :
    d ∉ ['=', '&', '|', '*', '/', '\\', '^', '\'', '.'] := by
  intro hd
  simp only [mem_cons, not_mem_nil, or_false] at hd
  rcases hd with rfl | rfl | rfl | rfl | rfl | rfl | rfl | rfl | rfl <;>
    (revert h; unfold EndsOperator; decide)

theorem readOperator_of_ends (hd : EndsOperator d) (rest : Text) :
    readOperator c (d :: rest) = ⟨.operator (singleOperator c), 1⟩ := by
  have hnot := hd.not_mem
  simp only [mem_cons, not_mem_nil, or_false, not_or] at hnot
  have hlong : longOperators.contains [c, d] = false := by
    rw [Bool.eq_false_iff]
    intro h
    have := mem_of_longOperators h
    simp only [mem_cons, not_mem_nil, or_false] at this
    tauto
  have hquote : (decide (c = '.') && decide (d = '\'')) = false := by simp [hnot]
  simp only [readOperator, hlong, hquote, Bool.false_eq_true, if_false]

/-- An operator of one character; a dot stands before a letter. -/
theorem read_operator (hc : c ∈ ['=', '.', '@', '<', '&', '~']) (hd : EndsOperator d)
    (hdot : c = '.' → isStart d) (rest : Text) :
    read s c (d :: rest) = .ok ⟨.operator (singleOperator c), 1⟩ := by
  rw [← readOperator_of_ends hd rest]
  simp only [mem_cons, not_mem_nil, or_false] at hc
  rcases hc with rfl | rfl | rfl | rfl | rfl | rfl
  · rfl
  · have hne : ('.' == d) = false :=
      beq_eq_false_iff_ne.2 fun h => by subst h; simp at hdot; revert hdot; decide
    have hdigit := isDigit_of_isStart (hdot rfl)
    have hdots : "...".toList.isPrefixOf ('.' :: d :: rest) = false := by
      show ('.' == '.' && ('.' == d && _)) = false
      rw [hne]
      rfl
    rw [read, if_neg (by decide), if_neg (by decide), hdots, if_neg Bool.false_ne_true, if_neg (by decide),
      if_neg (by decide), if_neg (by simp [hdigit])]
    rfl
  · rfl
  · rfl
  · rfl
  · rfl

end Lexeme

/-! ## Rules for one token -/

/-- A word ends where `after` starts. -/
def EndsWord (after : Text) : Prop := ∀ c, after.head? = some c → isContinue c = false

theorem Keyword.ofWord?_word (k : Keyword) : ofWord? k.word = some k := by cases k <;> decide +kernel

theorem Keyword.isIdentifier_word (k : Keyword) : isIdentifier k.word := by
  cases k <;> decide +kernel

theorem isGap_of_isContinue (h : isContinue c) : isGap c = false := by
  rw [Bool.eq_false_iff]
  intro hgap
  simp only [isGap, Bool.or_eq_true, beq_iff_eq] at hgap
  rcases hgap with (rfl | rfl) | rfl <;> exact absurd h (by decide)

theorem Lexeme.readWord_eq {text word : Text} (h : text.takeWhile isContinue = word) :
    readWord around text =
      match if around.startsStatement && around.innermost.isNone then Keyword.ofWord? word else none with
      | some k => ⟨.keyword k, word.length⟩
      | none => ⟨.identifier word, word.length⟩ := by
  subst h
  rfl

/-- A word is read up to its end; the context decides whether it is a keyword. -/
theorem Lexeme.read_word (hword : isIdentifier (c :: cs)) (hafter : EndsWord after) :
    read around c (cs ++ after) = .ok
      (match if around.startsStatement && around.innermost.isNone then Keyword.ofWord?
        (c :: cs) else none with
      | some k => ⟨.keyword k, (c :: cs).length⟩
      | none => ⟨.identifier (c :: cs), (c :: cs).length⟩) := by
  have hstart : isStart c := by
    simp only [isIdentifier, Bool.and_eq_true] at hword
    exact hword.1
  have htake : (c :: (cs ++ after)).takeWhile isContinue = c :: cs :=
    Text.takeWhile_append_stop (isContinue_of_isIdentifier hword) hafter
  rw [read_of_isStart hstart]
  exact congrArg Except.ok (readWord_eq htake)

namespace Scans

variable {σ : Context} {after gap : Text} (hgap : ∀ c ∈ gap, isGap c)

include hgap

theorem identifier {w : Text} (hw : isIdentifier w) (hafter : EndsWord after)
    (hplain : σ.startsStatement → σ.brackets = [] → Keyword.ofWord? w = none) :
    Scans σ [⟨gap, .identifier w, w⟩] after ⟨σ.brackets, false⟩ := by
  obtain ⟨c, cs, rfl⟩ := exists_cons_of_ne_nil (ne_nil_of_isIdentifier hw)
  refine single rfl hgap ?_ (fun around hstarts hinner => ?_) rfl rfl
  · exact isGap_of_isContinue (isContinue_of_isIdentifier hw c mem_cons_self)
  · rw [Lexeme.read_word hw hafter, hstarts, hinner]
    split
    · rename_i k hk
      split_ifs at hk with hcond
      simp only [Bool.and_eq_true, Option.isNone_iff_eq_none, head?_eq_none_iff] at hcond
      simp [hplain hcond.1 hcond.2] at hk
    · rfl

theorem delimiter (d : Delimiter)
    (hstack : Bracket.after σ.brackets (.delimiter d) = some stack) :
    Scans σ [⟨gap, .delimiter d, [d.char]⟩] after
      ⟨stack, Scanner.statementAfter σ.startsStatement stack.isEmpty (.delimiter d)⟩ := by
  refine single rfl hgap ?_ (fun around _ _ => ?_) rfl hstack
  · rcases d with (_ | _ | _) | (_ | _ | _) | _ | _ <;> rfl
  · exact Lexeme.read_delimiter d after

/-- An operator of one character. -/
theorem operator {d : Char} {op : Operator} (hc : c ∈ ['=', '.', '@', '<', '&', '~'])
    (hop : Lexeme.singleOperator c = op) (hafter : after.head? = some d) (hd : Lexeme.EndsOperator d)
    (hdot : c = '.' → isStart d) :
    Scans σ [⟨gap, .operator op, [c]⟩] after ⟨σ.brackets, false⟩ := by
  obtain ⟨rest, rfl⟩ := head?_eq_some_iff.1 hafter
  refine single rfl hgap ?_ (fun around _ _ => ?_) rfl rfl
  · simp only [mem_cons, not_mem_nil, or_false] at hc
    rcases hc with rfl | rfl | rfl | rfl | rfl | rfl <;> rfl
  · rw [← hop]
    exact Lexeme.read_operator hc hd hdot rest

omit hgap

theorem keyword (k : Keyword) (hafter : EndsWord after) :
    Scans ⟨[], true⟩ [⟨[], .keyword k, k.word⟩] after
      ⟨[], Scanner.statementAfter true true (.keyword k)⟩ := by
  have hw := k.isIdentifier_word
  have hk := k.ofWord?_word
  generalize k.word = w at hw hk
  obtain ⟨c, cs, rfl⟩ := exists_cons_of_ne_nil (ne_nil_of_isIdentifier hw)
  refine single rfl (forall_mem_nil _) ?_ (fun around hstarts hinner => ?_) rfl rfl
  · exact isGap_of_isContinue (isContinue_of_isIdentifier hw c mem_cons_self)
  · rw [Lexeme.read_word hw hafter, hstarts, hinner]
    simp only [hk]
    rfl

theorem newline :
    Scans σ [⟨[], .newline, ['\n']⟩] after ⟨σ.brackets, σ.startsStatement || σ.brackets.isEmpty⟩ :=
  single rfl (forall_mem_nil _) rfl (fun _ _ _ => Lexeme.read_newline after) rfl rfl

end Scans

end ClassdefDoc
