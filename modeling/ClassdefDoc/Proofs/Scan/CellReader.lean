import ClassdefDoc.Proofs.Scan.Cut
import ClassdefDoc.Proofs.Scan.Lossless
import ClassdefDoc.Proofs.Scan.Statement
import ClassdefDoc.Pseudocode.Default

/-!
# The reader of cell arrays and the scanner

`Default.enclosed?` looks for braces that enclose a whole text. It goes by characters
and knows neither tokens nor comments. `Scanner.foldlM_of_chain` says that it finds the
braces that the scanner finds, over all tokens but those that `TokenKind.mayMislead`
lists, and over each of these that it passes on its own (`Default.passes`).
-/

namespace ClassdefDoc

open List Delimiter Text
open Option (bind_eq_bind bind_some map_some)

variable {ds : List Delimiter}

namespace Default

/-- The last character of a text that is no white space; `c`, if there is none. -/
def lastShown (c : Char) (t : Text) : Char := t.foldl (fun last d => if isSpace d then last else d) c

/-- Whether the reader of cell arrays, when it stands behind `last`, finds
no brace in `t` that has no partner there and no literal that stays open. -/
def passes (last : Char) (t : Text) : Bool :=
  (t.foldlM (Scan.step .brace) { last := last }).any fun s => s.depth == 0 && s.literal.isNone

/-- At any depth, the reader of cell arrays is outside literals and as deep behind `t` as before it. -/
def GoesOver (last : Char) (t : Text) : Prop :=
  ∀ d, t.foldlM (Scan.step .brace) ⟨d, none, last⟩ = some ⟨d, none, lastShown last t⟩

variable {last c : Char} {t u : Text} {b : Bracket} {s s' : Scan}

theorem lastShown_append (c : Char) (t u : Text) :
    lastShown c (t ++ u) = lastShown (lastShown c t) u := foldl_append

/-- A step shows its character, and it is the same one further inside. -/
theorem step_shift (h : Scan.step b s c = some s') : s'.last = lastShown s.last [c] ∧
    ∀ n, Scan.step b { s with depth := s.depth + n } c = some { s' with depth := s'.depth + n } := by
  obtain ⟨depth, literal, last⟩ := s
  simp only [Scan.step, lastShown, foldl_cons, foldl_nil] at h ⊢
  generalize (if isSpace c = true then last else c) = shown at h ⊢
  cases literal with
  | some q =>
    cases h
    exact ⟨rfl, fun _ => rfl⟩
  | none =>
    simp only at h ⊢
    split_ifs at h ⊢
    · cases h
      exact ⟨rfl, fun _ => rfl⟩
    · cases h
      exact ⟨rfl, fun n => by rw [Nat.add_right_comm]⟩
    · cases depth with
      | zero => cases h
      | succ depth =>
        cases h
        exact ⟨rfl, fun n => by rw [Nat.add_right_comm]⟩
    · cases h
      exact ⟨rfl, fun _ => rfl⟩

theorem foldlM_shift (h : t.foldlM (Scan.step b) s = some s') : s'.last = lastShown s.last t ∧
    ∀ n, t.foldlM (Scan.step b) { s with depth := s.depth + n } = some { s' with depth := s'.depth + n } := by
  induction t generalizing s with
  | nil =>
    cases h
    exact ⟨rfl, fun _ => rfl⟩
  | cons c t ih =>
    obtain ⟨s₁, hstep, hrest⟩ := Option.bind_eq_some_iff.1 h
    obtain ⟨hlast, hdeep⟩ := step_shift hstep
    obtain ⟨hlast', hdeep'⟩ := ih hrest
    refine ⟨by rw [hlast', hlast, ← lastShown_append, singleton_append], fun n => ?_⟩
    rw [foldlM_cons, hdeep, bind_eq_bind, bind_some, hdeep']

/-! ## Texts that are gone over -/

theorem goesOver_of_passes (h : passes last t) : GoesOver last t := by
  intro d
  obtain ⟨⟨depth, literal, l⟩, hrun, hends⟩ := (Option.any_eq_true _ _).1 h
  obtain ⟨hdepth, hliteral⟩ := Bool.and_eq_true_iff.1 hends
  obtain rfl : depth = 0 := beq_iff_eq.1 hdepth
  obtain rfl : literal = none := Option.isNone_iff_eq_none.1 hliteral
  obtain ⟨rfl, hdeep⟩ := foldlM_shift hrun
  simpa using hdeep d

/-- A character that is no quote and no brace. -/
structure IsPlain (c : Char) : Prop where
  single : c ≠ '\''
  double : c ≠ '"'
  opener : c ≠ '\x7b'
  closer : c ≠ '\x7d'

instance (c : Char) : Decidable (IsPlain c) :=
  decidable_of_iff (c ≠ '\'' ∧ c ≠ '"' ∧ c ≠ '\x7b' ∧ c ≠ '\x7d')
    ⟨fun h => ⟨h.1, h.2.1, h.2.2.1, h.2.2.2⟩, fun h => ⟨h.single, h.double, h.opener, h.closer⟩⟩

theorem goesOver_of_plain (h : ∀ c ∈ t, IsPlain c) : GoesOver last t := by
  induction t generalizing last with
  | nil => exact fun _ => rfl
  | cons c t ih =>
    obtain ⟨hc, ht⟩ := forall_mem_cons.1 h
    have hstep (d : Nat) : Scan.step .brace ⟨d, none, last⟩ c = some ⟨d, none, lastShown last [c]⟩ := by
      simp [Scan.step, Bracket.opener, Bracket.closer, hc.single, hc.double, hc.opener, hc.closer, lastShown]
    intro d
    rw [foldlM_cons, hstep d, bind_eq_bind, bind_some, ih ht d, ← lastShown_append, singleton_append]

/-- A string is gone over: a doubled quote ends it and opens it again. -/
theorem goesOver_string (value : Text) : GoesOver last (Quote.double.written value) := by
  have hinside (d : Nat) (last : Char) :
      (doubled '"' value ++ ['"']).foldlM (Scan.step .brace) ⟨d, some '"', last⟩ = some ⟨d, none, '"'⟩ := by
    induction value generalizing last with
    | nil => rfl
    | cons c value ih =>
      by_cases hc : c = '"'
      · rw [hc, Text.doubled_cons_self]
        exact ih '"'
      · have hstep : Scan.step .brace ⟨d, some '"', last⟩ c = some ⟨d, some '"', lastShown last [c]⟩ := by
          simp [Scan.step, hc, lastShown]
        rw [doubled_cons_of_ne hc, cons_append, foldlM_cons, hstep]
        exact ih _
  intro d
  have hrun : (Quote.double.written value).foldlM (Scan.step .brace) ⟨d, none, last⟩ = some ⟨d, none, '"'⟩ :=
    hinside d '"'
  have hlast : '"' = lastShown last (Quote.double.written value) := (foldlM_shift hrun).1
  rw [hrun, ← hlast]

theorem isPlain_of_isInner (h : IsInner c) (hc : c ≠ '\'') : IsPlain c :=
  ⟨hc, h.quote, (Bracket.ofOpener?_eq_none.1 h.opener).2.2, (Bracket.ofCloser?_eq_none.1 h.closer).2.2⟩

theorem isPlain_of_isContinue (h : Name.isContinue c) : IsPlain c :=
  isPlain_of_isInner (Name.isInner_of_isContinue h) (by rintro rfl; exact absurd h (by decide))

end Default

/-- Kinds of tokens of which a reader that goes by characters may take a part for something else. -/
def TokenKind.mayMislead : TokenKind → Bool
  | literal .single _ | operator .transpose | comment _ | blockComment _ | continuation _ => true
  | _ => false

namespace Lexeme

open Default

variable {s : Surroundings} {c : Char} {rest : Text} {l : Lexeme}

theorem isPlain_readOperator (hc : IsPlain c) (hkind : (readOperator c rest).kind.mayMislead = false) :
    ∀ d ∈ (c :: rest).take (readOperator c rest).length, IsPlain d := by
  cases rest with
  | nil => exact forall_mem_singleton.2 hc
  | cons d rest =>
    simp only [readOperator] at hkind ⊢
    split_ifs at hkind ⊢ with hlong hdot
    · have hplain : ∀ d ∈ ['=', '&', '|', '*', '/', '\\', '^'], IsPlain d := by
        simp only [forall_mem_cons, not_mem_nil, IsEmpty.forall_iff, implies_true]
        decide
      exact forall_mem_cons.2 ⟨hc, forall_mem_singleton.2 (hplain d (mem_of_longOperators hlong))⟩
    · cases hkind
    · exact forall_mem_singleton.2 hc

/-- Over a lexeme that cannot mislead it the reader of cell arrays goes as the scanner does. -/
theorem goesOver_of_read (h : read s c rest = .ok l) (hkind : l.kind.mayMislead = false)
    (hopen : l.kind ≠ .delimiter (.opening .brace)) (hclose : l.kind ≠ .delimiter (.closing .brace))
    (last : Char) :
    GoesOver last ((c :: rest).take l.length) := by
  cases branch_of_read h with
  | newline hc h =>
    cases h
    subst hc
    exact goesOver_of_plain (forall_mem_singleton.2 (by decide))
  | block _ _ h =>
    obtain ⟨first, lines, closing, more, -, -, -, rfl⟩ := readBlockComment_eq_ok_iff.1 h
    cases hkind
  | comment _ h | continuation _ h | transpose _ h =>
    cases h
    cases hkind
  | literal q hc _ h =>
    obtain ⟨value, more, -, rfl, -, rfl⟩ := readLiteral_eq_ok_iff.1 h
    cases q with
    | single => cases hkind
    | double =>
      have hcut : c :: (doubled Quote.double.char value ++ Quote.double.char :: more) =
          Quote.double.written value ++ more := by
        rw [hc]
        simp [Quote.written]
      rw [hcut, take_left' (by simp [Quote.written])]
      exact goesOver_string value
  | number _ h =>
    cases h
    refine goesOver_of_plain fun d hd => ?_
    obtain ⟨previous, after, hgoes⟩ := exists_numberGoesOn hd
    exact isPlain_of_isInner (isInner_of_numberGoesOn hgoes) (by rintro rfl; cases hgoes)
  | word _ h =>
    cases h
    refine goesOver_of_plain fun d hd => isPlain_of_isContinue ?_
    rw [readWord_length, take_takeWhile_length] at hd
    exact mem_takeWhile_imp hd
  | opening b hc h =>
    cases h
    rw [hc]
    refine goesOver_of_plain (forall_mem_singleton.2 ?_)
    cases b with
    | paren | square => decide
    | brace => exact absurd rfl hopen
  | closing b hc h =>
    cases h
    rw [hc]
    refine goesOver_of_plain (forall_mem_singleton.2 ?_)
    cases b with
    | paren | square => decide
    | brace => exact absurd rfl hclose
  | comma hc h | semicolon hc h =>
    cases h
    rw [hc]
    exact goesOver_of_plain (forall_mem_singleton.2 (by decide))
  | operator hc hsingle _ h =>
    cases h
    exact goesOver_of_plain (isPlain_readOperator (isPlain_of_isInner hc hsingle) hkind)

end Lexeme

/-! ## Braces among brackets -/

/-- The number of open braces behind a bracket. -/
def Delimiter.bracesAfter (n : Nat) : Delimiter → Option Nat
  | opening .brace => some (n + 1)
  | closing .brace => if n = 0 then none else some (n - 1)
  | _ => some n

theorem Bracket.Nested.foldlM_bracesAfter (h : Nested ds) (n : Nat) :
    ds.foldlM bracesAfter n = some n := by
  induction h generalizing n with
  | nil => rfl
  | @pair b inner after _ _ ihinner ihafter =>
    cases b <;> simp [bracesAfter, ihinner, ihafter]

/-- Brackets between two braces that do not belong together close a brace too many. -/
theorem foldlM_bracesAfter_eq_none
    (h : Bracket.Nested (.opening .brace :: ds ++ [.closing .brace])) (hds : ¬Bracket.Nested ds) :
    ds.foldlM bracesAfter 0 = none := by
  generalize hall : Delimiter.opening .brace :: ds ++ [.closing .brace] = all at h
  cases h with
  | nil => cases hall
  | @pair b inner after hinner hafter =>
    obtain ⟨hb, hrest⟩ := List.cons.inj hall
    cases hb
    induction after using List.reverseRecOn with
    | nil =>
      obtain ⟨rfl, -⟩ := append_inj' hrest rfl
      exact absurd hinner hds
    | append_singleton after d _ =>
      obtain ⟨rfl, -⟩ : ds = inner ++ .closing .brace :: after ∧ _ :=
        append_inj' (hrest.trans (append_assoc inner (.closing .brace :: after) [d]).symm) rfl
      simp [hinner.foldlM_bracesAfter, bracesAfter]

/-! ## The reader and the scanner -/

/-- Whether the reader of cell arrays passes a token that stands in `text`. -/
def Token.isPassed (text : Text) (t : Token) : Bool :=
  (text.slice? 0 t.offset).any fun before => Default.passes (Default.lastShown ' ' before) t.lexeme

namespace Scanner

open Default

variable {s s' : Scanner} {past ahead text : Text} {t : Token}

theorem goesOver_gap {gap : Text} (h : ∀ c ∈ gap, Cursor.isGap c) (last : Char) : GoesOver last gap := by
  refine goesOver_of_plain fun c hc => ?_
  rcases isBlanks_of_isGap h c hc with rfl | rfl | rfl <;> decide

theorem goesOver_hidden {k : Option TokenKind} {hidden rest : Text} (h : Hides k hidden rest) (last : Char) :
    GoesOver last hidden := by
  have hhidden : hidden = ['\n'] ∨ hidden = [] := by
    unfold Hides at h
    split_ifs at h
    · exact h.imp_right And.left
    · exact .inr h
  rcases hhidden with rfl | rfl
  · exact goesOver_of_plain (forall_mem_singleton.2 (by decide))
  · exact fun _ => rfl

/-- Over a token that does not mislead it the reader of cell arrays finds
the brace that the scanner finds, if any. -/
theorem foldlM_of_step (hs : s.cursor = .between past ahead) (h : step s = .ok (.item t s')) {last : Char}
    (ht : t.kind.mayMislead → GoesOver last t.lexeme) (d : Nat) :
    t.lexeme.foldlM (Scan.step .brace) ⟨d, none, last⟩ =
      (t.kind.nesting?.toList.foldlM bracesAfter d).map fun n => ⟨n, none, lastShown last t.lexeme⟩ := by
  obtain ⟨gap, c, x, after, l, brackets, -, hlex, -, rfl, -⟩ := read_of_step hs h
  have hreads := Lexeme.reads_of_cut hlex.cut
  show (c :: x).foldlM (Scan.step .brace) ⟨d, none, last⟩ =
    (l.kind.nesting?.toList.foldlM bracesAfter d).map fun n => ⟨n, none, lastShown last (c :: x)⟩
  by_cases hopen : l.kind = .delimiter (.opening .brace)
  · rw [hopen] at hreads ⊢
    cases hreads
    rfl
  by_cases hclose : l.kind = .delimiter (.closing .brace)
  · rw [hclose] at hreads ⊢
    cases hreads
    cases d <;> rfl
  have hover : GoesOver last (c :: x) := by
    cases hmislead : l.kind.mayMislead with
    | true => exact ht hmislead
    | false =>
      have hgoes := Lexeme.goesOver_of_read hlex.cut.read hmislead hopen hclose last
      rwa [hlex.cut.length, take_succ_cons, take_left] at hgoes
  have hkeeps : l.kind.nesting?.toList.foldlM bracesAfter d = some d := by
    cases hkind : l.kind with
    | delimiter e =>
      cases e with
      | opening b | closing b => cases b <;> first | rfl | contradiction
      | _ => rfl
    | _ => rfl
  rw [hover d, hkeeps, map_some]

/-- The reader of cell arrays keeps up with a run of the scanner. -/
theorem foldlM_of_chain {ts : List Token} (h : Chain step s ts s')
    (hs : s.cursor = .between past ahead) (htext : text = past ++ ahead)
    (hts : ∀ t ∈ ts, t.kind.mayMislead → t.isPassed text) :
    ∃ passed rest, ahead = passed ++ rest ∧ s'.cursor = .between (past ++ passed) rest ∧
      ∀ d, passed.foldlM (Scan.step .brace) ⟨d, none, lastShown ' ' past⟩ =
        ((ts.filterMap (·.kind.nesting?)).foldlM bracesAfter d).map fun n => ⟨n,
          none, lastShown ' ' (past ++ passed)⟩ := by
  induction h generalizing past ahead with
  | nil => exact ⟨[], ahead, rfl, by rw [append_nil, hs], fun d => by simp⟩
  | @cons s t next ts s' hstep _ ih =>
    obtain ⟨ht, hts⟩ := forall_mem_cons.1 hts
    obtain ⟨gap, lexeme, hidden, rest, rfl, htook⟩ := took_of_step hs hstep
    obtain ⟨hstands, rfl⟩ := htook.stands
    obtain ⟨passed, rest, rfl, hcursor, hpassed⟩ := ih htook.cursor_eq (by simp [htext]) hts
    refine ⟨gap ++ t.lexeme ++ hidden ++ passed, rest, by simp, by simp [hcursor], fun d => ?_⟩
    have hover : t.kind.mayMislead → GoesOver (lastShown ' ' (past ++ gap)) t.lexeme := by
      intro hmislead
      obtain ⟨before, hbefore, hpasses⟩ := (Option.any_eq_true _ _).1 (ht hmislead)
      have hcut : text = past ++ gap ++ (t.lexeme ++ hidden ++ (passed ++ rest)) := by simp [htext]
      rw [slice?_zero hcut hstands.offset] at hbefore
      cases hbefore
      exact goesOver_of_passes hpasses
    rw [append_assoc, append_assoc, foldlM_append, goesOver_gap htook.blank _ d, bind_eq_bind, bind_some,
      ← lastShown_append, foldlM_append, foldlM_of_step hs hstep hover d, nesting_cons, foldlM_append]
    cases t.kind.nesting?.toList.foldlM bracesAfter d with
    | none => rfl
    | some n =>
      simp only [map_some, bind_eq_bind, bind_some]
      rw [foldlM_append, goesOver_hidden htook.hides_of _ n, bind_eq_bind, bind_some, ← lastShown_append,
        ← lastShown_append]
      simpa using hpassed n

end Scanner

end ClassdefDoc
