import ClassdefDoc.Proofs.LineEnd.Place
import ClassdefDoc.Proofs.Scan.Lookahead

/-!
# Lexemes before carriage returns

A lexeme inside a line is the same in the form of its text with carriage returns (`read_crlf`). A comment or
a continuation takes the return at the end of its last line, and those before the line ends inside a block
comment (`read_line_crlf`). Where a lexeme is refused, it is refused in both texts (`read_error_crlf`).
-/

namespace ClassdefDoc

open List
open Option (map_eq_none_iff map_none)

variable {y after' line line' text t : Text} {nested : Nat} {e : Cause} {q : Char}

namespace Text

/-- A text and its form with carriage returns look the same up to the first line end. -/
theorem sameAhead_crlf (n : Nat) (t : Text) : SameAhead n t (crlf t) := by
  refine crlf_induction (F := fun t t' => ∀ n,
    SameAhead n t t') t (fun _ => .atBreak atBreak_nil atBreak_nil) (fun t _ n => ?_)
    (fun c t _ ih n => ?_) n
  · refine .atBreak (fun d hd => ?_) (fun d hd => ?_)
    · rw [← Option.some.inj hd]
      decide
    · rw [← Option.some.inj hd]
      decide
  · cases n with
    | zero => exact .zero
    | succ n => exact .cons (ih n)

/-- The lines of a text and of its form with carriage returns, with or without one at the end. -/
theorem exists_lines_crlf (hy : Ended [] y) (first : Text) (rest : List Text)
    (h : ∀ l ∈ first :: rest, '\n' ∉ l) :
    ∃ first' rest', crlf (first ++ onLines rest) ++ y = first' ++ onLines rest' ∧
      Forall₂ Ended (first :: rest) (first' :: rest') ∧ ∀ l ∈ first' :: rest', '\n' ∉ l := by
  induction rest generalizing first with
  | nil =>
    have hfirst := h first mem_cons_self
    exact ⟨first ++ y,
      [], by rw [onLines_nil, append_nil, append_nil, crlf_of_notMem hfirst],
      .cons (hy.behind first) .nil, forall_mem_singleton.2 ((hy.behind first).newline_notMem hfirst)⟩
  | cons l rest ih =>
    obtain ⟨hfirst, hrest⟩ := forall_mem_cons.1 h
    obtain ⟨l', rest', heq, hended, hlines⟩ := ih l hrest
    have hreturn : Ended first (first ++ ['\r']) := .inr rfl
    refine ⟨first ++ ['\r'], l' :: rest', ?_, .cons hreturn hended,
      forall_mem_cons.2 ⟨hreturn.newline_notMem hfirst, hlines⟩⟩
    rw [onLines_cons, onLines_cons, crlf_append, crlf_of_notMem hfirst, crlf_newline_cons, append_assoc,
      cons_append, cons_append, heq]
    simp

/-- The first lines of a text and of its form with carriage returns, where lines end behind the two. -/
theorem Ended.firstLine {after : Text} (hy : Ended [] y) (t : Text) (hafter : AtLineEnd after)
    (hafter' : AtLineEnd after') : Ended (firstLine (t ++ after)) (firstLine (crlf t ++ y ++ after')) := by
  obtain ⟨first, rest, rfl, hlines⟩ := exists_lines t
  obtain ⟨first', rest', heq, hended, hlines'⟩ := exists_lines_crlf hy first rest hlines
  rw [heq, append_assoc, append_assoc, firstLine_append (hlines first mem_cons_self) (hafter.append rest),
    firstLine_append (hlines' first' mem_cons_self) (hafter'.append rest')]
  exact (forall₂_cons.1 hended).1

end Text

namespace Lexeme

open Text (Ended)

variable {s s' : Surroundings} {c : Char} {rest x after : Text} {l : Lexeme}

/-! ## Block comments -/

theorem opensBlock_eq (h : Ended line line') : opensBlock line' = opensBlock line := by
  rw [opensBlock, h.trim_eq, opensBlock]

theorem closesBlock_eq (h : Ended line line') : closesBlock line' = closesBlock line := by
  rw [closesBlock, h.trim_eq, closesBlock]

theorem Closes.ended {lines lines' : List Text} {closing closing' : Text} (h : Closes nested lines closing)
    (hlines : Forall₂ Ended lines lines') (hclosing : Ended closing closing') :
    Closes nested lines' closing' := by
  induction h generalizing lines' with
  | stop hopens hcloses =>
    cases hlines
    exact .stop ((opensBlock_eq hclosing).trans hopens) ((closesBlock_eq hclosing).trans hcloses)
  | opening hopens _ ih =>
    cases hlines with
    | cons hl hls => exact .opening ((opensBlock_eq hl).trans hopens) (ih hls hclosing)
  | inner hopens hcloses _ ih =>
    cases hlines with
    | cons hl hls =>
      exact .inner ((opensBlock_eq hl).trans hopens) ((closesBlock_eq hl).trans hcloses) (ih hls hclosing)
  | text hopens hcloses _ ih =>
    cases hlines with
    | cons hl hls =>
      exact .text ((opensBlock_eq hl).trans hopens) ((closesBlock_eq hl).trans hcloses) (ih hls hclosing)

theorem exists_of_forall₂_concat {α β : Type} {R : α → β → Prop} {as : List α} {a : α} {bs : List β}
    (h : Forall₂ R (as ++ [a]) bs) : ∃ as' a', bs = as' ++ [a'] ∧ Forall₂ R as as' ∧ R a a' := by
  induction as generalizing bs with
  | nil =>
    cases h with
    | cons ha hnil =>
      cases hnil
      exact ⟨[], _, rfl, .nil, ha⟩
  | cons x as ih =>
    cases h with
    | cons hx hrest =>
      obtain ⟨as', a', rfl, has, ha⟩ := ih hrest
      exact ⟨_ :: as', a', rfl, .cons hx has, ha⟩

/-- A block comment with the returns in it and one at its end, or none. -/
theorem readBlockComment_crlf (hread : readBlockComment (text ++ after) = .ok l)
    (hlength : l.length = text.length) (hy : Ended [] y) (hafter' : Text.AtLineEnd after') :
    ∃ lines lines', l.kind = .blockComment lines ∧ Forall₂ Ended lines lines' ∧
      readBlockComment (Text.crlf text ++ y ++ after') =
      .ok ⟨.blockComment lines', (Text.crlf text ++ y).length⟩ := by
  obtain ⟨first, lines, closing, more, htext, hlines, hcloses, rfl⟩ := readBlockComment_eq_ok_iff.1 hread
  obtain ⟨rfl, -⟩ : text = first ++ Text.onLines (lines ++ [closing]) ∧ after = Text.onLines more := by
    refine append_inj ?_ hlength.symm
    rw [htext]
    simp
  have hown : ∀ t ∈ first :: (lines ++ [closing]), '\n' ∉ t := fun t ht => hlines t (by
    simp only [mem_cons, mem_append, not_mem_nil, or_false] at ht ⊢
    rcases ht with ht | ht | ht <;> simp [ht])
  obtain ⟨first', rest', heq, hended, hlines'⟩ := Text.exists_lines_crlf hy first (lines ++ [closing]) hown
  obtain ⟨-, hrest⟩ := forall₂_cons.1 hended
  obtain ⟨lines', closing', rfl, hlinesEnded, hclosing⟩ := exists_of_forall₂_concat hrest
  obtain ⟨more', rfl, hmore⟩ := Text.exists_onLines hafter'
  refine ⟨lines, lines', rfl, hlinesEnded, ?_⟩
  rw [heq]
  refine readBlockComment_eq_ok_iff.2 ⟨first', lines', closing',
    more', by simp, ?_, hcloses.ended hlinesEnded hclosing, rfl⟩
  intro t ht
  rw [append_cons, ← cons_append, mem_append] at ht
  exact ht.elim (hlines' t) (hmore t)

theorem blockLines_eq_none {ls ls' : List Text} (h : Forall₂ Ended ls ls')
    (hnone : blockLines nested ls = none) : blockLines nested ls' = none := by
  induction h generalizing nested with
  | nil => rfl
  | @cons line line' ls ls' hl _ ih =>
    rw [blockLines.eq_def] at hnone ⊢
    dsimp only at hnone ⊢
    rw [opensBlock_eq hl, closesBlock_eq hl]
    split_ifs at hnone ⊢
    · exact map_eq_none_iff.2 (ih (map_eq_none_iff.1 hnone))
    · cases nested with
      | zero => cases hnone
      | succ n => exact map_eq_none_iff.2 (ih (map_eq_none_iff.1 hnone))
    · exact map_eq_none_iff.2 (ih (map_eq_none_iff.1 hnone))

theorem readBlockComment_error_crlf (h : readBlockComment text = .error e) :
    readBlockComment (Text.crlf text) = .error e := by
  obtain ⟨first, rest, rfl, hlines⟩ := Text.exists_lines text
  obtain ⟨first', rest', heq, hended, hlines'⟩ := Text.exists_lines_crlf (.inl rfl) first rest hlines
  rw [append_nil] at heq
  simp only [readBlockComment, Text.split_onLines hlines] at h
  rw [heq]
  simp only [readBlockComment, Text.split_onLines hlines']
  cases hblock : blockLines 0 rest with
  | some r => simp [hblock] at h
  | none =>
    rw [hblock] at h
    rw [blockLines_eq_none (forall₂_cons.1 hended).2 hblock]
    exact h

/-! ## Literals -/

theorem literalValue_crlf (hline : q ≠ '\n') (hreturn : q ≠ '\r') (h : literalValue q t = none) :
    literalValue q (Text.crlf t) = none := by
  fun_induction literalValue q t with
  | case1 => rfl
  | case2 cs =>
    rw [Text.crlf_newline_cons, literalValue.eq_def]
    dsimp only
    rw [if_neg (by decide), if_neg (Ne.symm hreturn), literalValue.eq_def]
    rfl
  | case3 ds _ ih =>
    rw [Text.crlf_cons_of_ne hline, Text.crlf_cons_of_ne hline, literalValue.eq_def]
    dsimp only
    rw [if_neg hline, if_pos rfl, if_pos rfl, ih (map_eq_none_iff.1 h), map_none]
  | case4 => cases h
  | case5 => cases h
  | case6 c cs hc hq ih =>
    rw [Text.crlf_cons_of_ne hc, literalValue.eq_def]
    dsimp only
    rw [if_neg hc, if_neg hq, ih (map_eq_none_iff.1 h), map_none]

/-! ## All lexemes -/

theorem Reads.newline_notMem {k : TokenKind} {lexeme : Text}
    (h : Reads s k lexeme after) (hline : k ≠ .newline) (hcomment : k.isComment = false)
    (hcontinuation : k.isContinuation = false) (hliteral : ∀ q value, k ≠ .literal q value) :
    '\n' ∉ lexeme ∧ ∀ w, k.word? = some w → '\n' ∉ w := by
  have hidentifier {w : Text} (hw : Name.isIdentifier w) : '\n' ∉ w := fun hmem =>
    absurd (Name.isContinue_of_isIdentifier hw _ hmem) (by decide)
  cases h with
  | newline => exact absurd rfl hline
  | comment | blockComment => cases hcomment
  | continuation => cases hcontinuation
  | literal => exact absurd rfl (hliteral _ _)
  | number _ hl | operator _ hl => exact ⟨fun hmem => (hl _ hmem).newline rfl, (by rintro _ ⟨⟩)⟩
  | keyword _ _ _ hw => exact ⟨hidentifier hw, (by rintro _ ⟨⟩)⟩
  | identifier hw =>
    refine ⟨hidentifier hw, fun w h => ?_⟩
    rw [← Option.some.inj h]
    exact hidentifier hw
  | @opening b | @closing b => exact ⟨by cases b <;> decide, (by rintro _ ⟨⟩)⟩
  | comma | semicolon => exact ⟨by decide, (by rintro _ ⟨⟩)⟩

/-- A lexeme that is no comment, no continuation and no line end stands on one line. -/
theorem newline_notMem_of_cut (h : Cut s c x after l)
    (hline : l.kind ≠ .newline) (hcomment : l.kind.isComment = false)
    (hcontinuation : l.kind.isContinuation = false) :
    '\n' ∉ c :: x ∧ ∀ w, l.kind.word? = some w → '\n' ∉ w := by
  by_cases hliteral : ∃ q value, l.kind = .literal q value
  · obtain ⟨q, value, hkind⟩ := hliteral
    obtain ⟨hlexeme, hline⟩ := written_of_cut h hkind
    refine ⟨?_, fun w hw => ?_⟩
    · rw [hlexeme]
      exact Quote.newline_notMem_written q hline
    · rw [hkind] at hw
      rwa [← Option.some.inj hw]
  · exact (reads_of_cut h).newline_notMem hline hcomment hcontinuation fun q value hkind =>
      hliteral ⟨q, value, hkind⟩

/-- A lexeme inside a line is the same before carriage returns. -/
theorem cut_crlf (hs : SameState s s') (h : Cut s c x after l) (hcomment : l.kind.isComment = false)
    (hcontinuation : l.kind.isContinuation = false) : Cut s' c x (Text.crlf after) l :=
  cut_of_shows hs (.same (Text.sameAhead_crlf 3 after)) h hcomment hcontinuation

/-- A comment or a continuation takes the carriage returns in it, and one at its end. -/
theorem cut_line_crlf {h : '\r' ∉ text} (hs : SameSight s s') (hcut : Cut s c x after l)
    (hkind : l.kind.isComment ∨ l.kind.isContinuation) (hy : Ended [] y) (hafter' : Text.AtLineEnd after') :
    ∃ l' x', Text.crlf (c :: x) ++ y = c :: x' ∧ Cut s' c x' after' l' ∧
      (Likeness.crlf text h).LikeKind l.kind l'.kind := by
  have hafter := atLineEnd_of_cut hcut hkind
  have hline {t : Text} (ht : '\n' ∉ t) : '\n' ∉ t ++ y := (hy.behind t).newline_notMem ht
  have hpercent : Text.crlf ('%' :: x) ++ y = '%' :: (Text.crlf x ++ y) := by
    rw [Text.crlf_cons_of_ne (by decide), cons_append]
  have hfirst := opensBlock_eq (hy.firstLine ('%' :: x) hafter hafter')
  rw [hpercent] at hfirst
  cases lineForm_of_cut hcut hkind with
  | block hopens hblock =>
    have hblock' : readBlockComment (('%' :: x) ++ after) = .ok l := hblock
    obtain ⟨lines, lines', hlines, hended, hread'⟩ := readBlockComment_crlf hblock' hcut.length hy hafter'
    rw [hpercent] at hread'
    refine ⟨⟨.blockComment lines', _⟩, _, hpercent, ⟨?_, rfl⟩, hlines ▸ .blockComment hended⟩
    rw [read_percent, hs.leadsLine, ← cons_append, hfirst, cons_append, if_pos hopens]
    exact hread'
  | comment hopens hx hl =>
    rw [Text.crlf_of_notMem fun h => hx (mem_cons_of_mem _ h)] at hpercent hfirst
    refine ⟨_, _, hpercent, ⟨read_comment ?_ (hline hx) hafter', rfl⟩, hl ▸ .comment ?_⟩
    · rwa [hs.leadsLine, ← cons_append, hfirst]
    · exact (hy.behind _).dropWhile (by decide)
  | @continuation body hbody hl =>
    have hpoints : '\n' ∉ "...".toList ++ body := by simpa using hbody
    exact ⟨_, _, congrArg (· ++ y) (Text.crlf_of_notMem hpoints),
      ⟨read_continuation (hline hbody) hafter', rfl⟩, hl ▸ .continuation (hy.behind body)⟩

/-- What is refused is refused before carriage returns. -/
theorem read_error_crlf (hs : SameSight s s') (h : read s c rest = .error e) :
    read s' c (Text.crlf rest) = .error e := by
  rcases read_error_cases h with ⟨rfl, hopens, hblock⟩ | ⟨q, rfl, htransposes, hliteral⟩
  · have htext : '%' :: Text.crlf rest = Text.crlf ('%' :: rest) :=
      (Text.crlf_cons_of_ne (by decide) rest).symm
    have hfirst :
        Ended (Text.firstLine ('%' :: rest ++ [])) (Text.firstLine (Text.crlf ('%' :: rest) ++ [] ++ [])) :=
      Ended.firstLine (.inl rfl) _ (by rintro _ ⟨⟩) (by rintro _ ⟨⟩)
    simp only [append_nil] at hfirst
    rw [read_percent, htext, hs.leadsLine, opensBlock_eq hfirst, if_pos hopens]
    exact readBlockComment_error_crlf hblock
  · rw [read_quote, hs.transposes, if_neg htransposes]
    rw [readLiteral, tail_cons] at hliteral ⊢
    cases hvalue : literalValue q.char rest with
    | some r => simp [hvalue] at hliteral
    | none =>
      rw [hvalue] at hliteral
      rw [literalValue_crlf (by cases q <;> decide) (by cases q <;> decide) hvalue]
      exact hliteral

end Lexeme

end ClassdefDoc
