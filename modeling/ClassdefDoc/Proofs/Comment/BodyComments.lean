import ClassdefDoc.Proofs.Balance.Body
import ClassdefDoc.Proofs.Comment.Group
import ClassdefDoc.Proofs.Parse.BodyEnd
import ClassdefDoc.Proofs.Scan.Cut

/-!
# Comments in method bodies

The comments of a body are those of its documentation and those among its pieces. `docLength`
decides how many tokens open a body, and `docOf` which of their comments become its documentation:
line comments on consecutive lines that lead their lines. The two differ where a separator stands
before a comment, and then comments are lost: `ClassDecl.keeps_body_comments_iff`.

A comment of a continuation is among the pieces too. It stands right behind the
points of the continuation, and no other comment does, since the scanner leaves
no three points in a row outside continuations (`Lexeme.pointless_of_read`).
-/

namespace ClassdefDoc

open List Text LooseComment Lexeme ClassDecl
open Scanner (hiddenBy step)

variable {c : Char} {x text lexeme past : Text} {k : TokenKind} {s' s : Scanner} {t : Token} {ts : List Token}

namespace Body

/-- The lines of the comments among the pieces of a body, without the comments of continuations,
which stand behind three points. The text `code` stands right before the pieces. -/
def plainLines (code : Text) : List BodyPiece → List Text
  | [] => []
  | .code t :: rest => plainLines (code ++ t) rest
  | .comment lines :: rest => (if "...".toList <:+ code then [] else lines) ++ plainLines [] rest
  | .literal _ :: rest => plainLines [] rest

/-- The lines of the comments that a body keeps, in order. -/
def commentLines (b : Body) : List Text := (b.doc.map (·.lines)).getD [] ++ plainLines [] b.pieces

/-- The comments among the tokens that open a body. -/
def opening (previous : Option Nat) (tokens : List Token) : List LooseComment :=
  (tokens.take (docLength previous tokens)).filterMap LooseComment.ofToken?

theorem plainLines_joinCode (code : Text) (pieces : List BodyPiece) :
    plainLines code (joinCode pieces) = plainLines code pieces := by
  fun_induction joinCode pieces generalizing code with
  | case1 => rfl
  | case2 rest ih => rw [ih, plainLines, append_nil]
  | case3 t rest _ u more hrest ih =>
    have hmore := ih (code ++ t)
    rw [hrest, plainLines] at hmore
    rw [plainLines, plainLines, ← hmore, append_assoc]
  | case4 t rest _ _ ih => rw [plainLines, plainLines, ih]
  | case5 p rest _ hcode ih =>
    cases p with
    | code t => exact absurd rfl (hcode t)
    | comment lines | literal v => rw [plainLines, plainLines, ih]

end Body

/-! ## Three points -/

namespace Text

variable {t after : Text}

/-- No three points start in a text that `after` follows. -/
def Pointless (after : Text) : Text → Prop
  | [] => True
  | c :: t => ¬"...".toList <+: c :: (t ++ after) ∧ Pointless after t

theorem points_prefix_cons_iff : "...".toList <+: c :: t ↔ c = '.' ∧ "..".toList <+: t := by
  rw [show "...".toList = '.' :: "..".toList from rfl, cons_prefix_cons, eq_comm]

theorem Pointless.append {u : Text} (ht : Pointless (u ++ after) t) (hu : Pointless after u) :
    Pointless after (t ++ u) := by
  induction t with
  | nil => exact hu
  | cons c t ih =>
    refine ⟨?_, ih ht.2⟩
    rw [show t.append u ++ after = t ++ (u ++ after) from append_assoc t u after]
    exact ht.1

theorem pointless_of_notMem (after : Text) (h : '.' ∉ t) : Pointless after t := by
  induction t with
  | nil => trivial
  | cons c t ih =>
    simp only [mem_cons, not_or] at h
    exact ⟨fun hpoints => h.1 (points_prefix_cons_iff.1 hpoints).1.symm, ih h.2⟩

theorem Pointless.not_suffix (h : Pointless after t) : ¬"...".toList <:+ t := by
  rintro ⟨u, rfl⟩
  induction u with
  | nil => exact h.1 (prefix_append _ after)
  | cons c u ih => exact ih h.2

/-- Three points behind a line end stand on the new line. -/
theorem suffix_of_suffix_append_newline {code : Text} (h : "...".toList <:+ code ++ '\n' :: t) :
    "...".toList <:+ '\n' :: t := by
  refine (suffix_or_suffix_of_suffix h (suffix_append code _)).resolve_right fun hline => ?_
  exact absurd (hline.subset mem_cons_self) (by decide)

end Text

namespace Lexeme

variable {s : Surroundings} {after : Text} {l : Lexeme} {t : Token}

theorem pointless_of_numberLength (previous : Char) (t : Text) :
    Text.Pointless (t.drop (numberLength previous t)) (t.take (numberLength previous t)) := by
  induction t generalizing previous with
  | nil => trivial
  | cons c t ih =>
    rw [numberLength]
    split_ifs with hgoes
    · rw [take_succ_cons, drop_succ_cons]
      refine ⟨fun hpoints => ?_, ih c⟩
      rw [take_append_drop] at hpoints
      obtain ⟨rfl, htwo⟩ := Text.points_prefix_cons_iff.1 hpoints
      have hnot : numberGoesOn previous '.' t = false := by
        rw [numberGoesOn, isPrefixOf_iff_prefix.2 htwo]
        rfl
      rw [hnot] at hgoes
      cases hgoes
    · trivial

/-- The second character of an operator is no point. -/
theorem pointless_of_readOperator (hlength : (readOperator c (x ++ after)).length = x.length + 1) :
    Text.Pointless after x := by
  refine pointless_of_notMem after fun hpoint => ?_
  cases x with
  | nil => cases hpoint
  | cons d x =>
    have hno : ∀ l ∈ longOperators, l.getLast? ≠ some '.' := by decide
    simp only [readOperator, cons_append] at hlength
    split_ifs at hlength with hlong hdot
    · obtain rfl : x = [] := length_eq_zero_iff.1 (by simpa using hlength.symm)
      refine hno _ (contains_iff_mem.1 hlong) ?_
      rw [mem_singleton.1 hpoint]
      rfl
    · obtain rfl : x = [] := length_eq_zero_iff.1 (by simpa using hlength.symm)
      simp only [Bool.and_eq_true, decide_eq_true_eq] at hdot
      exact absurd ((mem_singleton.1 hpoint).trans hdot.2) (by decide)
    · simp at hlength

theorem isPiece_of_readBlockComment (h : readBlockComment text = .ok l) (hkind : t.kind = l.kind) :
    Body.pieceOf t ≠ none := by
  obtain ⟨first, lines, closing, more, -, -, -, rfl⟩ := readBlockComment_eq_ok_iff.1 h
  simp [Body.pieceOf, hkind]

theorem isPiece_of_readLiteral {q : Quote} (h : readLiteral q (c :: text) = .ok l) (hkind : t.kind = l.kind) :
    Body.pieceOf t ≠ none := by
  obtain ⟨value, more, -, -, -, rfl⟩ := readLiteral_eq_ok_iff.1 h
  simp [Body.pieceOf, hkind]

/-- No three points start in a lexeme that is code. -/
theorem pointless_of_cut (h : Cut s c x after l) (hkind : t.kind = l.kind) (hcode : Body.pieceOf t = none) :
    Text.Pointless after (c :: x) := by
  obtain ⟨h, hlength⟩ := h
  have htake : (c :: (x ++ after)).take l.length = c :: x := by rw [hlength, take_succ_cons, take_left]
  -- three points at the start would make a continuation, whatever branch is taken
  by_cases hdots : "...".toList.isPrefixOf (c :: (x ++ after))
  · have hstart := isPrefixOf_iff_prefix.1 hdots
    have hpoint := (Text.points_prefix_cons_iff.1 hstart).1
    rw [read, if_neg (by rw [hpoint]; decide), if_neg (by rw [hpoint]; decide), if_pos hdots] at h
    cases h
    simp [Body.pieceOf, hkind, readContinuation] at hcode
  replace hdots := mt isPrefixOf_iff_prefix.2 hdots
  have first (hx : Text.Pointless after x) : Text.Pointless after (c :: x) := ⟨hdots, hx⟩
  have single (hone : l.length = 1) : Text.Pointless after (c :: x) := by
    obtain rfl : x = [] := length_eq_zero_iff.1 (by omega)
    exact first trivial
  cases branch_of_read h with
  | newline _ h | transpose _ h | opening _ _ h | closing _ _ h | comma _ h | semicolon _ h =>
    cases h
    exact single rfl
  | block _ _ h => exact absurd hcode (isPiece_of_readBlockComment h hkind)
  | comment _ h =>
    cases h
    simp [Body.pieceOf, hkind, readComment] at hcode
  | continuation hpoints _ =>
    have hstart := isPrefixOf_iff_prefix.1 hpoints
    exact absurd hstart hdots
  | literal _ _ _ h => exact absurd hcode (isPiece_of_readLiteral h hkind)
  | number _ h =>
    cases h
    have hnumber := pointless_of_numberLength '\x00' (c :: (x ++ after))
    rwa [show numberLength '\x00' (c :: (x ++ after)) = x.length + 1 from hlength, take_succ_cons, take_left,
      drop_succ_cons, drop_left] at hnumber
  | word _ h =>
    cases h
    have hword : (c :: (x ++ after)).takeWhile Name.isContinue = c :: x := by
      rw [← htake, readWord_length, take_takeWhile_length]
    refine pointless_of_notMem after fun hpoint => ?_
    rw [← hword] at hpoint
    exact absurd (mem_takeWhile_imp hpoint) (by decide)
  | operator _ _ _ h =>
    cases h
    exact first (pointless_of_readOperator hlength)

end Lexeme

/-! ## The pieces -/

namespace Body

variable {around : Surroundings}

/-- What stands before a place of a body: `code` stands right before the text from which the
next piece is cut, and `pending` is the part of that text which the scanner has passed. -/
structure Behind (code pending ahead : Text) : Prop where
  pointless : Text.Pointless ahead pending
  line : code = [] ∨ AtLineEnd (pending ++ ahead)

variable {code pending gap after ahead : Text}

theorem pointless_gap (after : Text) (h : ∀ c ∈ gap, Cursor.isGap c) : Text.Pointless after gap :=
  pointless_of_notMem after fun hpoint => absurd (h _ hpoint) (by decide)

theorem Behind.skip (h : Behind code pending (gap ++ after)) (hgap : ∀ c ∈ gap, Cursor.isGap c) :
    Behind code (pending ++ gap) after :=
  ⟨h.pointless.append (pointless_gap after hgap), by simpa only [append_assoc] using h.line⟩

/-- A comment does not stand right behind three points of code. -/
theorem Behind.not_suffix (h : Behind code pending (c :: after)) (hc : c ≠ '\n') :
    ¬"...".toList <:+ code ++ pending := by
  rcases h.line with rfl | hline
  · exact h.pointless.not_suffix
  · cases pending with
    | nil => exact absurd (hline c rfl) hc
    | cons d pending =>
      obtain rfl := hline d rfl
      exact fun hpoints => h.pointless.not_suffix (suffix_of_suffix_append_newline hpoints)

theorem commentLines_of_code (h : pieceOf t = none) : t.kind.commentLines = [] := by
  cases hkind : t.kind <;> simp_all [pieceOf, TokenKind.commentLines]

theorem plainLines_comment (h : ¬"...".toList <:+ code ++ pending)
    (lines : List Text) (pieces : List BodyPiece) :
    plainLines code (.code pending :: [.comment lines] ++ pieces) = lines ++ plainLines [] pieces :=
  congrArg (· ++ plainLines [] pieces) (if_neg h)

theorem atLineEnd_of_isContinuation (h : Reads around k lexeme after)
    (hk : k.isContinuation) : AtLineEnd after := by
  cases h with
  | continuation _ hline => exact hline
  | _ => cases hk

/-- What a token hides is a line end. -/
theorem behind_hidden (h : Reads around k lexeme after) (hline : code = [] ∨ AtLineEnd after) :
    Behind code (hiddenBy k after) (after.drop (hiddenBy k after).length) := by
  refine ⟨pointless_of_notMem _ ?_, by rwa [Scanner.hiddenBy_append]⟩
  rw [hiddenBy]
  split_ifs with hk
  · intro hpoint
    cases after with
    | nil => cases hpoint
    | cons c after =>
      obtain rfl := atLineEnd_of_isContinuation h hk c rfl
      simp at hpoint
  · exact not_mem_nil

/-- A token that is not code has its lines among the pieces, and what it hides stands behind it. -/
theorem plainLines_of_piece {own : List BodyPiece}
    (hreads : Reads around t.kind (c :: x) after) (hpiece : pieceOf t = some own)
    (h : Behind code pending (c :: (x ++ after))) : ∃ code',
      (∀ pieces,
        plainLines code (.code pending :: own ++ pieces) = t.kind.commentLines ++ plainLines code' pieces) ∧
      Behind code' (hiddenBy t.kind after) (after.drop (hiddenBy t.kind after).length) := by
  have hnewline : t.kind ≠ .newline := fun hkind => by simp [pieceOf, hkind] at hpiece
  have hno := h.not_suffix fun hc => hreads.head?_ne_newline hnewline (congrArg some hc)
  cases hkind : t.kind with
  | comment body =>
    obtain rfl : [.comment [body]] = own := by simpa [pieceOf, hkind] using hpiece
    exact ⟨[], plainLines_comment hno [body], hkind ▸ behind_hidden hreads (.inl rfl)⟩
  | blockComment lines =>
    obtain rfl : [.comment lines] = own := by simpa [pieceOf, hkind] using hpiece
    exact ⟨[], plainLines_comment hno lines, hkind ▸ behind_hidden hreads (.inl rfl)⟩
  | literal q value =>
    obtain rfl : [.literal value] = own := by simpa [pieceOf, hkind] using hpiece
    exact ⟨[], fun _ => rfl, hkind ▸ behind_hidden hreads (.inl rfl)⟩
  | continuation body =>
    obtain rfl : .code "..." :: (if isBlank body then [] else [.comment [body]]) = own := by
      simpa [pieceOf, hkind] using hpiece
    split_ifs with hblank
    · -- the code goes on behind the points, on the next line
      have hline := atLineEnd_of_isContinuation hreads (by rw [hkind]; rfl)
      exact ⟨code ++ pending ++ "...".toList, fun _ => rfl, hkind ▸ behind_hidden hreads (.inr hline)⟩
    · refine ⟨[], fun pieces => ?_, hkind ▸ behind_hidden hreads (.inl rfl)⟩
      exact congrArg (· ++ plainLines [] pieces) (if_pos (suffix_append (code ++ pending) _))
  | _ => simp [pieceOf, hkind] at hpiece

/-- The pieces cut out of a text have the lines of its comments. -/
theorem plainLines_of_cut {s'' : Scanner} {close : Token} {pieces : List BodyPiece}
    (hchain : Chain step s ts s') (hclose : step s' = .ok (.item close s''))
    (hcursor : s.cursor = .between (past ++ pending) ahead) (htext : text = past ++ pending ++ ahead)
    (hbehind : Behind code pending ahead) (hcut : cut text close.offset (bytes past) ts = some pieces) :
    plainLines code pieces = ts.flatMap (·.kind.commentLines) := by
  induction hchain generalizing past pending ahead code pieces with
  | nil s =>
    obtain ⟨w, -, hpieces⟩ := Option.bind_eq_some_iff.1 hcut
    cases hpieces
    rfl
  | @cons s t next ts s' hstep _ ih =>
    obtain ⟨gap, c, x, after, l, brackets, rfl, hlex, -, ht, hnext⟩ := Scanner.read_of_step hcursor hstep
    have hkind : t.kind = l.kind := by rw [ht]; rfl
    have hreads : Reads _ t.kind (c :: x) after := hkind ▸ reads_of_cut hlex.cut
    have hskipped := hbehind.skip hlex.blank
    have hmoved : next.cursor = .between (past ++ pending ++ gap ++ c :: x ++ hiddenBy t.kind after)
        (after.drop (hiddenBy t.kind after).length) := by rw [hnext, hkind]; rfl
    have hafter := Scanner.hiddenBy_append t.kind after
    rw [flatMap_cons]
    cases hpiece : pieceOf t with
    | none =>
      have hnone : hiddenBy t.kind after = [] := by
        rw [hiddenBy, if_neg]
        cases hk : t.kind <;> simp_all [pieceOf, TokenKind.isContinuation]
      rw [hnone] at hmoved
      simp only [cut, hpiece] at hcut
      rw [commentLines_of_code hpiece, nil_append]
      have hpassed : Behind code (pending ++ gap ++ c :: x) after :=
        ⟨hskipped.pointless.append (pointless_of_cut hlex.cut hkind hpiece),
          by simpa only [append_assoc, cons_append] using hskipped.line⟩
      refine ih hclose ?_ ?_ hpassed hcut
      · simpa using hmoved
      · rw [htext]
        simp only [append_assoc, cons_append]
    | some own =>
      have hslice : slice? text (bytes past) t.offset = some (pending ++ gap) :=
        slice?_of_eq (a := past) (c := c :: (x ++ after)) (by simp [htext])
          rfl (by rw [ht, ← append_assoc]; rfl)
      obtain ⟨more, hmore, rfl⟩ : ∃ more, cut text close.offset t.endOffset ts = some more ∧
          .code (pending ++ gap) :: own ++ more = pieces := by
        simpa [cut, hpiece, hslice, Option.bind_eq_some_iff] using hcut
      obtain ⟨code', hlines, hbehind'⟩ := plainLines_of_piece hreads hpiece hskipped
      rw [hlines, ih hclose hmoved ?_ hbehind' ?_]
      · rw [htext, append_assoc _ (hiddenBy t.kind after), hafter]
        simp only [append_assoc, cons_append]
      · rw [← hmore, ht, Token.endOffset, bytes_append _ (c :: x)]
        rfl

end Body

/-! ## The documentation -/

/-- A line comment ends on the line on which it starts. -/
def Token.OneLine (t : Token) : Prop := ∀ body, t.kind = .comment body → t.span.stop.line = t.span.start.line

theorem Scanner.oneLine_of_chain {ahead : Text} (h : Chain step s ts s')
    (hs : s.cursor = .between past ahead) : ∀ t ∈ ts, t.OneLine := by
  induction h generalizing past ahead with
  | nil => exact forall_mem_nil _
  | @cons s t next ts s' hstep _ ih =>
    obtain ⟨gap, lexeme, hidden, rest, rfl, htook⟩ := Scanner.took_of_step hs hstep
    refine forall_mem_cons.2 ⟨fun body hkind => ?_, ih htook.cursor_eq⟩
    have hreads := htook.reads
    rw [hkind] at hreads
    have hline : '\n' ∉ lexeme := by
      cases hreads with
      | comment _ hsigns hbody =>
        simp only [mem_append, not_or]
        exact ⟨fun hmem => absurd (hsigns _ hmem) (by decide), hbody⟩
    rw [htook.token_eq]
    simp only [Scanner.tokenAt]
    rw [Position.advance_append, Position.line_advance_of_notMem _ hline]

theorem oneLine_of_scan {tokens : List Token} (h : scan text = .ok tokens) : ∀ t ∈ tokens, t.OneLine := by
  obtain ⟨ts, s, e, hchain, hdone, rfl⟩ := scan_eq_ok_iff.1 h
  have hstart : (Scanner.start text).cursor = .between [] text := rfl
  refine forall_mem_append.2 ⟨Scanner.oneLine_of_chain hchain hstart,
    forall_mem_singleton.2 fun body hkind => ?_⟩
  obtain ⟨past, ahead, hcursor, -⟩ := (Scanner.over_start text).of_chain hchain
  rw [(Scanner.ended_of_step hcursor hdone).2.1] at hkind
  cases hkind

namespace LooseComment

/-- A comment of one line, on the line `line`. -/
structure OnLine (line : Nat) (c : LooseComment) : Prop where
  delimited : c.delimited = false
  firstLine : c.block.firstLine = line
  lastLine : c.block.lastLine = line
  length_lines : c.block.lines.length = 1

theorem onLine_of_token {c : LooseComment} (ht : t.OneLine)
    (h : ofToken? t = some c) (hc : c.delimited = false) :
    c.OnLine t.line := by
  cases hkind : t.kind with
  | comment body =>
    simp only [ofToken?, hkind, Option.some.injEq] at h
    subst h
    exact ⟨rfl, rfl, ht body hkind, rfl⟩
  | blockComment lines =>
    simp only [ofToken?, hkind, Option.some.injEq] at h
    subst h
    cases hc
  | _ => simp [ofToken?, hkind] at h

/-- Line comments on the lines below `line`, one on each. -/
def Consecutive (line : Nat) : List LooseComment → Prop
  | [] => True
  | c :: cs => c.OnLine (line + 1) ∧ Consecutive (line + 1) cs

/-- The first block goes on as long as the comments lead their lines. -/
theorem lines_head_groupFrom {current : CommentBlock} {cs : List LooseComment}
    (h : Consecutive current.lastLine cs) :
    ∃ b bs, groupFrom current false cs = b :: bs ∧
      (b.lines = current.lines ++ cs.flatMap (·.block.lines) ↔ ∀ c ∈ cs, c.block.ownLine) := by
  induction cs generalizing current with
  | nil => exact ⟨current, [], rfl, by simp⟩
  | cons c cs ih =>
    obtain ⟨hc, hcs⟩ := h
    rw [groupFrom]
    cases hown : c.block.ownLine with
    | true =>
      rw [if_pos (by simp [joins, hc.delimited, hown, hc.firstLine]), hc.delimited]
      have hnext :
          Consecutive { current with lines := current.lines ++ c.block.lines, lastLine :=
          c.block.lastLine }.lastLine cs := by
        simpa [hc.lastLine] using hcs
      obtain ⟨b, bs, hgroup, hlines⟩ := ih hnext
      refine ⟨b, bs, hgroup, ?_⟩
      rw [flatMap_cons, ← append_assoc, hlines]
      simp [hown]
    | false =>
      rw [if_neg (by simp [joins, hown])]
      refine ⟨current, _, rfl, iff_of_false (fun heq => ?_) (by simp [hown])⟩
      have := congrArg List.length heq
      simp only [flatMap_cons, length_append, hc.length_lines] at this
      omega

end LooseComment

namespace Body

variable {ts : List Token}

/-- The opening comments, by the first token. -/
theorem opening_cons (previous : Option Nat) (t : Token) (ts : List Token) :
    opening previous (t :: ts) = opening previous ts ∨ opening previous (t :: ts) = [] ∨
      ∃ c, LooseComment.ofToken? t = some c ∧
        (c.delimited = false ∧ (∀ line, previous = some line → t.line = line + 1) ∧
            opening previous (t :: ts) = c :: opening (some t.line) ts ∨
          c.delimited ∧ previous = none ∧ opening previous (t :: ts) = [c]) := by
  have separator (hlength : docLength previous (t :: ts) = if docLength previous ts =
      0 then 0 else docLength previous ts + 1)
      (hnone : LooseComment.ofToken? t = none) : opening previous (t :: ts) = opening previous ts := by
    rw [opening, hlength, opening]
    split_ifs with hzero
    · rw [hzero]
      rfl
    · rw [take_succ_cons, filterMap_cons, hnone]
  cases hkind : t.kind with
  | newline =>
    exact .inl (separator (by simp only [docLength, hkind]; split <;> simp_all)
      (by simp [LooseComment.ofToken?, hkind]))
  | delimiter d =>
    cases d with
    | comma | semicolon =>
      exact .inl (separator (by simp only [docLength, hkind]; split <;> simp_all)
        (by simp [LooseComment.ofToken?, hkind]))
    | opening | closing => exact .inr (.inl (by simp [opening, docLength, hkind]))
  | comment body =>
    have hlength : docLength previous (t :: ts) =
        if previous.all (fun l => t.line == l + 1) then docLength (some t.line) ts + 1 else 0 := by
      simp only [docLength, hkind]
    rw [opening, hlength]
    split_ifs with hline
    · obtain ⟨c, hc, hdelimited⟩ : ∃ c, LooseComment.ofToken? t = some c ∧ c.delimited = false := by
        simp only [LooseComment.ofToken?, hkind]
        exact ⟨_, rfl, rfl⟩
      refine .inr (.inr ⟨c, hc, .inl ⟨hdelimited, ?_, ?_⟩⟩)
      · rintro line rfl
        simpa using hline
      · rw [take_succ_cons, filterMap_cons, hc]
        rfl
    · exact .inr (.inl rfl)
  | blockComment lines =>
    have hlength : docLength previous (t :: ts) = if previous.isNone then 1 else 0 := by
      simp only [docLength, hkind]
    rw [opening, hlength]
    split_ifs with hnone
    · obtain ⟨c, hc, hdelimited⟩ : ∃ c, LooseComment.ofToken? t = some c ∧ c.delimited := by
        simp only [LooseComment.ofToken?, hkind]
        exact ⟨_, rfl, rfl⟩
      refine .inr (.inr ⟨c, hc, .inr ⟨hdelimited, by simpa using hnone, ?_⟩⟩)
      rw [take_succ_cons, filterMap_cons, hc]
      rfl
    · exact .inr (.inl rfl)
  | _ => exact .inr (.inl (by simp [opening, docLength, hkind]))

section

variable (h : ∀ t ∈ ts, t.OneLine)
include h

/-- Behind a comment the opening comments stand on the lines below it. -/
theorem consecutive_opening {line : Nat} : LooseComment.Consecutive line (opening (some line) ts) := by
  induction ts generalizing line with
  | nil => trivial
  | cons t ts ih =>
    obtain ⟨hone, hts⟩ := forall_mem_cons.1 h
    rcases opening_cons (some line) t ts with heq | heq | ⟨c, hc, ⟨hdelimited, hline, heq⟩ | ⟨-, hnone, -⟩⟩
    · exact heq ▸ ih hts
    · exact heq ▸ trivial
    · have hnext := hline line rfl
      rw [heq]
      exact ⟨hnext ▸ onLine_of_token hone hc hdelimited, hnext ▸ ih hts⟩
    · cases hnone

/-- No comment opens the body, or the comments behind the first stand on the lines below it. -/
theorem opening_cases : opening none ts = [] ∨ ∃ c cs, opening none ts = c :: cs ∧
    LooseComment.Consecutive c.block.lastLine cs ∧ (c.delimited → cs = []) := by
  induction ts with
  | nil => exact .inl rfl
  | cons t ts ih =>
    obtain ⟨hone, hts⟩ := forall_mem_cons.1 h
    rcases opening_cons none t ts with heq | heq | ⟨c, hc, ⟨hdelimited, -, heq⟩ | ⟨-, -, heq⟩⟩
    · rw [heq]
      exact ih hts
    · exact .inl heq
    · refine .inr ⟨c, _, heq, ?_, by simp [hdelimited]⟩
      rw [(onLine_of_token hone hc hdelimited).lastLine]
      exact consecutive_opening hts
    · exact .inr ⟨c, [], heq, trivial, fun _ => rfl⟩

/-- The documentation has all lines of the opening comments exactly if those
behind the first lead their lines. -/
theorem lines_docOf_iff : ((docOf (ts.take (docLength none ts))).map (·.lines)).getD
    [] = (opening none ts).flatMap (·.block.lines) ↔
      ∀ c ∈ (opening none ts).tail, c.block.ownLine := by
  rw [docOf, show (ts.take (docLength none ts)).filterMap LooseComment.ofToken? = opening none ts from rfl]
  rcases opening_cases h with hnil | ⟨c, cs, hcs, hconsecutive, hdelimited⟩
  · simp [hnil, group]
  · rw [hcs, group, flatMap_cons, tail_cons]
    cases hd : c.delimited with
    | true =>
      rw [hdelimited hd]
      simp [LooseComment.groupFrom]
    | false =>
      obtain ⟨b, bs, hgroup, hlines⟩ := lines_head_groupFrom hconsecutive
      rw [hgroup]
      exact hlines

end

end Body

/-! ## The comments of a body -/

/-- A body keeps all lines of its comments exactly if, of the comments that
open it, those behind the first lead their lines. -/
theorem ClassDecl.keeps_body_comments_iff {limits : Limits} {text : Text}
    {c : ClassDecl} {m : Member} {b : Body} (h : ClassDecl.parse limits text = .ok c)
    (hm : m ∈ c.members) (hb : m.body? = some b) :
    ∃ tokens inner close, scan text = .ok tokens ∧
      bodyTokens? limits tokens m.position = some (inner, close) ∧
      (b.commentLines = inner.flatMap (·.kind.commentLines) ↔ ∀ c ∈ (Body.opening none inner).tail,
        c.block.ownLine = true) := by
  obtain ⟨tokens, inner, close, hscan, htokens, hdoc, s₁, s₂, s₃, hcut⟩ := exists_cut_of_parse h hm hb
  refine ⟨tokens, inner, close, hscan, htokens, ?_⟩
  have hone : ∀ t ∈ inner, t.OneLine := fun t ht =>
    oneLine_of_scan hscan t ((Read.infix_of_bodyTokens? htokens).subset (List.mem_append_left _ ht))
  obtain ⟨pieces, hpieces, hb⟩ := hcut.pieces
  obtain ⟨past, ahead, hcursor, htext⟩ := hcut.inText
  rw [hcursor, Cursor.between_offset] at hpieces
  have hlines : Body.plainLines [] b.pieces =
      (inner.drop (Body.docLength none inner)).flatMap (·.kind.commentLines) := by
    rw [hb, Body.plainLines_joinCode]
    exact Body.plainLines_of_cut hcut.chain hcut.step (by rw [hcursor, List.append_nil])
      (by rw [List.append_nil, htext])
      ⟨pointless_of_notMem _ List.not_mem_nil, .inl rfl⟩ hpieces
  have hinner := List.take_append_drop (Body.docLength none inner) inner
  rw [← Body.lines_docOf_iff hone, Body.commentLines, hdoc, hlines, Body.opening, flatMap_lines_ofToken?]
  conv_lhs => rw [← hinner, List.flatMap_append]
  rw [hinner, List.append_left_inj]

/-- A body with documentation of two lines, a continuation with a text, and a comment behind code. -/
def documentedBody : Text :=
  "classdef A\nmethods\nfunction f(a)\n% one\n% two\nx = 1 ... by three\n+ 2; % four\nend\nend\nend\n"

theorem ClassDecl.keeps_comments_of_documented :
    ∃ c m b tokens inner close, ClassDecl.parse {} documentedBody = .ok c ∧
    m ∈ c.members ∧ m.body? = some b ∧ scan documentedBody = .ok tokens ∧
    bodyTokens? {} tokens m.position = some (inner, close) ∧
    b.commentLines = ([" one", " two", " four"] : List Text) ∧
    b.commentLines = inner.flatMap (·.kind.commentLines) := by
  obtain ⟨c, hc, m, hm, b, hb, hlines, hown⟩ : ∃ c, parse {} documentedBody = .ok c ∧ ∃ m ∈ c.members,
      ∃ b ∈ m.body?, b.commentLines = ([" one", " two", " four"] : List Text) ∧
      ∀ tokens, scan documentedBody = .ok tokens → ∀ p ∈ bodyTokens? {} tokens m.position,
        ∀ c ∈ (Body.opening none p.1).tail, c.block.ownLine = true := by decide +kernel
  obtain ⟨tokens, inner, close, hscan, htokens, hiff⟩ := keeps_body_comments_iff hc hm hb
  exact ⟨c, m, b, tokens, inner, close, hc, hm, hb, hscan, htokens, hlines,
    hiff.2 (hown tokens hscan (inner, close) htokens)⟩

/-- A body with a separator before its second comment. -/
def separatedComments : Text := "classdef A\nmethods\nfunction f(a)\n% one\n; % two\nx = 1;\nend\nend\nend\n"

/-- The second comment is cut off with the documentation, but does not belong to it. -/
theorem ClassDecl.loses_comment_behind_separator :
    ∃ c m b tokens inner close, ClassDecl.parse {} separatedComments = .ok c ∧
    m ∈ c.members ∧ m.body? = some b ∧ scan separatedComments = .ok tokens ∧
    bodyTokens? {} tokens m.position = some (inner, close) ∧
    inner.flatMap (·.kind.commentLines) = ([" one", " two"] : List Text) ∧
    b.commentLines = ([" one"] : List Text) := by
  obtain ⟨c, hc, m, hm, b, hb, hkept, tokens, hscan, ⟨inner, close⟩, htokens, hlines⟩ :
      ∃ c, parse {} separatedComments = .ok c ∧ ∃ m ∈ c.members, ∃ b ∈ m.body?,
        b.commentLines = ([" one"] : List Text) ∧ ∃ tokens, scan separatedComments = .ok tokens ∧
        ∃ p ∈ bodyTokens? {} tokens m.position,
          p.1.flatMap (·.kind.commentLines) = ([" one", " two"] : List Text) := by decide +kernel
  exact ⟨c, m, b, tokens, inner, close, hc, hm, hb, hscan, htokens, hlines, hkept⟩

end ClassdefDoc
