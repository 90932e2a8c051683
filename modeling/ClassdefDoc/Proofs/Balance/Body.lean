import ClassdefDoc.Proofs.Balance.Machine
import ClassdefDoc.Proofs.Parse.WellFormed
import ClassdefDoc.Pseudocode.Entry

/-!
# Brackets in method bodies

The code of a body goes into the pseudo-code as it is. `Cuts` says how the tokens between two states of the
scanner are cut into pieces (`cuts_of_cut`). Code without the marks that start a comment moves the reader
of brackets like the scanner that read it (`read_code`), so that the pieces lead from the brackets open in
the one state to those open in the other (`Cuts.read`). The reader is in a line comment for a while if code
that ends in a slash meets a comment; the line end that follows the comment in the source brings it back.
-/

namespace ClassdefDoc

open List Text Comment
open Body (pieceOf cut)

/-- The bracket that a token of this kind is. -/
def TokenKind.bracket? : TokenKind → Option Char
  | .delimiter (.opening b) => some b.opener
  | .delimiter (.closing b) => some b.closer
  | _ => none

def BodyPiece.isCode : BodyPiece → Bool
  | code _ => true
  | _ => false

/-- No code stands next to code. -/
theorem Body.isChain_joinCode (pieces : List BodyPiece) :
    (joinCode pieces).IsChain fun p q => (p.isCode && q.isCode) = false := by
  fun_induction joinCode pieces with
  | case1 => exact .nil
  | case2 rest ih => exact ih
  | case3 t rest _ u more hrest ih =>
    rw [hrest, isChain_cons] at ih
    exact isChain_cons.2 ih
  | case4 t rest _ hrest ih =>
    refine isChain_cons.2 ⟨fun p hp => ?_, ih⟩
    cases p with
    | code u =>
      obtain ⟨more, hmore⟩ := head?_eq_some_iff.1 hp
      exact absurd hmore (hrest u more)
    | comment | literal => rfl
  | case5 p rest _ hcode ih =>
    refine isChain_cons.2 ⟨fun q _ => ?_, ih⟩
    cases p with
    | code t => exact absurd rfl (hcode t)
    | comment | literal => rfl

namespace Balance

variable {c : Char} {code text after : Text} {close : Token} {s'' : Scanner} {b : Body}

/-! ## Code -/

/-- The text has neither of the marks that start a comment. -/
structure MarkFree (t : Text) : Prop where
  block : ¬['/', '*'] <:+: t
  line : ¬['/', '/'] <:+: t

instance (t : Text) : Decidable (MarkFree t) :=
  decidable_of_iff (¬['/', '*'] <:+: t ∧ ¬['/', '/'] <:+: t)
    ⟨fun h => ⟨h.1, h.2⟩, fun h => ⟨h.block, h.line⟩⟩

theorem MarkFree.of_part {t u : Text} (h : MarkFree u) (htu : t <:+: u) : MarkFree t :=
  ⟨fun hb => h.block (hb.trans htu), fun hl => h.line (hl.trans htu)⟩

theorem Plain.filter_isBracket {t : Text} (h : Plain t) : t.filter isBracket = [] :=
  filter_eq_nil_iff.2 fun c hc => by simp [isBracket, (h c hc).opener, (h c hc).closer]

theorem Plain.quote_notMem {t : Text} (h : Plain t) : '"' ∉ t := fun hc => (h _ hc).quote rfl

theorem Plain.walk {t : Text} (h : Plain t) (stack : List Bracket) : walk stack t = some stack := by
  rw [← walk_filter_isBracket, h.filter_isBracket]
  rfl

/-- The mode of the reader behind code. -/
def modeBehind (t : Text) : Mode := if t.getLast? = some '/' then .slash else .code

theorem modeBehind_eq (t : Text) : modeBehind t = .code ∨ modeBehind t = .slash := by
  unfold modeBehind
  split_ifs
  · exact .inr rfl
  · exact .inl rfl

theorem modeBehind_append_singleton (t : Text) (c : Char) :
    modeBehind (t ++ [c]) = if c = '/' then .slash else .code := by
  simp [modeBehind]

/-- Behind code without marks the next character is code again. -/
theorem tells_behind {t : Text} (hquote : c ≠ '"') (hmarks : MarkFree (t ++ [c])) :
    (modeBehind t).next c = modeBehind (t ++ [c]) ∧
      (modeBehind t).tells c ++ (modeBehind (t ++ [c])).waiting.map (.code, ·) =
        (modeBehind t).waiting.map (.code, ·) ++ [(.code, c)] := by
  have hcode : Mode.ofCode c = modeBehind (t ++ [c]) ∧
      Mode.tellsCode c ++ (modeBehind (t ++ [c])).waiting.map (.code, ·) = [(.code, c)] := by
    rw [modeBehind_append_singleton]
    by_cases hslash : c = '/'
    · subst hslash
      exact ⟨rfl, rfl⟩
    · simp [Mode.ofCode, Mode.tellsCode, hslash, hquote, Mode.waiting]
  by_cases hlast : t.getLast? = some '/'
  · obtain ⟨u, rfl⟩ := getLast?_eq_some_iff.1 hlast
    have hmark (d : Char) (h : ¬['/', d] <:+: u ++ ['/'] ++ [c]) : c ≠ d := by
      rintro rfl
      exact h ⟨u, [], by simp⟩
    have hstar := hmark '*' hmarks.block
    have hslash := hmark '/' hmarks.line
    rw [show modeBehind (u ++ ['/']) = .slash from if_pos hlast]
    simp only [Mode.next, Mode.tells, hstar, hslash, decide_false,
      Bool.or_false, Bool.false_eq_true, if_false, cons_append, hcode.2]
    exact ⟨hcode.1, rfl⟩
  · rw [show modeBehind t = .code from if_neg hlast]
    exact hcode

/-- Code without marks and quotes is read as code. -/
theorem roles_code {t : Text} (hquote : '"' ∉ t) (hmarks : MarkFree t) :
    Mode.code.run t = modeBehind t ∧ roles t = t.map (.code, ·) := by
  induction t using List.reverseRecOn with
  | nil => exact ⟨rfl, rfl⟩
  | append_singleton t c ih =>
    simp only [mem_append, mem_singleton, not_or] at hquote
    obtain ⟨hrun, hroles⟩ := ih hquote.1 (hmarks.of_part (prefix_append t [c]).isInfix)
    obtain ⟨hnext, htells⟩ := tells_behind (Ne.symm hquote.2) hmarks
    have hrun' : Mode.code.run (t ++ [c]) = modeBehind (t ++ [c]) := by
      rw [Mode.run_append, hrun]
      exact hnext
    refine ⟨hrun', ?_⟩
    rw [roles, hrun] at hroles
    rw [roles, hrun', Mode.told_append, hrun, Mode.told_cons, Mode.told_nil, append_nil, append_assoc, htells,
      ← append_assoc, hroles, map_append]
    rfl

/-- The reader goes through code without marks and quotes as the brackets say. -/
theorem read_code {t : Text} (hquote : '"' ∉ t) (hmarks : MarkFree t) (stack : List Bracket) :
    read ⟨.code, stack⟩ t = (walk stack t).map (⟨modeBehind t, ·⟩) := by
  obtain ⟨hrun, hroles⟩ := roles_code hquote hmarks
  rw [read_code_eq, hrun, hroles, codeOf_map_code]

/-! ## Comments behind code -/

theorem read_lineComment {t : Text} (h : '\n' ∉ t) (stack : List Bracket) :
    read ⟨.lineComment, stack⟩ t = some ⟨.lineComment, stack⟩ := by
  induction t with
  | nil => rfl
  | cons c t ih =>
    simp only [mem_cons, not_or] at h
    simp only [read_cons, step, if_neg (Ne.symm h.1), Option.bind_some]
    exact ih h.2

theorem newline_notMem_escape {t : Text} (h : '\n' ∉ t) : '\n' ∉ escape t := by
  fun_induction escape t with
  | case1 cs ih => simpa using ih (by simp_all)
  | case2 c cs _ ih =>
    simp only [mem_cons, not_or] at h ⊢
    exact ⟨h.1, ih h.2⟩
  | case3 => exact h

/-- A comment of one line behind a slash makes a line comment. -/
theorem read_comment_behind_slash {t : Text} (h : '\n' ∉ t) (stack : List Bracket) :
    read ⟨.slash, stack⟩ (ofLines [t]) = some ⟨.lineComment, stack⟩ := by
  have hmark : read ⟨.slash, stack⟩ "/*".toList = some ⟨.lineComment, stack⟩ := rfl
  simp only [ofLines, joinWith_singleton, join_cons, join_nil, append_nil]
  rw [read_append_of hmark, read_append_of (read_lineComment (newline_notMem_escape h) stack)]
  exact read_lineComment (by decide) stack

/-- Code that ends where a line starts does not end in a slash. -/
theorem modeBehind_of_leadsLine {s : Scanner} {past gap : Text}
    (h : (s.sees (past ++ code) gap).leadsLine) : modeBehind (code ++ gap) = .code := by
  unfold modeBehind
  rw [if_neg]
  intro hlast
  obtain ⟨u, hu⟩ := getLast?_eq_some_iff.1 hlast
  simp only [Scanner.sees, append_assoc, hu] at h
  simp [isBlank, isSpace] at h

/-! ## Pieces of a body -/

/-- The code among the pieces has no marks. -/
def CodeMarkFree (pieces : List BodyPiece) : Prop := ∀ t, .code t ∈ pieces → MarkFree t

instance (pieces : List BodyPiece) : Decidable (CodeMarkFree pieces) :=
  decidable_of_iff (pieces.all (fun
    | .code t => decide (MarkFree t)
    | _ => true)) <| by
    rw [all_eq_true]
    refine ⟨fun h t ht => of_decide_eq_true (h _ ht), fun h p hp => ?_⟩
    cases p with
    | code t => exact decide_eq_true (h t hp)
    | comment | literal => rfl

/-- Joining code changes nothing that code has character by character. -/
theorem flatMap_joinCode {α : Type} {f : BodyPiece → List α} (hnil : f (.code []) = [])
    (happend : ∀ t u, f (.code (t ++ u)) = f (.code t) ++ f (.code u)) (pieces : List BodyPiece) :
    (Body.joinCode pieces).flatMap f = pieces.flatMap f := by
  fun_induction Body.joinCode pieces with
  | case1 => rfl
  | case2 rest ih => rw [ih, flatMap_cons, hnil, nil_append]
  | case3 t rest _ u more hrest ih =>
    rw [flatMap_cons, flatMap_cons, ← ih, hrest, flatMap_cons, happend, append_assoc]
  | case4 t rest _ _ ih | case5 p rest _ _ ih => rw [flatMap_cons, ih, flatMap_cons]

theorem render_joinCode (pieces : List BodyPiece) :
    (Body.joinCode pieces).flatMap (·.render) = pieces.flatMap (·.render) :=
  flatMap_joinCode rfl (fun _ _ => rfl) pieces

/-- Joining keeps all code. -/
theorem exists_infix_joinCode {pieces : List BodyPiece} {t : Text} (h : .code t ∈ pieces) :
    t = [] ∨ ∃ u, .code u ∈ Body.joinCode pieces ∧ t <:+: u := by
  fun_induction Body.joinCode pieces with
  | case1 => simp at h
  | case2 rest ih =>
    rcases mem_cons.1 h with h | h
    · exact .inl (by injection h)
    · exact ih h
  | case3 t' rest _ u more hrest ih =>
    rcases mem_cons.1 h with h | h
    · injection h with h
      exact .inr ⟨t' ++ u, mem_cons_self, h ▸ (prefix_append t' u).isInfix⟩
    · refine (ih h).imp_right fun ⟨v, hv, hinfix⟩ => ?_
      rw [hrest] at hv
      rcases mem_cons.1 hv with hv | hv
      · injection hv with hv
        exact ⟨t' ++ u, mem_cons_self, hinfix.trans (hv ▸ (suffix_append t' u).isInfix)⟩
      · exact ⟨v, mem_cons_of_mem _ hv, hinfix⟩
  | case4 t' rest _ _ ih =>
    rcases mem_cons.1 h with h | h
    · injection h with h
      exact .inr ⟨t', mem_cons_self, h ▸ infix_rfl⟩
    · exact (ih h).imp_right fun ⟨v, hv, hinfix⟩ => ⟨v, mem_cons_of_mem _ hv, hinfix⟩
  | case5 p rest _ hcode ih =>
    rcases mem_cons.1 h with h | h
    · exact absurd h.symm (hcode t)
    · exact (ih h).imp_right fun ⟨v, hv, hinfix⟩ => ⟨v, mem_cons_of_mem _ hv, hinfix⟩

theorem codeMarkFree_of_joinCode {pieces : List BodyPiece} (h : CodeMarkFree (Body.joinCode pieces)) :
    CodeMarkFree pieces := by
  intro t ht
  rcases exists_infix_joinCode ht with rfl | ⟨u, hu, hinfix⟩
  · decide
  · exact (h u hu).of_part hinfix

/-! ## Cutting a body -/

/-- How the tokens between two states of the scanner are cut into pieces,
where `pending` is code that the scanner has passed. -/
inductive Cuts : Scanner → Text → Text → Text → List Token → Scanner → List BodyPiece → Prop
  | stop {s past pending gap lexeme hidden rest t next} :
    s.Took (past ++ pending) gap lexeme hidden rest t next →
    t.kind ≠ .newline → Cuts s past pending (gap ++ lexeme ++ hidden ++ rest) [] s [.code (pending ++ gap)]
  | code {s past pending gap lexeme rest t next ts s' pieces} :
    s.Took (past ++ pending) gap lexeme [] rest t next →
    pieceOf t = none → Cuts next past (pending ++ gap ++ lexeme) rest ts s' pieces →
    Cuts s past pending (gap ++ lexeme ++ rest) (t :: ts) s' pieces
  | piece {s past pending gap lexeme hidden rest t next own ts s' pieces} :
    s.Took (past ++ pending) gap lexeme hidden rest t next → pieceOf t = some own →
    Cuts next (past ++ pending ++ gap ++ lexeme) hidden rest ts s' pieces →
    Cuts s past pending (gap ++ lexeme ++ hidden ++ rest) (t :: ts)
    s' (.code (pending ++ gap) :: own ++ pieces)

variable {s s' next : Scanner} {past pending gap lexeme hidden rest ahead : Text}
  {t : Token} {ts : List Token} {own pieces : List BodyPiece}

/-- A token that is code hides nothing. -/
theorem hidden_eq_nil (htook : s.Took past gap lexeme hidden rest t next) (hcode : pieceOf t = none) :
    hidden = [] := by
  rw [htook.hides, Scanner.hiddenBy, if_neg]
  intro hcont
  cases hkind : t.kind <;> simp_all [pieceOf, TokenKind.isContinuation]

/-- The offsets that a body is cut at are those of its tokens. -/
theorem cuts_of_cut (hchain : Chain Scanner.step s ts s')
    (hclose : Scanner.step s' = .ok (.item close s'')) (hkind : close.kind ≠ .newline)
    (hcursor : s.cursor = .between (past ++ pending) ahead) (htext : text = past ++ pending ++ ahead)
    (hcut : cut text close.offset (bytes past) ts = some pieces) :
    Cuts s past pending ahead ts s' pieces := by
  induction hchain generalizing past pending ahead pieces with
  | nil s =>
    obtain ⟨gap, lexeme, hidden, rest, rfl, htook⟩ := Scanner.took_of_step hcursor hclose
    have hslice : slice? text (bytes past) close.offset = some (pending ++ gap) :=
      slice?_of_eq (a := past) (c := lexeme ++ hidden ++ rest) (by simp [htext]) rfl
        (by rw [htook.offset_eq, append_assoc])
    simp only [cut, hslice, Option.bind_eq_bind, Option.bind_some, Option.pure_def, Option.some.injEq] at hcut
    exact hcut ▸ .stop htook hkind
  | @cons s t next ts s' hstep _ ih =>
    obtain ⟨gap, lexeme, hidden, rest, rfl, htook⟩ := Scanner.took_of_step hcursor hstep
    cases hpiece : pieceOf t with
    | none =>
      obtain rfl := hidden_eq_nil htook hpiece
      simp only [cut, hpiece] at hcut
      rw [append_nil] at htext ⊢
      refine .code htook hpiece (ih hclose ?_ ?_ hcut)
      · rw [htook.cursor_eq]
        simp only [append_assoc, append_nil]
      · rw [htext]
        simp only [append_assoc]
    | some own =>
      have hslice : slice? text (bytes past) t.offset = some (pending ++ gap) :=
        slice?_of_eq (a := past) (c := lexeme ++ hidden ++ rest) (by simp [htext]) rfl
          (by rw [htook.offset_eq, append_assoc])
      obtain ⟨more, hmore, hpieces⟩ : ∃ more, cut text close.offset t.endOffset ts = some more ∧
          .code (pending ++ gap) :: own ++ more = pieces := by
        simpa [cut, hpiece, hslice, Option.bind_eq_some_iff] using hcut
      rw [htook.endOffset_eq] at hmore
      exact hpieces ▸ .piece htook hpiece
        (ih hclose htook.cursor_eq (by rw [htext]; simp only [append_assoc]) hmore)

theorem exists_cuts (h : b.CutBetween text s ts s' close s'') :
    ∃ past ahead pieces, Cuts s past [] ahead ts s' pieces ∧ b.pieces = Body.joinCode pieces := by
  obtain ⟨pieces, hpieces, hb⟩ := h.pieces
  obtain ⟨past, ahead, hcursor, htext⟩ := h.inText
  rw [hcursor, Cursor.between_offset] at hpieces
  exact ⟨past, ahead, pieces, cuts_of_cut h.chain h.step (by simp [h.kind]) (by rw [hcursor, append_nil])
    (by rw [append_nil, htext]) hpieces, hb⟩

/-! ## Tokens of a body -/

theorem isPlain_of_isGap (h : Cursor.isGap c) : IsPlain c := by
  simp only [Cursor.isGap, Bool.or_eq_true, beq_iff_eq] at h
  rcases h with (rfl | rfl) | rfl <;> decide

theorem plain_gap (h : s.Took past gap lexeme hidden rest t next) :
    Plain gap := fun c hc => isPlain_of_isGap (h.blank c hc)

theorem plain_hidden (h : s.Took past gap lexeme hidden rest t next) : Plain hidden := by
  rcases h.hidden_eq with rfl | rfl <;> decide

/-- The lexeme of a token that is code has the bracket that the token is, and no other. -/
theorem filter_lexeme {around : Surroundings} (hreads : Lexeme.Reads around t.kind lexeme after)
    (hcode : pieceOf t = none) : '"' ∉ lexeme ∧ lexeme.filter isBracket = t.kind.bracket?.toList := by
  have inner (h : ∀ c ∈ lexeme, IsInner c) : '"' ∉ lexeme ∧ lexeme.filter isBracket = [] :=
    ⟨fun hc => (h _ hc).quote rfl,
      filter_eq_nil_iff.2 fun c hc => by simp [isBracket, (h c hc).opener, (h c hc).closer]⟩
  generalize hkind : t.kind = k at hreads
  cases hreads with
  | comment | blockComment | continuation | literal => simp [pieceOf, hkind] at hcode
  | newline | comma | semicolon => decide
  | number _ hl | operator _ hl => exact inner hl
  | keyword _ _ _ hw | identifier hw =>
    exact inner fun c hc => Name.isInner_of_isContinue (Name.isContinue_of_isIdentifier hw c hc)
  | opening | closing =>
    rename_i b
    cases b <;> decide

/-- The scanner keeps the open brackets as the reader does. -/
theorem walk_bracket? (base : List Bracket) {k : TokenKind} {p : Position}
    {brackets brackets' : List (Bracket × Position)}
    (h : Scanner.bracketsAfter brackets k p = .ok brackets') :
    walk (brackets.map (·.1) ++ base) k.bracket?.toList = some (brackets'.map (·.1) ++ base) := by
  unfold Scanner.bracketsAfter at h
  split at h
  · cases h
    exact walk_opener _ _
  · rename_i b
    split at h
    · cases h
    · split_ifs at h with heq
      cases h
      rw [map_cons, cons_append, heq]
      exact walk_closer b _
  · cases h
    rename_i hopen hclose
    have hnone : k.bracket? = none := by
      unfold TokenKind.bracket?
      split
      · exact absurd rfl (hopen _)
      · exact absurd rfl (hclose _)
      · rfl
    rw [hnone]
    rfl

/-- A token that is not code is no bracket. -/
theorem bracket?_of_piece (h : pieceOf t = some own) : t.kind.bracket? = none := by
  unfold pieceOf at h
  split at h <;> simp_all [TokenKind.bracket?]

/-! ## Reading a body -/

/-- The reader has read the pieces before `pending`, which is code that the
scanner has passed; `base` are the brackets that were open before the body. -/
structure Pending (s : Scanner) (pending ahead : Text) (base : List Bracket) (r : State) : Prop where
  mode_eq : r.mode = .code ∨ r.mode = .lineComment ∧ AtLineEnd (pending ++ ahead)
  noQuote : '"' ∉ pending
  walk_eq : walk r.stack pending = some (s.brackets.map (·.1) ++ base)

variable {base : List Bracket} {r : State}

/-- The reader goes through the pending code and the blanks behind it. -/
theorem Pending.read_code (h : Pending s pending (gap ++ lexeme ++ hidden ++ rest) base r)
    (htook : s.Took (past ++ pending) gap lexeme hidden rest t next) (hkind : t.kind ≠ .newline)
    (hmarks : MarkFree (pending ++ gap)) :
    read r (pending ++ gap) = some ⟨modeBehind (pending ++ gap), s.brackets.map (·.1) ++ base⟩ := by
  have hquote : '"' ∉ pending ++ gap := by
    simp only [mem_append, not_or]
    exact ⟨h.noQuote, (plain_gap htook).quote_notMem⟩
  have hread : read ⟨.code, r.stack⟩ (pending ++ gap) =
      some ⟨modeBehind (pending ++ gap), s.brackets.map (·.1) ++ base⟩ := by
    rw [Balance.read_code hquote hmarks, walk_append_of h.walk_eq, (plain_gap htook).walk]
    rfl
  obtain ⟨mode, stack⟩ := r
  rcases h.mode_eq with rfl | ⟨rfl, hend⟩
  · exact hread
  · -- a line end stands first, since the next token is none
    cases hcode : pending ++ gap with
    | nil =>
      have hnil := append_eq_nil_iff.1 hcode
      obtain ⟨c, l, hl⟩ := exists_cons_of_ne_nil htook.reads.ne_nil
      rw [hnil.1, hnil.2, hl] at hend
      exact absurd (by rw [hl, hend c rfl]; rfl) (htook.reads.head?_ne_newline hkind)
    | cons c code =>
      have hc : c = '\n' := hend c (by
        rw [append_assoc, append_assoc, ← append_assoc, hcode]
        rfl)
      rw [hcode] at hread
      subst hc
      exact hread

/-- A token that is code becomes pending. -/
theorem Pending.of_code (h : Pending s pending (gap ++ lexeme ++ rest) base r)
    (htook : s.Took (past ++ pending) gap lexeme hidden rest t next) (hcode : pieceOf t = none) :
    Pending next (pending ++ gap ++ lexeme) rest base r := by
  obtain ⟨hquote, hbrackets⟩ := filter_lexeme htook.reads hcode
  refine ⟨?_, ?_, ?_⟩
  · exact h.mode_eq.imp_right fun ⟨hmode, hend⟩ => ⟨hmode, by simpa using hend⟩
  · simp only [mem_append, not_or]
    exact ⟨⟨h.noQuote, (plain_gap htook).quote_notMem⟩, hquote⟩
  · rw [append_assoc, walk_append_of h.walk_eq, walk_append_of ((plain_gap htook).walk _),
      ← walk_filter_isBracket, hbrackets, walk_bracket? base htook.brackets_eq]

/-- The pieces that stand for a token lead back to code, or into a comment up to the end of its line. -/
theorem read_piece (hreads : Lexeme.Reads (s.sees (past ++ code) gap) t.kind lexeme after)
    (hpiece : pieceOf t = some own) (stack : List Bracket) :
    ∃ m, read ⟨modeBehind (code ++ gap), stack⟩ (own.flatMap (·.render)) = some ⟨m, stack⟩ ∧
      (m = .code ∨ m = .lineComment ∧ AtLineEnd after) := by
  generalize hkind : t.kind = k at hreads
  cases hreads with
  | newline | number | keyword | identifier | opening | closing | comma | semicolon | operator =>
    simp [pieceOf, hkind] at hpiece
  | @comment _ body _ _ _ hbody hend =>
    obtain rfl : [.comment [body]] = own := by simpa [pieceOf, hkind] using hpiece
    simp only [flatMap_singleton, BodyPiece.render]
    rcases modeBehind_eq (code ++ gap) with hmode | hmode <;> rw [hmode]
    · exact ⟨.code, neutral_comment _ stack, .inl rfl⟩
    · exact ⟨.lineComment, read_comment_behind_slash hbody stack, .inr ⟨rfl, hend⟩⟩
  | @blockComment lines _ _ hleads =>
    obtain rfl : [.comment lines] = own := by simpa [pieceOf, hkind] using hpiece
    rw [modeBehind_of_leadsLine hleads]
    simp only [flatMap_singleton, BodyPiece.render]
    exact ⟨.code, neutral_comment _ stack, .inl rfl⟩
  | @literal _ value =>
    obtain rfl : [.literal value] = own := by simpa [pieceOf, hkind] using hpiece
    simp only [flatMap_singleton, BodyPiece.render]
    exact ⟨.code, read_quote (modeBehind_eq _) value stack, .inl rfl⟩
  | @continuation body =>
    obtain rfl : .code "..." :: (if isBlank body then [] else [.comment [body]]) = own := by
      simpa [pieceOf, hkind] using hpiece
    have hdots : read ⟨modeBehind (code ++ gap), stack⟩ "...".toList = some ⟨.code, stack⟩ := by
      rcases modeBehind_eq (code ++ gap) with hmode | hmode <;> rw [hmode] <;> rfl
    refine ⟨.code, ?_, .inl rfl⟩
    simp only [flatMap_cons, BodyPiece.render]
    rw [read_append_of hdots]
    split_ifs
    · rfl
    · rw [flatMap_singleton]
      exact neutral_comment _ stack

/-- A token that is not code ends the pending code; what it hides is pending behind it. -/
theorem Pending.of_piece (h : Pending s pending (gap ++ lexeme ++ hidden ++ rest) base r)
    (htook : s.Took (past ++ pending) gap lexeme hidden rest t next) (hpiece : pieceOf t = some own)
    (hmarks : MarkFree (pending ++ gap)) :
    ∃ r', read r (pending ++ gap ++ own.flatMap (·.render)) = some r' ∧ Pending next hidden rest base r' := by
  have hkind : t.kind ≠ .newline := by
    intro hkind
    simp [pieceOf, hkind] at hpiece
  obtain ⟨m, hread, hmode⟩ := read_piece htook.reads hpiece (s.brackets.map (·.1) ++ base)
  refine ⟨_, (read_append_of (h.read_code htook hkind hmarks) _).trans hread,
    hmode, (plain_hidden htook).quote_notMem, ?_⟩
  have hbrackets := walk_bracket? base htook.brackets_eq
  rw [bracket?_of_piece hpiece] at hbrackets
  rw [(plain_hidden htook).walk]
  exact hbrackets

/-- The pieces between two states of the scanner lead from the brackets open
in the first state to those open in the second. -/
theorem Cuts.read (h : Cuts s past pending ahead ts s' pieces) (hpending : Pending s pending ahead base r)
    (hmarks : CodeMarkFree pieces) :
    ∃ m, Balance.read r (pieces.flatMap (·.render)) = some ⟨m, s'.brackets.map (·.1) ++ base⟩ ∧
      (m = .code ∨ m = .slash) := by
  induction h generalizing r with
  | @stop _ _ pending gap _ _ _ _ _ htook hkind =>
    refine ⟨_, ?_, modeBehind_eq (pending ++ gap)⟩
    simpa [BodyPiece.render] using hpending.read_code htook hkind (hmarks _ (by simp))
  | code htook hcode _ ih => exact ih (hpending.of_code htook hcode) hmarks
  | piece htook hpiece _ ih =>
    obtain ⟨r', hread, hpending'⟩ := hpending.of_piece htook hpiece (hmarks _ (by simp))
    obtain ⟨m, hrest, hm⟩ := ih hpending' fun u hu => hmarks u (by simp [hu])
    refine ⟨m, ?_, hm⟩
    rw [cons_append, flatMap_cons, flatMap_append, ← append_assoc]
    exact (read_append_of hread _).trans hrest

/-- A body that is cut out of a text leaves the open brackets as they are. -/
theorem read_body (h : b.CutFrom text) (hmarks : CodeMarkFree b.pieces)
    (stack : List Bracket) : ∃ m, read ⟨.code, stack⟩ (b.pieces.flatMap (·.render)) = some ⟨m, stack⟩ ∧
      (m = .code ∨ m = .slash) := by
  obtain ⟨s, ts, s', close, s'', hcut⟩ := h
  obtain ⟨past, ahead, pieces, hcuts, hb⟩ := exists_cuts hcut
  rw [hb] at hmarks ⊢
  have hpending : Pending s [] ahead stack ⟨.code, stack⟩ := ⟨.inl rfl, not_mem_nil, by rw [hcut.opened]; rfl⟩
  obtain ⟨m, hread, hm⟩ := hcuts.read hpending (codeMarkFree_of_joinCode hmarks)
  rw [hcut.closed] at hread
  exact ⟨m, by rwa [render_joinCode], hm⟩

end Balance

end ClassdefDoc
