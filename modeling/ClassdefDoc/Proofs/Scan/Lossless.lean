import ClassdefDoc.Proofs.Scan.Run

/-!
# Scanning loses nothing

`Lossless text tokens` says that tokens and the blanks between them make up a text: every lexeme is the part
of the text at the token's offsets, spans are the positions of those offsets, and what stands between two
tokens is blank, up to the line end that a continuation hides. `lossless_scan` proves it of every text that is
scanned. The proof lays the tokens out behind each other (`Laid`), by induction on the run of the scanner, and
reads each part of `Lossless` off the layout.
-/

namespace ClassdefDoc

open List Text

variable {t e : Token} {hidden gap rest text : Text} {s s' : Scanner} {tokens : List Token}

/-- The blanks between tokens: spaces, tabs and carriage returns. -/
def IsBlanks (t : Text) : Prop := ∀ c ∈ t, c = ' ' ∨ c = '\t' ∨ c = '\r'

theorem isBlanks_of_isGap {t : Text} (h : ∀ c ∈ t, Cursor.isGap c) : IsBlanks t := by
  intro c hc
  simpa [Cursor.isGap, or_assoc] using h c hc

/-- The text between two tokens, the first of which is `t`. Behind a continuation it starts with the hidden
line end, unless the text ends there. -/
def Token.GapAfter (text : Text) (t : Token) (gap : Text) : Prop :=
  if t.kind.isContinuation then
    (∃ blanks, gap = '\n' :: blanks ∧ IsBlanks blanks) ∨ (gap = [] ∧ t.endOffset = bytes text)
  else IsBlanks gap

/-- The texts before each of the tokens, when the text before the first one starts at `start`. -/
def gapsFrom (text : Text) (start : Nat) : List Token → List (Option Text)
  | [] => []
  | t :: ts => text.slice? start t.offset :: gapsFrom text t.endOffset ts

/-- The tokens are those of the text: none is lost, none is doubled and none is moved. -/
structure Lossless (text : Text) (tokens : List Token) : Prop where
  ordered : tokens.Pairwise fun a b => a.offset < b.offset ∧ a.endOffset ≤ b.offset
  lexemes : ∀ t ∈ tokens, text.slice? t.offset t.endOffset = some t.lexeme
  nonempty : ∀ t ∈ tokens, t.kind ≠ .eof → t.lexeme ≠ []
  starts : ∀ t ∈ tokens, ∃ before, text.slice? 0 t.offset = some before ∧
    t.span.start = Position.start.advance before
  stops : ∀ t ∈ tokens, ∃ upTo, text.slice? 0 t.endOffset = some upTo ∧
    t.span.stop = Position.start.advance upTo
  leading : ∀ t, tokens.head? = some t → ∃ gap, text.slice? 0 t.offset = some gap ∧ IsBlanks gap
  between : ∀ a b, [a, b] <:+: tokens → ∃ gap, text.slice? a.endOffset b.offset = some gap ∧
    a.GapAfter text gap
  ends : ∃ init e, tokens = init ++ [e] ∧ e.kind = .eof ∧ e.offset = bytes text ∧
    ∀ t ∈ init, t.kind ≠ .eof
  concatenates : ∃ gaps, gapsFrom text 0 tokens = gaps.map some ∧
    (List.zipWith (fun gap t => gap ++ t.lexeme) gaps tokens).flatten = text

/-! ## Layouts -/

/-- A token that stands behind `before`. -/
structure Token.Stands (before : Text) (t : Token) : Prop where
  offset : t.offset = bytes before
  span : t.span = ⟨Position.start.advance before, Position.start.advance (before ++ t.lexeme)⟩

theorem Token.Stands.endOffset {before : Text} (h : t.Stands before) :
    t.endOffset = bytes (before ++ t.lexeme) := by
  rw [Token.endOffset, h.offset, bytes_append]

/-- The text before a token, when a token of kind `k` stands before it and `rest` is the text from the
token on. -/
def IsGap (k : Option TokenKind) (gap rest : Text) : Prop :=
  if k.any (·.isContinuation) then
    (∃ blanks, gap = '\n' :: blanks ∧ IsBlanks blanks) ∨ (gap = [] ∧ rest = [])
  else IsBlanks gap

/-- The tokens lie in `ahead`, which follows `past`; `k` is the kind of the token that ends `past`. -/
inductive Laid : Option TokenKind → Text → List Token → Text → Prop
  | eof {k past gap e} : IsGap k gap [] → e.kind = .eof → e.lexeme = [] → e.Stands (past ++ gap) →
    Laid k past [e] gap
  | cons {k past gap t ts rest} : IsGap k gap (t.lexeme ++ rest) → t.kind ≠ .eof → t.lexeme ≠ [] →
    t.Stands (past ++ gap) → Laid (some t.kind) (past ++ gap ++ t.lexeme) ts rest →
    Laid k past (t :: ts) (gap ++ t.lexeme ++ rest)

namespace Scanner

variable {k : Option TokenKind} {past : Text}

theorem isGap_of_hides (h : Hides k hidden (gap ++ rest))
    (hgap : ∀ c ∈ gap, Cursor.isGap c) : IsGap k (hidden ++ gap) rest := by
  unfold Hides at h
  unfold IsGap
  split_ifs at h ⊢ with hk
  · rcases h with rfl | ⟨rfl, h⟩
    · exact .inl ⟨gap, rfl, isBlanks_of_isGap hgap⟩
    · exact .inr (append_eq_nil_iff.1 h)
  · rw [h]
    exact isBlanks_of_isGap hgap

theorem Took.stands {lexeme : Text}
    (h : Took s past gap lexeme hidden rest t s') : t.Stands (past ++ gap) ∧ t.lexeme = lexeme := by
  have := h.token_eq
  generalize t.kind = k at this
  subst this
  exact ⟨⟨rfl, rfl⟩, rfl⟩

/-- The tokens of a run that comes to the end of the text are laid out in
the text ahead, also where brackets are open at its end. -/
theorem laid_of_chain_blank {ts : List Token} (h : Chain step s ts s')
    (hend : ∀ {past ahead}, s'.cursor = .between past ahead →
      (∀ c ∈ ahead, Cursor.isGap c) ∧ e = s'.tokenAt past ahead [] .eof) {ahead : Text}
    (hs : s.cursor = .between (past ++ hidden) ahead) (hhides : Hides k hidden ahead) :
    Laid k past (ts ++ [e]) (hidden ++ ahead) := by
  induction h generalizing k past hidden ahead with
  | nil s =>
    obtain ⟨hblank, rfl⟩ := hend hs
    refine .eof (isGap_of_hides (by rwa [append_nil]) hblank) rfl rfl ⟨?_, ?_⟩
    · rw [← append_assoc]
      rfl
    · rw [← append_assoc]
      rfl
  | @cons s t next ts s' hstep _ ih =>
    obtain ⟨gap, lexeme, hidden', rest, rfl, htook⟩ := took_of_step hs hstep
    obtain ⟨hstands, rfl⟩ := htook.stands
    have hrest : Laid (some t.kind) (past ++ (hidden ++ gap) ++ t.lexeme) (ts ++ [e]) (hidden' ++ rest) :=
      ih hend (by rw [htook.cursor_eq]; simp only [append_assoc]) htook.hides_of
    have hgap : IsGap k (hidden ++ gap) (t.lexeme ++ (hidden' ++ rest)) :=
      isGap_of_hides (by simpa only [append_assoc] using hhides) htook.blank
    have := Laid.cons hgap htook.reads.kind_ne_eof htook.reads.ne_nil
      (by rw [← append_assoc]; exact hstands) hrest
    simpa only [append_assoc, cons_append] using this

end Scanner

namespace Laid

variable {k : Option TokenKind} {past ahead text : Text} {ts : List Token}

section

variable (h : Laid k past ts ahead)
include h

/-- A token of a layout cuts the text in three. -/
theorem exists_cut (htext : text = past ++ ahead) :
    ∀ t ∈ ts, ∃ before after, text = before ++ t.lexeme ++ after ∧ t.Stands before ∧
      bytes past ≤ bytes before := by
  induction h with
  | @eof k past gap e _ _ hlexeme hstands =>
    intro t ht
    rw [mem_singleton.1 ht]
    exact ⟨past ++ gap, [], by rw [htext, hlexeme]; simp, hstands, by simp⟩
  | @cons k past gap t ts rest _ _ _ hstands _ ih =>
    intro u hu
    rcases mem_cons.1 hu with rfl | hu
    · exact ⟨past ++ gap, rest, by rw [htext]; simp, hstands, by simp⟩
    · obtain ⟨before, after, hcut, hstands', hle⟩ := ih (by rw [htext]; simp) u hu
      refine ⟨before, after, hcut, hstands', Nat.le_trans ?_ hle⟩
      rw [append_assoc, bytes_append]
      exact Nat.le_add_right _ _

theorem pairwise :
    ts.Pairwise fun a b => a.offset < b.offset ∧ a.endOffset ≤ b.offset := by
  induction h with
  | eof => exact pairwise_singleton _ _
  | @cons k past gap t ts rest _ _ hne hstands hrest ih =>
    refine pairwise_cons.2 ⟨fun u hu => ?_, ih⟩
    obtain ⟨before, after, -, hstands', hle⟩ := hrest.exists_cut rfl u hu
    have hend : t.endOffset ≤ u.offset := by rwa [hstands.endOffset, hstands'.offset]
    have hpos : 0 < bytes t.lexeme := bytes_pos hne
    exact ⟨by rw [Token.endOffset] at hend; omega, hend⟩

theorem lexeme_ne_nil : ∀ t ∈ ts, t.kind ≠ .eof → t.lexeme ≠ [] := by
  induction h with
  | eof _ hkind =>
    intro t ht hne
    rw [mem_singleton.1 ht] at hne
    exact absurd hkind hne
  | cons _ _ hne _ _ ih =>
    intro u hu
    rcases mem_cons.1 hu with rfl | hu
    · exact fun _ => hne
    · exact ih u hu

/-- The text before the first token. -/
theorem exists_first : ∃ t rest gap after, ts = t :: rest ∧
    ahead = gap ++ after ∧ IsGap k gap after ∧ t.Stands (past ++ gap) := by
  cases h with
  | @eof _ _ gap e hgap _ _ hstands => exact ⟨e, [], _, [], rfl, by simp, hgap, hstands⟩
  | @cons _ _ gap t ts rest hgap _ _ hstands _ =>
    exact ⟨t, ts, gap, t.lexeme ++ rest, rfl, by simp, hgap, hstands⟩

/-- The text between two neighbours. -/
theorem exists_between (htext : text = past ++ ahead) {l r : List Token}
    {a b : Token} (hts : ts = l ++ a :: b :: r) : ∃ before gap after, text = before ++ gap ++ after ∧
      a.endOffset = bytes before ∧ b.offset = bytes (before ++ gap) ∧
      IsGap (some a.kind) gap after := by
  induction h generalizing l with
  | eof =>
    have := congrArg List.length hts
    simp at this
    omega
  | @cons k past gap t ts rest _ _ _ hstands hrest ih =>
    cases l with
    | nil =>
      simp only [nil_append, List.cons.injEq] at hts
      obtain ⟨rfl, hts⟩ := hts
      obtain ⟨u, rest', gap', after, hu, hahead, hgap', hstands'⟩ := hrest.exists_first
      rw [hts] at hu
      obtain ⟨rfl, -⟩ := List.cons.inj hu
      exact ⟨past ++ gap ++ t.lexeme, gap', after, by rw [htext, hahead]; simp, hstands.endOffset,
        hstands'.offset, hgap'⟩
    | cons x l =>
      simp only [cons_append, List.cons.injEq] at hts
      exact ih (by rw [htext]; simp) hts.2

theorem exists_init : ∃ init e, ts = init ++ [e] ∧ e.kind = .eof ∧ e.lexeme = [] ∧
    e.offset = bytes (past ++ ahead) ∧ ∀ t ∈ init, t.kind ≠ .eof := by
  induction h with
  | @eof k past gap e _ hkind hlexeme hstands => exact ⟨[], e, rfl, hkind, hlexeme, hstands.offset, by simp⟩
  | @cons k past gap t ts rest _ hne _ _ _ ih =>
    obtain ⟨init, e, rfl, hkind, hlexeme, hoffset, hinit⟩ := ih
    refine ⟨t :: init, e, rfl, hkind, hlexeme, by rw [hoffset]; simp, ?_⟩
    simpa [hne] using hinit

theorem exists_gaps (htext : text = past ++ ahead) :
    ∃ gaps, gapsFrom text (bytes past) ts = gaps.map some ∧
      (List.zipWith (fun gap t => gap ++ t.lexeme) gaps ts).flatten = ahead := by
  induction h with
  | @eof k past gap e _ _ hlexeme hstands =>
    refine ⟨[gap], ?_, by simp [hlexeme]⟩
    have hcut : text = past ++ gap ++ [] := by rw [htext, append_nil]
    simp [gapsFrom, slice?_of_eq hcut rfl hstands.offset]
  | @cons k past gap t ts rest _ _ _ hstands _ ih =>
    obtain ⟨gaps, hgaps, hflat⟩ := ih (by rw [htext]; simp)
    refine ⟨gap :: gaps, ?_, by simp [hflat]⟩
    have hcut : text = past ++ gap ++ (t.lexeme ++ rest) := by rw [htext]; simp
    rw [gapsFrom, slice?_of_eq hcut rfl hstands.offset, hstands.endOffset, hgaps]
    rfl

end

end Laid

/-- Tokens that are laid out in a text from its start on make up the text. -/
theorem Laid.lossless (h : Laid none [] tokens text) :
    Lossless text tokens where
  ordered := h.pairwise
  lexemes t ht := by
    obtain ⟨before, after, hcut, hstands, -⟩ := h.exists_cut rfl t ht
    exact slice?_of_eq hcut hstands.offset hstands.endOffset
  nonempty := h.lexeme_ne_nil
  starts t ht := by
    obtain ⟨before, after, hcut, hstands, -⟩ := h.exists_cut rfl t ht
    rw [append_assoc] at hcut
    exact ⟨before, slice?_zero hcut hstands.offset, by rw [hstands.span]⟩
  stops t ht := by
    obtain ⟨before, after, hcut, hstands, -⟩ := h.exists_cut rfl t ht
    exact ⟨before ++ t.lexeme, slice?_zero hcut hstands.endOffset, by rw [hstands.span]⟩
  leading t ht := by
    obtain ⟨u, rest, gap, after, rfl, hcut, hgap, hstands⟩ := h.exists_first
    cases ht
    exact ⟨gap, slice?_zero hcut hstands.offset, hgap⟩
  between a b hab := by
    obtain ⟨l, r, hlr⟩ := hab
    have hts : tokens = l ++ a :: b :: r := by rw [← hlr]; simp
    obtain ⟨before, gap, after, hcut, hstart, hstop, hgap⟩ := h.exists_between (nil_append text).symm hts
    refine ⟨gap, slice?_of_eq hcut hstart hstop, ?_⟩
    simp only [IsGap, Option.any_some] at hgap
    unfold Token.GapAfter
    split_ifs at hgap ⊢
    · refine hgap.imp_right fun ⟨hnil, hend⟩ => ⟨hnil, ?_⟩
      rw [hstart, hcut, hnil, hend, append_nil, append_nil]
    · exact hgap
  ends := by
    obtain ⟨init, e, hinit, hkind, -, hends⟩ := h.exists_init
    exact ⟨init, e, hinit, hkind, hends⟩
  concatenates := h.exists_gaps rfl

theorem laid_of_scan (h : scan text = .ok tokens) : Laid none [] tokens text := by
  obtain ⟨ts, s, e, hchain, hdone, rfl⟩ := scan_eq_ok_iff.1 h
  suffices hlaid : Laid none [] (ts ++ [e]) ([] ++ text) from hlaid
  refine Scanner.laid_of_chain_blank hchain (fun hend => ?_) rfl rfl
  obtain ⟨hblank, he, -⟩ := Scanner.ended_of_step hend hdone
  exact ⟨hblank, he⟩

/-- Only the last token is the end of the text. -/
theorem kind_ne_eof_of_scan {before rest : List Token}
    (h : scan text = .ok (before ++ t :: rest)) (hrest : rest ≠ []) : t.kind ≠ .eof := by
  obtain ⟨init, e', hinit, -, -, -, hne⟩ := (laid_of_scan h).exists_init
  obtain ⟨rest, u, rfl⟩ := (eq_nil_or_concat' rest).resolve_left hrest
  refine hne t ?_
  rw [← cons_append, ← append_assoc] at hinit
  rw [← (append_inj' hinit rfl).1]
  simp

/-- Scanning loses nothing: the tokens of a text and the blanks between them make up the text. -/
theorem lossless_scan {text : Text} {tokens : List Token} (h : scan text = .ok tokens) :
    Lossless text tokens :=
  (laid_of_scan h).lossless

/-- A nested comment, a continuation behind which the line end is hidden, and characters of several bytes. -/
theorem lossless_nested_comment :
    ∃ tokens, scan "%\x7b\n%\x7b\n√\n%\x7d\n%\x7d\nx = [1 ... é\r\n\t2]';" = .ok tokens ∧
      Lossless "%\x7b\n%\x7b\n√\n%\x7d\n%\x7d\nx = [1 ... é\r\n\t2]';" tokens := by
  obtain ⟨tokens, h⟩ :=
    exists_of_isOk (x := scan "%\x7b\n%\x7b\n√\n%\x7d\n%\x7d\nx = [1 ... é\r\n\t2]';") (by decide +kernel)
  exact ⟨tokens, h, lossless_scan h⟩

end ClassdefDoc
