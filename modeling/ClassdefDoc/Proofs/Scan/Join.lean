import ClassdefDoc.Proofs.Scan.Beside

/-!
# Scanning two lines as one

A blank in place of a line end keeps the tokens before it and most of those behind it: words
that are keywords where a statement starts are names on the joined line (`exists_scan_joined`).
-/

namespace ClassdefDoc

open List Token Name

variable {E R : Token → Token → Prop} {n : Nat} {t : Token} {ts : List Token} {c : Char}

/-- A line end against a blank. -/
abbrev Text.Distance.join (a : Text) : Distance := .between (a ++ ['\n']) (a ++ [' '])

/-! ## Tokens behind the line end -/

/-- The tokens of a line that is joined to the one before, related by `R` or,
if they may be of two kinds, by `E`. Behind an `end` the words start statements
in the first text only; up to `n` of them are read alike in both. -/
inductive Relaxed (E R : Token → Token → Prop) : Nat → List Token → List Token → Prop
  | same {n ts ts'} : Forall₂ R ts ts' → Relaxed E R n ts ts'
  | passed {n t t' ts ts'} : t.kind = t'.kind → (t.kind.isComment || t.kind.isContinuation) →
    Relaxed E R n ts ts' →
    Relaxed E R n (t :: ts) (t' :: ts')
  | word {n t t' k ts ts'} : E t t' → t.kind = .keyword k → t'.kind = .identifier k.word → k ≠ .close →
    (n = 0 → k ≠ .function) → ts ≠ [] → Forall₂ R ts ts' → Relaxed E R n (t :: ts) (t' :: ts')
  | close {n t t' ts ts'} : E t t' → t.kind = .keyword .close →
    t'.kind = .identifier Keyword.close.word → ts ≠ [] →
    Relaxed E R n ts ts' → Relaxed E R (n + 1) (t :: ts) (t' :: ts')

theorem Relaxed.imp {E' R' : Token → Token → Prop} (hE : ∀ {t t'}, E t t' → E' t t')
    (hR : ∀ {t t'}, R t t' → R' t t') {ts' : List Token} (h : Relaxed E R n ts ts') :
    Relaxed E' R' n ts ts' := by
  induction h with
  | same h => exact .same (h.imp fun _ _ => hR)
  | passed hkind hpassed _ ih => exact .passed hkind hpassed ih
  | word ht hk hk' hclose hfunction hne h =>
    exact .word (hE ht) hk hk' hclose hfunction hne (h.imp fun _ _ => hR)
  | close ht hk hk' hne _ ih => exact .close (hE ht) hk hk' hne ih

/-- Tokens that may be joined to the line before: at most `n` times an `end`,
no `function` behind the last of these, and no literal behind a keyword. -/
def Steady : Nat → List Token → Prop
  | _, [] => True
  | n, t :: ts =>
    match t.kind with
    | .comment _ | .blockComment _ | .continuation _ => Steady n ts
    | .literal .single _ => False
    | .keyword .close => ∃ m, n = m + 1 ∧ Steady m ts
    | .keyword k => (n = 0 → k ≠ .function) ∧ ∀ u ∈ ts.head?, ∀ v, u.kind ≠ .literal .single v
    | _ => True

/-- A word or `[`. -/
def TokenKind.isJoined : TokenKind → Bool
  | .identifier _ | .keyword _ | .delimiter (.opening .square) => true
  | _ => false

theorem TokenKind.cases_of_isJoined {k : TokenKind} (h : k.isJoined) :
    (∃ w, k = .identifier w) ∨ (∃ w, k = .keyword w) ∨ k = .delimiter (.opening .square) := by
  unfold isJoined at h
  split at h
  · exact .inl ⟨_, rfl⟩
  · exact .inr (.inl ⟨_, rfl⟩)
  · exact .inr (.inr rfl)
  · cases h

/-- A line starts with a word or `[` also when it is joined. -/
theorem Relaxed.isJoined {t' : Token} {ts' : List Token} (h : Relaxed E R n (t :: ts) (t' :: ts'))
    (hR : ∀ {t t'}, R t t' → t.kind = t'.kind) (ht : t.kind.isJoined) : t'.kind.isJoined := by
  cases h with
  | same h =>
    cases h with
    | cons hfirst => exact hR hfirst ▸ ht
  | passed hkind => exact hkind ▸ ht
  | word _ _ hk' => rw [hk']; rfl
  | close _ _ hk' => rw [hk']; rfl

section

variable (h : Steady n (t :: ts))
include h

theorem Steady.of_passed (ht : (t.kind.isComment || t.kind.isContinuation)) : Steady n ts := by
  unfold Steady at h
  split at h
  · exact h
  · exact h
  · exact h
  all_goals simp_all [TokenKind.isComment, TokenKind.isContinuation]

theorem Steady.ne_literal (v : Text) : t.kind ≠ .literal .single v := by
  intro hv
  simp only [Steady, hv] at h

theorem Steady.of_close (ht : t.kind = .keyword .close) : ∃ m, n = m + 1 ∧ Steady m ts := by
  simpa only [Steady, ht] using h

theorem Steady.of_keyword {k : Keyword} (ht : t.kind = .keyword k)
    (hk : k ≠ .close) : (n = 0 → k ≠ .function) ∧ ∀ u ∈ ts.head?, ∀ v, u.kind ≠ .literal .single v := by
  unfold Steady at h
  rw [ht] at h
  cases k <;> first | exact h | exact absurd rfl hk

end

namespace Lexeme

variable {s : Surroundings} {c : Char} {rest : Text} {l : Lexeme}

/-- A single quote that is no transpose opens a literal. -/
theorem literal_of_quote (h : read s '\'' rest = .ok l) (hnot : transposes s = false) :
    ∃ value, l.kind = .literal .single value := by
  rw [← Quote.char, read_quote, if_neg (by simp [hnot])] at h
  obtain ⟨value, more, -, -, -, rfl⟩ := readLiteral_eq_ok_iff.1 h
  exact ⟨value, rfl⟩

/-- Where no statement starts, a keyword is read as a name and all else as it is where a statement starts. -/
theorem read_of_not_startsStatement (around : Surroundings) (h : read s c rest = .ok l)
    (hs : s.startsStatement) (haround : around.startsStatement = false) (hinner : s.innermost = none)
    (hlead : c = '%' → around.leadsLine = s.leadsLine) (hquote : ∀ v, l.kind ≠ .literal .single v) :
    (∃ k, l.kind = .keyword k ∧ read around c rest = .ok ⟨.identifier k.word, l.length⟩) ∨
      read around c rest = .ok l ∧ ∀ k, l.kind ≠ .keyword k := by
  by_cases hstart : isStart c
  · rw [read_of_isStart hstart] at h ⊢
    have hname : readWord around (c :: rest) =
        ⟨.identifier ((c :: rest).takeWhile isContinue), ((c :: rest).takeWhile isContinue).length⟩ := by
      simp only [readWord, haround, Bool.false_and, Bool.false_eq_true, if_false]
    cases hword : Keyword.ofWord? ((c :: rest).takeWhile isContinue) with
    | some k =>
      have hread : readWord s (c :: rest) = ⟨.keyword k, ((c :: rest).takeWhile isContinue).length⟩ := by
        simp only [readWord, hs, hinner, Option.isNone_none, Bool.and_self, if_true, hword]
      rw [hread] at h
      cases h
      exact .inl ⟨k, rfl, by rw [hname, Keyword.word_of_ofWord? hword]⟩
    | none =>
      have hread : readWord s (c :: rest) = readWord around (c :: rest) := by
        rw [hname]
        simp only [readWord, hs, hinner, Option.isNone_none, Bool.and_self, if_true, hword]
      rw [hread, hname] at h
      rw [hname]
      cases h
      exact .inr ⟨rfl, by simp⟩
  · have hnot : transposes s = false := by simp [transposes, hs]
    have hc : c ≠ '\'' := by
      rintro rfl
      obtain ⟨v, hv⟩ := literal_of_quote h hnot
      exact hquote v hv
    refine .inr ⟨?_, fun k hk => hstart ?_⟩
    · rw [← h]
      exact read_congr hlead (fun e => absurd e hc) fun e => absurd e hstart
    · obtain ⟨x, after, rfl, hcut⟩ := exists_cut_of_read h
      have hreads := reads_of_cut hcut
      rw [hk] at hreads
      cases hreads with
      | keyword _ _ _ hname => exact (Bool.and_eq_true_iff.1 hname).1

end Lexeme

/-- The first character of a word or a bracket. -/
theorem Lexeme.Reads.isSpace_of_isJoined {s : Surroundings} {k : TokenKind}
    {x after : Text} (h : Reads s k (c :: x) after) (hk : k.isJoined) :
    Text.isSpace c = false ∧ c ≠ '%' := by
  have word (hname : isIdentifier (c :: x)) : Text.isSpace c = false ∧ c ≠ '%' := by
    have hstart := (Bool.and_eq_true_iff.1 hname).1
    refine ⟨isSpace_of_isContinue (isContinue_of_isStart hstart), ?_⟩
    rintro rfl
    cases hstart
  generalize hl : c :: x = lexeme at h word
  cases h with
  | keyword _ _ _ hname => exact word hname
  | identifier hname => exact word hname
  | @opening b =>
    obtain ⟨rfl, -⟩ := List.cons.inj hl
    cases b <;> exact ⟨by decide, by decide⟩
  | _ => cases hk

namespace Scanner

variable {s s' next : Scanner} {past gap b : Text} {t : Token} {ts : List Token} {m : Text.Distance} {n : Nat}

/-- The same holds behind a keyword that is read as a name, if no literal follows. -/
theorem Beside.exists_yields_of_keyword (h : Beside m s s')
    (hstatement : s.startsStatement = s'.startsStatement) {k : Keyword}
    (hprevious : s.previous = some (.keyword k)) (hk : k ≠ .close)
    (hyields : s.Yields ts) (hquote : ∀ u ∈ ts.head?, ∀ v, u.kind ≠ .literal .single v) :
    ∃ ts', s'.Yields ts' ∧ Forall₂ (Kept m) ts ts' := by
  cases hyields with
  | done hdone => exact h.exists_done hdone
  | @item _ t next ts hstep hrest =>
    refine h.exists_yields_of_step hstatement hstep (fun lead spaced inner c rest l hread hkind => ?_)
      fun _ hnext hs hp => hnext.exists_yields hs hp hrest
    rw [← hread, ← hstatement]
    refine Lexeme.read_congr (fun _ => rfl) (fun hc => ?_) fun _ => rfl
    subst hc
    have hnot : Lexeme.transposes ⟨lead, s.startsStatement, spaced, s.previous, inner⟩ = false := by
      simp only [Lexeme.transposes, hprevious, Option.any_some, Bool.and_eq_false_iff]
      refine .inl (.inr ?_)
      cases k <;> first | rfl | exact absurd rfl hk
    obtain ⟨v, hv⟩ := Lexeme.literal_of_quote hread hnot
    exact absurd (hkind.symm.trans hv) (hquote t rfl v)

theorem Yields.ne_nil (h : s.Yields ts) : ts ≠ [] := by cases h <;> simp

theorem statementAfter_of_not_passed {k : TokenKind} (hk : (k.isComment || k.isContinuation) = false)
    (heof : k ≠ .eof) :
    statementAfter true true k = statementAfter false true k := by
  cases k with
  | comment | blockComment | continuation => cases hk
  | eof => exact absurd rfl heof
  | delimiter d => cases d <;> rfl
  | keyword k => cases k <;> rfl
  | _ => rfl

/-- Behind the first token where a statement starts for the first scanner only. -/
theorem Beside.exists_relaxed_of_step {t' : Token} {next' : Scanner}
    (hnext : Beside m next next') (ht : t.Raised m t')
    (hkinds : (∃ k, t.kind = .keyword k ∧ t'.kind = .identifier k.word) ∨ t.kind = t'.kind ∧ ∀ k,
      t.kind ≠ .keyword k)
    (hbrackets : bracketsAfter [] t.kind t.span.start = .ok next.brackets)
    (hs : next.startsStatement = statementAfter true next.brackets.isEmpty t.kind)
    (hs' : next'.startsStatement = statementAfter false next.brackets.isEmpty t'.kind)
    (hp : next.previous = some t.kind) (hp' : next'.previous = some t'.kind)
    (heof : t.kind ≠ .eof) (hrest : next.Yields ts) (hsteady : Steady n (t :: ts))
    (hopen : ∀ l, next.startsStatement → next'.startsStatement = false → next.brackets = [] → Steady l ts →
      ∃ ts', next'.Yields ts' ∧ Relaxed (Token.Raised m) (Kept m) l ts ts') :
    ∃ ts', next'.Yields ts' ∧ Relaxed (Token.Raised m) (Kept m) n (t :: ts) (t' :: ts') := by
  rcases hkinds with ⟨k, hk, hk'⟩ | ⟨hkind, hno⟩
  · have hnil : next.brackets = [] := by
      rw [hk] at hbrackets
      exact (Except.ok.inj hbrackets).symm
    rw [hnil, hk] at hs
    rw [hk'] at hs'
    by_cases hclose : k = .close
    · subst hclose
      obtain ⟨l, rfl, hl⟩ := hsteady.of_close hk
      obtain ⟨ts', hyields', hts⟩ := hopen l hs hs' hnil hl
      exact ⟨ts', hyields', .close ht hk hk' hrest.ne_nil hts⟩
    · obtain ⟨hfunction, hquote⟩ := hsteady.of_keyword hk hclose
      have hfalse : next.startsStatement = false := by
        rw [hs]
        cases k <;> first | rfl | exact absurd rfl hclose
      obtain ⟨ts', hyields', hts⟩ := hnext.exists_yields_of_keyword (hfalse.trans hs'.symm)
        (hp.trans (congrArg some hk)) hclose hrest hquote
      exact ⟨ts', hyields', .word ht hk hk' hclose hfunction hrest.ne_nil hts⟩
  · by_cases hpassed : (t.kind.isComment || t.kind.isContinuation)
    · have hnil : next.brackets = [] := by
        cases hk : t.kind <;> simp [hk, TokenKind.isComment, TokenKind.isContinuation] at hpassed <;>
          (rw [hk] at hbrackets; exact (Except.ok.inj hbrackets).symm)
      have hkeeps (b : Bool) : statementAfter b next.brackets.isEmpty t.kind = b := by
        cases hk : t.kind <;> simp [hk, TokenKind.isComment, TokenKind.isContinuation] at hpassed <;> rfl
      rw [hkeeps] at hs
      rw [← hkind, hkeeps] at hs'
      obtain ⟨ts', hyields', hts⟩ := hopen n hs hs' hnil (hsteady.of_passed hpassed)
      exact ⟨ts', hyields', .passed hkind hpassed hts⟩
    · have hsame : next.startsStatement = next'.startsStatement := by
        rw [Bool.not_eq_true] at hpassed
        rw [hs, hs', ← hkind]
        cases hempty : next.brackets.isEmpty with
        | true => exact statementAfter_of_not_passed hpassed heof
        | false =>
          cases hk : t.kind with
          | delimiter d => cases d <;> rfl
          | keyword k => cases k <;> rfl
          | newline =>
            rw [hk] at hbrackets
            rw [← Except.ok.inj hbrackets] at hempty
            cases hempty
          | eof => exact absurd hk heof
          | comment | blockComment | continuation => rw [hk] at hpassed; cases hpassed
          | _ => rfl
      obtain ⟨ts', hyields', hts⟩ := hnext.exists_yields hsame (by rw [hp, hp', hkind]) hrest
      exact ⟨ts', hyields', .same (.cons ⟨ht, hkind⟩ hts)⟩

/-- A token that the first scanner takes where a statement starts, and the second one where none does. -/
theorem exists_relaxed_of_read {past' ahead ahead' rest : Text}
    {sight around : Surroundings} {l : Lexeme} (hcursor : s.cursor = .between past ahead)
    (hcursor' : s'.cursor = .between past' ahead') (hs : s.startsStatement) (hs' : s'.startsStatement = false)
    (hbrackets : s.brackets = []) (hstep : step s = .ok (.item t next)) (hrest : next.Yields ts)
    (hsteady : Steady n (t :: ts)) (hread : Lexeme.read sight c rest = .ok l) (hkind : t.kind = l.kind)
    (hgoes : ∀ l', Lexeme.read around c rest = .ok l' → l'.length = l.length → l.kind.Lowered l'.kind →
      ∃ t' next', step s' = .ok (.item t' next') ∧ t'.kind = l'.kind ∧ t.Raised m t' ∧ Beside m next next')
    (hsight : sight.startsStatement) (hinner : sight.innermost = none)
    (haround : around.startsStatement = false) (hlead : c = '%' → around.leadsLine = sight.leadsLine)
    (hopen : ∀ l next', Beside m next next' → next.startsStatement →
      next'.startsStatement = false → next.brackets = [] → Steady l ts →
      ∃ ts', next'.Yields ts' ∧ Relaxed (Token.Raised m) (Kept m) l ts ts') :
    ∃ t' ts', s'.Yields (t' :: ts') ∧ Relaxed (Token.Raised m) (Kept m) n (t :: ts) (t' :: ts') := by
  obtain ⟨t', next', hstep', ht, hnext, hkinds⟩ : ∃ t' next', step s' = .ok (.item t' next') ∧
      t.Raised m t' ∧ Beside m next next' ∧
      ((∃ k, t.kind = .keyword k ∧ t'.kind = .identifier k.word) ∨ t.kind = t'.kind ∧ ∀ k,
      t.kind ≠ .keyword k) := by
    rcases Lexeme.read_of_not_startsStatement around hread hsight haround hinner hlead
      (fun v => hkind ▸ hsteady.ne_literal v) with ⟨k, hk, hread'⟩ | ⟨hread', hno⟩
    · obtain ⟨t', next', hstep', hkind', ht, hnext⟩ := hgoes _ hread' rfl (hk ▸ .word k)
      exact ⟨t', next', hstep', ht, hnext, .inl ⟨k, hkind.trans hk, hkind'⟩⟩
    · obtain ⟨t', next', hstep', hkind', ht, hnext⟩ := hgoes _ hread' rfl (.same _)
      exact ⟨t', next', hstep', ht, hnext, .inr ⟨hkind.trans hkind'.symm, fun k => hkind ▸ hno k⟩⟩
  obtain ⟨gap, lexeme, hidden, rest, -, htook⟩ := took_of_step hcursor hstep
  obtain ⟨hstate, hstate', hp, hp'⟩ := hnext.states hcursor hcursor' hstep hstep'
  rw [hs] at hstate
  rw [hs'] at hstate'
  obtain ⟨ts', hyields', hts⟩ :=
    hnext.exists_relaxed_of_step ht hkinds (hbrackets ▸ htook.brackets_eq) hstate hstate' hp hp'
    htook.reads.kind_ne_eof hrest hsteady fun l => hopen l next' hnext
  exact ⟨t', ts', .item hstep' hyields', hts⟩

/-- Behind an `end` that starts a statement for the first scanner only. -/
theorem Beside.exists_relaxed (h : Beside m s s') (hs : s.startsStatement) (hs' : s'.startsStatement = false)
    (hbrackets : s.brackets = []) (hyields : s.Yields ts) (hsteady : Steady n ts) :
    ∃ ts', s'.Yields ts' ∧ Relaxed (Token.Raised m) (Kept m) n ts ts' := by
  induction hyields generalizing s' n with
  | done hdone =>
    obtain ⟨ts', hyields', hts⟩ := h.exists_done hdone
    exact ⟨ts', hyields', .same hts⟩
  | @item s t next ts hstep hrest ih =>
    obtain ⟨past, past', ahead, hcursor, hcursor', -⟩ := h.place
    obtain ⟨lead, spaced, c, rest, l, hread, hkind, hgoes⟩ := h.exists_read hstep
    have hinner : s.brackets.head?.map (·.1) = none := by rw [hbrackets]; rfl
    obtain ⟨t', ts', hts⟩ :=
      exists_relaxed_of_read hcursor hcursor' hs hs' hbrackets
      hstep hrest hsteady hread hkind hgoes hs hinner hs'
      (fun _ => rfl) fun l next' hnext hs hs' hnil hl => ih hnext hs hs' hnil hl
    exact ⟨t' :: ts', hts⟩

/-- The line end is exchanged for a blank: from there on the scanners give
the same tokens but for keywords that are read as names. -/
theorem exists_relaxed_of_joined (hs : s.cursor = .between (past ++ gap ++ ['\n']) b)
    (hs' : s'.cursor = .between past (gap ++ ' ' :: b)) (hgap : ∀ c ∈ gap, Cursor.isGap c)
    (hstatement : s.startsStatement) (hstatement' : s'.startsStatement = false)
    (hbrackets : s.brackets = []) (hbrackets' : s'.brackets = [])
    (hyields : s.Yields (t :: ts)) (hjoined : t.kind.isJoined) (hsteady : Steady n (t :: ts)) :
    ∃ t' ts', s'.Yields (t' :: ts') ∧
      Relaxed (Token.Raised (.join (past ++ gap))) (Kept (.join (past ++ gap))) n (t :: ts) (t' :: ts') := by
  cases hyields with
  | done hdone =>
    obtain ⟨-, rfl, -⟩ := ended_of_step hs hdone
    cases hjoined
  | @item _ _ next _ hstep hrest =>
    obtain ⟨g, c, x, after, l, brackets, rfl, hlex, -, htoken, -⟩ := read_of_step hs hstep
    have hkind : t.kind = l.kind := by rw [htoken]; rfl
    obtain ⟨hspace, hpercent⟩ := (Lexeme.reads_of_cut hlex.cut).isSpace_of_isJoined (hkind ▸ hjoined)
    have hg' : ∀ c ∈ gap ++ ' ' :: g, Cursor.isGap c := by
      intro d hd
      rcases mem_append.1 hd with hd | hd
      · exact hgap d hd
      · rcases mem_cons.1 hd with rfl | hd
        · rfl
        · exact hlex.blank d hd
    have hcursor' : s'.cursor = .between past ((gap ++ ' ' :: g) ++ c :: (x ++ after)) := by rw [hs']; simp
    have hpast : past ++ (gap ++ ' ' :: g) = past ++ gap ++ [' '] ++ g := by simp
    have hlevel :
        Text.Level (.join (past ++ gap)) (past ++ gap ++ ['\n'] ++ g) (past ++ (gap ++ ' ' :: g)) := by
      rw [hpast]
      exact (Text.level_between (by simp only [Text.bytes_append]; exact Nat.le_refl _)).append g
    have hinner : (s.sees (past ++ gap ++ ['\n']) g).innermost = none := by simp [sees, hbrackets]
    refine exists_relaxed_of_read hs hcursor' hstatement hstatement'
      hbrackets hstep hrest hsteady hlex.cut.read hkind (fun l' hread' hl hk => ?_)
      hstatement hinner (show (s'.sees past (gap ++ ' ' :: g)).startsStatement =
        false from hstatement') (fun h => absurd h hpercent)
      fun l next' hnext hs hs' hnil hl => hnext.exists_relaxed hs hs' hnil hrest hl
    exact (exists_step_of_lexes hlex ⟨hcursor', hg', hlex.starts,
      hread', hl.trans hlex.cut.length⟩ hk (by rw [hbrackets, hbrackets']) hlevel
      (hlevel.raised hspace x _) hstep).2

end Scanner

/-- The tokens of a text in which a line is joined to the one before, and
those of the part before the joint. -/
theorem exists_scan_joined {a b : Text} {before rest : List Token} {newline : Token} {s : Scanner}
    (hchain : Chain Scanner.step (.start (a ++ '\n' :: b)) before s)
    (hyields : s.Yields (newline :: t :: rest)) (hbrackets : s.brackets = [])
    (hstatement : s.startsStatement = false) (hnewline : newline.kind = .newline)
    (hoffset : newline.offset = Text.bytes a) (hcomment : ∀ u ∈ before.getLast?, u.kind.isComment = false)
    (hjoined : t.kind.isJoined) (hsteady : Steady n (t :: rest)) :
    ∃ t' rest' e, scan (a ++ ' ' :: b) = .ok (before ++ t' :: rest') ∧ e.kind = .eof ∧
      Laid none [] (before ++ [e]) a ∧
      Relaxed (Token.Raised (.join a)) (Kept (.join a)) n (t :: rest) (t' :: rest') := by
  obtain ⟨past, ahead, hcursor, htext⟩ := (Scanner.over_start _).of_chain hchain
  cases hyields with
  | @item _ _ next _ hstep hrest =>
    obtain ⟨gap, lexeme, hidden, rest₁, rfl, htook⟩ := Scanner.took_of_step hcursor hstep
    obtain ⟨rfl, rfl⟩ := htook.newline hnewline
    have heq : past ++ gap ++ '\n' :: rest₁ = a ++ '\n' :: b := by rw [← htext]; simp
    have hbytes : Text.bytes (past ++ gap) = Text.bytes a := htook.offset_eq.symm.trans hoffset
    obtain ⟨rfl, rfl⟩ : a = past ++ gap ∧ b = rest₁ := by
      obtain ⟨hpast, hrest⟩ := Text.append_inj_of_bytes heq hbytes
      exact ⟨hpast.symm, (List.cons.inj hrest).2.symm⟩
    obtain ⟨hlead, hlaid⟩ := Scanner.chain_lead hchain (hcursor.trans (by simp)) htook.blank
      (cons_ne_nil _ _) hcomment
    have hnext : next.cursor = .between (past ++ gap ++ ['\n']) b := by rw [htook.cursor_eq]; simp
    have hnil : next.brackets = [] := by
      have hafter := htook.brackets_eq
      rw [hnewline, hbrackets] at hafter
      exact (Except.ok.inj hafter).symm
    have hstarts : next.startsStatement := by
      rw [htook.startsStatement_eq, hnil, hnewline]
      exact Bool.or_true _
    obtain ⟨t', rest', hyields', hts⟩ :=
      Scanner.exists_relaxed_of_joined hnext (Scanner.upTo_cursor hcursor (gap ++ ' ' :: b)) htook.blank
      hstarts hstatement hnil hbrackets hrest hjoined hsteady
    exact ⟨t', rest', _, scan_of_yields (hlead (Text.atBreak_cons (by decide) b)) hyields', rfl, hlaid, hts⟩

end ClassdefDoc
