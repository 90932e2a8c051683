import ClassdefDoc.Proofs.Print.Form
import ClassdefDoc.Proofs.Print.Spelling

/-!
# Default values in front of a semicolon

A semicolon extends no inline lexeme, so a lexeme is read in front of it as it is read at the end of a text
(`Lexeme.read_append`). The tokens of a default value in `x = d` are therefore its tokens wherever `= d;` is
written on a line: `DefaultForm.exists_spelled`.
-/

namespace ClassdefDoc

open List Lexeme
open Spelling (write write_cons map_kind_tokens write_append)
open Cursor (isGap)

variable {s s' : Scanner} {past after ahead : Text}

/-- An inline kind is neither a comment nor a continuation. -/
theorem TokenKind.isContinuation_of_isInline {k : TokenKind} (h : k.isInline) :
    k.isComment = false ∧ k.isContinuation = false := by
  cases k <;> first | exact ⟨rfl, rfl⟩ | cases h

theorem Text.sameAhead_semicolon (n : Nat) (t after : Text) : SameAhead n t (t ++ ';' :: after) := by
  induction t generalizing n with
  | nil => exact .atBreak atBreak_nil fun c hc => Option.some.inj hc ▸ by decide
  | cons c t ih =>
    cases n with
    | zero => exact .zero
    | succ n => exact .cons (ih n)

/-- A semicolon behind an inline lexeme changes nothing in how it is read. -/
theorem Lexeme.read_append (after : Text) {s s' : Surroundings}
    (hs : SameState s s') {c : Char} {rest : Text} {l : Lexeme}
    (h : read s c rest = .ok l) (hinline : l.kind.isInline) : read s' c (rest ++ ';' :: after) = .ok l := by
  obtain ⟨x, more, rfl, hcut⟩ := exists_cut_of_read h
  obtain ⟨hcomment, hcontinuation⟩ := TokenKind.isContinuation_of_isInline hinline
  rw [append_assoc]
  exact (cut_of_shows hs (.same (Text.sameAhead_semicolon 3 more after)) hcut hcomment hcontinuation).read

namespace Scanner

variable {s s' u : Scanner} {past ahead : Text} {t : Token} {ts : List Token}

/-- The two read the same text alike, wherever they stand. -/
structure Alike (s u : Scanner) : Prop where
  brackets : u.brackets.map (·.1) = s.brackets.map (·.1)
  startsStatement : u.startsStatement = s.startsStatement
  previous : u.previous = s.previous

theorem Alike.sees (h : s.Alike u) (past past' gap : Text) :
    Lexeme.SameState (s.sees past gap) (u.sees past' gap) := by
  have hinnermost : u.brackets.head?.map (·.1) = s.brackets.head?.map (·.1) := by
    rw [← head?_map, h.brackets, head?_map]
  refine ⟨h.startsStatement, hinnermost, ?_⟩
  simp only [transposes, Scanner.sees, h.startsStatement, h.previous, hinnermost]

/-- A token that a step takes, as it is written. -/
theorem spelling_of_step (hs : s.cursor = .between past ahead) (h : step s = .ok (.item t s')) :
    ∃ (p : Spelling) (c : Char) (cs rest : Text), ahead = p.gap ++ (p.lexeme ++ rest) ∧ p.lexeme = c :: cs ∧
      (∀ c ∈ p.gap, isGap c) ∧ isGap c = false ∧
      Lexeme.read (s.sees past p.gap) c (cs ++ rest) = .ok ⟨p.kind, p.lexeme.length⟩ ∧ t = p.token past ∧
      Bracket.after (s.brackets.map (·.1)) p.kind = some (s'.brackets.map (·.1)) := by
  obtain ⟨gap, c, x, after, l, brackets, rfl, hlex, hbrackets, rfl, rfl⟩ := read_of_step hs h
  refine ⟨⟨gap, l.kind, c :: x⟩, c, x, after, rfl, rfl, hlex.blank,
    hlex.starts, ?_, rfl, Bracket.after_of_bracketsAfter hbrackets⟩
  rw [hlex.cut.read, length_cons, ← hlex.cut.length]

/-- What a run over inline tokens says about the same text in front of a semicolon. -/
structure Carries (s s' : Scanner) (past ahead : Text) (ps : List Spelling) (rest : Text) : Prop where
  text : ahead = write ps ++ rest
  cursor : s'.cursor = .between (past ++ write ps) rest
  balanced : (ps.map (·.kind)).foldlM Bracket.after (s.brackets.map (·.1)) = some (s'.brackets.map (·.1))
  blank : ∀ p ∈ ps, ∀ c ∈ p.gap, isGap c
  starts : ∀ p ∈ ps, ∃ c cs, p.lexeme = c :: cs ∧ isGap c = false
  noEnd : ∀ p ∈ ps, p.kind ≠ .eof
  carry : ∀ {u past' after}, s.Alike u → u.cursor = .between past' (ahead ++ ';' :: after) →
    ∃ u', Chain step u (Spelling.tokens past' ps) u' ∧ s'.Alike u' ∧
      u'.cursor = .between (past' ++ write ps) (rest ++ ';' :: after)

theorem carries_of_chain (h : Chain step s ts s') (hs : s.cursor = .between past ahead)
    (hinline : ∀ t ∈ ts, t.kind.isInline) :
    ∃ ps rest, ts = Spelling.tokens past ps ∧ Carries s s' past ahead ps rest := by
  induction h generalizing past ahead with
  | nil s =>
    refine ⟨[], ahead, rfl, rfl, by simpa using hs, rfl, by simp, by simp, by simp, fun hu hcursor => ?_⟩
    exact ⟨_, .nil _, hu, by simpa using hcursor⟩
  | @cons s t next ts s' hstep _ ih =>
    obtain ⟨p, c, cs, rest, rfl, hlexeme, hgap, hc, hread, rfl, hafter⟩ :=
      spelling_of_step hs hstep
    have hinline' := hinline _ mem_cons_self
    obtain ⟨-, hkind⟩ := TokenKind.isContinuation_of_isInline hinline'
    obtain ⟨next', hstep', hcursor, hbrackets, hstarts, hprevious⟩ :=
      step_spelling hs hlexeme hgap hc hread hkind hafter
    rw [hstep] at hstep'
    cases hstep'
    obtain ⟨ps, rest', rfl, hps⟩ := ih hcursor fun t ht => hinline t (mem_cons_of_mem _ ht)
    refine ⟨p :: ps, rest', rfl, ?_, ?_, ?_, ?_, ?_, ?_, fun {u past' after} hu hucursor => ?_⟩
    · rw [hps.text, write_cons, append_assoc, append_assoc]
    · rw [hps.cursor, write_cons, append_assoc, append_assoc]
    · simp only [map_cons, foldlM_cons, hafter, Option.bind_eq_bind, Option.bind_some, hps.balanced]
    · exact forall_mem_cons.2 ⟨hgap, hps.blank⟩
    · exact forall_mem_cons.2 ⟨⟨c, cs, hlexeme, hc⟩, hps.starts⟩
    · exact forall_mem_cons.2 ⟨(reads_of_read hread).kind_ne_eof, hps.noEnd⟩
    · have hucursor' : u.cursor = .between past' (p.gap ++ (p.lexeme ++ (rest ++ ';' :: after))) := by
        rw [hucursor, append_assoc, append_assoc]
      have huread := read_append after (hu.sees past past' p.gap) hread hinline'
      rw [append_assoc] at huread
      obtain ⟨u₁, hustep, hucursor₁, hubrackets, hustarts, huprevious⟩ :=
        step_spelling hucursor' hlexeme hgap hc huread hkind (hu.brackets ▸ hafter)
      have hu₁ : next.Alike u₁ :=
        ⟨hubrackets, by rw [hustarts, hstarts, hu.startsStatement], by rw [huprevious, hprevious]⟩
      obtain ⟨u', huchain, hu', hucursor''⟩ := hps.carry hu₁ hucursor₁
      refine ⟨u', .cons hustep huchain, hu', ?_⟩
      rw [hucursor'', write_cons, append_assoc, append_assoc]

end Scanner

/-! ## The tokens of a default value -/

/-- The sign between a property and its default value. -/
def Spelling.assign : Spelling := ⟨[' '], .operator .assign, ['=']⟩

theorem Scans.assign (hafter : after.head? = some ' ') :
    Scans ⟨[], false⟩ [Spelling.assign] after ⟨[], false⟩ :=
  .operator (forall_mem_singleton.2 rfl) (by decide) rfl hafter (.inr (by decide)) (by decide)

theorem Scanner.previous_of_step {t : Token}
    (hs : s.cursor = .between past ahead) (h : step s = .ok (.item t s')) : s'.previous = some t.kind := by
  obtain ⟨gap, lexeme, hidden, rest, rfl, htook⟩ := took_of_step hs h
  exact htook.previous_eq

/-- Behind `=` the scanner is in the same state wherever it stands. -/
theorem Scanner.exists_behind_assign
    (hs : s.Stands past (write [Spelling.assign] ++ after) ⟨[], false⟩) (hafter : after.head? = some ' ') :
    ∃ s', Chain step s (Spelling.tokens past [Spelling.assign]) s' ∧
      s'.Stands (past ++ write [Spelling.assign]) after ⟨[], false⟩ ∧
      s'.previous = some (.operator .assign) := by
  obtain ⟨s', hchain, hs'⟩ := Scans.assign hafter hs
  refine ⟨s', hchain, hs', ?_⟩
  cases hchain with
  | cons hstep hnil =>
    cases hnil
    exact previous_of_step hs.cursor hstep

/-- The tokens of `x = d` behind the sign: how they are scanned, and where the run over them ends. -/
theorem exists_chain_of_scan {d : Text} {tokens : List Token} (h : scan ("x = ".toList ++ d) = .ok tokens) :
    ∃ s ts s' e, s.Stands "x =".toList (' ' :: d) ⟨[], false⟩ ∧ s.previous = some (.operator .assign) ∧
      Chain Scanner.step s ts s' ∧ Scanner.step s' = .ok (.done e) ∧ (tokens.drop 2).dropLast = ts := by
  obtain ⟨ts, s', e, hchain, hdone, rfl⟩ := scan_eq_ok_iff.1 h
  have hword : Scans ⟨[], true⟩ [⟨[], .identifier ['x'], ['x']⟩]
      (write [Spelling.assign] ++ ' ' :: d) ⟨[], false⟩ :=
    .identifier (forall_mem_nil _) (by decide) (by rintro c ⟨⟩; rfl) fun _ _ => by decide +kernel
  have hstart : (Scanner.start ("x = ".toList ++ d)).Stands [] ("x = ".toList ++ d) ⟨[], true⟩ :=
    ⟨rfl, rfl, rfl⟩
  obtain ⟨s₁, hchain₁, hs₁⟩ := hword hstart
  obtain ⟨s, hchain₂, hs, hprevious⟩ := Scanner.exists_behind_assign hs₁ rfl
  obtain ⟨vs, rfl, hvs⟩ := (hchain₁.append hchain₂).exists_append hchain hdone
  refine ⟨s, vs, s', e, hs, hprevious, hvs, hdone, ?_⟩
  simp [Spelling.tokens]

/-- The tokens `p :: ps` spell a default value behind `=`. -/
structure DefaultForm.Spelled (v : DefaultForm) (p : Spelling) (ps : List Spelling) : Prop where
  gap : p.gap = [' ']
  text : p.lexeme ++ write ps = v.text
  first : Read.endsStatement p.kind = false
  inline : ∀ q ∈ p :: ps, q.kind.isInline ∧ q.kind ≠ .eof
  outer : hasOuterSeparator 0 ((p :: ps).map (·.kind)) = false
  balanced : ((p :: ps).map (·.kind)).foldlM Bracket.after [] = some []
  scans : ∀ after, ∃ b, Scans ⟨[], false⟩ (.assign :: p :: ps) (';' :: after) ⟨[], b⟩

/-- Blanks that are followed by none are cut in one way only. -/
theorem Text.gap_unique {gap gap' t t' : Text} (h : gap ++ t = gap' ++ t')
    (hgap : ∀ c ∈ gap, isGap c) (hgap' : ∀ c ∈ gap', isGap c)
    (ht : ∀ c, t.head? = some c → isGap c = false)
    (ht' : ∀ c, t'.head? = some c → isGap c = false) : gap = gap' ∧ t = t' := by
  have h₁ := takeWhile_append_stop hgap ht
  have h₂ := dropWhile_append_stop hgap ht
  rw [h, takeWhile_append_stop hgap' ht'] at h₁
  rw [h, dropWhile_append_stop hgap' ht'] at h₂
  exact ⟨h₁.symm, h₂.symm⟩

/-- A word behind a sign is no keyword, and the other kinds that end a statement are no value. -/
theorem endsStatement_first {p : Spelling} {ps : List Spelling}
    (hs : s.Stands past ahead ⟨[], false⟩) (h : Chain Scanner.step s (Spelling.tokens past (p :: ps)) s')
    (hinline : p.kind.isInline) (hend : p.kind ≠ .eof)
    (houter : hasOuterSeparator 0 ((p :: ps).map (·.kind)) = false) : Read.endsStatement p.kind = false := by
  cases h with
  | cons hstep _ =>
    obtain ⟨gap, lexeme, hidden, rest, rfl, htook⟩ := Scanner.took_of_step hs.cursor hstep
    have hreads : Reads (s.sees past gap) p.kind lexeme (hidden ++ rest) := htook.reads
    rw [map_cons] at houter
    cases hkind : p.kind with
    | keyword k =>
      rw [hkind] at hreads
      cases hreads with
      | keyword hstarts => exact absurd (hstarts.symm.trans hs.startsStatement) (by decide)
    | delimiter d =>
      cases d with
      | opening | closing => rfl
      | comma | semicolon => simp [hkind, hasOuterSeparator] at houter
    | newline | comment | blockComment | continuation => simp [hkind, TokenKind.isInline] at hinline
    | eof => exact absurd hkind hend
    | number | literal | identifier | operator => rfl

theorem DefaultForm.exists_spelled (v : DefaultForm) : ∃ p ps, v.Spelled p ps := by
  have hvalue := v.isDefault
  simp only [isDefaultValue, Bool.and_eq_true, Bool.not_eq_true'] at hvalue
  obtain ⟨⟨hhead, hlast⟩, hscan⟩ := hvalue
  cases htokens : scan ("x = ".toList ++ v.text) with
  | error e =>
    rw [htokens] at hscan
    cases hscan
  | ok tokens =>
    obtain ⟨s, ts, s', e, hs, hprevious, hchain, hdone, hts⟩ := exists_chain_of_scan htokens
    simp only [htokens, hts, Bool.and_eq_true, Bool.not_eq_true', all_map, all_eq_true,
      Function.comp_apply] at hscan
    obtain ⟨⟨hne, hinline⟩, houter⟩ := hscan
    obtain ⟨ps, rest, rfl, hps⟩ := Scanner.carries_of_chain hchain hs.cursor hinline
    obtain ⟨hrest, -, hbrackets⟩ := Scanner.ended_of_step hps.cursor hdone
    rw [map_kind_tokens] at houter hne
    obtain ⟨p, ps, rfl⟩ := exists_cons_of_ne_nil (l := ps) (by rintro rfl; simp at hne)
    obtain ⟨c, cs, hlexeme, hc⟩ := hps.starts p mem_cons_self
    have hinline' : ∀ q ∈ p :: ps, q.kind.isInline := by
      rw [← forall_mem_map (f := Spelling.kind) (P := fun k => k.isInline),
        ← map_kind_tokens "x =".toList, forall_mem_map]
      exact hinline
    obtain ⟨hgap, htext⟩ : p.gap = [' '] ∧ p.lexeme ++ (write ps ++ rest) = v.text := by
      refine Text.gap_unique ?_ (hps.blank p mem_cons_self) (forall_mem_singleton.2 rfl) ?_ ?_
      · rw [singleton_append, hps.text, write_cons, append_assoc, append_assoc]
      · rw [hlexeme]
        rintro d ⟨⟩
        exact hc
      · intro d hd
        simpa [hd] using hhead
    have hrest' : rest = [] := by
      by_contra hne'
      have hlast' : v.text.getLast? = rest.getLast? := by
        rw [← htext, ← append_assoc, getLast?_append_of_ne_nil _ hne']
      rw [hlast', getLast?_eq_some_getLast hne', Option.any_some,
        hrest _ (getLast_mem hne')] at hlast
      cases hlast
    subst hrest'
    refine ⟨p, ps,
      hgap, by rw [← htext, append_nil], ?_, ?_, houter, ?_, fun after => ⟨s'.startsStatement, ?_⟩⟩
    · exact endsStatement_first hs hchain (hinline' p mem_cons_self) (hps.noEnd p mem_cons_self) houter
    · exact fun q hq => ⟨hinline' q hq, hps.noEnd q hq⟩
    · have hbalanced := hps.balanced
      rwa [hs.brackets, hbrackets] at hbalanced
    · intro u past hu
      rw [← singleton_append, write_append, append_assoc] at hu
      obtain ⟨u₁, hchain₁, hu₁, hprevious₁⟩ := Scanner.exists_behind_assign hu (by rw [write_cons, hgap]; rfl)
      have halike : s.Alike u₁ :=
        ⟨by rw [hu₁.brackets, hs.brackets], by rw [hu₁.startsStatement, hs.startsStatement],
          by rw [hprevious₁, hprevious]⟩
      obtain ⟨u', hchain', hu', hcursor'⟩ := hps.carry halike (by rw [hps.text, append_nil]; exact hu₁.cursor)
      refine ⟨u', ?_, ?_, by rw [hu'.brackets, hbrackets]; rfl, hu'.startsStatement⟩
      · rw [← singleton_append, Spelling.tokens_append]
        exact hchain₁.append hchain'
      · rw [hcursor', append_assoc, ← write_append]
        rfl

end ClassdefDoc
