import ClassdefDoc.Proofs.Scan.Run

/-!
# Scanning a text that breaks off

Where a text breaks off behind a token, the tokens up to that place stay the same: `Scanner.chain_break`
follows the run on another text behind the place, and `scan_upTo` is the scan of the part before it.
-/

namespace ClassdefDoc

open List Text Lexeme Scanner
open Cursor (isGap between_ahead ofText_eq)

variable {ts : List Token} {close : Token}

namespace Text

theorem atBreak_cons {c : Char} (hc : c ∈ breaks) (t : Text) : AtBreak (c :: t) := by
  intro d hd
  rwa [← Option.some.inj hd]

end Text

namespace Lexeme

variable {s : Surroundings} {l : Lexeme}

/-- A point that does not belong to a number in front of it starts a lexeme that shows why. -/
theorem stopsPoint_of_cut {x after : Text} (h : Cut s '.' x after l) (hstops : stopsPoint (x ++ after)) :
    stopsPoint x := by
  obtain ⟨h, hlength⟩ := h
  rcases Bool.or_eq_true_iff.1 hstops with hdots | hany
  · obtain ⟨rest', hrest⟩ := isPrefixOf_iff_prefix.1 hdots
    have hpoints : '.' :: '.' :: rest' = x ++ after := hrest
    rw [← hpoints, read_points] at h
    cases h
    have hlong : 2 ≤ x.length := by
      simp only [readContinuation] at hlength
      omega
    obtain ⟨c, d, x, rfl⟩ : ∃ c d y, x = c :: d :: y := by
      rcases x with _ | ⟨c, _ | ⟨d, y⟩⟩
      · cases hlong
      · exact absurd hlong (by simp)
      · exact ⟨c, d, y, rfl⟩
    simp only [cons_append, List.cons.injEq] at hpoints
    obtain ⟨rfl, rfl, -⟩ := hpoints
    rfl
  · obtain ⟨d, hd, hmem⟩ := (Option.any_eq_true _ _).1 hany
    obtain ⟨rest', hrest⟩ := head?_eq_some_iff.1 hd
    have hoperator : l.length = 2 := by
      rw [hrest] at h
      have hcases : d = '*' ∨ d = '/' ∨ d = '\\' ∨ d = '^' ∨ d = '\'' := by simpa using hmem
      rcases hcases with rfl | rfl | rfl | rfl | rfl <;> (cases h; rfl)
    cases x with
    | nil => cases hlength.symm.trans hoperator
    | cons c x =>
      obtain ⟨rfl, -⟩ := List.cons.inj hrest
      rw [stopsPoint, head?_cons, Option.any_some, hmem, Bool.or_true]

end Lexeme

namespace Scanner

/-- The scanner, with another text ahead. -/
def upTo (s : Scanner) (ahead : Text) : Scanner := { s with cursor := { s.cursor with ahead := ahead } }

variable {s s' next : Scanner} {past ahead x y b tail : Text} {t : Token}

theorem upTo_cursor (hs : s.cursor = .between past ahead) (a : Text) :
    (s.upTo a).cursor = .between past a := by
  rw [upTo, hs]
  rfl

theorem upTo_ahead (s : Scanner) : s.upTo s.cursor.ahead = s := rfl

/-- Tokens and what stands between them are passed. -/
theorem exists_passed_of_chain (h : Chain step s ts s') (hs : s.cursor = .between past ahead) :
    ∃ passed rest, ahead = passed ++ rest ∧ s'.cursor = .between (past ++ passed) rest ∧
      ∀ t ∈ ts, t.lexeme.length ≤ passed.length := by
  induction h generalizing past ahead with
  | nil s => exact ⟨[], ahead, rfl, by rw [hs, append_nil], forall_mem_nil _⟩
  | @cons s t next ts s' hstep _ ih =>
    obtain ⟨gap, lexeme, hidden, rest, rfl, htook⟩ := took_of_step hs hstep
    obtain ⟨passed, rest, rfl, hcursor, hlengths⟩ := ih htook.cursor_eq
    refine ⟨gap ++ lexeme ++ hidden ++ passed,
      rest, by simp, by rw [hcursor]; simp, forall_mem_cons.2 ⟨?_, ?_⟩⟩
    · rw [htook.lexeme_eq]
      simp only [length_append]
      omega
    · intro u hu
      have := hlengths u hu
      simp only [length_append]
      omega

/-- One step before a place where the text breaks off instead of going on. -/
theorem step_break (htail : Text.AtBreak tail) (hs : s.cursor = .between past (x ++ b))
    (h : step s = .ok (.item t next)) (hnext : next.cursor.ahead = y ++ b)
    (hb : b ≠ []) (hcomment : y = [] → t.kind.isComment → AtLineEnd tail)
    (hpoint : ∀ k, y = '.' :: k → stopsPoint (k ++ b) → stopsPoint k) :
    step (s.upTo (x ++ tail)) = .ok (.item t (next.upTo (y ++ tail))) := by
  obtain ⟨gap, c, lexeme, after, l, brackets, hahead, hlex, hbrackets, rfl, rfl⟩ := read_of_step hs h
  have hafter : after = hiddenBy l.kind after ++ y ++ b := by
    rw [append_assoc, ← hnext]
    exact (hiddenBy_append l.kind after).symm
  obtain ⟨kept, hkept⟩ : ∃ kept, kept = hiddenBy l.kind after ++ y := ⟨_, rfl⟩
  rw [← hkept] at hafter
  have hx : x = gap ++ c :: (lexeme ++ kept) := by
    rw [← append_left_inj b, hahead, hafter]
    simp
  -- a continuation hides a line end before the place
  have hkeeps (hline : l.kind.isContinuation) : ∃ d more, kept = d :: more := by
    refine exists_cons_of_ne_nil fun hnil => ?_
    obtain ⟨hhidden, rfl⟩ := append_eq_nil_iff.1 (hkept.symm.trans hnil)
    obtain ⟨d, more, rfl⟩ := exists_cons_of_ne_nil hb
    rw [hiddenBy, if_pos hline, hafter, hnil] at hhidden
    cases hhidden
  have hhidden : hiddenBy l.kind (kept ++ tail) = hiddenBy l.kind after := by
    cases hk : l.kind.isContinuation with
    | false => rw [hiddenBy, hiddenBy, hk, if_neg (by decide), if_neg (by decide)]
    | true =>
      obtain ⟨d, more, hmore⟩ := hkeeps hk
      simp only [hiddenBy, hk, hafter, hmore]
      rfl
  have hcut : Cut ((s.upTo (x ++ tail)).sees past gap) c lexeme (kept ++ tail) l := by
    by_cases hline : l.kind.isComment ∨ l.kind.isContinuation
    · have hend := atLineEnd_of_cut hlex.cut hline
      have hend' : AtLineEnd (kept ++ tail) := by
        cases hmore : kept with
        | cons d more =>
          rw [hafter, hmore] at hend
          exact hend
        | nil =>
          rcases hline with hline | hline
          · obtain ⟨-, hy⟩ := append_eq_nil_iff.1 (hkept.symm.trans hmore)
            exact hcomment hy hline
          · obtain ⟨d, more, hkeep⟩ := hkeeps hline
            cases hkeep.symm.trans hmore
      exact cut_of_atLineEnd (.refl _) hend' hlex.cut hline
    · obtain ⟨hcomment, hcontinuation⟩ := not_or.1 hline
      rw [Bool.not_eq_true] at hcomment hcontinuation
      have hy : kept = y := by rw [hkept, hiddenBy, hcontinuation, if_neg (by decide), nil_append]
      have hshows : Shows after (kept ++ tail) := by
        rw [hafter]
        exact .cut htail (hy ▸ hpoint)
      exact cut_of_shows (SameSight.refl _).toSameState hshows hlex.cut hcomment hcontinuation
  have hbrackets' : bracketsAfter (s.upTo (x ++ tail)).brackets l.kind
      (Position.start.advance (past ++ gap)) = .ok brackets :=
    hbrackets
  have hcursor : (s.upTo (x ++ tail)).cursor = .between past (gap ++ c :: (lexeme ++ (kept ++ tail))) := by
    rw [upTo_cursor hs, hx]
    simp
  rw [step_of_lexes ⟨hcursor, hlex.blank, hlex.starts, hcut⟩, hbrackets']
  have hdrop : (kept ++ tail).drop (hiddenBy l.kind after).length = y ++ tail := by
    rw [hkept, append_assoc, drop_left]
  simp only [Except.map, moveOn, upTo, hhidden, hdrop]
  rfl

/-- A point that is taken from a number starts a lexeme of its own, which ends before the break. -/
theorem stopsPoint_of_chain {k : Text} (h : Chain step s ts s')
    (hs : s.cursor = .between past ('.' :: k ++ b)) (hs' : s'.cursor.ahead = y ++ b)
    (hy : ∀ c ∈ y, isGap c) (hstops : stopsPoint (k ++ b)) :
    stopsPoint k := by
  cases h with
  | nil =>
    rw [hs, between_ahead] at hs'
    obtain rfl := append_cancel_right hs'
    cases hy '.' mem_cons_self
  | @cons _ t next ts _ hstep hrest =>
    obtain ⟨gap, c, lexeme, after, l, brackets, hahead, hlex, -, rfl, rfl⟩ := read_of_step hs hstep
    obtain rfl : gap = [] := by
      cases gap with
      | nil => rfl
      | cons d gap =>
        obtain ⟨rfl, -⟩ := List.cons.inj hahead
        cases hlex.blank '.' mem_cons_self
    obtain ⟨rfl, hcut⟩ := List.cons.inj hahead
    have hcut : k ++ b = lexeme ++ after := hcut
    obtain ⟨z, rest', hz, hcursor, -⟩ := exists_passed_of_chain hrest rfl
    obtain rfl : rest' = y ++ b := by rw [← hs', hcursor, between_ahead]
    -- what follows the lexeme starts before the break
    obtain ⟨more, rfl⟩ : ∃ more, after = more ++ b := by
      refine ⟨hiddenBy l.kind after ++ (z ++ y), ?_⟩
      rw [append_assoc, append_assoc, ← hz, hiddenBy_append]
    obtain rfl : k = lexeme ++ more := by
      rw [← append_assoc] at hcut
      exact append_cancel_right hcut
    rw [append_assoc] at hstops
    exact stopsPoint_append (stopsPoint_of_cut hlex.cut hstops) more

/-- The tokens up to a place are the same where the text breaks off there,
if the last one is no comment or the line ends there. -/
theorem chain_break (htail : Text.AtBreak tail) (h : Chain step s ts s')
    (hs : s.cursor = .between past (x ++ y ++ b)) (hs' : s'.cursor.ahead = y ++ b)
    (hy : ∀ c ∈ y, isGap c) (hb : b ≠ []) (hcomment : ∀ u ∈ ts.getLast?, u.kind.isComment → AtLineEnd tail) :
    Chain step (s.upTo (x ++ y ++ tail)) ts (s'.upTo (y ++ tail)) := by
  induction h generalizing past x with
  | nil s =>
    rw [hs, between_ahead] at hs'
    have hx : x = [] := by simpa using hs'
    rw [hx]
    exact .nil _
  | @cons s t next ts s' hstep hrest ih =>
    obtain ⟨gap, lexeme, hidden, rest, -, htook⟩ := took_of_step hs hstep
    obtain ⟨z, rest', hrest', hcursor, hlengths⟩ := exists_passed_of_chain hrest htook.cursor_eq
    obtain rfl : rest' = y ++ b := by rw [← hs', hcursor, between_ahead]
    rw [← append_assoc] at hrest'
    rw [hrest'] at htook
    have hnext : next.cursor.ahead = z ++ y ++ b := by rw [htook.cursor_eq, between_ahead]
    have hpoint : ∀ k, z ++ y = '.' :: k → stopsPoint (k ++ b) → stopsPoint k := by
      intro k hk
      exact stopsPoint_of_chain hrest (htook.cursor_eq.trans (by rw [hk])) hs' hy
    refine .cons (step_break htail hs hstep hnext hb (fun hy => hcomment t ?_) hpoint)
      (ih htook.cursor_eq hs' fun u hu => hcomment u ?_)
    · obtain ⟨hz, -⟩ := append_eq_nil_iff.1 hy
      cases hrest with
      | nil => rfl
      | @cons _ u _ _ _ hstep' _ =>
        obtain ⟨gap', lexeme', hidden', rest', -, htook'⟩ := took_of_step htook.cursor_eq hstep'
        have hlength := hlengths u mem_cons_self
        rw [hz, htook'.lexeme_eq] at hlength
        exact absurd (length_eq_zero_iff.1 (Nat.le_zero.1 hlength)) htook'.reads.ne_nil
    · cases ts with
      | nil => cases hu
      | cons => exact hu

end Scanner

/-- The tokens of a text up to one behind which no bracket is open are the
tokens of the text that is cut off behind it. -/
theorem scan_upTo {text : Text} {s : Scanner}
    (h : Chain Scanner.step (.start text) (ts ++ [close]) s) (hbrackets : s.brackets = [])
    (hkind : close.kind.isContinuation = false) :
    ∃ before after e, text = before ++ after ∧ close.endOffset = bytes before ∧ e.kind = .eof ∧
      scan before = .ok (ts ++ [close] ++ [e]) := by
  obtain ⟨before, after, rfl, hcursor, -⟩ := Scanner.exists_passed_of_chain h (ofText_eq text)
  rw [nil_append] at hcursor
  have hahead : s.cursor.ahead = after := by rw [hcursor, between_ahead]
  have hrun : Chain Scanner.step (.start before) (ts ++ [close]) (s.upTo []) := by
    cases after with
    | nil =>
      rw [append_nil] at h
      rwa [← hahead, upTo_ahead]
    | cons c after =>
      have hchain :=
        chain_break (x := before) (y := []) atBreak_nil h (by rw [append_nil]; exact ofText_eq _) hahead
        (forall_mem_nil _) (cons_ne_nil c after) fun _ _ _ => by rintro _ ⟨⟩
      rwa [append_nil, append_nil] at hchain
  have hdone := step_blank (Scanner.upTo_cursor hcursor []) (forall_mem_nil _) hbrackets
  refine ⟨before, after, _, rfl, ?_, rfl, scan_eq_ok_iff.2 ⟨_, _, _, hrun, hdone, rfl⟩⟩
  obtain ⟨s₁, hchain, hlast⟩ := h.of_append
  cases hlast with
  | cons hstep hnil =>
    cases hnil
    obtain ⟨past, ahead, hcursor₁, -⟩ := (over_start _).of_chain hchain
    obtain ⟨gap, lexeme, hidden, rest, -, htook⟩ := Scanner.took_of_step hcursor₁ hstep
    rw [htook.endOffset_eq, ← Cursor.between_offset before after,
      ← hcursor, htook.cursor_eq, htook.hidden_eq_nil hkind, append_nil, Cursor.between_offset]

end ClassdefDoc
