import ClassdefDoc.Proofs.Scan.Run

/-!
# The order of tokens

Tokens start one behind another, and what follows a comment starts on a line below it, the line end apart
(`precedes_of_scan`). So the lines of declarations and comments tell their order.
-/

namespace ClassdefDoc

open List
open Position (advance_append)

namespace Position

/-- One position stands before another one: on a line above it, or on its line and to the left. -/
def Before (p q : Position) : Prop := p.line < q.line ∨ p.line = q.line ∧ p.column < q.column

variable {p q r : Position} {t : Text}

theorem Before.trans (hpq : p.Before q) (hqr : q.Before r) : p.Before r := by
  unfold Before at *
  omega

theorem Before.irrefl (p : Position) : ¬p.Before p := by
  unfold Before
  omega

theorem Before.line_le (h : p.Before q) : p.line ≤ q.line := by
  unfold Before at h
  omega

section

variable (p : Position)

theorem before_next (c : Char) : p.Before (p.next c) := by
  unfold Before next
  split_ifs
  · exact .inl (Nat.lt_succ_self _)
  · exact .inr ⟨rfl, Nat.lt_succ_self _⟩

theorem eq_or_before_advance (t : Text) : p.advance t = p ∨ p.Before (p.advance t) := by
  induction t generalizing p with
  | nil => exact .inl rfl
  | cons c t ih =>
    rw [advance_cons]
    rcases ih (p.next c) with heq | hbefore
    · exact .inr (by rw [heq]; exact before_next p c)
    · exact .inr ((before_next p c).trans hbefore)

theorem before_advance (ht : t ≠ []) : p.Before (p.advance t) := by
  cases t with
  | nil => exact absurd rfl ht
  | cons c t =>
    rw [advance_cons]
    rcases eq_or_before_advance (p.next c) t with heq | hbefore
    · rw [heq]
      exact before_next p c
    · exact (before_next p c).trans hbefore

theorem line_le_advance (t : Text) : p.line ≤ (p.advance t).line := by
  rcases eq_or_before_advance p t with heq | hbefore
  · rw [heq]
  · exact hbefore.line_le

theorem line_advance (t : Text) : (p.advance t).line = p.line + t.count '\n' := by
  induction t generalizing p with
  | nil => rfl
  | cons c t ih =>
    rw [advance_cons, ih, next, count_cons]
    split_ifs with hc hbeq hbeq
    · exact Nat.add_right_comm ..
    · exact absurd (beq_iff_eq.2 hc) hbeq
    · exact absurd (beq_iff_eq.1 hbeq) hc
    · rfl

theorem line_advance_of_notMem (h : '\n' ∉ t) : (p.advance t).line = p.line := by
  rw [line_advance, count_eq_zero_of_not_mem h, Nat.add_zero]

end

end Position

/-- The token `a` starts before `b`; if `a` is a comment and `b` is no line
end, `b` starts on a line below. -/
structure Token.Precedes (a b : Token) : Prop where
  before : a.span.start.Before b.span.start
  below : a.kind.isComment → b.kind ≠ .newline → a.span.start.line < b.span.start.line

namespace Scanner

variable {s s' : Scanner} {past ahead : Text} {t : Token} {ts : List Token}

section

variable (h : Chain step s ts s') (hs : s.cursor = .between past ahead)
include h hs

/-- The tokens of a run start at the place of the scanner or behind it. -/
theorem exists_advance_of_chain :
    ∀ t ∈ ts, ∃ skipped, t.span.start = (Position.start.advance past).advance skipped := by
  induction h generalizing past ahead with
  | nil => exact forall_mem_nil _
  | @cons s t next ts s' hstep _ ih =>
    obtain ⟨gap, lexeme, hidden, rest, rfl, htook⟩ := took_of_step hs hstep
    refine forall_mem_cons.2 ⟨⟨gap, ?_⟩, fun u hu => ?_⟩
    · rw [htook.token_eq, ← advance_append]
      rfl
    · obtain ⟨skipped, hstart⟩ := ih htook.cursor_eq u hu
      refine ⟨gap ++ lexeme ++ hidden ++ skipped, ?_⟩
      rw [hstart]
      simp only [advance_append]

/-- At a line end only that line end starts on the line. -/
theorem below_of_chain (hend : Text.AtLineEnd ahead) :
    ∀ t ∈ ts, t.kind ≠ .newline → (Position.start.advance past).line < t.span.start.line := by
  cases h with
  | nil => exact forall_mem_nil _
  | @cons _ u next ts _ hstep hchain =>
    obtain ⟨gap, lexeme, hidden, rest, rfl, htook⟩ := took_of_step hs hstep
    -- the line end is no blank, so that it is the next token
    obtain rfl : gap = [] := by
      cases gap with
      | nil => rfl
      | cons c gap =>
        have hblank := htook.blank c mem_cons_self
        rw [hend c rfl] at hblank
        exact absurd hblank (by decide)
    have hline : u.kind = .newline := by
      by_contra hkind
      obtain ⟨c, cs, hlexeme⟩ := exists_cons_of_ne_nil htook.reads.ne_nil
      have hhead := htook.reads.head?_ne_newline hkind
      rw [hlexeme] at hhead hend
      exact hhead (congrArg some (hend c rfl))
    have hcursor := htook.cursor_eq
    have hreads := htook.reads
    rw [hline] at hreads
    cases hreads
    rw [append_nil] at hcursor
    refine forall_mem_cons.2 ⟨fun hne => absurd hline hne, fun t ht _ => ?_⟩
    obtain ⟨skipped, hstart⟩ := exists_advance_of_chain hchain hcursor t ht
    have hnext : (Position.start.advance (past ++ ['\n'] ++ hidden)).line =
        ((Position.start.advance past).advance ('\n' :: hidden)).line := by
      rw [← advance_append, append_assoc]
      rfl
    calc (Position.start.advance past).line
        < ((Position.start.advance past).next '\n').line := Nat.lt_succ_self _
      _ ≤ ((Position.start.advance past).advance ('\n' :: hidden)).line := Position.line_le_advance _ hidden
      _ = (Position.start.advance (past ++ ['\n'] ++ hidden)).line := hnext.symm
      _ ≤ t.span.start.line := by rw [hstart]; exact Position.line_le_advance _ skipped

/-- A run takes tokens in their order. -/
theorem precedes_of_chain : ts.Pairwise Token.Precedes := by
  induction h generalizing past ahead with
  | nil => exact .nil
  | @cons s t next ts s' hstep hchain ih =>
    obtain ⟨gap, lexeme, hidden, rest, rfl, htook⟩ := took_of_step hs hstep
    refine .cons (fun u hu => ⟨?_, fun hcomment hline => ?_⟩) (ih htook.cursor_eq)
    · obtain ⟨skipped, hstart⟩ := exists_advance_of_chain hchain htook.cursor_eq u hu
      have hspan : t.span.start = Position.start.advance (past ++ gap) := by rw [htook.token_eq]; rfl
      rw [hspan, hstart, ← advance_append, append_assoc (past ++ gap), append_assoc (past ++ gap),
        advance_append _ (past ++ gap)]
      refine Position.before_advance _ ?_
      simp [htook.reads.ne_nil]
    · have hend : Text.AtLineEnd (hidden ++ rest) := by
        have hreads := htook.reads
        generalize t.kind = k at hcomment hreads
        cases hreads with
        | comment _ _ _ hend | blockComment _ _ hend => exact hend
        | _ => cases hcomment
      have hhidden : hidden = [] := by
        rw [htook.hides, hiddenBy, if_neg]
        cases hk : t.kind <;> simp_all [TokenKind.isComment, TokenKind.isContinuation]
      have hcursor := htook.cursor_eq
      rw [hhidden, append_nil] at hcursor
      rw [hhidden, nil_append] at hend
      have hspan : t.span.start = Position.start.advance (past ++ gap) := by rw [htook.token_eq]; rfl
      have hbelow := below_of_chain hchain hcursor hend u hu hline
      rw [advance_append _ (past ++ gap)] at hbelow
      rw [hspan]
      exact lt_of_le_of_lt (Position.line_le_advance _ lexeme) hbelow

end

end Scanner

/-- The tokens of a text stand in their order. -/
theorem precedes_of_scan {text : Text} {tokens : List Token} (h : scan text = .ok tokens) :
    tokens.Pairwise fun a b => b.kind ≠ .eof → a.Precedes b := by
  obtain ⟨ts, s, e, hchain, hdone, rfl⟩ := scan_eq_ok_iff.1 h
  obtain ⟨past, ahead, hcursor, -⟩ := (Scanner.over_start text).of_chain hchain
  have heof : e.kind = .eof := by rw [(Scanner.ended_of_step hcursor hdone).2.1]; rfl
  refine pairwise_append.2 ⟨?_, pairwise_singleton _ _, ?_⟩
  · refine (Scanner.precedes_of_chain hchain (Cursor.ofText_eq text)).imp ?_
    exact fun hprecedes _ => hprecedes
  · intro a _ b hb hkind
    rw [mem_singleton.1 hb] at hkind
    exact absurd heof hkind

end ClassdefDoc
