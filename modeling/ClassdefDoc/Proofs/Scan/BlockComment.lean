import ClassdefDoc.Proofs.Text
import ClassdefDoc.Token.Lexeme

/-!
# Block comments

A text is its first line and its other lines, each behind a line end (`Text.exists_lines`). A block comment
is a line that opens it, lines in which inner blocks are closed, and a line that closes it;
`readBlockComment_eq_ok_iff` says that these lines are read and that what stands behind them does not matter.
-/

namespace ClassdefDoc

open List Text

namespace Text

/-- The lines, each behind a line end. -/
def onLines (ls : List Text) : Text := ls.flatMap ('\n' :: ·)

@[simp] theorem onLines_nil : onLines [] = [] := rfl

@[simp] theorem onLines_cons (l : Text) (ls : List Text) :
    onLines (l :: ls) = '\n' :: (l ++ onLines ls) := rfl

@[simp] theorem onLines_append (ls ls' : List Text) : onLines (ls ++ ls') = onLines ls ++ onLines ls' :=
  flatMap_append

theorem atLineEnd_onLines (ls : List Text) : AtLineEnd (onLines ls) := by
  intro c hc
  cases ls with
  | nil => cases hc
  | cons l ls => exact (Option.some.inj hc).symm

theorem exists_lines (t : Text) :
    ∃ first rest, t = first ++ onLines rest ∧ ∀ l ∈ first :: rest, '\n' ∉ l := by
  induction t with
  | nil => exact ⟨[], [], rfl, by simp⟩
  | cons c t ih =>
    obtain ⟨first, rest, rfl, hlines⟩ := ih
    by_cases hc : c = '\n'
    · exact ⟨[], first :: rest, by rw [hc]; rfl, forall_mem_cons.2 ⟨not_mem_nil, hlines⟩⟩
    · obtain ⟨hfirst, hrest⟩ := forall_mem_cons.1 hlines
      exact ⟨c :: first, rest, rfl, forall_mem_cons.2
        ⟨not_mem_cons_of_ne_of_not_mem (Ne.symm hc) hfirst, hrest⟩⟩

theorem split_onLines {first : Text} {rest : List Text} (h : ∀ l ∈ first :: rest, '\n' ∉ l) :
    split '\n' (first ++ onLines rest) = first :: rest := by
  induction rest generalizing first with
  | nil => rw [onLines_nil, append_nil, split_of_notMem (h first mem_cons_self)]
  | cons l rest ih =>
    obtain ⟨hfirst, hrest⟩ := forall_mem_cons.1 h
    rw [onLines_cons, split_append_sep, split_of_notMem hfirst, ih hrest]
    rfl

end Text

namespace Lexeme

/-- Behind `nested` lines that open a block, `closing` is the first line
that closes more than `lines` open. -/
inductive Closes : Nat → List Text → Text → Prop
  | stop {closing} : opensBlock closing = false → closesBlock closing → Closes 0 [] closing
  | opening {n line lines closing} : opensBlock line → Closes (n + 1) lines closing →
    Closes n (line :: lines) closing
  | inner {n line lines closing} : opensBlock line = false → closesBlock line → Closes n lines closing →
    Closes (n + 1) (line :: lines) closing
  | text {n line lines closing} : opensBlock line = false → closesBlock line = false →
    Closes n lines closing →
    Closes n (line :: lines) closing

variable {nested : Nat} {lines : List Text}

theorem blockLines_append {closing : Text} (h : Closes nested lines closing) (more : List Text) :
    blockLines nested (lines ++ closing :: more) = some (lines,
      (Text.onLines lines).length + closing.length) := by
  induction h with
  | stop hopens hcloses => simp [blockLines, hopens, hcloses]
  | opening hopens _ ih =>
    simp only [cons_append, blockLines, hopens, if_true, ih, Option.map_some, Text.onLines_cons,
      length_cons, length_append, Option.some.injEq, Prod.mk.injEq, true_and]
    omega
  | inner hopens hcloses _ ih | text hopens hcloses _ ih =>
    simp only [cons_append, blockLines, hopens, hcloses, Bool.false_eq_true,
      if_true, if_false, ih, Option.map_some, Text.onLines_cons,
      length_cons, length_append, Option.some.injEq, Prod.mk.injEq, true_and]
    omega

/-- The lines of a block end with the line that closes it. -/
theorem exists_closing {ls : List Text} {n : Nat} (h : blockLines nested ls = some (lines, n)) :
    ∃ closing more, ls = lines ++ closing :: more ∧ Closes nested lines closing ∧
      n = (Text.onLines lines).length + closing.length := by
  induction ls generalizing nested lines n with
  | nil => cases h
  | cons line ls ih =>
    -- the line is kept, and the block is closed further down
    have kept {m : Nat} (h : (blockLines m ls).map (fun r => (line :: r.1, line.length + 1 + r.2)) =
        some (lines, n)) :
        ∃ lines' closing more, lines = line :: lines' ∧ line :: ls = lines ++ closing :: more ∧
          Closes m lines' closing ∧ n = (Text.onLines lines).length + closing.length := by
      obtain ⟨⟨lines', n'⟩, hrest, heq⟩ := Option.map_eq_some_iff.1 h
      obtain ⟨closing, more, rfl, hcloses, rfl⟩ := ih hrest
      cases heq
      refine ⟨lines', closing, more, rfl, rfl, hcloses, ?_⟩
      simp only [Text.onLines_cons, length_cons, length_append]
      omega
    rw [blockLines.eq_def] at h
    dsimp only at h
    by_cases hopens : opensBlock line
    · rw [if_pos hopens] at h
      obtain ⟨lines', closing, more, rfl, hls, hcloses, hn⟩ := kept h
      exact ⟨closing, more, hls, .opening hopens hcloses, hn⟩
    rw [if_neg hopens] at h
    rw [Bool.not_eq_true] at hopens
    by_cases hcloses : closesBlock line
    · rw [if_pos hcloses] at h
      cases nested with
      | zero =>
        cases h
        exact ⟨line, ls, rfl, .stop hopens hcloses, (Nat.zero_add _).symm⟩
      | succ m =>
        obtain ⟨lines', closing, more, rfl, hls, hrest, hn⟩ := kept h
        exact ⟨closing, more, hls, .inner hopens hcloses hrest, hn⟩
    · rw [if_neg hcloses] at h
      rw [Bool.not_eq_true] at hcloses
      obtain ⟨lines', closing, more, rfl, hls, hrest, hn⟩ := kept h
      exact ⟨closing, more, hls, .text hopens hcloses hrest, hn⟩

/-- A block comment is read up to the end of the line that closes it, whatever stands behind it. -/
theorem readBlockComment_eq_ok_iff {text : Text} {l : Lexeme} :
    readBlockComment text = .ok l ↔ ∃ first lines closing more,
      text = first ++ Text.onLines (lines ++ closing :: more) ∧
      (∀ l ∈ first :: (lines ++ closing :: more), '\n' ∉ l) ∧
        Closes 0 lines closing ∧
        l = ⟨.blockComment lines, (first ++ Text.onLines (lines ++ [closing])).length⟩ := by
  obtain ⟨first, rest, rfl, hlines⟩ := exists_lines text
  simp only [readBlockComment, split_onLines hlines]
  constructor
  · intro h
    split at h
    · rename_i lines n hblock
      obtain ⟨closing, more, rfl, hcloses, rfl⟩ := exists_closing hblock
      cases h
      refine ⟨first, lines, closing, more, rfl, hlines, hcloses, ?_⟩
      simp only [onLines_append, Text.onLines_cons, Text.onLines_nil, append_nil, length_append,
        length_cons]
      congr 1
      omega
    · cases h
  · rintro ⟨first', lines, closing, more, htext, hlines', hcloses, rfl⟩
    have hsplit := split_onLines hlines
    rw [htext, split_onLines hlines', List.cons.injEq] at hsplit
    obtain ⟨rfl, rfl⟩ := hsplit
    rw [blockLines_append hcloses]
    simp only [onLines_append, Text.onLines_cons, Text.onLines_nil, append_nil, length_append,
      length_cons]
    congr 2
    omega

end Lexeme

end ClassdefDoc
