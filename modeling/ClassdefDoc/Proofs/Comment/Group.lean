import ClassdefDoc.Proofs.Parse.Course

/-!
# Comment blocks

Joining comments into blocks keeps all their lines in order (`LooseComment.flatMap_lines_group`),
and each block starts where the first of its comments does (`LooseComment.starts_group`).
-/

namespace ClassdefDoc

open List

namespace LooseComment

/-! ## Lines -/

theorem flatMap_lines_ofToken? (ts : List Token) :
    (ts.filterMap ofToken?).flatMap (·.block.lines) = ts.flatMap (·.kind.commentLines) := by
  induction ts with
  | nil => rfl
  | cons t ts ih =>
    rw [filterMap_cons, flatMap_cons, ← ih]
    cases hk : t.kind <;> simp [ofToken?, hk, TokenKind.commentLines]

/-! ## Starts -/

/-- The line and the position at which a block starts. -/
abbrev start (b : CommentBlock) : Nat × Position := (b.firstLine, b.position)

theorem starts_groupFrom (current : CommentBlock) (delimited : Bool) (cs : List LooseComment) :
    ((groupFrom current delimited cs).map start).Sublist (start current :: cs.map (start ·.block)) := by
  induction cs generalizing current delimited with
  | nil => exact .refl _
  | cons c cs ih =>
    rw [groupFrom]
    split_ifs with hjoins
    · -- the joined comment does not start a block
      refine (ih _ _).trans ?_
      exact List.Sublist.cons_cons _ (sublist_cons_self _ _)
    · exact (ih _ _).cons_cons _

/-- The blocks start where some of the comments do, in the same order. -/
theorem starts_group (cs : List LooseComment) : ((group cs).map start).Sublist (cs.map (start ·.block)) := by
  cases cs with
  | nil => exact .refl _
  | cons c cs => exact starts_groupFrom _ _ _

/-- Where a token starts that is a comment. -/
def tokenStart? (t : Token) : Option (Nat × Position) :=
  if t.kind.isComment then some (t.line, t.span.start) else none

theorem tokenStart?_eq_some_iff {t : Token} {x : Nat × Position} :
    tokenStart? t = some x ↔ t.kind.isComment ∧ (t.line, t.span.start) = x := by
  unfold tokenStart?
  split_ifs with h <;> simp [h]

theorem map_start_ofToken? (ts : List Token) :
    (ts.filterMap ofToken?).map (start ·.block) = ts.filterMap tokenStart? := by
  rw [map_filterMap]
  congr 1
  funext t
  cases hk : t.kind <;> simp [ofToken?, tokenStart?, hk, TokenKind.isComment, Token.line]

end LooseComment

end ClassdefDoc
