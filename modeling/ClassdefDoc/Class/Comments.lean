import ClassdefDoc.Class.Basic
import ClassdefDoc.Token.Basic

/-!
# Comments between declarations

Line comments on consecutive lines make one block. A comment delimited by its own lines is a block by
itself, and a comment behind code starts a new block.
-/

namespace ClassdefDoc

/-- One comment as scanned. -/
structure LooseComment where
  block : CommentBlock
  /-- Whether it stands between delimiting lines. -/
  delimited : Bool
  deriving DecidableEq, Repr

namespace LooseComment

def ofToken? (t : Token) : Option LooseComment :=
  let make (lines : List Text) (delimited : Bool) : LooseComment :=
    ⟨⟨lines, t.span.start.line, t.span.stop.line, t.leadsLine, t.span.start⟩, delimited⟩
  match t.kind with
  | .comment text => some (make [text] false)
  | .blockComment lines => some (make lines true)
  | _ => none

/-- Whether `next` goes on with the block `current`; `delimited` says that the comment before `next`
stands between delimiting lines. -/
def joins (current : CommentBlock) (delimited : Bool) (next : LooseComment) : Bool :=
  !next.delimited && !delimited && next.block.ownLine && current.lastLine + 1 == next.block.firstLine

/-- The blocks of the comments `rest`, which follow the unfinished block `current`. -/
def groupFrom (current : CommentBlock) (delimited : Bool) : List LooseComment → List CommentBlock
  | [] => [current]
  | c :: rest =>
    if joins current delimited c then
      groupFrom { current with lines := current.lines ++ c.block.lines, lastLine := c.block.lastLine }
        c.delimited rest
    else current :: groupFrom c.block c.delimited rest

/-- Joins line comments on consecutive lines into blocks. -/
def group : List LooseComment → List CommentBlock
  | [] => []
  | c :: rest => groupFrom c.block c.delimited rest

end LooseComment

end ClassdefDoc
