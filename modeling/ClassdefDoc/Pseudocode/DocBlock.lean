import ClassdefDoc.Documentation.DocText
import ClassdefDoc.Pseudocode.Comment
import ClassdefDoc.Pseudocode.Page

/-!
# Documentation blocks

A documentation block is a comment of the pseudo-code, `/** ... */`, with a header, the lines of the
documentation text and the notes. Each line below the header starts with a star.
-/

namespace ClassdefDoc.DocBlock

/-- One line of a block below its header. -/
def line (t : Text) : Text :=
  if Text.isBlank t then Page.line "  *" else Page.line (Text.join ["  * ", Comment.escape t])

/-- The documentation text, then the notes. -/
def body (doc : DocText) (notes : List Text) : Text :=
  Text.join [doc.lines.flatMap line,
    if doc.hasText && !notes.isEmpty then Page.line "  *" else [],
    notes.flatMap (fun note => line (Text.join ["@note ", note]))]

def close : Text := Page.line "  */"

/-- The block of a member, if there is text or a note; `trailer` are its last lines. -/
def ofMember (header : Text) (doc : DocText) (notes trailer : List Text) : Text :=
  if !doc.hasText && notes.isEmpty then []
  else Text.join [Page.line (Text.join ["/** ", Comment.escape header]), body doc notes,
    trailer.flatMap line, close]

/-- The block of a class, which is always written. -/
def ofClass (name : Text) (group : Option Text) (doc : DocText) (notes : List Text) : Text :=
  Text.join [Page.line (Text.join ["/** @class \"", name, "\""]),
    group.toList.flatMap (fun g => line (Text.join ["@ingroup ", g])), body doc notes, close]

end ClassdefDoc.DocBlock
