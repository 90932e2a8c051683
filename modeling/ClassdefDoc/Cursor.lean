import ClassdefDoc.Position
import ClassdefDoc.Text.Bytes

/-!
# A cursor in a text

A cursor stands between two characters of a text and knows its position and its byte offset. The
text behind it is kept last character first, so that the start of the current line is near.
-/

namespace ClassdefDoc

structure Cursor where
  behind : Text
  ahead : Text
  position : Position
  offset : Nat
  deriving Repr

namespace Cursor

def ofText (t : Text) : Cursor := ⟨[], t, .start, 0⟩

def atEnd (c : Cursor) : Bool := c.ahead.isEmpty

def peek? (c : Cursor) : Option Char := c.ahead.head?

def peekSecond? (c : Cursor) : Option Char := c.ahead.tail.head?

/-- The cursor behind the next character; at the end it stays. -/
def next (c : Cursor) : Cursor :=
  match c.ahead with
  | [] => c
  | x :: xs => ⟨x :: c.behind, xs, c.position.next x, c.offset + x.utf8Size⟩

/-- The cursor `n` characters further on. -/
def advance : Nat → Cursor → Cursor
  | 0, c => c
  | n + 1, c => advance n c.next

/-- Blanks separate tokens: space, tab and carriage return. -/
def isGap (c : Char) : Bool := c == ' ' || c == '\t' || c == '\r'

/-- The number of blanks ahead. -/
def gap (c : Cursor) : Nat := (c.ahead.takeWhile isGap).length

def skipGap (c : Cursor) : Cursor := c.advance c.gap

/-- The rest of the current line. -/
def restOfLine (c : Cursor) : Text := Text.firstLine c.ahead

/-- The part of the current line behind the cursor. -/
def startOfLine (c : Cursor) : Text := (c.behind.takeWhile (· != '\n')).reverse

/-- The text behind the cursor. -/
def past (c : Cursor) : Text := c.behind.reverse

/-- The span from `start` to the cursor. -/
def spanFrom (c : Cursor) (start : Position) : Span := ⟨start, c.position⟩

end Cursor

end ClassdefDoc
