import ClassdefDoc.Text.Basic

/-!
# Positions and spans

A position is a line and a column, both counted from one; columns count characters. The position
`0:0` stands for "not known". A span runs from its first character to just behind its last one.
-/

namespace ClassdefDoc

structure Position where
  line : Nat
  column : Nat
  deriving DecidableEq, Repr

namespace Position

def start : Position := ⟨1, 1⟩

def unknown : Position := ⟨0, 0⟩

def isKnown (p : Position) : Bool := 0 < p.line && 0 < p.column

/-- The position behind `c`, when `c` stands at `p`. -/
def next (p : Position) (c : Char) : Position :=
  if c = '\n' then ⟨p.line + 1, 1⟩ else ⟨p.line, p.column + 1⟩

/-- The position behind `t`, when `t` starts at `p`. -/
def advance (p : Position) (t : Text) : Position := t.foldl next p

/-- Position order: by line, then by column. -/
def le (p q : Position) : Bool := p.line < q.line || (p.line == q.line && p.column ≤ q.column)

def min (p q : Position) : Position := if le p q then p else q

def max (p q : Position) : Position := if le p q then q else p

def text (p : Position) : Text := Text.join [Text.ofNat p.line, ":", Text.ofNat p.column]

@[simp] theorem advance_nil (p : Position) : p.advance [] = p := rfl

@[simp] theorem advance_cons (p : Position) (c : Char) (t : Text) :
    p.advance (c :: t) = (p.next c).advance t := rfl

theorem advance_append (p : Position) (a b : Text) :
    p.advance (a ++ b) = (p.advance a).advance b := List.foldl_append

end Position

structure Span where
  start : Position
  stop : Position
  deriving DecidableEq, Repr

namespace Span

/-- The span of one character that does not end its line. -/
def single (p : Position) : Span := ⟨p, ⟨p.line, p.column + 1⟩⟩

/-- The least span that covers both. -/
def merge (a b : Span) : Span := ⟨a.start.min b.start, a.stop.max b.stop⟩

def onOneLine (s : Span) : Bool := s.start.line == s.stop.line

def text (s : Span) : Text :=
  if s.onOneLine then s.start.text else Text.join [s.start.text, "-", s.stop.text]

end Span

end ClassdefDoc
