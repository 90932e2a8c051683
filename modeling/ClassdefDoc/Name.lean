import ClassdefDoc.Text.Basic

/-!
# Names

An identifier starts with an ASCII letter and goes on with ASCII letters, digits and underscores. A
dotted name such as `pkg.sub.Type` is a list of segments; the pseudo-code writes it with a scope mark
before each segment, `::pkg::sub::Type`.
-/

namespace ClassdefDoc

namespace Name

def isStart (c : Char) : Bool := c.isAlpha

def isContinue (c : Char) : Bool := c.isAlphanum || c == '_'

def isIdentifier : Text → Bool
  | [] => false
  | c :: cs => isStart c && cs.all isContinue

/-- The non-empty segments between dots. -/
def segments (dotted : Text) : List Text := (Text.split '.' dotted).filter (· != [])

/-- A dotted text in scope notation. -/
def qualify (dotted : Text) : Text := (segments dotted).flatMap (fun s => "::".toList ++ s)

end Name

/-- A dotted name by its segments. -/
structure DottedName where
  segments : List Text
  deriving DecidableEq, Repr

namespace DottedName

def ofText (dotted : Text) : DottedName := ⟨Name.segments dotted⟩

def dotted (n : DottedName) : Text := Text.joinWith "." n.segments

def qualified (n : DottedName) : Text := Name.qualify n.dotted

def isEmpty (n : DottedName) : Bool := n.segments.isEmpty

end DottedName

end ClassdefDoc
