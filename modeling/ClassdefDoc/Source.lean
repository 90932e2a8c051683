import ClassdefDoc.Fault

/-!
# Source files

A source file is a text and the path it is known by. `Source.locate` attaches the path and the
offending line to an error.
-/

namespace ClassdefDoc

structure Source where
  path : Text
  text : Text
  deriving Repr

namespace Source

/-- Line `n` of the text, counted from one; line zero is line one. -/
def line? (s : Source) (n : Nat) : Option Text := (Text.lines s.text)[n - 1]?

/-- Attaches the path, and the line at the error's position unless the error has a context. -/
def locate (s : Source) (e : SourceError) : SourceError :=
  { e with
    file := some s.path
    context := e.context.or ((s.line? e.position.line).map Text.trimEnd) }

end Source

end ClassdefDoc
