import ClassdefDoc.Diagnostic
import ClassdefDoc.Name

/-!
# Macros in documentation text

A reference `${name}` in a line of documentation stands for the replacement that a table gives for
the name. The replacement is inserted as it is and not read again. A reference to a name that the table
does not have stays and is reported.
-/

namespace ClassdefDoc

/-- Replacements by name. -/
structure MacroTable where
  entries : List (Text × Text) := []
  deriving DecidableEq, Repr

namespace MacroTable

def get? (m : MacroTable) (name : Text) : Option Text := m.entries.lookup name

def size (m : MacroTable) : Nat := m.entries.length

end MacroTable

namespace Name

/-- Words in documentation text may also start with an underscore. -/
def startsWord (c : Char) : Bool := isStart c || c == '_'

/-- The word at the start of a text, and what follows it. -/
def word? (t : Text) : Option (Text × Text) :=
  match t with
  | c :: cs => if startsWord c then some (c :: cs.takeWhile isContinue, cs.dropWhile isContinue) else none
  | [] => none

end Name

/-- A part of a line of documentation. -/
inductive LinePart where
  | plain (c : Char)
  | reference (name : Text)
  deriving DecidableEq, Repr

namespace LinePart

/-- The name of the reference at the start of a text. -/
def referenceAt? (t : Text) : Option Text :=
  match Text.dropLead? "$\x7b" t with
  | none => none
  | some rest =>
    match Name.word? rest with
    | some (name, '}' :: _) => some name
    | _ => none

/-- The parts of a text after its first `skip` characters. -/
def partsFrom : Nat → Text → List LinePart
  | _, [] => []
  | skip + 1, _ :: cs => partsFrom skip cs
  | 0, c :: cs =>
    match referenceAt? (c :: cs) with
    | some name => reference name :: partsFrom (name.length + 2) cs
    | none => plain c :: partsFrom 0 cs

/-- The parts of a line from left to right. -/
def parts (line : Text) : List LinePart := partsFrom 0 line

/-- A part as it is written. -/
def text : LinePart → Text
  | plain c => [c]
  | reference name => Text.join ["$\x7b", name, "\x7d"]

/-- A part with its reference replaced, if the table has it. -/
def expand (m : MacroTable) : LinePart → Text
  | plain c => [c]
  | reference name => (m.get? name).getD (reference name).text

/-- The name of a reference that the table does not have. -/
def unknown? (m : MacroTable) : LinePart → Option Text
  | plain _ => none
  | reference name => if (m.get? name).isNone then some name else none

end LinePart

namespace MacroTable

/-- A line with its known references replaced. -/
def expand (m : MacroTable) (line : Text) : Text := (LinePart.parts line).flatMap (·.expand m)

/-- The names of the unknown references in a line. -/
def unknown (m : MacroTable) (line : Text) : List Text := (LinePart.parts line).filterMap (·.unknown? m)

/-- One finding for each unknown reference. -/
def findings (m : MacroTable) (p : Position) (lines : List Text) : List Diagnostic :=
  (lines.flatMap m.unknown).map (⟨.unknownMacro ·, p, none⟩)

end MacroTable

end ClassdefDoc
