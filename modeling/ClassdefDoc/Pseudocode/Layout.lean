import ClassdefDoc.Name

/-!
# Layout of the pseudo-code

What a caller decides about the pseudo-code of a class: its group and namespaces, the banner, the label of
accessor guards and the tokens that stand where the source says nothing. `Layout.check` refuses values that
would not be read as what they stand for.
-/

namespace ClassdefDoc

/-- Tokens that stand where the source gives no type. -/
structure Placeholders where
  /-- The type of properties and parameters. -/
  typeToken : Text := "matlabtypesubstitute"
  /-- What a method without return values returns. -/
  noReturn : Text := "noret::substitute"
  /-- The template around one return value. -/
  singleReturn : Text := "mlhsInnerSubst"
  /-- The template around several return values. -/
  multiReturn : Text := "mlhsSubst"
  /-- The type of events. -/
  eventType : Text := "EVENT"
  deriving DecidableEq, Repr

structure Layout where
  /-- The documentation group of the class. -/
  group : Option Text := none
  /-- The enclosing namespaces, outermost first. -/
  namespaces : List Text := []
  banner : Bool := true
  /-- The label on the guards around accessors. -/
  guardLabel : Text := "mdoxy"
  placeholders : Placeholders := {}
  deriving DecidableEq, Repr

/-- Why a layout is refused. -/
inductive LayoutError where
  | group (found : Text)
  | «namespace» (found : Text)
  | guardLabel
  | placeholderName (field found : Text)
  | placeholderToken (field found : Text)
  deriving DecidableEq, Repr

def LayoutError.message : LayoutError → Text
  | group found => Text.join ["Group must be a single word, found '", found, "'"]
  | .namespace found => Text.join ["Namespace '", found, "' is not a valid identifier"]
  | guardLabel => "Accessor guard label must fit on one line"
  | placeholderName field found =>
    Text.join ["Placeholder ", field, " must be an identifier, found '", found, "'"]
  | placeholderToken field found =>
    Text.join ["Placeholder ", field, " must be a single token, found '", found, "'"]

/-- A word is not empty and has no white space. -/
def Text.isWord (t : Text) : Bool := !t.isEmpty && !t.any Text.isSpace

namespace Placeholders

def check (p : Placeholders) : Except LayoutError Unit := do
  for (field, value) in [(("single_return" : Text), p.singleReturn), ("multi_return", p.multiReturn),
      ("event_type", p.eventType)] do
    if !Name.isIdentifier value then throw (.placeholderName field value)
  for (field, value) in [(("type_token" : Text), p.typeToken), ("no_return", p.noReturn)] do
    if !Text.isWord value then throw (.placeholderToken field value)

end Placeholders

def Layout.check (l : Layout) : Except LayoutError Unit := do
  match l.group with
  | some group => if !Text.isWord group then throw (.group group)
  | none => pure ()
  match l.namespaces.find? (!Name.isIdentifier ·) with
  | some name => throw (.namespace name)
  | none => pure ()
  if l.guardLabel.contains '\n' then throw .guardLabel
  l.placeholders.check

end ClassdefDoc
