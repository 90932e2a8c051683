import ClassdefDoc.Class.Reader

/-!
# Attribute lists

A list in parentheses of bare names, negated names and `name = value` pairs. Lines and comments
between its parts do not matter.
-/

namespace ClassdefDoc

namespace AttributeValue

/-- The value that an expression stands for: one word by itself, anything else as it is written. -/
def ofTokens (tokens : List Token) (raw : Text) : AttributeValue :=
  match tokens with
  | [t] =>
    match t.kind with
    | .identifier w =>
      if Text.sameWord w "true" then flag true
      else if Text.sameWord w "false" then flag false
      else word w
    | .literal _ w => word w
    | _ => AttributeValue.raw raw
  | _ => AttributeValue.raw raw

end AttributeValue

namespace Read

def endsAttribute : TokenKind → Bool
  | .delimiter .comma | .delimiter (.closing .paren) => true
  | _ => false

def attributeValue (text : Text) : Read AttributeValue := do
  let tokens ← takeExpression endsAttribute
  let next ← peek
  if next.kind = .eof then refuse (.unexpectedEnd "')' closing attribute list") next.span.start
  match tokens.head?, tokens.getLast? with
  | some first, some last => pure (.ofTokens tokens (← textOf text first last))
  | _, _ => unexpected next "attribute value"

/-- One attribute with the comma behind it, or the end of the list. -/
def attributeItem? (text : Text) : Read (Option Attribute) := do
  skipLines
  if ← sees (.delimiter (.closing .paren)) then
    discard advance
    return none
  let negated ← sees (.operator .tilde)
  if negated then discard advance
  let (token, name) ← expectIdentifier "attribute name"
  skipLines
  let assigned ← sees (.operator .assign)
  let value ←
    if !negated && assigned then do
      discard advance
      skipLines
      attributeValue text
    else pure (.flag !negated)
  skipLines
  let separator ← peek
  if separator.kind = .delimiter .comma then discard advance
  else if separator.kind ≠ .delimiter (.closing .paren) then
    unexpected separator "',' or ')' in attribute list"
  pure (some ⟨name, value, token.span.start⟩)

/-- The attribute list ahead, if there is one. -/
def attributes (text : Text) : Read (List Attribute) := do
  if ← sees (.delimiter (.opening .paren)) then
    discard advance
    many (attributeItem? text)
  else pure []

end Read

end ClassdefDoc
