import ClassdefDoc.Class.AttributeList
import ClassdefDoc.Class.Body

/-!
# Members

Properties `name@Type = value` or `name (size) Type {checks} = value`, events, and methods with or
without a body. `get.x` and `set.x` are accessors of the property `x`.
-/

namespace ClassdefDoc

/-- What the reader of a file accepts. -/
structure Limits where
  /-- The number of constructs that may be open in a method, the method included. -/
  nesting : Nat := 256
  /-- Whether functions may follow the class. -/
  localFunctions : Bool := true
  deriving DecidableEq, Repr

namespace Read

/-! ## Properties and events -/

def endsValue : TokenKind → Bool
  | .newline | .comment _ | .blockComment _ | .delimiter .comma | .delimiter .semicolon => true
  | _ => false

/-- A default value as it is written, up to the end of its statement. -/
def defaultValue (text : Text) : Read Text := do
  let first ← peek
  if endsStatement first.kind then unexpected first "default value"
  let tokens ← takeExpression endsValue
  textOf text first (tokens.getLast?.getD first)

/-- The type that follows a property's name; sizes and checks are skipped. -/
def propertyType : Read (Option DottedName) := do
  if ← sees (.operator .atSign) then
    discard advance
    let type ← dottedName "property type"
    discard <| many do
      if ← seesIdentifier then some <$> advance else pure none
    pure (some type)
  else
    if ← sees (.delimiter (.opening .paren)) then skipGroup
    let type ← if ← seesIdentifier then some <$> dottedName "property class" else pure none
    if ← sees (.delimiter (.opening .brace)) then skipGroup
    pure type

def property (text : Text) : Read Member := do
  let (token, name) ← expectIdentifier "property name"
  let type ← propertyType
  let value ←
    if ← sees (.operator .assign) then do
      discard advance
      some <$> defaultValue text
    else pure none
  let header := ⟨token.line, ← lastLine⟩
  endStatement
  pure ⟨name, .property type value, header, token.span.start⟩

def event : Read Member := do
  let (token, name) ← expectIdentifier "event name"
  let header := ⟨token.line, ← lastLine⟩
  endStatement
  pure ⟨name, .event, header, token.span.start⟩

/-! ## Methods -/

structure Signature where
  name : Text
  accessor : Option Accessor
  params : List Text
  returns : List Text
  deriving Repr

/-- The names between here and the closing bracket `b`. Commas may be left out or doubled; `ignored`
says that `~` is a name too. -/
def names (b : Bracket) (ignored : Bool) (what : Text) : Read (List Text) := do
  let found ← many do
    skipLines
    let t ← peek
    match t.kind with
    | .delimiter .comma => discard advance; pure (some none)
    | .identifier name => discard advance; pure (some (some name))
    | .operator .tilde =>
      if ignored then do discard advance; pure (some (some ['~'])) else unexpected t what
    | k => if k = .delimiter (.closing b) then do discard advance; pure none else unexpected t what
  pure (found.filterMap id)

/-- `[a, b] =` or `a =` before a method's name. -/
def returnNames : Read (List Text) := do
  if ← sees (.delimiter (.opening .square)) then
    discard advance
    let names ← names .square false "return value name or ']'"
    expect (.operator .assign) "'=' after return values"
    pure names
  else if (← peekSecond).kind = .operator .assign then
    let (_, name) ← expectIdentifier "return value name"
    discard advance
    pure [name]
  else pure []

def accessorOf : List Text → Option Accessor
  | [word, property] =>
    if word = AccessorKind.get.word then some ⟨.get, property⟩
    else if word = AccessorKind.set.word then some ⟨.set, property⟩
    else none
  | _ => none

def signature : Read Signature := do
  let returns ← returnNames
  let (_, first) ← expectIdentifier "function name"
  let rest ← many do
    if ← sees (.operator .dot) then
      discard advance
      let (_, segment) ← expectIdentifier "name after '.'"
      pure (some segment)
    else pure none
  let accessor := accessorOf (first :: rest)
  let name := (accessor.map (·.property)).getD (Text.joinWith "." (first :: rest))
  let params ←
    if ← sees (.delimiter (.opening .paren)) then do
      discard advance
      names .paren true "parameter name or ')'"
    else pure []
  pure ⟨name, accessor, params, returns⟩

def methodOf (s : Signature) (body : Option Body) (isAbstract : Bool) (header : LineRange)
    (first : Token) : Member :=
  ⟨s.name, .method ⟨s.params, s.returns, body, isAbstract, s.accessor⟩, header, first.span.start⟩

/-- A method that starts with `function`; in an abstract block it has no body. -/
def functionMember (limits : Limits) (text : Text) (isAbstract : Bool) : Read Member := do
  let first ← advance
  let s ← signature
  let header := ⟨first.line, ← lastLine⟩
  endHeader
  let body ← if isAbstract then pure none else some <$> body limits.nesting text s.name
  pure (methodOf s body isAbstract header first)

/-- A method that is declared by its signature alone. -/
def prototype (isAbstract : Bool) : Read Member := do
  let first ← peek
  let s ← signature
  let header := ⟨first.line, ← lastLine⟩
  endStatement
  pure (methodOf s none isAbstract header first)

end Read

end ClassdefDoc
