import ClassdefDoc.Token.Basic

/-!
# Faults

What can be wrong with a class file. A `Fault` is a cause and a position; its wording is
`Cause.message` and its class is `Cause.kind`. A `SourceError` is the form in which a fault leaves the
library: with the name of the file and the line it stands on, if they are known.
-/

namespace ClassdefDoc

/-- The kinds of errors, as they are reported. -/
inductive ErrorKind where
  | unterminatedString | unterminatedComment | unbalancedBracket | unexpectedToken | unexpectedEof
  | unrecognizedBlock | unsupportedConstruct | invalidAccessor | unknownAccessorTarget
  deriving DecidableEq, Repr

/-- Errors of the text, of the grammar, and of grammar that is known but not handled. -/
inductive ErrorCategory where
  | lexical | grammatical | unsupported
  deriving DecidableEq, Repr

namespace ErrorKind

def all : List ErrorKind :=
  [unterminatedString, unterminatedComment, unbalancedBracket, unexpectedToken, unexpectedEof,
    unrecognizedBlock, unsupportedConstruct, invalidAccessor, unknownAccessorTarget]

def name : ErrorKind → Text
  | unterminatedString => "UnterminatedString"
  | unterminatedComment => "UnterminatedComment"
  | unbalancedBracket => "UnbalancedBracket"
  | unexpectedToken => "UnexpectedToken"
  | unexpectedEof => "UnexpectedEof"
  | unrecognizedBlock => "UnrecognizedBlock"
  | unsupportedConstruct => "UnsupportedConstruct"
  | invalidAccessor => "InvalidAccessor"
  | unknownAccessorTarget => "UnknownAccessorTarget"

def ofName? (n : Text) : Option ErrorKind := all.find? (·.name == n)

def text : ErrorKind → Text
  | unterminatedString => "Unterminated string"
  | unterminatedComment => "Unterminated comment"
  | unbalancedBracket => "Unbalanced bracket"
  | unexpectedToken => "Unexpected token"
  | unexpectedEof => "Unexpected end of file"
  | unrecognizedBlock => "Unrecognized block keyword"
  | unsupportedConstruct => "Unsupported construct"
  | invalidAccessor => "Invalid accessor signature"
  | unknownAccessorTarget => "Accessor for undeclared property"

/-- A longer text for the two kinds whose short text names only half of the thing. -/
def description : ErrorKind → Text
  | unterminatedString => "Unterminated string literal"
  | unterminatedComment => "Unterminated block comment"
  | k => k.text

def code : ErrorKind → Text
  | unterminatedString => "E001"
  | unterminatedComment => "E002"
  | unbalancedBracket => "E003"
  | unexpectedToken => "E004"
  | unexpectedEof => "E005"
  | unrecognizedBlock => "E006"
  | unsupportedConstruct => "E007"
  | invalidAccessor => "E008"
  | unknownAccessorTarget => "E009"

def category : ErrorKind → ErrorCategory
  | unterminatedString | unterminatedComment => .lexical
  | unsupportedConstruct => .unsupported
  | _ => .grammatical

end ErrorKind

def ErrorCategory.name : ErrorCategory → Text
  | lexical => "LexError"
  | grammatical => "SyntaxError"
  | unsupported => "UnsupportedConstructError"

/-- How a list of tokens can fail to belong to a text. -/
inductive Breach where
  /-- The tokens stop before an end-of-file token. -/
  | tokens
  /-- Two offsets do not enclose a part of the text. -/
  | slice
  /-- A bracket closes where none is open. -/
  | depth
  deriving DecidableEq, Repr

/-- Why a text is refused. -/
inductive Cause where
  | unterminatedLiteral (quote : Quote)
  | unterminatedComment
  | unclosed (b : Bracket)
  | mismatched (closing opened : Bracket) (openedAt : Position)
  | unmatched (b : Bracket)
  | unexpected (found : Text) (expected : Option Text)
  | unexpectedEnd (expected : Text)
  | unrecognizedBlock (word : Text)
  | unsupported (construct : Text)
  /-- An accessor that takes `found` parameters beside the object instead of `wanted`. -/
  | accessorParameters (accessor : Text) (wanted found : Nat)
  | accessorTarget (accessor property : Text)
  | notBoolean (key value : Text)
  | notAccess (key value : Text)
  | unknownAccess (key level : Text)
  /-- The tokens do not belong to the text. -/
  | broken (b : Breach)
  deriving DecidableEq, Repr

namespace Cause

def kind : Cause → ErrorKind
  | unterminatedLiteral _ => .unterminatedString
  | unterminatedComment => .unterminatedComment
  | unclosed _ | mismatched _ _ _ | unmatched _ => .unbalancedBracket
  | unexpected _ _ | notBoolean _ _ | notAccess _ _ | unknownAccess _ _ => .unexpectedToken
  | unexpectedEnd _ | broken _ => .unexpectedEof
  | unrecognizedBlock _ => .unrecognizedBlock
  | unsupported _ => .unsupportedConstruct
  | accessorParameters _ _ _ => .invalidAccessor
  | accessorTarget _ _ => .unknownAccessorTarget

def message : Cause → Text
  | unterminatedLiteral .double => "unterminated string literal"
  | unterminatedLiteral .single => "unterminated character literal"
  | unterminatedComment => "unterminated block comment"
  | unclosed b => Text.join ["unclosed '", [b.opener], "' at end of file"]
  | mismatched c o p =>
    Text.join ["'", [c.closer], "' does not close '", [o.opener], "' opened at ", p.text]
  | unmatched b => Text.join ["unmatched '", [b.closer], "'"]
  | unexpected found (some expected) => Text.join ["found '", found, "', expected ", expected]
  | unexpected found none => Text.join ["unexpected token '", found, "'"]
  | unexpectedEnd expected => Text.join ["unexpected end of file, expected ", expected]
  | unrecognizedBlock word => Text.join ["unrecognized block keyword '", word, "'"]
  | unsupported construct => Text.join [construct, " is not supported"]
  | accessorParameters accessor wanted found =>
    Text.join ["accessor '", accessor, "' must take the object and ", Text.ofNat wanted,
      if wanted = 1 then " parameter" else " parameters", ", found ", Text.ofNat found]
  | accessorTarget accessor property =>
    Text.join ["accessor '", accessor, "' refers to undeclared property '", property, "'"]
  | notBoolean key value =>
    Text.join ["attribute '", key, "' expects true or false, found '", value, "'"]
  | notAccess key value =>
    Text.join ["invalid value '", value, "' for attribute '", key, "'"]
  | unknownAccess key level =>
    Text.join ["invalid access level '", level, "' for attribute '", key, "'"]
  | broken .tokens => "the tokens stop before the end of file"
  | broken .slice => "the tokens do not lie in the text"
  | broken .depth => "the tokens close a bracket that is not open"

end Cause

structure Fault where
  cause : Cause
  position : Position
  deriving DecidableEq, Repr

/-- An error as it is reported. -/
structure SourceError where
  kind : ErrorKind
  position : Position
  message : Text
  context : Option Text := none
  file : Option Text := none
  deriving DecidableEq, Repr

/-- The path shown for a text that has none. -/
def anonymousPath : Text := "<input>"

namespace SourceError

/-- `path:line:column: message`. -/
def text (e : SourceError) : Text :=
  Text.join [e.file.getD anonymousPath, ":", e.position.text, ": ", e.message]

def userMessage (e : SourceError) : Text :=
  Text.join [e.kind.description, " at line ", Text.ofNat e.position.line, ", column ",
    Text.ofNat e.position.column, ": ", e.message]

def debugMessage (e : SourceError) : Text :=
  Text.join ["[", e.kind.code, "] ", e.kind.description, " at ", e.position.text, ": ", e.message,
    match e.context with
    | none => []
    | some c => Text.join ["\nContext: ", c]]

end SourceError

namespace Fault

/-- The error of a text that has no file. -/
def toError (f : Fault) : SourceError := ⟨f.cause.kind, f.position, f.cause.message, none, none⟩

end Fault

end ClassdefDoc
