import ClassdefDoc.Class.Member
import ClassdefDoc.Source
import ClassdefDoc.Token.Scan

/-!
# Parsing a class file

`ClassDecl.ofTokens` reads a class from its tokens and `ClassDecl.parse` from its text. A file holds
one class; functions behind it are read and dropped. Every accessor serves a declared property and
takes the object and, for `set`, one more parameter.
-/

namespace ClassdefDoc

namespace Attribute

/-- Whether an attribute is set to true. -/
def asserted (a : Attribute) : Bool :=
  match a.value with
  | .flag b => b
  | .word w => Text.sameWord w "true"
  | .raw _ => false

/-- Whether a list asserts the attribute `name` anywhere. -/
def anyAsserted (attributes : List Attribute) (name : Text) : Bool :=
  attributes.any (fun a => Text.sameWord a.name name && a.asserted)

end Attribute

namespace Read

/-- The keyword that a token stands for where a block or a member may start. There a word is a
keyword also on the line of the header before. -/
def structural? : TokenKind → Option Keyword
  | .keyword k => some k
  | .identifier w =>
    (Keyword.ofWord? w).filter
      ([.properties, .methods, .events, .enumeration, .function, .close].contains ·)
  | _ => none

/-- One member with the layout before it, or the end of the block. -/
def member? (limits : Limits) (text : Text) (kind : BlockKind) (isAbstract : Bool) :
    Read (Option Member) := do
  skipLayout true
  let t ← peek
  match structural? t.kind, t.kind, kind with
  | some .close, _, _ => discard advance; pure none
  | some .function, _, .methods => some <$> functionMember limits text isAbstract
  | _, .eof, _ =>
    refuse (.unexpectedEnd (Text.join ["'end' closing ", kind.word, " block"])) t.span.start
  | none, .identifier _, .properties => some <$> property text
  | none, .identifier _, .events => some <$> event
  | none, .identifier _, .methods => some <$> prototype isAbstract
  | none, .delimiter (.opening .square), .methods => some <$> prototype isAbstract
  | _, _, _ =>
    unexpected t (Text.join ["a member declaration or 'end' in ", kind.word, " block"])

def block (limits : Limits) (text : Text) (kind : BlockKind) : Read Block := do
  let keyword ← advance
  let attributes ← attributes text
  endHeader
  let isAbstract := kind == .methods && Attribute.anyAsserted attributes "Abstract"
  let members ← many (member? limits text kind isAbstract)
  pure ⟨kind, attributes, members, keyword.span.start⟩

/-- One block with the layout before it, or the end of the class `name`. -/
def block? (limits : Limits) (text name : Text) : Read (Option Block) := do
  skipLayout true
  let t ← peek
  match structural? t.kind, t.kind with
  | some .close, _ => discard advance; pure none
  | some .properties, _ => some <$> block limits text .properties
  | some .methods, _ => some <$> block limits text .methods
  | some .events, _ => some <$> block limits text .events
  | some .enumeration, _ => refuse (.unsupported "an enumeration block") t.span.start
  | _, .keyword k => refuse (.unrecognizedBlock k.word) t.span.start
  | _, .identifier word => refuse (.unrecognizedBlock word) t.span.start
  | _, .eof =>
    refuse (.unexpectedEnd (Text.join ["'end' closing class '", name, "'"])) t.span.start
  | _, _ => unexpected t "a block keyword"

/-- Whether the next statement starts with a plain word, so that it goes on with a list of
superclasses. -/
def wordAfterLines (tokens : List Token) : Bool :=
  match tokens.dropWhile (isLineLayout ·.kind) with
  | t :: _ => match t.kind with
    | .identifier _ => true
    | _ => false
  | [] => false

def superclass? : Read (Option DottedName) := do
  let t ← peek
  let more ← match t.kind with
    | .operator .ampersand | .delimiter .comma => discard advance; pure true
    | .newline => pure (wordAfterLines (← get).ahead)
    | _ => pure false
  if more then
    skipLayout true
    some <$> dottedName "superclass name"
  else pure none

def superclasses : Read (List DottedName) := do
  if ← sees (.operator .less) then
    discard advance
    let first ← dottedName "superclass name"
    pure (first :: (← many superclass?))
  else pure []

/-- One function behind the class, or the end of the file. -/
def localFunction? (limits : Limits) (text : Text) : Read (Option Unit) := do
  skipLayout false
  let t ← peek
  match t.kind with
  | .eof => pure none
  | .keyword .function =>
    if limits.localFunctions then do
      discard (functionMember limits text false)
      pure (some ())
    else refuse (.unsupported "a local function after the class definition") t.span.start
  | _ => unexpected t "end of file after class definition"

/-- The class of a file, with its accessors not yet checked. -/
def classFile (limits : Limits) (text : Text) : Read ClassDecl := do
  skipLayout true
  let t ← peek
  match t.kind with
  | .keyword .classdef => pure ()
  | .eof => refuse (.unsupported "a file without a class definition") t.span.start
  | _ => refuse (.unsupported "a file that does not start with 'classdef'") t.span.start
  discard advance
  let attributes ← attributes text
  let (token, name) ← expectIdentifier "class name"
  let superclasses ← superclasses
  let header := ⟨t.line, ← lastLine⟩
  endHeader
  let blocks ← many (block? limits text name)
  let comments := LooseComment.group (← get).comments
  discard (many (localFunction? limits text))
  pure ⟨name, superclasses, attributes, blocks, comments, header, token.span.start⟩

end Read

namespace ClassDecl

/-- What is wrong with a member as an accessor, if it is one. -/
def accessorFault? (c : ClassDecl) (m : Member) : Option Fault :=
  match m.detail with
  | .method ⟨params, _, _, _, some accessor⟩ =>
    let wanted := match accessor.kind with
      | .get => 0
      | .set => 1
    if !c.hasProperty accessor.property then
      some ⟨.accessorTarget m.sourceName accessor.property, m.position⟩
    else if params.length ≠ wanted + 1 then
      some ⟨.accessorParameters m.sourceName wanted (params.length - 1), m.position⟩
    else none
  | _ => none

/-- The class of a list of tokens of `text`. -/
def ofTokens (limits : Limits) (text : Text) (tokens : List Token) : Except Fault ClassDecl := do
  if tokens.getLast?.map (·.kind) ≠ some .eof then
    throw ⟨.unexpectedEnd "token stream ending in end of file", .start⟩
  let (c, _) ← (Read.classFile limits text).run ⟨tokens, none, []⟩
  match c.members.findSome? c.accessorFault? with
  | some fault => throw fault
  | none => pure c

/-- The class of a text. -/
def parse (limits : Limits) (text : Text) : Except Fault ClassDecl := do
  ofTokens limits text (← scan text)

end ClassDecl

/-- The class of a source file; an error names the file and the offending line. -/
def Source.parse (limits : Limits) (s : Source) : Except SourceError ClassDecl :=
  (ClassDecl.parse limits s.text).mapError (fun fault => s.locate fault.toError)

end ClassdefDoc
