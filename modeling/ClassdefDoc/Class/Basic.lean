import ClassdefDoc.Name
import ClassdefDoc.Position

/-!
# Class declarations

The content of one class file: a header, blocks of properties, methods and events with their
attributes, and the comments between them. Comments are not yet bound to what they document.
-/

namespace ClassdefDoc

/-- An inclusive range of lines. -/
structure LineRange where
  first : Nat
  last : Nat
  deriving DecidableEq, Repr

/-- Consecutive comment lines, bound to a declaration as one. -/
structure CommentBlock where
  /-- The text of each line behind its `%` signs. -/
  lines : List Text
  firstLine : Nat
  lastLine : Nat
  /-- Whether no code stands before the block on its first line. -/
  ownLine : Bool
  position : Position
  deriving DecidableEq, Repr

inductive AttributeValue where
  /-- A bare or negated keyword, or `true` or `false`. -/
  | flag (b : Bool)
  /-- One word, plain or quoted. -/
  | word (w : Text)
  /-- Any other expression as it is written. -/
  | raw (t : Text)
  deriving DecidableEq, Repr

def AttributeValue.text : AttributeValue → Text
  | flag true => "true"
  | flag false => "false"
  | word w => w
  | raw t => t

structure Attribute where
  name : Text
  value : AttributeValue
  position : Position
  deriving DecidableEq, Repr

/-- A part of a method body. -/
inductive BodyPiece where
  | code (t : Text)
  | comment (lines : List Text)
  /-- A literal by its decoded value. -/
  | literal (value : Text)
  deriving DecidableEq, Repr

/-- A method body between its signature and its closing `end`. -/
structure Body where
  /-- The comment that opens the body and documents the method. -/
  doc : Option CommentBlock
  pieces : List BodyPiece
  deriving DecidableEq, Repr

inductive AccessorKind where
  | get | set
  deriving DecidableEq, Repr

def AccessorKind.word : AccessorKind → Text
  | get => "get"
  | set => "set"

/-- The property that an accessor method serves. -/
structure Accessor where
  kind : AccessorKind
  property : Text
  deriving DecidableEq, Repr

structure Method where
  params : List Text
  returns : List Text
  /-- Abstract methods and prototypes have no body. -/
  body : Option Body
  isAbstract : Bool
  accessor : Option Accessor
  deriving DecidableEq, Repr

/-- What a member is. -/
inductive Detail where
  | property (type : Option DottedName) (value : Option Text)
  | method (m : Method)
  | event
  deriving DecidableEq, Repr

structure Member where
  /-- The name; for an accessor that of its property. -/
  name : Text
  detail : Detail
  /-- The lines of the declaring statement, the signature for methods. -/
  header : LineRange
  position : Position
  deriving DecidableEq, Repr

/-- The kinds of blocks, and of their members. -/
inductive BlockKind where
  | properties | methods | events
  deriving DecidableEq, Repr

def BlockKind.word : BlockKind → Text
  | properties => "properties"
  | methods => "methods"
  | events => "events"

def Detail.kind : Detail → BlockKind
  | property _ _ => .properties
  | method _ => .methods
  | event => .events

namespace Member

def kind (m : Member) : BlockKind := m.detail.kind

def method? (m : Member) : Option Method :=
  match m.detail with
  | .method d => some d
  | _ => none

def accessor? (m : Member) : Option Accessor := m.method?.bind (·.accessor)

def body? (m : Member) : Option Body := m.method?.bind (·.body)

/-- The name as it is written, `get.x` for an accessor. -/
def sourceName (m : Member) : Text :=
  match m.accessor? with
  | some a => Text.join [a.kind.word, ".", a.property]
  | none => m.name

end Member

structure Block where
  kind : BlockKind
  attributes : List Attribute
  members : List Member
  position : Position
  deriving DecidableEq, Repr

structure ClassDecl where
  name : Text
  superclasses : List DottedName
  attributes : List Attribute
  blocks : List Block
  /-- The comments of the class and of its blocks, in file order. -/
  comments : List CommentBlock
  /-- The lines of the header statement. -/
  header : LineRange
  position : Position
  deriving DecidableEq, Repr

namespace ClassDecl

/-- All members in file order. -/
def members (c : ClassDecl) : List Member := c.blocks.flatMap (·.members)

def hasProperty (c : ClassDecl) (name : Text) : Bool :=
  c.members.any (fun m => m.kind == .properties && m.name == name)

def isConstructor (c : ClassDecl) (m : Member) : Bool :=
  m.kind == .methods && m.accessor?.isNone && m.name == c.name

end ClassDecl

end ClassdefDoc
