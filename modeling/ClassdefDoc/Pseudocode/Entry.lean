import ClassdefDoc.Attributes.Resolve
import ClassdefDoc.Pseudocode.Default
import ClassdefDoc.Pseudocode.DocBlock
import ClassdefDoc.Pseudocode.Types

/-!
# Pseudo-code of members

An `Entry` is a member with all that its pseudo-code depends on. A property is written with its type and
default value, a method with its signature and body, an event as a variable of its own type. An accessor
keeps its body between guards that switch it off.

The first parameter of a method is the object, which the pseudo-code leaves out, except for static methods
and constructors.
-/

namespace ClassdefDoc

structure Entry where
  member : Member
  attributes : Resolved
  doc : DocText
  isConstructor : Bool
  /-- The note on a property that has accessors. -/
  accessorNote : Option Text
  deriving DecidableEq, Repr

/-- The note on a property that has a getter, a setter or both. -/
def ClassDecl.accessorNote? (c : ClassDecl) (property : Text) : Option Text :=
  let kinds := ((c.members.filterMap (·.accessor?)).filter (·.property == property)).map (·.kind)
  match kinds.contains .get, kinds.contains .set with
  | true, true =>
    some "This property has custom functionality when its value is retrieved or changed."
  | true, false => some "This property has custom functionality when its value is retrieved."
  | false, true => some "This property has custom functionality when its value is changed."
  | false, false => none

/-- A piece of a method body: code is kept, comments and literals are written anew. -/
def BodyPiece.render : BodyPiece → Text
  | code t => t
  | comment lines => Comment.ofLines lines
  | literal value => Quoted.quote value

/-- A method body behind its signature. -/
def Body.render (opening : Text) (b : Body) : Text :=
  Page.line (Text.join [opening, " \x7b", b.pieces.flatMap (·.render), "\x7d"])

namespace Entry

/-- The value given to a constant property that has none. -/
def emptyConstant : Text := "[]"

def isConstant (e : Entry) : Bool := e.attributes.has .constant

/-- The default value of a property as it is written. -/
def value? (e : Entry) (value : Option Text) : Option Text :=
  (value.or (if e.isConstant then some emptyConstant else none)).map Default.render

def property (p : Placeholders) (e : Entry) (type : Option DottedName) (value : Option Text) : Text :=
  let value := e.value? value
  let declaration := Text.join ["    ", if e.isConstant then "static const " else [],
    p.declaredType type e.doc.declaredType, " ", e.member.name,
    match value with
    | some v => Text.join [" = ", v]
    | none => [],
    ";"]
  Page.line declaration ++
    DocBlock.ofMember (Text.join ["@var ", e.member.name]) e.doc
      (e.attributes.notes ++ e.accessorNote.toList)
      (value.toList.map fun v => Text.join ["<br/>@b Default: ", v])

/-- The parameters that the pseudo-code shows. -/
def params (e : Entry) (m : Method) : List Text :=
  if e.attributes.has .static || e.isConstructor then m.params else m.params.drop 1

def signature (p : Placeholders) (e : Entry) (m : Method) : Text :=
  Text.join [if e.isConstructor then [] else Text.join [p.returns m.returns e.doc.types, " "],
    e.member.name, "(", p.params (e.params m) e.doc.types, ")"]

/-- The line that switches an accessor off. -/
def guard (label : Text) (e : Entry) : Text :=
  Page.line (Text.join ["#if 0 // ", label, ": '", e.member.sourceName, "'"])

def methodLines (l : Layout) (e : Entry) (m : Method) : Text :=
  let signature := e.signature l.placeholders m
  let qualifier : Text :=
    if e.attributes.has .static then "static " else if m.isAbstract then "virtual " else []
  match m.accessor, m.body with
  | some _, body =>
    Text.join [e.guard l.guardLabel,
      match body with
      | some b => b.render signature
      | none => Page.line (Text.join [signature, ";"]),
      Page.blank, Page.line "#endif"]
  | none, body =>
    let opening := Text.join ["    ", qualifier, signature]
    if m.isAbstract then Page.line (Text.join [opening, " = 0;"])
    else match body with
      | some b => b.render opening
      | none => Page.line (Text.join [opening, ";"])

def method (l : Layout) (e : Entry) (m : Method) : Text :=
  e.methodLines l m ++
    DocBlock.ofMember (Text.join ["@fn ", e.signature l.placeholders m]) e.doc e.attributes.notes []

def event (p : Placeholders) (e : Entry) : Text :=
  Page.line (Text.join ["    ", p.eventType, " ", e.member.name, ";"]) ++
    DocBlock.ofMember (Text.join ["@var ", e.member.name]) e.doc e.attributes.notes
      [Text.join ["@event ", e.member.name]]

/-- The pseudo-code of a member. -/
def render (l : Layout) (e : Entry) : Text :=
  match e.member.detail with
  | .property type value => e.property l.placeholders type value
  | .method m => e.method l m
  | .event => e.event l.placeholders

/-- The findings about a member. -/
def findings (e : Entry) : List Diagnostic :=
  match e.member.detail with
  | .property _ none =>
    if e.isConstant then [⟨.missingConstant e.member.name emptyConstant, e.member.position, none⟩]
    else []
  | .method m =>
    if m.accessor.isNone && e.doc.hasText then
      e.doc.checkParams (e.params m) e.member.name e.member.position
    else []
  | _ => []

end Entry

end ClassdefDoc
