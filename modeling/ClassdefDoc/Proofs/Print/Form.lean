import ClassdefDoc.Class.Parse

/-!
# Class descriptions and their canonical text

A `ClassForm` describes a class without saying where its parts stand in a file: a name, superclasses, and
blocks of properties, events and methods with empty bodies. A form carries the conditions that make it
printable, so every form has a text, `ClassForm.print`. `ClassForm.decl` is the declaration that a form stands
for, with all positions erased as `ClassDecl.unplaced` erases them.
-/

namespace ClassdefDoc

open Text

/-! ## Words and default values -/

/-- A word that is an identifier; it may be the word of a keyword. -/
structure Word where
  text : Text
  isIdentifier : Name.isIdentifier text

/-- The name of a property or an event, which starts a statement. -/
structure MemberName extends Word where
  notKeyword : Keyword.ofWord? text = none

/-- A dotted name of one word or more. -/
structure DottedForm where
  first : Word
  rest : List Word

def DottedForm.name (n : DottedForm) : DottedName := ⟨n.first.text :: n.rest.map (·.text)⟩

/-- Whether a comma or a semicolon stands outside brackets, when `depth` brackets are open before. -/
def hasOuterSeparator (depth : Nat) : List TokenKind → Bool
  | [] => false
  | .delimiter (.opening _) :: ks => hasOuterSeparator (depth + 1) ks
  | .delimiter (.closing _) :: ks => hasOuterSeparator (depth - 1) ks
  | .delimiter .comma :: ks | .delimiter .semicolon :: ks => depth == 0 || hasOuterSeparator depth ks
  | _ :: ks => hasOuterSeparator depth ks

/-- Kinds that neither end a line nor hide one. -/
def TokenKind.isInline : TokenKind → Bool
  | newline | comment _ | blockComment _ | continuation _ => false
  | _ => true

/-- Whether a text can be written as a default value on one line: it has no blanks around it, and in
`x = d` it is one or more inline tokens with no comma or semicolon outside brackets. -/
def isDefaultValue (d : Text) : Bool :=
  !d.head?.any Cursor.isGap && !d.getLast?.any Cursor.isGap &&
    match scan ("x = ".toList ++ d) with
    | .error _ => false
    | .ok tokens =>
      let kinds := ((tokens.drop 2).dropLast).map (·.kind)
      !kinds.isEmpty && kinds.all (·.isInline) && !hasOuterSeparator 0 kinds

structure DefaultForm where
  text : Text
  isDefault : isDefaultValue text

/-! ## Attributes -/

/-- `Name`, `~Name` or `Name = word`. -/
inductive AttributeForm where
  | asserted (name : Word)
  | negated (name : Word)
  | assigned (name value : Word) (plain : sameWord value.text "true" = false ∧
      sameWord value.text "false" = false)

namespace AttributeForm

def print : AttributeForm → Text
  | asserted name => name.text
  | negated name => join ["~", name.text]
  | assigned name value _ => join [name.text, " = ", value.text]

def decl : AttributeForm → Attribute
  | asserted name => ⟨name.text, .flag true, .start⟩
  | negated name => ⟨name.text, .flag false, .start⟩
  | assigned name value _ => ⟨name.text, .word value.text, .start⟩

end AttributeForm

/-! ## Members -/

/-- A parameter of a method; `~` stands for one without a name. -/
inductive ParamForm where
  | named (name : Word)
  | ignored

def ParamForm.text : ParamForm → Text
  | named name => name.text
  | ignored => "~"

/-- A member that may stand in a block of the given kind. -/
inductive MemberForm : BlockKind → Type where
  | property (name : MemberName) (type : Option DottedForm) (value : Option DefaultForm) :
    MemberForm .properties
  | event (name : MemberName) : MemberForm .events
  | method (returns : List Word) (name : Word) (params : List ParamForm) : MemberForm .methods

namespace MemberForm

/-- A member on a line of its own; the `end` of a method stands on the next one. -/
def print {kind : BlockKind} : MemberForm kind → Text
  | property name type value =>
    join [name.text, type.elim [] fun t => join ["@", t.name.dotted],
      value.elim [] fun d => join [" = ", d.text], ";\n"]
  | event name => join [name.text, "\n"]
  | method returns name params =>
    join ["function [", joinWith "," (returns.map (·.text)), "] = ", name.text, "(",
      joinWith "," (params.map (·.text)), ")\nend\n"]

def decl {kind : BlockKind} : MemberForm kind → Member
  | property name type value =>
    ⟨name.text, .property (type.map (·.name)) (value.map (·.text)), ⟨0, 0⟩, .start⟩
  | event name => ⟨name.text, .event, ⟨0, 0⟩, .start⟩
  | method returns name params =>
    ⟨name.text, .method ⟨params.map (·.text), returns.map (·.text), some ⟨none, [.code "\n"]⟩, false, none⟩,
      ⟨0, 0⟩, .start⟩

end MemberForm

/-! ## Blocks and classes -/

structure BlockForm where
  kind : BlockKind
  attributes : List AttributeForm
  members : List (MemberForm kind)
  /-- Methods have bodies, so their block is not abstract. -/
  concrete : kind = .methods → Attribute.anyAsserted (attributes.map (·.decl)) "Abstract" = false

namespace BlockForm

def printAttributes : List AttributeForm → Text
  | [] => []
  | attributes => join [" (", joinWith ", " (attributes.map (·.print)), ")"]

def print (b : BlockForm) : Text :=
  join [b.kind.word, printAttributes b.attributes, "\n", b.members.flatMap (·.print), "end\n"]

def decl (b : BlockForm) : Block :=
  ⟨b.kind, b.attributes.map (·.decl), b.members.map (·.decl), .start⟩

end BlockForm

structure ClassForm where
  name : Word
  superclasses : List DottedForm
  blocks : List BlockForm

namespace ClassForm

def printSuperclasses : List DottedForm → Text
  | [] => []
  | names => join [" < ", joinWith " & " (names.map (·.name.dotted))]

def print (c : ClassForm) : Text :=
  join ["classdef ", c.name.text, printSuperclasses c.superclasses, "\n",
    c.blocks.flatMap (·.print), "end\n"]

def decl (c : ClassForm) : ClassDecl :=
  ⟨c.name.text, c.superclasses.map (·.name), [], c.blocks.map (·.decl), [], ⟨0, 0⟩, .start⟩

end ClassForm

/-! ## Declarations without their places -/

def Attribute.unplaced (a : Attribute) : Attribute := { a with position := .start }

/-- Whether an attribute is asserted does not depend on where it stands. -/
theorem Attribute.anyAsserted_map_unplaced (as : List Attribute) (name : Text) :
    anyAsserted (as.map (·.unplaced)) name = anyAsserted as name := by
  rw [anyAsserted, anyAsserted, List.any_map]
  rfl

def Member.unplaced (m : Member) : Member := { m with header := ⟨0, 0⟩, position := .start }

def Block.unplaced (b : Block) : Block :=
  ⟨b.kind, b.attributes.map (·.unplaced), b.members.map (·.unplaced), .start⟩

/-- A declaration with the positions and lines of its parts erased; its comments stay as they are. -/
def ClassDecl.unplaced (c : ClassDecl) : ClassDecl :=
  ⟨c.name, c.superclasses, c.attributes.map (·.unplaced), c.blocks.map (·.unplaced),
    c.comments, ⟨0, 0⟩, .start⟩

end ClassdefDoc
