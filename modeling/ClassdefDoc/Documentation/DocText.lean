import ClassdefDoc.Documentation.Binding
import ClassdefDoc.Documentation.Macros
import ClassdefDoc.Text.Bytes

/-!
# Documentation text

`DocText` is what the documentation of a declaration says: its lines as they are written to the
pseudo-code, the parameters it describes and the types it gives.

A heading `Parameters:` or `Return values:` opens a section, which a blank line ends. An entry of a
section is a line `name: description`, indented no deeper than the section's first entry; it becomes a
tag line, `@param name description` or `@retval name description`. A phrase `@type T` is taken out of its
line and gives the type of the entry it stands in, or outside of sections of the declaration itself.
-/

namespace ClassdefDoc

/-- What a section of documentation text lists. -/
inductive SectionKind where
  | parameters | returns
  deriving DecidableEq, Repr

namespace SectionKind

def tag : SectionKind → Text
  | parameters => "@param"
  | returns => "@retval"

end SectionKind

/-- The section that a line stands in. -/
structure Section where
  kind : SectionKind
  /-- The indentation of the first entry in bytes. -/
  indent : Option Nat := none
  /-- The name of the last entry. -/
  entry : Option Text := none
  deriving DecidableEq, Repr

namespace DocLine

/-- Whether a character spells a letter of a heading, which is given in lower case. Case does not
matter, and the long s counts as an s. -/
def spells (letter c : Char) : Bool :=
  c.toLower == letter || (letter == 's' && c.toNat == 0x17F)

/-- What follows a heading word, with the word as it is spelled. -/
def headingWord? (word t : Text) : Option (Text × Text) :=
  if word.length ≤ t.length && (word.zip t).all (fun p => spells p.1 p.2) then
    some (t.take word.length, t.drop word.length)
  else none

/-- The section that a heading opens. A heading for parameters that is spelled with a long s opens a
section of return values. -/
def heading? (line : Text) : Option SectionKind :=
  let line := Text.trimStart line
  match (headingWord? "parameters" line).or (headingWord? "return values" line) with
  | none => none
  | some (word, rest) =>
    match Text.trimStart rest with
    | ':' :: rest =>
      if !Text.isBlank rest then none
      else if Text.sameWord word "parameters" then some .parameters
      else some .returns
    | _ => none

/-- The name and the description of an entry. -/
def described? (line : Text) : Option (Text × Text) :=
  match Name.word? (Text.trimStart line) with
  | none => none
  | some (name, rest) =>
    match Text.trimStart rest with
    | ':' :: rest => if rest.contains '\n' then none else some (name, rest)
    | _ => none

/-- The parameter that a line `@param name` describes. -/
def param? (line : Text) : Option Text :=
  match Text.dropLead? "@param" (Text.trimStart line) with
  | some (c :: rest) => if Text.isSpace c then (Name.word? (Text.trimStart rest)).map (·.1) else none
  | _ => none

/-- The type of the phrase `@type T` at the start of a text, and what follows the phrase and the blanks
behind it. -/
def typeAt? (t : Text) : Option (Text × Text) :=
  match Text.dropLead? "@type" t with
  | some (c :: rest) =>
    if !Text.isSpace c then none
    else match Text.trimStart rest with
      | d :: ds =>
        if Name.startsWord d then
          some (d :: ds.takeWhile inType, Text.trimStart (ds.dropWhile inType))
        else none
      | [] => none
  | _ => none
where
  inType (c : Char) : Bool := Name.isContinue c || c == '.'

/-- The first phrase `@type T` of a text: its type and the text without the phrase. -/
def typePhrase? : Text → Option (Text × Text)
  | [] => none
  | c :: cs =>
    match typeAt? (c :: cs) with
    | some found => some found
    | none => (typePhrase? cs).map (fun p => (p.1, c :: p.2))

/-- A line without its first phrase `@type T`, and the type. -/
def takeType (line : Text) : Text × Option Text :=
  match typePhrase? line with
  | some (type, rest) => (Text.trimEnd rest, some type)
  | none => (line, none)

/-- The indentation of a line in bytes. -/
def indent (line : Text) : Nat := Text.bytes (line.takeWhile Text.isSpace)

end DocLine

/-- Types by the name of a parameter or return value. -/
abbrev TypeMap := List (Text × Text)

/-- Sets the type of a name. -/
def TypeMap.set (types : TypeMap) (name type : Text) : TypeMap :=
  (name, type) :: List.filter (·.1 != name) types

structure DocText where
  lines : List Text := []
  /-- The described parameters in order. -/
  params : List Text := []
  types : TypeMap := []
  /-- The type given outside of sections. -/
  declaredType : Option Text := none
  deriving DecidableEq, Repr

namespace DocText

/-- Whether a line is not blank. -/
def hasText (d : DocText) : Bool := d.lines.any (!Text.isBlank ·)

def addLine (d : DocText) (line : Text) : DocText := { d with lines := d.lines ++ [line] }

def setType (d : DocText) (name : Option Text) (type : Option Text) : DocText :=
  match name, type with
  | some name, some type => { d with types := d.types.set name type }
  | _, _ => d

/-- Adds an entry of a section. -/
def addEntry (d : DocText) (kind : SectionKind) (name rest : Text) : DocText :=
  let (rest, type) := DocLine.takeType rest
  let d := d.setType (some name) type
  let d := if kind = .parameters then { d with params := d.params ++ [name] } else d
  d.addLine (Text.join [kind.tag, " ", name, rest])

/-- Adds a line that stands in no section. -/
def addPlain (d : DocText) (line : Text) : DocText :=
  let (rest, type) := DocLine.takeType line
  { d with
    params := d.params ++ (DocLine.param? line).toList
    declaredType := d.declaredType.or type }.addLine rest

/-- Reads one line whose macros are expanded; the section is that of the line, and then of the next. -/
def read (state : DocText × Option Section) (line : Text) : DocText × Option Section :=
  let (d, sec) := state
  if Text.isBlank line then (d.addLine [], none)
  else match DocLine.heading? line, sec with
    | some kind, _ => (d, some { kind := kind })
    | none, none => (d.addPlain line, none)
    | none, some s =>
      let indent := DocLine.indent line
      match if indent ≤ s.indent.getD indent then DocLine.described? line else none with
      | some (name, rest) =>
        (d.addEntry s.kind name rest, some ⟨s.kind, some (s.indent.getD indent), some name⟩)
      | none =>
        let (rest, type) := DocLine.takeType line
        ((d.setType s.entry type).addLine rest, some s)

/-- Reads the lines of one comment block. -/
def readBlock (m : MacroTable) (d : DocText) (lines : List Text) : DocText :=
  ((lines.map m.expand).foldl read (d, none)).1

/-- Marks the first line that is not blank as the brief description, unless it is a tag line, and drops
the blank lines before it. -/
def markBrief (lines : List Text) : List Text :=
  match lines.dropWhile Text.isBlank with
  | [] => []
  | first :: rest =>
    if (Text.trimStart first).head? = some '@' then first :: rest
    else
      let gap : Text := if (first.head?.map Text.isSpace).getD false then [] else " "
      Text.join ["@brief", gap, first] :: rest

/-- The text of a declaration's documentation. -/
def ofDocumentation (m : MacroTable) (docs : Documentation) : DocText :=
  let first := readBlock m {} (docs.primary.getD [])
  docs.supplementary.foldl (readBlock m) { first with lines := markBrief first.lines }

/-- The findings where the described parameters and a signature disagree. Documentation that describes
no parameter is not compared. -/
def checkParams (d : DocText) (signature : List Text) (member : Text) (p : Position) :
    List Diagnostic :=
  if d.params.isEmpty then []
  else
    (d.params.filter (!signature.contains ·)).map (⟨.undeclaredParameter · member, p, none⟩) ++
      (signature.filter (fun s => s != "~".toList && !d.params.contains s)).map
        (⟨.undocumentedParameter · member, p, none⟩)

end DocText

end ClassdefDoc
