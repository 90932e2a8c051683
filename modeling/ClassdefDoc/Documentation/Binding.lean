import ClassdefDoc.Class.Basic
import ClassdefDoc.Diagnostic

/-!
# Binding comments to what they document

A comment block of a class documents the class, documents a member, or stays free. A block whose first
words are a tag and a name, as in `@var x`, adds to the documentation of the member of that name. Of
the others, a block that trails a declaration documents it, on the declaration's last line or on a line
of its own below; a method with a body is documented by the comment that opens its body. A block that
stands directly above a declaration documents it if nothing else does.

`Binding` gives each block its place; what a declaration's documentation is follows from the places.
-/

namespace ClassdefDoc

/-- The comment lines that document one declaration. -/
structure Documentation where
  primary : Option (List Text) := none
  /-- The blocks tagged with the declaration's name, without their tag lines. -/
  supplementary : List (List Text) := []
  deriving DecidableEq, Repr

namespace Documentation

def isEmpty (d : Documentation) : Bool := d.primary.isNone && d.supplementary.isEmpty

/-- All lines in the order in which they are read. -/
def lines (d : Documentation) : List Text := d.primary.getD [] ++ d.supplementary.flatten

end Documentation

/-- A block that names the member it is about. -/
structure DocTag where
  /-- The kind of member that is preferred. -/
  kind : BlockKind
  target : Text
  /-- The lines below the tag. -/
  lines : List Text
  deriving DecidableEq, Repr

namespace DocTag

def kindOf? (tag : Text) : Option BlockKind :=
  if tag = "@var".toList || tag = "@property".toList then some .properties
  else if tag = "@fn".toList then some .methods
  else if tag = "@event".toList then some .events
  else none

/-- The tag on the first line of a block that is not blank. -/
def ofBlock? (b : CommentBlock) : Option DocTag :=
  match b.lines.dropWhile Text.isBlank with
  | [] => none
  | first :: rest =>
    match Text.words first with
    | tag :: target :: _ => (kindOf? tag).map (⟨·, target, rest⟩)
    | _ => none

/-- The number of the member that a tag names: the first of the tag's kind, or else the first of any
kind. -/
def member? (tag : DocTag) (members : List Member) : Option Nat :=
  (members.findIdx? (fun m => m.kind == tag.kind && m.sourceName == tag.target)).or
    (members.findIdx? (fun m => m.sourceName == tag.target))

end DocTag

/-- A declaration as a place for documentation. -/
structure Site where
  header : LineRange
  hasBody : Bool
  /-- The comment that opens the body. -/
  opening : Option (List Text)
  /-- What findings call the declaration. -/
  label : Text
  deriving DecidableEq, Repr

namespace Site

/-- Whether a block trails the declaration. -/
def precedes (s : Site) (b : CommentBlock) : Bool :=
  !s.hasBody && b.firstLine == (if b.ownLine then s.header.last + 1 else s.header.last)

/-- Whether a block stands directly above the declaration. -/
def follows (s : Site) (b : CommentBlock) : Bool :=
  b.ownLine && s.header.first == b.lastLine + 1

/-- The number of the last site that a block trails. -/
def trailed? (sites : List Site) (b : CommentBlock) : Option Nat :=
  ((sites.zipIdx.filter (·.1.precedes b)).getLast?).map (·.2)

/-- The number of the first site directly below a block. -/
def headed? (sites : List Site) (b : CommentBlock) : Option Nat := sites.findIdx? (·.follows b)

def labelOf (sites : List Site) (n : Nat) : Text := (sites[n]?.map (·.label)).getD []

end Site

def Member.site (m : Member) : Site where
  header := m.header
  hasBody := m.body?.isSome
  opening := (m.body?.bind (·.doc)).map (·.lines)
  label := Text.join ["'", m.sourceName, "'"]

/-- The class itself, then its members in order. -/
def ClassDecl.sites (c : ClassDecl) : List Site :=
  ⟨c.header, false, none, Text.join ["class '", c.name, "'"]⟩ :: c.members.map (·.site)

/-- Where a comment block goes. -/
inductive Place where
  /-- The documentation of a site. -/
  | primary (site : Nat)
  /-- More documentation of a member; its lines are those below the tag. -/
  | supplement (member : Nat) (lines : List Text)
  | free
  deriving DecidableEq, Repr

/-- A block, and its place once it is known. -/
structure Placed where
  block : CommentBlock
  place : Option Place
  deriving DecidableEq, Repr

namespace Placed

/-- The place of a tagged block. -/
def byTag (members : List Member) (b : CommentBlock) : Placed × List Diagnostic :=
  match DocTag.ofBlock? b with
  | none => (⟨b, none⟩, [])
  | some tag =>
    match tag.member? members with
    | some n => (⟨b, some (.supplement n tag.lines)⟩, [])
    | none => (⟨b, some .free⟩, [⟨.unresolvedTarget tag.target, b.position, none⟩])

/-- Places the blocks that trail a site which has no documentation yet; `documented` are the numbers of
the sites that have. -/
def byTrailing (sites : List Site) (documented : List Nat) :
    List Placed → List Placed × List Nat × List Diagnostic
  | [] => ([], documented, [])
  | p :: rest =>
    match p.place, Site.trailed? sites p.block with
    | none, some n =>
      if documented.contains n then
        let (ps, docs, found) := byTrailing sites documented rest
        (p :: ps, docs, found)
      else
        let (ps, docs, found) := byTrailing sites (n :: documented) rest
        let here := match Site.headed? sites p.block with
          | some m =>
            if m = n then []
            else [⟨.trailingWins (Site.labelOf sites n) (Site.labelOf sites m), p.block.position, none⟩]
          | none => []
        (⟨p.block, some (.primary n)⟩ :: ps, docs, here ++ found)
    | _, _ =>
      let (ps, docs, found) := byTrailing sites documented rest
      (p :: ps, docs, found)

/-- Places the other blocks: above a site which has no documentation yet, or nowhere. -/
def byLeading (sites : List Site) (documented : List Nat) :
    List Placed → List (CommentBlock × Place) × List Diagnostic
  | [] => ([], [])
  | p :: rest =>
    match p.place, Site.headed? sites p.block with
    | some place, _ =>
      let (ps, found) := byLeading sites documented rest
      ((p.block, place) :: ps, found)
    | none, some n =>
      if documented.contains n then
        let (ps, found) := byLeading sites documented rest
        ((p.block, .free) :: ps,
          ⟨.leadingUnused (Site.labelOf sites n), p.block.position, none⟩ :: found)
      else
        let (ps, found) := byLeading sites (n :: documented) rest
        ((p.block, .primary n) :: ps, found)
    | none, none =>
      let (ps, found) := byLeading sites documented rest
      ((p.block, .free) :: ps, found)

end Placed

/-- The sites of a class, and the place of each of its comment blocks in file order. -/
structure Binding where
  sites : List Site
  places : List (CommentBlock × Place)
  deriving DecidableEq, Repr

namespace Binding

/-- The binding of a class's comments, and the findings on the way. -/
def ofClass (c : ClassDecl) : List Diagnostic × Binding :=
  let sites := c.sites
  let tagged := c.comments.map (Placed.byTag c.members)
  let documented := (sites.zipIdx.filter (·.1.opening.isSome)).map (·.2)
  let (trailing, documented, wins) := Placed.byTrailing sites documented (tagged.map (·.1))
  let (places, unused) := Placed.byLeading sites documented trailing
  (tagged.flatMap (·.2) ++ wins ++ unused, ⟨sites, places⟩)

/-- The block placed at a site. -/
def blockAt? (b : Binding) (site : Nat) : Option CommentBlock :=
  (b.places.find? (·.2 == .primary site)).map (·.1)

/-- The documentation of a site: what opens its body, or else the block placed there. -/
def primaryAt (b : Binding) (site : Nat) : Option (List Text) :=
  (b.sites[site]?.bind (·.opening)).or ((b.blockAt? site).map (·.lines))

/-- The documentation of the class. -/
def ofHeader (b : Binding) : Documentation := ⟨b.primaryAt 0, []⟩

/-- The documentation of a member, by its number. -/
def ofMember (b : Binding) (n : Nat) : Documentation where
  primary := b.primaryAt (n + 1)
  supplementary := b.places.filterMap fun (_, place) =>
    match place with
    | .supplement m lines => if m = n then some lines else none
    | _ => none

/-- The blocks that document nothing, in file order. -/
def free (b : Binding) : List CommentBlock := (b.places.filter (·.2 == .free)).map (·.1)

end Binding

end ClassdefDoc
