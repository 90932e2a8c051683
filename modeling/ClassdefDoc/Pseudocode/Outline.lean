import ClassdefDoc.Pseudocode.Entry

/-!
# Outline of the pseudo-code

An `Outline` is the list of items that make up the pseudo-code of a class, in order. Members stay in file
order. A region marker stands before a member whose region differs from that of the member before it, and
free comments stand where they stand in the source.
-/

namespace ClassdefDoc

/-- The head of a class. -/
structure ClassHead where
  name : Text
  superclasses : List DottedName
  doc : DocText
  notes : List Text
  deriving DecidableEq, Repr

inductive OutlineItem where
  | banner
  /-- A comment that documents nothing. -/
  | remark (b : CommentBlock)
  | openNamespace (name : Text)
  | head (h : ClassHead)
  | region (r : Region)
  | entry (e : Entry)
  | closeClass
  | closeNamespace
  deriving DecidableEq, Repr

abbrev Outline := List OutlineItem

namespace Outline

/-- The comments that start above a line. -/
def remarksAbove (line : Nat) (free : List CommentBlock) : Outline :=
  (free.takeWhile (·.firstLine < line)).map .remark

def dropAbove (line : Nat) (free : List CommentBlock) : List CommentBlock :=
  free.dropWhile (·.firstLine < line)

/-- The members with the comments between them; `region` is that of the member before. -/
def members (region : Option Region) (free : List CommentBlock) : List Entry → Outline
  | [] => free.map .remark
  | e :: rest =>
    let line := e.member.header.first
    let here := e.attributes.region
    remarksAbove line free ++ (if region = some here then [] else [.region here]) ++
      .entry e :: members (some here) (dropAbove line free) rest

/-- The outline of a class whose header starts on line `line`. -/
def ofClass (l : Layout) (line : Nat) (head : ClassHead) (entries : List Entry)
    (free : List CommentBlock) : Outline :=
  (if l.banner then [.banner] else []) ++ remarksAbove line free ++
    l.namespaces.map .openNamespace ++ .head head :: members none (dropAbove line free) entries ++
    .closeClass :: l.namespaces.map (fun _ => .closeNamespace)

end Outline

/-- The class header with its superclasses and documentation block. -/
def ClassHead.render (l : Layout) (h : ClassHead) : Text :=
  let header := match h.superclasses with
    | [] => Page.line (Text.join ["class ", h.name, " \x7b"])
    | first :: rest =>
      let bases := Text.join ["  :public ", first.qualified] ::
        rest.map (fun base => Text.join ["   public ", base.qualified])
      Page.line (Text.join ["class ", h.name]) ++
        Page.line (Text.join [Text.joinWith ",\n" bases, " \x7b"])
  header ++ DocBlock.ofClass h.name l.group h.doc h.notes

namespace OutlineItem

def bannerText : Text :=
  Text.join [Page.line "/* (Autoinserted by mdoxy)",
    Page.line " * This file was generated from a class definition file for the documentation generator.",
    Page.line " * It can neither be run nor compiled. Method bodies are kept for the source browser,",
    Page.line " * with comments and literals rewritten.",
    Page.line " */",
    Page.blank]

def render (l : Layout) : OutlineItem → Text
  | banner => bannerText
  | remark b => Page.line (Text.join ["  ", Comment.ofLines b.lines])
  | openNamespace name => Page.line (Text.join ["namespace ", name, " \x7b"])
  | head h => h.render l
  | region r => Text.join [Page.blank, Page.line (Text.join ["  ", r.text]), Page.blank]
  | entry e => Text.join [e.render l, Page.blank]
  | closeClass => Page.line "\x7d;"
  | closeNamespace => Page.line "\x7d"

end OutlineItem

def Outline.render (l : Layout) (o : Outline) : Text := o.flatMap (·.render l)

end ClassdefDoc
