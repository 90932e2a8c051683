import ClassdefDoc.Class.Reader

/-!
# Method bodies

A body ends at the `end` that closes its function. The comment that opens it is the documentation of
the method; the rest is cut into code, comments and literals. Code pieces are never empty and never
stand next to each other.
-/

namespace ClassdefDoc

namespace Body

/-- The tokens up to the `end` that closes the body, that `end`, and the tokens behind it; `inner`
constructs are open inside the function `name`. At most `limit` constructs may be open, the function
included. -/
def splitAtEnd (limit : Nat) (name : Text) (inner : Nat) :
    List Token → Except Fault (List Token × Token × List Token)
  | [] => .error ⟨.broken .tokens, .start⟩
  | t :: rest =>
    let keep (n : Nat) : Except Fault (List Token × Token × List Token) :=
      (splitAtEnd limit name n rest).map (fun r => (t :: r.1, r.2))
    match t.kind with
    | .eof => .error ⟨.unexpectedEnd (Text.join ["'end' closing function '", name, "'"]), t.span.start⟩
    | .keyword .close =>
      match inner with
      | 0 => .ok ([], t, rest)
      | n + 1 => keep n
    | .keyword k =>
      if k.opensConstruct then
        if limit < inner + 2 then
          .error ⟨.unsupported "nesting deeper than the configured limit", t.span.start⟩
        else keep (inner + 1)
      else keep inner
    | _ => keep inner

/-- The number of tokens up to the end of the comment that opens a body: a delimited comment, or line
comments on consecutive lines. `previous` is the line of the comment before. -/
def docLength (previous : Option Nat) : List Token → Nat
  | [] => 0
  | t :: rest =>
    match t.kind with
    | .newline | .delimiter .comma | .delimiter .semicolon =>
      match docLength previous rest with
      | 0 => 0
      | n + 1 => n + 2
    | .comment _ =>
      if previous.all (fun l => t.line == l + 1) then docLength (some t.line) rest + 1 else 0
    | .blockComment _ => if previous.isNone then 1 else 0
    | _ => 0

/-- Drops empty code and joins neighbouring code. -/
def joinCode : List BodyPiece → List BodyPiece
  | [] => []
  | .code [] :: rest => joinCode rest
  | .code t :: rest =>
    match joinCode rest with
    | .code u :: more => .code (t ++ u) :: more
    | pieces => .code t :: pieces
  | p :: rest => p :: joinCode rest

/-- What a token is replaced by in a body; most tokens are code. -/
def pieceOf (t : Token) : Option (List BodyPiece) :=
  match t.kind with
  | .comment text => some [.comment [text]]
  | .blockComment lines => some [.comment lines]
  | .literal _ value => some [.literal value]
  | .continuation text =>
    some (.code "..." :: if Text.isBlank text then [] else [.comment [text]])
  | _ => none

/-- The pieces of the text from offset `start` to offset `stop`, in which `tokens` stand. -/
def cut (text : Text) (stop start : Nat) : List Token → Option (List BodyPiece)
  | [] => do pure [.code (← Text.slice? text start stop)]
  | t :: rest =>
    match pieceOf t with
    | none => cut text stop start rest
    | some pieces => do
      let code ← Text.slice? text start t.offset
      pure (.code code :: pieces ++ (← cut text stop t.endOffset rest))

/-- The comment that opens a body, from the tokens it is made of. -/
def docOf (tokens : List Token) : Option CommentBlock :=
  (LooseComment.group (tokens.filterMap LooseComment.ofToken?)).head?

end Body

namespace Read

/-- Reads the body of the function `name` up to its `end`. -/
def body (limit : Nat) (text name : Text) : Read Body := do
  let r ← get
  let (tokens, close, rest) ← (Body.splitAtEnd limit name 0 r.ahead : Except Fault _)
  let doc := tokens.take (Body.docLength none tokens)
  let start := ((doc.getLast?.or r.last).map Token.endOffset).getD close.offset
  match Body.cut text close.offset start (tokens.drop doc.length) with
  | none => refuse (.broken .slice) close.span.start
  | some pieces =>
    set { r with ahead := rest, last := some close }
    pure ⟨Body.docOf doc, Body.joinCode pieces⟩

end Read

end ClassdefDoc
