import ClassdefDoc.Collect
import ClassdefDoc.Cursor
import ClassdefDoc.Token.Lexeme

/-!
# Scanning

`scan` cuts a text into tokens. The scanner keeps a cursor, the open brackets with their positions,
whether the next token starts a statement, and the kind of the token before. The tokens and the blanks
between them make up the text; a continuation also hides the end of its line.
-/

namespace ClassdefDoc

structure Scanner where
  cursor : Cursor
  /-- The open brackets, innermost first, with their positions. -/
  brackets : List (Bracket × Position)
  startsStatement : Bool
  previous : Option TokenKind
  deriving Repr

namespace Scanner

def start (text : Text) : Scanner := ⟨.ofText text, [], true, none⟩

/-- The open brackets after a token of kind `k` at `p`. -/
def bracketsAfter (brackets : List (Bracket × Position)) (k : TokenKind) (p : Position) :
    Except Fault (List (Bracket × Position)) :=
  match k with
  | .delimiter (.opening b) => .ok ((b, p) :: brackets)
  | .delimiter (.closing b) =>
    match brackets with
    | [] => .error ⟨.unmatched b, p⟩
    | (o, openedAt) :: rest => if o = b then .ok rest else .error ⟨.mismatched b o openedAt, p⟩
  | _ => .ok brackets

/-- Whether the token after one of kind `k` starts a statement; `before` says whether `k` itself
stands where a statement starts, and `outside` whether no bracket is open behind it. -/
def statementAfter (before outside : Bool) : TokenKind → Bool
  | .newline => before || outside
  | .delimiter .comma | .delimiter .semicolon => outside
  | .keyword .close => true
  | .comment _ | .blockComment _ | .continuation _ | .eof => before
  | _ => false

/-- What stands before the token at `here`. -/
def surroundings (s : Scanner) (here : Cursor) (spaced : Bool) : Surroundings where
  leadsLine := Text.isBlank here.startOfLine
  startsStatement := s.startsStatement
  spaced := spaced
  previous := s.previous
  innermost := s.brackets.head?.map (·.1)

/-- The token from `here` to `there`. -/
def tokenBetween (kind : TokenKind) (spaced : Bool) (here there : Cursor) (length : Nat) : Token where
  kind := kind
  lexeme := here.ahead.take length
  span := there.spanFrom here.position
  offset := here.offset
  spaced := spaced
  leadsLine := Text.isBlank here.startOfLine

/-- Reads one token; the end of the text gives the last one. -/
def step (s : Scanner) : Except Fault (Turn Scanner Token Token) := do
  let spaced := s.cursor.gap != 0
  let here := s.cursor.skipGap
  match here.ahead with
  | [] =>
    match s.brackets with
    | [] => .ok (.done (tokenBetween .eof spaced here here 0))
    | (b, p) :: _ => .error ⟨.unclosed b, p⟩
  | c :: rest =>
    let lexeme ← (Lexeme.read (s.surroundings here spaced) c rest).mapError (⟨·, here.position⟩)
    let brackets ← bracketsAfter s.brackets lexeme.kind here.position
    let there := here.advance lexeme.length
    let next := if lexeme.kind.isContinuation then there.next else there
    .ok (.item (tokenBetween lexeme.kind spaced here there lexeme.length)
      ⟨next, brackets, statementAfter s.startsStatement brackets.isEmpty lexeme.kind,
        some lexeme.kind⟩)

end Scanner

/-- The tokens of a text, with one end-of-file token at the end. -/
def scan (text : Text) : Except Fault (List Token) :=
  (collect ⟨.broken .tokens, .start⟩ Scanner.step (text.length + 1) (Scanner.start text)).map
    (fun r => r.1 ++ [r.2])

end ClassdefDoc
