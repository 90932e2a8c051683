import ClassdefDoc.Fault
import ClassdefDoc.Name

/-!
# Reading one lexeme

`Lexeme.read` decides the kind and the length of the lexeme at the start of a text. What stands before
matters in four ways, which `Surroundings` holds: a comment delimiter stands alone on its line, a
keyword starts a statement outside brackets, and a quote behind an operand is a transpose.
-/

namespace ClassdefDoc

/-- What stands before a lexeme. -/
structure Surroundings where
  /-- Only white space stands before it on its line. -/
  leadsLine : Bool
  /-- It is the first significant one of its statement. -/
  startsStatement : Bool
  /-- Blanks stand directly before it. -/
  spaced : Bool
  /-- The token before. -/
  previous : Option TokenKind
  /-- The innermost open bracket. -/
  innermost : Option Bracket
  deriving Repr

/-- A kind and a number of characters. -/
structure Lexeme where
  kind : TokenKind
  length : Nat
  deriving DecidableEq, Repr

namespace Lexeme

/-! ## Comments -/

def opensBlock (line : Text) : Bool := Text.trim line == "%\x7b".toList

def closesBlock (line : Text) : Bool := Text.trim line == "%\x7d".toList

/-- The lines of a block comment and their length up to its closing line, which is the first one
that closes more than the lines before it open; `nested` is the number of inner blocks that are
open. -/
def blockLines (nested : Nat) : List Text → Option (List Text × Nat)
  | [] => none
  | line :: rest =>
    let keep (r : List Text × Nat) : List Text × Nat := (line :: r.1, line.length + 1 + r.2)
    if opensBlock line then (blockLines (nested + 1) rest).map keep
    else if closesBlock line then
      match nested with
      | 0 => some ([], line.length)
      | n + 1 => (blockLines n rest).map keep
    else (blockLines nested rest).map keep

/-- A block comment: its first line only opens it. -/
def readBlockComment (text : Text) : Except Cause Lexeme :=
  match Text.split '\n' text with
  | first :: rest =>
    match blockLines 0 rest with
    | some (lines, n) => .ok ⟨.blockComment lines, first.length + 1 + n⟩
    | none => .error .unterminatedComment
  | [] => .error .unterminatedComment

/-- A line comment: a run of `%` signs and the rest of the line. -/
def readComment (text : Text) : Lexeme :=
  let signs := (text.takeWhile (· == '%')).length
  let body := Text.firstLine (text.drop signs)
  ⟨.comment body, signs + body.length⟩

def readContinuation (text : Text) : Lexeme :=
  let body := Text.firstLine (text.drop 3)
  ⟨.continuation body, 3 + body.length⟩

/-! ## Literals -/

/-- The value of a literal behind its opening quote and the length up to and with its closing quote.
A doubled quote stands for one; a literal does not cross the end of a line. -/
def literalValue (q : Char) : Text → Option (Text × Nat)
  | [] => none
  | c :: cs =>
    if c = '\n' then none
    else if c = q then
      match cs with
      | d :: ds => if d = q then (literalValue q ds).map (fun r => (q :: r.1, r.2 + 2)) else some ([], 1)
      | [] => some ([], 1)
    else (literalValue q cs).map (fun r => (c :: r.1, r.2 + 1))

def readLiteral (q : Quote) (text : Text) : Except Cause Lexeme :=
  match literalValue q.char text.tail with
  | some (value, n) => .ok ⟨.literal q value, n + 1⟩
  | none => .error (.unterminatedLiteral q)

/-! ## Numbers and words -/

/-- Whether a number goes on with `c`: letters, digits and underscores; a point that starts neither a
continuation nor an elementwise operator; a sign behind an exponent mark. -/
def numberGoesOn (previous c : Char) (rest : Text) : Bool :=
  if c.isAlphanum || c == '_' then true
  else if c == '.' then
    !("..".toList.isPrefixOf rest) && !(rest.head?.any (fun d => "*/\\^'".toList.contains d))
  else if c == '+' || c == '-' then previous == 'e' || previous == 'E'
  else false

def numberLength (previous : Char) : Text → Nat
  | [] => 0
  | c :: cs => if numberGoesOn previous c cs then numberLength c cs + 1 else 0

def readNumber (text : Text) : Lexeme :=
  let n := numberLength '\x00' text
  ⟨.number (text.take n), n⟩

def readWord (s : Surroundings) (text : Text) : Lexeme :=
  let word := text.takeWhile Name.isContinue
  match if s.startsStatement && s.innermost.isNone then Keyword.ofWord? word else none with
  | some k => ⟨.keyword k, word.length⟩
  | none => ⟨.identifier word, word.length⟩

/-! ## Operators -/

/-- The operators of two characters that have no name of their own. -/
def longOperators : List Text :=
  ["==", "<=", ">=", "~=", "!=", "&&", "||", ".*", "./", ".\\", ".^"]

def singleOperator (c : Char) : Operator :=
  if c = '=' then .assign
  else if c = '.' then .dot
  else if c = '@' then .atSign
  else if c = '<' then .less
  else if c = '&' then .ampersand
  else if c = '~' then .tilde
  else if c = '?' then .question
  else .other [c]

def readOperator (c : Char) (rest : Text) : Lexeme :=
  match rest with
  | d :: _ =>
    if longOperators.contains [c, d] then ⟨.operator (.other [c, d]), 2⟩
    else if c = '.' && d = '\'' then ⟨.operator .transpose, 2⟩
    else ⟨.operator (singleOperator c), 1⟩
  | [] => ⟨.operator (singleOperator c), 1⟩

/-! ## All lexemes -/

/-- Whether a single quote is a transpose: it stands behind an operand, and without a blank between
them or outside square brackets and braces. -/
def transposes (s : Surroundings) : Bool :=
  !s.startsStatement && s.previous.any (·.endsOperand) &&
    (!s.spaced || !(s.innermost == some .square || s.innermost == some .brace))

/-- The lexeme at the start of a text that does not start with a blank. -/
def read (s : Surroundings) (c : Char) (rest : Text) : Except Cause Lexeme :=
  let text := c :: rest
  if c = '\n' then .ok ⟨.newline, 1⟩
  else if c = '%' then
    if s.leadsLine && opensBlock (Text.firstLine text) then readBlockComment text
    else .ok (readComment text)
  else if "...".toList.isPrefixOf text then .ok (readContinuation text)
  else if c = '\'' then
    if transposes s then .ok ⟨.operator .transpose, 1⟩ else readLiteral .single text
  else if c = '"' then readLiteral .double text
  else if c.isDigit || (c == '.' && rest.head?.any Char.isDigit) then .ok (readNumber text)
  else if Name.isStart c then .ok (readWord s text)
  else match Bracket.ofOpener? c, Bracket.ofCloser? c with
    | some b, _ => .ok ⟨.delimiter (.opening b), 1⟩
    | none, some b => .ok ⟨.delimiter (.closing b), 1⟩
    | none, none =>
      if c = ',' then .ok ⟨.delimiter .comma, 1⟩
      else if c = ';' then .ok ⟨.delimiter .semicolon, 1⟩
      else .ok (readOperator c rest)

end Lexeme

end ClassdefDoc
