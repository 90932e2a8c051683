import ClassdefDoc.Position
import ClassdefDoc.Text.Bytes
import ClassdefDoc.Text.Shown

/-!
# Tokens

The vocabulary of class files: keywords, brackets, operators, literals, comments and line structure.
A token keeps its lexeme, its span, its byte offset and whether blanks stand before it.
-/

namespace ClassdefDoc

/-- The words that have a meaning of their own at the start of a statement. -/
inductive Keyword where
  | classdef | properties | methods | events | enumeration | function | close
  | ifBranch | forLoop | parforLoop | whileLoop | switchBranch | tryBlock | spmdBlock | arguments
  deriving DecidableEq, Repr

namespace Keyword

def all : List Keyword :=
  [classdef, properties, methods, events, enumeration, function, close, ifBranch, forLoop,
    parforLoop, whileLoop, switchBranch, tryBlock, spmdBlock, arguments]

def word : Keyword → Text
  | classdef => "classdef"
  | properties => "properties"
  | methods => "methods"
  | events => "events"
  | enumeration => "enumeration"
  | function => "function"
  | close => "end"
  | ifBranch => "if"
  | forLoop => "for"
  | parforLoop => "parfor"
  | whileLoop => "while"
  | switchBranch => "switch"
  | tryBlock => "try"
  | spmdBlock => "spmd"
  | arguments => "arguments"

def ofWord? (w : Text) : Option Keyword := all.find? (·.word == w)

/-- Keywords that open a construct closed by `end` inside a function body. -/
def opensConstruct : Keyword → Bool
  | function | ifBranch | forLoop | parforLoop | whileLoop | switchBranch | tryBlock | spmdBlock
  | arguments => true
  | _ => false

end Keyword

inductive Bracket where
  | paren | square | brace
  deriving DecidableEq, Repr

namespace Bracket

def opener : Bracket → Char
  | paren => '('
  | square => '['
  | brace => '{'

def closer : Bracket → Char
  | paren => ')'
  | square => ']'
  | brace => '}'

def all : List Bracket := [paren, square, brace]

def ofOpener? (c : Char) : Option Bracket := all.find? (·.opener == c)

def ofCloser? (c : Char) : Option Bracket := all.find? (·.closer == c)

end Bracket

inductive Delimiter where
  | opening (b : Bracket)
  | closing (b : Bracket)
  | comma
  | semicolon
  deriving DecidableEq, Repr

def Delimiter.char : Delimiter → Char
  | opening b => b.opener
  | closing b => b.closer
  | comma => ','
  | semicolon => ';'

inductive Operator where
  | assign | dot | atSign | less | ampersand | tilde | question | transpose
  | other (lexeme : Text)
  deriving DecidableEq, Repr

/-- The two quotes: `'` for character arrays and `"` for strings. -/
inductive Quote where
  | single | double
  deriving DecidableEq, Repr

def Quote.char : Quote → Char
  | single => '\''
  | double => '"'

inductive TokenKind where
  | number (text : Text)
  /-- A literal with its decoded value. -/
  | literal (quote : Quote) (value : Text)
  | identifier (name : Text)
  | keyword (k : Keyword)
  | operator (op : Operator)
  | delimiter (d : Delimiter)
  /-- The text of a line comment behind its `%` signs. -/
  | comment (text : Text)
  /-- The lines of a block comment between its delimiting lines. -/
  | blockComment (lines : List Text)
  /-- The rest of a line behind `...`. -/
  | continuation (text : Text)
  | newline
  | eof
  deriving DecidableEq, Repr

namespace TokenKind

/-- What a kind is called in messages. -/
def text : TokenKind → Text
  | number _ => "number"
  | literal .single _ => "char literal"
  | literal .double _ => "string literal"
  | identifier _ => "identifier"
  | keyword k => Text.join ["keyword ", k.word]
  | operator _ => "operator"
  | delimiter _ => "delimiter"
  | comment _ => "comment"
  | blockComment _ => "comment"
  | continuation _ => "continuation"
  | newline => "newline"
  | eof => "end of file"

def isContinuation : TokenKind → Bool
  | continuation _ => true
  | _ => false

def isComment : TokenKind → Bool
  | comment _ | blockComment _ => true
  | _ => false

/-- Kinds that end a statement outside brackets. -/
def endsStatement : TokenKind → Bool
  | newline | eof | delimiter .comma | delimiter .semicolon => true
  | _ => false

/-- Kinds that end an operand, so that a quote behind them is a transpose. -/
def endsOperand : TokenKind → Bool
  | identifier _ | number _ | literal _ _ | keyword .close | delimiter (.closing _)
  | operator .transpose | operator .dot => true
  | _ => false

end TokenKind

structure Token where
  kind : TokenKind
  lexeme : Text
  span : Span
  offset : Nat
  /-- Whether blanks stand before the token. -/
  spaced : Bool
  /-- Whether only white space stands before the token on its line. -/
  leadsLine : Bool
  deriving DecidableEq, Repr

namespace Token

def endOffset (t : Token) : Nat := t.offset + Text.bytes t.lexeme

def line (t : Token) : Nat := t.span.start.line

def text (t : Token) : Text := Text.join [t.kind.text, " '", Text.shown t.lexeme, "'"]

end Token

end ClassdefDoc
