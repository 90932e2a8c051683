import ClassdefDoc.Token.Basic

/-!
# Balance of brackets

Pseudo-code is balanced if its brackets match, those in comments and in quoted text apart. A reader takes
one character at a time: a comment runs from `/*` to `*/` or from `//` to the line end, and quoted text from
one double quote to the next that no backslash escapes.
-/

namespace ClassdefDoc.Balance

/-- What the next character is part of. -/
inductive Mode where
  | code
  /-- A slash in the code has just been read. -/
  | slash
  /-- A block comment; `star` tells whether its last character is a star that may end it. -/
  | block (star : Bool)
  | lineComment
  | quoted
  /-- A backslash in quoted text has just been read. -/
  | escaped
  deriving DecidableEq, Repr

/-- A reader's mode and the brackets that are open, innermost first. -/
structure State where
  mode : Mode := .code
  stack : List Bracket := []
  deriving DecidableEq, Repr

/-- Reads one character of code. -/
def code (stack : List Bracket) (c : Char) : Option State :=
  match Bracket.ofOpener? c, Bracket.ofCloser? c with
  | some b, _ => some ⟨.code, b :: stack⟩
  | none, some b =>
    match stack with
    | top :: rest => if top = b then some ⟨.code, rest⟩ else none
    | [] => none
  | none, none =>
    if c = '/' then some ⟨.slash, stack⟩
    else if c = '"' then some ⟨.quoted, stack⟩
    else some ⟨.code, stack⟩

/-- Reads one character; a closing bracket that does not match is refused. -/
def step (s : State) (c : Char) : Option State :=
  match s.mode with
  | .code => code s.stack c
  | .slash =>
    if c = '*' then some { s with mode := .block false }
    else if c = '/' then some { s with mode := .lineComment }
    else code s.stack c
  | .block star =>
    if star && c = '/' then some { s with mode := .code }
    else some { s with mode := .block (c == '*') }
  | .lineComment => some { s with mode := if c = '\n' then .code else .lineComment }
  | .quoted =>
    if c = '\\' then some { s with mode := .escaped }
    else if c = '"' then some { s with mode := .code }
    else some s
  | .escaped => some { s with mode := .quoted }

/-- Reads a text. -/
def read (s : State) (t : Text) : Option State := t.foldlM step s

/-- Whether a text may end in a mode. -/
def Mode.closed : Mode → Bool
  | code | slash | lineComment => true
  | _ => false

def State.closed (s : State) : Bool := s.mode.closed && s.stack.isEmpty

def balanced (t : Text) : Bool := (read {} t).any (·.closed)

end ClassdefDoc.Balance
