import ClassdefDoc.Name
import ClassdefDoc.Pseudocode.Quoted
import ClassdefDoc.Text.Letter
import ClassdefDoc.Token.Basic

/-!
# Default values

The pseudo-code keeps a default value that is a number or an identifier. A literal becomes quoted text, a
call of `struct` and a cell array keep their brackets around quoted text, and any other value is quoted as a
whole.
-/

namespace ClassdefDoc.Default

/-! ## Numbers -/

/-- Digits, at most one of them or more on each side of a point, and at least one in all. -/
def mantissa? (t : Text) : Option Text :=
  let whole := t.takeWhile Char.isDigit
  match t.dropWhile Char.isDigit with
  | '.' :: rest =>
    if whole.isEmpty && (rest.takeWhile Char.isDigit).isEmpty then none
    else some (rest.dropWhile Char.isDigit)
  | rest => if whole.isEmpty then none else some rest

def dropSign (t : Text) : Text :=
  match t with
  | '+' :: rest => rest
  | '-' :: rest => rest
  | _ => t

/-- Nothing, or an exponent with at least one digit. -/
def isExponent (t : Text) : Bool :=
  match t with
  | [] => true
  | c :: rest =>
    let digits := dropSign rest
    (c == 'e' || c == 'E') && !digits.isEmpty && digits.all Char.isDigit

/-- A decimal number, an infinity or a NaN, with or without a sign. -/
def isNumber (t : Text) : Bool :=
  let t := dropSign t
  (["inf", "infinity", "nan"].any (fun w => Text.sameWord w.toList t)) ||
    (mantissa? t).any isExponent

/-! ## Literals and brackets -/

/-- The text in which doubled quotes stand for one; a quote that is not doubled is refused. -/
def undouble? (q : Char) : Text → Option Text
  | [] => some []
  | c :: cs =>
    if c = q then
      match cs with
      | d :: ds => if d = q then (undouble? q ds).map (q :: ·) else none
      | [] => none
    else (undouble? q cs).map (c :: ·)

/-- The value of a text that is one literal. -/
def literal? (t : Text) : Option Text :=
  match t with
  | c :: rest =>
    if c = '\'' || c = '"' then (Text.dropLast? c rest).bind (undouble? c) else none
  | [] => none

/-- How far a text between brackets is read. -/
structure Scan where
  depth : Nat := 0
  /-- The quote of the literal that is open. -/
  literal : Option Char := none
  /-- The last character that is no white space. -/
  last : Char
  deriving DecidableEq, Repr

/-- Whether a single quote behind `c` is a transpose and opens no literal. -/
def takesTranspose (c : Char) : Bool :=
  Text.isLetterOrDigit c || c == ')' || c == ']' || c == '\x7d' || c == '.' || c == '_' || c == '\''

/-- Reads one character; a closing bracket without an open one is refused. -/
def Scan.step (b : Bracket) (s : Scan) (c : Char) : Option Scan :=
  let last := if Text.isSpace c then s.last else c
  match s.literal with
  | some q => some { s with literal := if c = q then none else some q, last := last }
  | none =>
    if c = '"' || (c = '\'' && !takesTranspose s.last) then
      some { s with literal := some c, last := last }
    else if c = b.opener then some { s with depth := s.depth + 1, last := last }
    else if c = b.closer then
      match s.depth with
      | 0 => none
      | d + 1 => some { s with depth := d, last := last }
    else some { s with last := last }

/-- The text between two brackets that enclose a whole text. -/
def enclosed? (b : Bracket) (t : Text) : Option Text :=
  match t with
  | c :: rest =>
    if c ≠ b.opener then none
    else match Text.dropLast? b.closer rest with
      | none => none
      | some inner =>
        match inner.foldlM (Scan.step b) { last := b.opener } with
        | some s => if s.depth = 0 && s.literal.isNone then some inner else none
        | none => none
  | [] => none

/-! ## Rendering -/

/-- A default value as the pseudo-code shows it. -/
def render (value : Text) : Text :=
  let t := Text.trim value
  if isNumber t || Name.isIdentifier t then t
  else match literal? t with
    | some text => Quoted.quote text
    | none =>
      match (Text.dropLead? "struct" t).bind (fun rest => enclosed? .paren (Text.trimStart rest)) with
      | some inner => Text.join ["struct(", Quoted.quote inner, ")"]
      | none =>
        match enclosed? .brace t with
        | some inner => Text.join ["\x7b", Quoted.quote inner, "\x7d"]
        | none => Quoted.quote t

end ClassdefDoc.Default
