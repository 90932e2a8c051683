/-!
# Text

Text is a list of characters. A string literal stands for the text it spells, so messages are
written as `Text.join ["found '", found, "'"]`.

White space is the Unicode property `White_Space`; `trim`, `words` and `isBlank` use it. A line ends
at `'\n'` and nowhere else.
-/

namespace ClassdefDoc

/-- Text, character by character. -/
abbrev Text := List Char

instance : Coe String Text := ⟨String.toList⟩

namespace Text

def join (parts : List Text) : Text := parts.flatten

/-- The parts with `sep` between neighbours. -/
def joinWith (sep : Text) (parts : List Text) : Text := sep.intercalate parts

def ofNat (n : Nat) : Text := Nat.toDigits 10 n

/-- The text with `new` in place of each `c`. -/
def replace (c : Char) (new t : Text) : Text := t.flatMap fun d => if d = c then new else [d]

/-! ## White space -/

/-- The Unicode property `White_Space`. -/
def isSpace (c : Char) : Bool :=
  let n := c.toNat
  (9 ≤ n && n ≤ 13) || n == 0x20 || n == 0x85 || n == 0xA0 || n == 0x1680 ||
    (0x2000 ≤ n && n ≤ 0x200A) || n == 0x2028 || n == 0x2029 || n == 0x202F || n == 0x205F ||
    n == 0x3000

def isBlank (t : Text) : Bool := t.all isSpace

def trimStart (t : Text) : Text := t.dropWhile isSpace

def trimEnd (t : Text) : Text := (t.reverse.dropWhile isSpace).reverse

def trim (t : Text) : Text := trimEnd (trimStart t)

/-! ## Lines and pieces -/

/-- The text up to the end of its first line. -/
def firstLine (t : Text) : Text := t.takeWhile (· != '\n')

/-- The pieces of a text between the characters `sep`: one more than there are separators. -/
def split (sep : Char) : Text → List Text
  | [] => [[]]
  | c :: cs =>
    if c = sep then [] :: split sep cs
    else match split sep cs with
      | [] => [[c]]
      | p :: ps => (c :: p) :: ps

/-- Drops one `'\r'` from the end. -/
def dropReturn (t : Text) : Text :=
  match t.reverse with
  | '\r' :: r => r.reverse
  | _ => t

/-- The lines of a text. The end of a line is `'\n'` or `"\r\n"`; nothing after the last line end
is no line, and a `'\r'` that ends the text stays. -/
def lines (t : Text) : List Text :=
  match (split '\n' t).reverse with
  | [] => []
  | [] :: ended => (ended.map dropReturn).reverse
  | last :: ended => (last :: ended.map dropReturn).reverse

/-- The longest runs without white space, in order. -/
def words : Text → List Text
  | [] => []
  | c :: cs =>
    if isSpace c then words cs
    else match cs, words cs with
      | d :: _, w :: ws => if isSpace d then [c] :: w :: ws else (c :: w) :: ws
      | _, ws => [c] :: ws

/-! ## Comparison -/

/-- The text with ASCII letters made small. -/
def lower (t : Text) : Text := t.map Char.toLower

/-- Equality up to the case of ASCII letters. -/
def sameWord (a b : Text) : Bool := lower a == lower b

/-- The order of texts by their characters' code points. -/
def before : Text → Text → Bool
  | [], [] => false
  | [], _ :: _ => true
  | _ :: _, [] => false
  | a :: as, b :: bs => a.toNat < b.toNat || (a == b && before as bs)

/-- What follows `lead`, if the text starts with it. -/
def dropLead? (lead t : Text) : Option Text :=
  if lead.isPrefixOf t then some (t.drop lead.length) else none

/-- What precedes the final character `c`, if the text ends with it. -/
def dropLast? (c : Char) (t : Text) : Option Text :=
  match t.reverse with
  | d :: r => if d = c then some r.reverse else none
  | [] => none

end Text

end ClassdefDoc
