import ClassdefDoc.Text.Basic

/-!
# JSON text

JSON laid out over lines, with an indentation of two blanks. Values are texts; a value inside another is given
as it stands at its depth.
-/

namespace ClassdefDoc.Json

def hexDigit (n : Nat) : Char := if n < 10 then Char.ofNat (48 + n) else Char.ofNat (87 + n)

/-- A character inside a string. Control characters are escaped. -/
def char (c : Char) : Text :=
  if c = '"' then "\\\""
  else if c = '\\' then "\\\\"
  else if c = '\n' then "\\n"
  else if c = '\r' then "\\r"
  else if c = '\t' then "\\t"
  else if c = '\x08' then "\\b"
  else if c = '\x0c' then "\\f"
  else if c.toNat < 0x20 then
    Text.join ["\\u00", [hexDigit (c.toNat / 16), hexDigit (c.toNat % 16)]]
  else [c]

def string (t : Text) : Text := Text.join ["\"", t.flatMap char, "\""]

def number (n : Nat) : Text := Text.ofNat n

/-- A string, or null. -/
def string? : Option Text → Text
  | some t => string t
  | none => "null"

/-- A new line at a depth. -/
def newLine (depth : Nat) : Text := '\n' :: List.replicate (2 * depth) ' '

/-- Items between brackets, each on lines of its own. -/
def enclose (depth : Nat) (left right : Text) (items : List Text) : Text :=
  if items.isEmpty then left ++ right
  else Text.join [left, newLine (depth + 1),
    Text.joinWith (Text.join [",", newLine (depth + 1)]) items, newLine depth, right]

def array (depth : Nat) (items : List Text) : Text := enclose depth "[" "]" items

def object (depth : Nat) (fields : List (Text × Text)) : Text :=
  enclose depth "\x7b" "\x7d" (fields.map (fun (key, value) => Text.join [string key, ": ", value]))

end ClassdefDoc.Json
