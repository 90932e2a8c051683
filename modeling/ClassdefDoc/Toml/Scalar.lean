import ClassdefDoc.Toml.Basic

/-!
# TOML strings, numbers and dates

The reader of a string takes the text behind the opening quote to the value and to what follows the closing
quote. A number or date is recognised as a whole.
-/

namespace ClassdefDoc.Toml

/-! ## Strings -/

/-- Characters beyond ASCII and the printable ones, and the tab. -/
def isTextChar (c : Char) : Bool :=
  c == '\t' || (0x20 ≤ c.toNat && c.toNat ≤ 0x7E) || 0x80 ≤ c.toNat

def hexDigit? (c : Char) : Option Nat :=
  if c.isDigit then some (c.toNat - '0'.toNat)
  else if 'a' ≤ c && c ≤ 'f' then some (c.toNat - 'a'.toNat + 10)
  else if 'A' ≤ c && c ≤ 'F' then some (c.toNat - 'A'.toNat + 10)
  else none

/-- The number written by digits of a base. -/
def ofDigits (base : Nat) (digits : List Nat) : Nat := digits.foldl (fun n d => base * n + d) 0

/-- The character whose code point stands in the first `n` digits. -/
def codePoint? (n : Nat) (t : Text) : Option Char :=
  if t.length < n then none
  else match (t.take n).mapM hexDigit? with
    | none => none
    | some digits =>
      let code := ofDigits 16 digits
      if code.isValidChar then some (Char.ofNat code) else none

/-- The character that an escape stands for, and the length of the escape behind its backslash. -/
def escape? (t : Text) : Option (Char × Nat) :=
  match t with
  | 'b' :: _ => some ('\x08', 1)
  | 't' :: _ => some ('\t', 1)
  | 'n' :: _ => some ('\n', 1)
  | 'f' :: _ => some ('\x0c', 1)
  | 'r' :: _ => some ('\r', 1)
  | '"' :: _ => some ('"', 1)
  | '\\' :: _ => some ('\\', 1)
  | 'u' :: rest => (codePoint? 4 rest).map (·, 5)
  | 'U' :: rest => (codePoint? 8 rest).map (·, 9)
  | _ => none

/-- Puts text before a value that has been read. -/
def before (lead : Text) (read : Option (Text × Text)) : Option (Text × Text) :=
  read.map (fun p => (lead ++ p.1, p.2))

/-- A string in double quotes on one line; its first `skip` characters are passed over. -/
def basicString (skip : Nat) (t : Text) : Option (Text × Text) :=
  match skip, t with
  | _, [] => none
  | skip + 1, _ :: cs => basicString skip cs
  | 0, c :: cs =>
    if c = '"' then some ([], cs)
    else if c = '\\' then
      match escape? cs with
      | some (d, n) => before [d] (basicString n cs)
      | none => none
    else if isTextChar c then before [c] (basicString 0 cs)
    else none

/-- A string in single quotes on one line, which has no escapes. -/
def literalString : Text → Option (Text × Text)
  | [] => none
  | c :: cs =>
    if c = '\'' then some ([], cs)
    else if isTextChar c then before [c] (literalString cs)
    else none

/-- The length of the white space and line ends that a text starts with. -/
def blankLength : Text → Nat
  | ' ' :: cs => blankLength cs + 1
  | '\t' :: cs => blankLength cs + 1
  | '\n' :: cs => blankLength cs + 1
  | '\r' :: '\n' :: cs => blankLength cs + 2
  | _ => 0

/-- The length of what a backslash at the end of a line hides. -/
def hiddenLength? (t : Text) : Option Nat :=
  let blanks := t.takeWhile (fun c => c == ' ' || c == '\t')
  match t.drop blanks.length with
  | '\n' :: _ => some (blankLength t)
  | '\r' :: '\n' :: _ => some (blankLength t)
  | _ => none

/-- A string of several lines between three quotes; `escapes` tells whether it has escapes. Up to two quotes
may stand before the closing ones. -/
def longString (quote : Char) (escapes : Bool) (skip : Nat) (t : Text) : Option (Text × Text) :=
  match skip, t with
  | _, [] => none
  | skip + 1, _ :: cs => longString quote escapes skip cs
  | 0, c :: cs =>
    if c = quote then
      let quotes := (cs.takeWhile (· == quote)).length + 1
      if quotes < 3 then before [c] (longString quote escapes 0 cs)
      else if quotes < 6 then some (List.replicate (quotes - 3) quote, cs.drop (quotes - 1))
      else none
    else if c = '\\' && escapes then
      match hiddenLength? cs, escape? cs with
      | some n, _ => longString quote escapes n cs
      | none, some (d, n) => before [d] (longString quote escapes n cs)
      | none, none => none
    else if c = '\r' then
      if cs.head? = some '\n' then before ['\n'] (longString quote escapes 1 cs) else none
    else if c = '\n' || isTextChar c then before [c] (longString quote escapes 0 cs)
    else none

/-- The text behind a line end, if it starts with one. -/
def dropLineEnd (t : Text) : Text :=
  match t with
  | '\n' :: rest => rest
  | '\r' :: '\n' :: rest => rest
  | _ => t

/-- A string of any kind from its opening quote on. -/
def stringAt? (t : Text) : Option (Text × Text) :=
  match t with
  | '"' :: '"' :: '"' :: rest => longString '"' true 0 (dropLineEnd rest)
  | '\'' :: '\'' :: '\'' :: rest => longString '\'' false 0 (dropLineEnd rest)
  | '"' :: rest => basicString 0 rest
  | '\'' :: rest => literalString rest
  | _ => none

/-! ## Numbers -/

/-- The digits of a group; underscores may stand between two of them. -/
def digits? (base : Nat) (t : Text) : Option (List Nat) :=
  ((Text.split '_' t).mapM fun (group : Text) =>
    if group.isEmpty then none
    else group.mapM (fun c => (hexDigit? c).filter (· < base))).map List.flatten

/-- The number of a group in a base. -/
def group? (base : Nat) (t : Text) : Option Nat := (digits? base t).map (ofDigits base)

/-- A sign and what follows it. -/
def splitSign (t : Text) : Bool × Text :=
  match t with
  | '-' :: rest => (true, rest)
  | '+' :: rest => (false, rest)
  | _ => (false, t)

/-- Decimal digits that start with no superfluous zero. -/
def whole? (t : Text) : Option Nat :=
  if t.head? = some '0' && t.length ≠ 1 then none else group? 10 t

/-- An integer of 64 bits. -/
def integer? (t : Text) : Option Int :=
  match t with
  | '0' :: 'x' :: rest => inRange (group? 16 rest)
  | '0' :: 'o' :: rest => inRange (group? 8 rest)
  | '0' :: 'b' :: rest => inRange (group? 2 rest)
  | _ =>
    let (negative, rest) := splitSign t
    match whole? rest with
    | none => none
    | some n =>
      if negative then if n ≤ 1 <<< 63 then some (-(n : Int)) else none
      else inRange (some n)
where
  inRange (n : Option Nat) : Option Int := (n.filter (· < 1 <<< 63)).map Int.ofNat

/-- Whether `digits · 10 ^ exponent` exceeds what a double can hold. -/
def overflows (digits : Nat) (exponent : Int) : Bool :=
  let limit : Nat := 1 <<< 1024 - 1 <<< 970
  match exponent with
  | .ofNat e => digits != 0 && (400 < e || limit ≤ digits * Nat.pow 10 e)
  | .negSucc e => (Text.ofNat digits).length > e + 1 && limit * Nat.pow 10 (e + 1) ≤ digits

/-- An exponent, if there is one. -/
def exponent? (t : Text) : Option Int :=
  match t with
  | [] => some 0
  | c :: rest =>
    if c ≠ 'e' && c ≠ 'E' then none
    else
      let (negative, rest) := splitSign rest
      (group? 10 rest).map (fun n => if negative then -(n : Int) else n)

def isFloat (t : Text) : Bool :=
  let (negative, t) := splitSign t
  let inGroup (c : Char) : Bool := c.isDigit || c == '_'
  let rest := t.dropWhile inGroup
  if t = "inf".toList || t = "nan".toList then true
  else match whole? (t.takeWhile inGroup), rest with
    | some n, '.' :: rest =>
      match digits? 10 (rest.takeWhile inGroup), exponent? (rest.dropWhile inGroup) with
      | some fraction, some e =>
        negative || !overflows (n * Nat.pow 10 fraction.length + ofDigits 10 fraction) (e - fraction.length)
      | _, _ => false
    | some n, _ :: _ =>
      match exponent? rest with
      | some e => negative || !overflows n e
      | none => false
    | _, _ => false

/-! ## Dates -/

/-- A number of exactly `width` digits. -/
def fixed? (width : Nat) (t : Text) : Option Nat :=
  if t.length = width && t.all Char.isDigit then some (ofDigits 10 (t.map (fun c => c.toNat - '0'.toNat)))
  else none

def daysIn (year month : Nat) : Nat :=
  if month = 2 then if year % 4 = 0 && (year % 100 ≠ 0 || year % 400 = 0) then 29 else 28
  else if month = 4 || month = 6 || month = 9 || month = 11 then 30
  else 31

/-- `yyyy-mm-dd`. -/
def isDate (t : Text) : Bool :=
  match Text.split '-' t with
  | [y, m, d] =>
    match fixed? 4 y, fixed? 2 m, fixed? 2 d with
    | some y, some m, some d => 1 ≤ m && m ≤ 12 && 1 ≤ d && d ≤ daysIn y m
    | _, _, _ => false
  | _ => false

/-- `hh:mm`. -/
def isHourMinute (h m : Text) : Bool :=
  match fixed? 2 h, fixed? 2 m with
  | some h, some m => h ≤ 23 && m ≤ 59
  | _, _ => false

/-- `hh:mm:ss`, with or without a fraction. -/
def isTime (t : Text) : Bool :=
  match Text.split ':' t with
  | [h, m, s] =>
    let fraction := s.drop 2
    isHourMinute h m && (fixed? 2 (s.take 2)).any (· ≤ 60) &&
      (fraction.isEmpty ||
        (fraction.head? = some '.' && fraction.length ≠ 1 && fraction.tail.all Char.isDigit))
  | _ => false

/-- A time with or without its offset. -/
def isOffsetTime (t : Text) : Bool :=
  let time := t.takeWhile (fun c => c.isDigit || c == ':' || c == '.')
  let offset := t.drop time.length
  isTime time &&
    match offset with
    | [] => true
    | c :: rest =>
      if c = 'Z' || c = 'z' then rest.isEmpty
      else (c == '+' || c == '-') &&
        match Text.split ':' rest with
        | [h, m] => isHourMinute h m
        | _ => false

/-- A date, a time, or a date and a time behind a `T`. -/
def isMoment (t : Text) : Bool :=
  isTime t || isDate t ||
    (isDate (t.take 10) &&
      match t.drop 10 with
      | c :: rest => (c == 'T' || c == 't') && isOffsetTime rest
      | [] => false)

end ClassdefDoc.Toml
