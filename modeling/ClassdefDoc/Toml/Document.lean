import ClassdefDoc.Toml.Scalar

/-!
# Reading TOML documents

A document is a list of lines; each is blank, a comment, a header or a key with its
value, where a value in brackets may go on over several lines. `Toml.parse` gives
the entries of the document's own table, or nothing if the text is no TOML document.
-/

namespace ClassdefDoc.Toml

/-- A reader takes the text ahead to a result and the rest, or fails. -/
abbrev Reader := StateT Text Option

namespace Reader

def fail {α : Type} : Reader α := fun _ => none

/-- Takes the next character if it is `c`. -/
def accept (c : Char) : Reader Bool := fun t =>
  match t with
  | d :: rest => if d = c then some (true, rest) else some (false, t)
  | [] => some (false, t)

def expect (c : Char) : Reader Unit := do
  if !(← accept c) then fail

/-- Takes the longest run of characters of a kind. -/
def longest (p : Char → Bool) : Reader Text := fun t => some (t.takeWhile p, t.dropWhile p)

def skipBlanks : Reader Unit := do
  let _ ← longest (fun c => c == ' ' || c == '\t')

/-- The next character. -/
def peek : Reader (Option Char) := fun t => some (t.head?, t)

/-- The end of a line or of the text. -/
def lineEnd : Reader Unit := fun t =>
  match t with
  | [] => some ((), [])
  | '\n' :: rest => some ((), rest)
  | '\r' :: '\n' :: rest => some ((), rest)
  | _ => none

/-- The end of a line, behind blanks and a comment. -/
def restOfLine : Reader Unit := do
  skipBlanks
  if ← accept '#' then
    let _ ← longest isTextChar
  lineEnd

/-- What follows blanks, line ends and comments. -/
def dropFiller (inComment : Bool) (t : Text) : Text :=
  match t with
  | [] => []
  | c :: cs =>
    if inComment && isTextChar c then dropFiller true cs
    else if c = ' ' || c = '\t' || c = '\n' then dropFiller false cs
    else if c = '\r' && cs.head? = some '\n' then dropFiller false cs
    else if c = '#' then dropFiller true cs
    else t

def skipFiller : Reader Unit := modify (dropFiller false)

/-! ## Keys -/

def isBareKey (c : Char) : Bool := c.isAlphanum || c == '_' || c == '-'

/-- One part of a key. -/
def keyPart : Reader Text := do
  match ← peek with
  | some '"' => expect '"'; fun t => basicString 0 t
  | some '\'' => expect '\''; fun t => literalString t
  | _ =>
    let name ← longest isBareKey
    if name.isEmpty then fail else pure name

/-- The parts of a dotted key; blanks may stand around each. -/
def keyParts : Nat → Reader (List Text)
  | 0 => fail
  | budget + 1 => do
    skipBlanks
    let part ← keyPart
    skipBlanks
    if ← accept '.' then pure (part :: (← keyParts budget)) else pure [part]

/-- The most parts that a key may have, and the most brackets that may be nested in a value, are one fewer. -/
def depthLimit : Nat := 80

/-- A dotted key: the path to its table, and the last part. -/
def key : Reader (List Text × Text) := do
  let parts ← keyParts ((← get).length + 1)
  if depthLimit ≤ parts.length then fail
  else match parts.getLast? with
    | some last => pure (parts.dropLast, last)
    | none => fail

/-! ## Values -/

/-- Characters of numbers, dates and names of values. -/
def isWordChar (c : Char) : Bool :=
  c.isAlphanum || c == '_' || c == '+' || c == '-' || c == '.' || c == ':'

/-- A number, a date or a boolean. A blank may part a date from its time. -/
def word : Reader Toml := do
  let w ← longest isWordChar
  if w = "true".toList then pure (.boolean true)
  else if w = "false".toList then pure (.boolean false)
  else if isDate w then fun t =>
    match t with
    | ' ' :: d :: rest =>
      if d.isDigit then
        let time := (d :: rest).takeWhile isWordChar
        if isOffsetTime time then some (.moment, (d :: rest).dropWhile isWordChar) else none
      else some (.moment, t)
    | _ => some (.moment, t)
  else if isMoment w then pure .moment
  else match integer? w with
    | some n => pure (.integer n)
    | none => if isFloat w then pure .float else fail

/-- The items of an array behind its opening bracket. -/
def items (value : Reader Toml) : Nat → Reader (List Toml)
  | 0 => fail
  | budget + 1 => do
    skipFiller
    if ← accept ']' then pure []
    else
      let v ← value
      skipFiller
      if ← accept ',' then pure (v :: (← items value budget))
      else
        expect ']'
        pure [v]

/-- A key with its value. -/
def pair (value : Reader Toml) : Reader (List Text × Text × Toml) := do
  let (path, last) ← key
  expect '='
  skipBlanks
  pure (path, last, ← value)

/-- The keys of a table in braces, of which there is at least one. -/
def pairs (value : Reader Toml) : Nat → Reader (List (List Text × Text × Toml))
  | 0 => fail
  | budget + 1 => do
    let p ← pair value
    skipBlanks
    if ← accept ',' then pure (p :: (← pairs value budget))
    else
      expect '}'
      pure [p]

/-- A table behind its opening brace. -/
def braces (value : Reader Toml) : Reader Toml := do
  skipBlanks
  let keys ← do
    if ← accept '}' then pure []
    else pairs value ((← get).length + 1)
  match ofKeys keys with
  | some t => pure t
  | none => fail

/-- A value; `depth` bounds how deep brackets may be nested. -/
def value : Nat → Reader Toml
  | 0 => fail
  | depth + 1 => do
    match ← peek with
    | some '"' | some '\'' => fun t => (stringAt? t).map (fun p => (.string p.1, p.2))
    | some '[' =>
      if depth = 0 then fail
      else
        expect '['
        pure (.array (← items (value depth) ((← get).length + 1)))
    | some '{' =>
      if depth = 0 then fail
      else
        expect '{'
        braces (value depth)
    | _ => word

/-! ## Lines -/

/-- The document read so far, and the path of the table that keys are added to. -/
structure Document where
  entries : Entries := []
  current : List Text := []

/-- A header behind its first bracket. -/
def header (d : Document) : Reader Document := do
  let element ← accept '['
  let (path, last) ← key
  expect ']'
  if element then expect ']'
  restOfLine
  let change := if element then openElement last else openTable last
  match update false (fun _ => change) path .header d.entries with
  | some es => pure ⟨es, path ++ [last]⟩
  | none => fail

/-- A line with a key and its value. -/
def keyLine (d : Document) : Reader Document := do
  let (path, last, v) ← pair (value depthLimit)
  restOfLine
  match update false (addKey path last v) d.current .header d.entries with
  | some es => pure { d with entries := es }
  | none => fail

/-- The lines of a document. -/
def document : Nat → Document → Reader Document
  | 0, _ => fail
  | budget + 1, d => do
    skipBlanks
    match ← peek with
    | none => pure d
    | some '#' | some '\n' | some '\r' => restOfLine; document budget d
    | some '[' => expect '['; document budget (← header d)
    | some _ => document budget (← keyLine d)

end Reader

/-- The entries of a document's own table. A byte order mark may stand at its start. -/
def parse (text : Text) : Option Entries :=
  let text := match text with
    | '\ufeff' :: rest => rest
    | _ => text
  ((Reader.document (text.length + 1) {}).run text).map (·.1.entries)

end ClassdefDoc.Toml
