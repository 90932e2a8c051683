import ClassdefDoc.Class.Comments
import ClassdefDoc.Collect
import ClassdefDoc.Fault

/-!
# Reading tokens

The reader of a class file holds the tokens ahead, the token it took last and the comments it has
passed between declarations. Continuations are looked through everywhere except in method bodies. The
last token of a file is never passed, so that it can be looked at again.
-/

namespace ClassdefDoc

structure Reader where
  ahead : List Token
  last : Option Token
  comments : List LooseComment
  deriving Repr

abbrev Read := StateT Reader (Except Fault)

namespace Read

def refuse {α : Type} (cause : Cause) (position : Position) : Read α := throw ⟨cause, position⟩

/-- The tokens from the first one that is not a continuation. -/
def significant (tokens : List Token) : List Token := tokens.dropWhile (·.kind.isContinuation)

/-- The next token. -/
def peek : Read Token := do
  match significant (← get).ahead with
  | t :: _ => pure t
  | [] => refuse (.broken .tokens) .start

/-- The token after the next one, or the next one if it is the last. -/
def peekSecond : Read Token := do
  match significant (← get).ahead with
  | t :: rest => pure ((significant rest).headD t)
  | [] => refuse (.broken .tokens) .start

/-- Takes the next token. -/
def advance : Read Token := do
  let r ← get
  match significant r.ahead with
  | [] => refuse (.broken .tokens) .start
  | [t] => set { r with ahead := [t], last := some t }; pure t
  | t :: rest => set { r with ahead := rest, last := some t }; pure t

def sees (k : TokenKind) : Read Bool := do pure ((← peek).kind == k)

def seesIdentifier : Read Bool := do
  match (← peek).kind with
  | .identifier _ => pure true
  | _ => pure false

/-- The line on which the token taken last ends. -/
def lastLine : Read Nat := do
  match (← get).last with
  | some t => pure (max t.span.stop.line t.span.start.line)
  | none => pure 1

/-- Refuses the token `t` where `expected` should stand. -/
def unexpected {α : Type} (t : Token) (expected : Text) : Read α :=
  match t.kind with
  | .eof => refuse (.unexpectedEnd expected) t.span.start
  | .newline => refuse (.unexpected "end of line" (some expected)) t.span.start
  | _ => refuse (.unexpected t.lexeme (some expected)) t.span.start

def expectIdentifier (what : Text) : Read (Token × Text) := do
  let t ← peek
  match t.kind with
  | .identifier name => discard advance; pure (t, name)
  | _ => unexpected t what

def expect (k : TokenKind) (what : Text) : Read Unit := do
  let t ← peek
  if t.kind = k then discard advance else unexpected t what

/-- Runs `step` until it gives nothing more; each item takes at least one token. -/
def many {α : Type} (step : Read (Option α)) : Read (List α) := fun r =>
  collect ⟨.broken .tokens, .start⟩
    (fun r => match step r with
      | .error e => .error e
      | .ok (some a, next) => .ok (.item a next)
      | .ok (none, next) => .ok (.done next))
    (r.ahead.length + 1) r

/-! ## Layout -/

/-- Tokens between statements: line ends, separators and comments. -/
def isLayout : TokenKind → Bool
  | .newline | .continuation _ | .delimiter .comma | .delimiter .semicolon | .comment _
  | .blockComment _ => true
  | _ => false

/-- Skips to the next statement and records the comments on the way if `record` is set. -/
def skipLayout (record : Bool) : Read Unit := modify fun r =>
  let skipped := r.ahead.takeWhile (isLayout ·.kind)
  let passed := if record then skipped.filterMap LooseComment.ofToken? else []
  { r with ahead := r.ahead.dropWhile (isLayout ·.kind), comments := r.comments ++ passed }

/-- Tokens that are mere layout inside brackets. -/
def isLineLayout : TokenKind → Bool
  | .newline | .continuation _ | .comment _ | .blockComment _ => true
  | _ => false

def skipLines : Read Unit := modify fun r =>
  { r with ahead := r.ahead.dropWhile (isLineLayout ·.kind) }

/-! ## Statements -/

/-- Kinds that end a statement. A keyword only stands where a statement starts, so it ends the one
before. -/
def endsStatement : TokenKind → Bool
  | .keyword _ | .comment _ | .blockComment _ => true
  | k => k.endsStatement

def endStatement : Read Unit := do
  let t ← peek
  if endsStatement t.kind then pure () else unexpected t "end of statement"

/-- The header of a class, a block or a function may be followed by a statement on its line. -/
def endHeader : Read Unit := do
  let t ← peek
  match t.kind with
  | .identifier _ | .delimiter (.opening .square) => pure ()
  | k => if endsStatement k then pure () else unexpected t "end of statement"

/-! ## Names and expressions -/

def dottedName (what : Text) : Read DottedName := do
  let (_, first) ← expectIdentifier what
  let rest ← many do
    if ← sees (.operator .dot) then
      discard advance
      let (_, segment) ← expectIdentifier what
      pure (some segment)
    else pure none
  pure ⟨first :: rest⟩

/-- The tokens of an expression, which ends before the first token outside brackets whose kind is
in `stops`, or at the end of file. Continuations are dropped; `depth` brackets are open. -/
def expression (stops : TokenKind → Bool) (depth : Nat) : List Token → List Token × List Token
  | [] => ([], [])
  | t :: rest =>
    let keep (d : Nat) : List Token × List Token :=
      let r := expression stops d rest
      (t :: r.1, r.2)
    match t.kind with
    | .continuation _ => expression stops depth rest
    | .eof => ([], t :: rest)
    | .delimiter (.opening _) => if depth = 0 && stops t.kind then ([], t :: rest) else keep (depth + 1)
    | .delimiter (.closing _) => if depth = 0 && stops t.kind then ([], t :: rest) else keep (depth - 1)
    | k => if depth = 0 && stops k then ([], t :: rest) else keep depth

/-- Takes an expression. -/
def takeExpression (stops : TokenKind → Bool) : Read (List Token) := do
  let r ← get
  let (taken, rest) := expression stops 0 r.ahead
  set { r with ahead := rest, last := taken.getLast?.or r.last }
  pure taken

/-- The text from the first to the last of some tokens. -/
def textOf (text : Text) (first last : Token) : Read Text :=
  match Text.slice? text first.offset last.endOffset with
  | some t => pure t
  | none => refuse (.broken .slice) first.span.start

/-- The closing bracket of a group and the tokens behind it; `depth` brackets are open. -/
def groupEnd (depth : Nat) : List Token → Except Fault (Token × List Token)
  | [] => .error ⟨.broken .tokens, .start⟩
  | t :: rest =>
    match t.kind with
    | .eof => .error ⟨.unexpectedEnd "closing bracket", t.span.start⟩
    | .delimiter (.opening _) => groupEnd (depth + 1) rest
    | .delimiter (.closing _) =>
      match depth with
      | 0 => .error ⟨.broken .depth, t.span.start⟩
      | 1 => .ok (t, rest)
      | d + 2 => groupEnd (d + 1) rest
    | _ => groupEnd depth rest

/-- Skips a bracketed group. -/
def skipGroup : Read Unit := do
  let r ← get
  let (t, rest) ← (groupEnd 0 r.ahead : Except Fault _)
  set { r with ahead := rest, last := some t }

end Read

end ClassdefDoc
