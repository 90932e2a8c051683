import ClassdefDoc.Run.Request

/-!
# Command line arguments

Options are long, `--output out.cc` or `--output=out.cc`, or short, `-o out.cc`, `-oout.cc` or `-o=out.cc`;
short ones may be joined, as in `-vvq`. Behind `--` every argument is positional.

Arguments are read from left to right. A value that stands apart from its option is looked at only when the
next option or positional argument is read, or at the end; so help that is asked for behind a subcommand is
shown even if the last value before the subcommand is wrong.
-/

namespace ClassdefDoc

/-- Why a command line asks for no run. -/
inductive Usage where
  | wrong
  | help
  | version
  deriving DecidableEq, Repr

namespace CommandLine

inductive Argument where
  | config | verbose | quiet | help | version
  | input | macros | output | group
  | inputs | outputDir | jobs | report
  deriving DecidableEq, Repr

/-- A number that fits into 64 bits; a plus sign may stand before it. -/
def number? (t : Text) : Option Nat :=
  let digits := match t with
    | '+' :: rest => rest
    | _ => t
  if digits.isEmpty || !digits.all Char.isDigit then none
  else
    let n := digits.foldl (fun n c => 10 * n + (c.toNat - '0'.toNat)) 0
    if n < 1 <<< 64 then some n else none

namespace Argument

def takesValue : Argument → Bool
  | verbose | quiet | help | version => false
  | _ => true

/-- Whether a value is one for the argument. Paths are not empty. -/
def accepts : Argument → Text → Bool
  | group, _ => true
  | jobs, v => (number? v).isSome
  | _, v => !v.isEmpty

/-- Whether the argument may be given more than once. -/
def repeats : Argument → Bool
  | inputs | verbose => true
  | _ => false

end Argument

/-- The arguments of a command. -/
structure Form where
  long : List (Text × Argument)
  short : List (Char × Argument)
  positional : List Argument

/-- Options that every command has. -/
def commonLong : List (Text × Argument) :=
  [("config", .config), ("verbose", .verbose), ("quiet", .quiet), ("help", .help)]

def commonShort : List (Char × Argument) := [('v', .verbose), ('q', .quiet), ('h', .help)]

def rootForm : Form where
  long := ("version", .version) :: commonLong
  short := ('V', .version) :: commonShort
  positional := []

def filterForm : Form where
  long := ("output", .output) :: ("group", .group) :: commonLong
  short := ('o', .output) :: commonShort
  positional := [.input, .macros]

def batchForm : Form where
  long := ("output-dir", .outputDir) :: ("jobs", .jobs) :: ("group", .group) :: ("report", .report) ::
    commonLong
  short := ('d', .outputDir) :: ('j', .jobs) :: commonShort
  positional := [.inputs]

/-- The arguments of one command read so far. -/
structure Level where
  values : List (Argument × Text) := []
  flags : List Argument := []
  /-- A value that is still to be looked at. -/
  pending : Option (Argument × Text) := none
  /-- The positional arguments still to come. -/
  positional : List Argument

namespace Level

/-- Keeps a value, if it is one and the argument is not given too often. -/
def store (l : Level) (a : Argument) (v : Text) : Except Usage Level :=
  if !a.accepts v || (!a.repeats && (l.values.lookup a).isSome) then .error .wrong
  else .ok { l with values := l.values ++ [(a, v)] }

/-- Looks at the value that is still to be looked at. -/
def settle (l : Level) : Except Usage Level :=
  match l.pending with
  | none => .ok l
  | some (a, v) => { l with pending := none }.store a v

def flag (l : Level) (a : Argument) : Except Usage Level := do
  let l ← l.settle
  match a with
  | .help => throw .help
  | .version => throw .version
  | _ =>
    if !a.repeats && l.flags.contains a then throw .wrong
    else pure { l with flags := l.flags ++ [a] }

/-- Reads a value that is joined to its option. -/
def attach (l : Level) (a : Argument) (v : Text) : Except Usage Level := do (← l.settle).store a v

/-- Reads a positional argument. -/
def position (l : Level) (v : Text) : Except Usage Level := do
  match l.positional with
  | [] => throw .wrong
  | a :: rest =>
    let l ← l.settle
    pure { l with pending := some (a, v), positional := if a.repeats then a :: rest else rest }

/-- Reads joined short options; the last one may wait for its value. -/
def cluster (form : Form) : Text → Level → Except Usage (Level × Option Argument)
  | [], l => .ok (l, none)
  | c :: rest, l =>
    match form.short.lookup c with
    | none => .error .wrong
    | some a =>
      if !a.takesValue then do cluster form rest (← l.flag a)
      else match rest with
        | [] => do pure (← l.settle, some a)
        | '=' :: v => do pure (← l.attach a v, none)
        | v => do pure (← l.attach a v, none)

/-- Reads a long option without its dashes; it may wait for its value. -/
def long (form : Form) (option : Text) (l : Level) : Except Usage (Level × Option Argument) :=
  let name := option.takeWhile (· != '=')
  match form.long.lookup name, option.drop name.length with
  | none, _ => .error .wrong
  | some a, '=' :: v => if a.takesValue then do pure (← l.attach a v, none) else .error .wrong
  | some a, _ =>
    if a.takesValue then do pure (← l.settle, some a) else do pure (← l.flag a, none)

/-- What kind of argument a text is. -/
inductive Shape where
  | long (option : Text)
  | short (options : Text)
  /-- The mark behind which all arguments are positional. -/
  | mark
  | plain
  deriving DecidableEq, Repr

def shape (arg : Text) : Shape :=
  match arg with
  | ['-', '-'] => .mark
  | '-' :: '-' :: option => .long option
  | ['-'] => .plain
  | '-' :: options => .short options
  | _ => .plain

/-- Reads arguments up to a subcommand, and gives its name and the arguments
behind it; `waiting` is the option whose value comes next. -/
def read (form : Form) (subcommands : List Text) :
    List Text → Option Argument → Level → Except Usage (Level × Option (Text × List Text))
  | [], none, l => .ok (l, none)
  | [], some _, _ => .error .wrong
  | arg :: rest, some a, l =>
    if shape arg = .plain then read form subcommands rest none { l with pending := some (a, arg) }
    else .error .wrong
  | arg :: rest, none, l =>
    if subcommands.contains arg then .ok (l, some (arg, rest))
    else match shape arg with
      | .long option => do
        let (l, waiting) ← l.long form option
        read form subcommands rest waiting l
      | .short options => do
        let (l, waiting) ← cluster form options l
        read form subcommands rest waiting l
      | .mark => do pure (← rest.foldlM position l, none)
      | .plain => do read form subcommands rest none (← l.position arg)

/-- The level after its last argument. -/
def finish (l : Level) : Except Usage Level := do
  let l ← l.settle
  if l.flags.contains .quiet && l.flags.contains .verbose then throw .wrong else pure l

/-- The value of an argument. -/
def value? (l : Level) (a : Argument) : Option Text := l.values.lookup a

/-- All values of an argument. -/
def allValues (l : Level) (a : Argument) : List Text :=
  (l.values.filter (·.1 == a)).map (·.2)

def has (l : Level) (a : Argument) : Bool := l.flags.contains a

def count (l : Level) (a : Argument) : Nat := l.flags.count a

end Level

end CommandLine

end ClassdefDoc
