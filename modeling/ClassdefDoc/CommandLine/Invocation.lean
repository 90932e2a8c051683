import ClassdefDoc.CommandLine.Arguments

/-!
# Invocations

An invocation is what a command line asks for. Options that every command has may stand before or behind the
subcommand; what stands behind counts more.
-/

namespace ClassdefDoc

inductive Command where
  | filter (r : FilterRequest)
  | batch (r : BatchRequest)
  deriving DecidableEq, Repr

structure Invocation where
  /-- The path of the settings. -/
  config : Option Text
  verbose : Nat
  quiet : Bool
  command : Command
  deriving DecidableEq, Repr

namespace Invocation

/-- The level of the log. -/
def logLevel (i : Invocation) : Text :=
  if i.quiet then "ERROR"
  else match i.verbose with
    | 0 => "WARN"
    | 1 => "INFO"
    | 2 => "DEBUG"
    | _ => "TRACE"

open CommandLine

def subcommands : List Text := ["filter", "batch", "help"]

/-- The arguments of a subcommand. -/
def readLevel (form : Form) (args : List Text) : Except Usage Level := do
  let (l, _) ← Level.read form [] args none { positional := form.positional }
  l.finish

def filterRequest (l : Level) : Except Usage FilterRequest :=
  match l.value? .input with
  | some input => .ok ⟨input, l.value? .macros, l.value? .output, l.value? .group⟩
  | none => .error .wrong

def batchRequest (l : Level) : Except Usage BatchRequest :=
  match l.allValues .inputs, l.value? .outputDir with
  | [], _ | _, none => .error .wrong
  | inputs, some dir =>
    .ok ⟨inputs, dir, (l.value? .jobs).bind number?, l.value? .group, l.value? .report⟩

/-- What the subcommand `help` shows: nothing but subcommands may follow it, and of those but one. -/
def helpUsage (args : List Text) : Usage :=
  match args with
  | [] => .help
  | [name] => if subcommands.contains name then .help else .wrong
  | _ => .wrong

/-- The most that `-v` counts. -/
def maxVerbose : Nat := 255

/-- The invocation of a list of arguments behind the program's name. -/
def parse (args : List Text) : Except Usage Invocation := do
  let (root, sub) ← Level.read rootForm subcommands args none { positional := rootForm.positional }
  match sub with
  | none => throw .wrong
  | some (name, rest) =>
    if name = "help".toList then throw (helpUsage rest)
    let isFilter := name = "filter".toList
    let level ← readLevel (if isFilter then filterForm else batchForm) rest
    let command : Command ←
      if isFilter then .filter <$> filterRequest level else .batch <$> batchRequest level
    let root ← root.finish
    pure {
      config := (level.value? .config).or (root.value? .config)
      verbose := min maxVerbose (if level.has .verbose then level.count .verbose else root.count .verbose)
      quiet := level.has .quiet || root.has .quiet
      command := command }

end Invocation

/-! ## Running -/

/-- How a run of the program ends. -/
structure Exit where
  code : Nat
  printed : Printed
  deriving DecidableEq, Repr

def versionText : Text := "mdoxy 0.1.0\n"

def helpText : Text :=
  Text.join ["Usage: mdoxy [OPTIONS] <COMMAND>\n\n", "Commands:\n",
    "  filter  <INPUT> [MACROS] [-o <OUTPUT>] [--group <GROUP>]\n",
    "  batch   <INPUTS>... -d <OUTPUT_DIR> [-j <JOBS>] [--group <GROUP>] [--report <REPORT>]\n",
    "  help    [COMMAND]\n\n", "Options:\n", "  --config <CONFIG>  -v, --verbose  -q, --quiet\n",
    "  -h, --help  -V, --version\n"]

namespace Exit

def ofUsage : Usage → Exit
  | .wrong => ⟨2, { err := ["error: wrong usage; try --help"] }⟩
  | .help => ⟨0, { out := helpText }⟩
  | .version => ⟨0, { out := versionText }⟩

/-- The end of a run that has printed something and gives `succeeded` of its result. -/
def ofResult {α : Type} (printed : Printed) (result : Except RunError α) (succeeded : α → Bool) : Exit :=
  match result with
  | .ok a => ⟨if succeeded a then 0 else 1, printed⟩
  | .error e => ⟨1, { printed with err := printed.err ++ [e.message] }⟩

end Exit

variable {m : Type → Type} [Monad m]

/-- Runs the program; `environment` is the path of the settings that the environment names. -/
def runCommandLine (d : Disk m) (environment : Option Text) (args : List Text) : m Exit := do
  match Invocation.parse args with
  | .error u => pure (Exit.ofUsage u)
  | .ok i =>
    match ← (Settings.resolve d i.config environment).run with
    | .error e => pure ⟨1, { err := [e.message] }⟩
    | .ok s =>
      match i.command with
      | .filter r => do
        let (printed, result) ← r.run d s
        pure (Exit.ofResult printed result (fun _ => true))
      | .batch r => do
        let (printed, result) ← r.run d s
        pure (Exit.ofResult printed result (!·.hasFailures))

end ClassdefDoc
