import ClassdefDoc.Diagnostic
import ClassdefDoc.Run.Json

/-!
# Reports

A report tells what became of each input of a batch, in the order of the inputs.
-/

namespace ClassdefDoc

/-- What became of an input. -/
inductive Fate where
  | written (output : Text)
  | failed (error : Text)
  /-- The batch was cancelled before the input was started. -/
  | skipped
  deriving DecidableEq, Repr

namespace Fate

def status : Fate → Text
  | written _ => "translated"
  | failed _ => "failed"
  | skipped => "skipped"

def isWritten : Fate → Bool
  | written _ => true
  | _ => false

def isFailed : Fate → Bool
  | failed _ => true
  | _ => false

end Fate

structure FileReport where
  input : Text
  fate : Fate
  diagnostics : List Diagnostic := []
  deriving DecidableEq, Repr

structure Report where
  files : List FileReport
  deriving DecidableEq, Repr

namespace FileReport

/-- The diagnostics of a file and then its error. -/
def messages (f : FileReport) : List Text :=
  f.diagnostics.map (·.text) ++
    match f.fate with
    | .failed error => [error]
    | _ => []

end FileReport

namespace Report

def messages (r : Report) : List Text := r.files.flatMap (·.messages)

def diagnostics (r : Report) : List Diagnostic := r.files.flatMap (·.diagnostics)

def written (r : Report) : Nat := r.files.countP (·.fate.isWritten)

def failed (r : Report) : Nat := r.files.countP (·.fate.isFailed)

def skipped (r : Report) : Nat := r.files.countP (·.fate == .skipped)

def hasFailures (r : Report) : Bool := 0 < r.failed

/-! ## As JSON -/

def diagnosticJson (depth : Nat) (d : Diagnostic) : Text :=
  Json.object depth [("severity", Json.string d.finding.severity.text),
    ("kind", Json.string d.finding.kind), ("line", Json.number d.position.line),
    ("column", Json.number d.position.column), ("message", Json.string d.finding.message),
    ("file", Json.string? d.file)]

def fileJson (depth : Nat) (f : FileReport) : Text :=
  let diagnostics : Text × Text :=
    ("diagnostics", Json.array (depth + 1) (f.diagnostics.map (diagnosticJson (depth + 2))))
  let rest : List (Text × Text) := match f.fate with
    | .written output => [("output", Json.string output), diagnostics]
    | .failed error => [("error", Json.string error), diagnostics]
    | .skipped => [diagnostics]
  Json.object depth
    (("status", Json.string f.fate.status) :: ("input", Json.string f.input) :: rest)

def json (r : Report) : Text :=
  Json.object 0 [("files", Json.array 1 (r.files.map (fileJson 2)))]

end Report

end ClassdefDoc
