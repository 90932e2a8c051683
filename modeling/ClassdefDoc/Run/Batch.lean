import ClassdefDoc.Run.Report
import ClassdefDoc.Run.Settings

/-!
# Batches

A batch writes the pseudo-code of many files below one directory, where package directories are kept. Outputs
are planned before any file is read: of inputs that share an output, the first one has it and the others fail.
-/

namespace ClassdefDoc

structure Batch where
  options : Options
  outputDir : Text
  extension : Text

namespace Batch

/-- The path of an input's output. -/
def outputPath (b : Batch) (input : Text) : Text :=
  let dir := (Path.packages input).foldl (fun dir package => Path.join dir ('+' :: package)) b.outputDir
  Path.withExtension (Path.join dir ((Path.stem? input).getD "out")) b.extension

/-- The outputs of inputs after others; `claimed` are the outputs and inputs of those. -/
def planAfter (b : Batch) (claimed : List (Text × Text)) : List Text → List (Except RunError Text)
  | [] => []
  | input :: rest =>
    let output := b.outputPath input
    match claimed.find? (fun c => Path.same c.1 output) with
    | some (path, first) => .error (.collision input path first) :: b.planAfter claimed rest
    | none => .ok output :: b.planAfter ((output, input) :: claimed) rest

/-- The output of each input, or the collision with an earlier one. -/
def plan (b : Batch) (inputs : List Text) : List (Except RunError Text) := b.planAfter [] inputs

/-- The pseudo-code of a source text. -/
def pseudocode (b : Batch) (input text : Text) : Except RunError Pseudocode :=
  (b.options.pseudocode ⟨input, text⟩).mapError .source

variable {m : Type → Type} [Monad m]

/-- Reads an input and writes its output. -/
def writeOutput (d : Disk m) (b : Batch) (input output : Text) : RunM m (List Diagnostic) := do
  let text ← d.readFile input (.read input)
  match b.pseudocode input text with
  | .error e => throw e
  | .ok p =>
    d.writeFile output p.text
    pure p.diagnostics

/-- What becomes of an input whose output is planned. -/
def process (d : Disk m) (b : Batch) (cancelled : Bool) (input : Text)
    (planned : Except RunError Text) : m FileReport := do
  if cancelled then pure ⟨input, .skipped, []⟩
  else
    match planned with
    | .error e => pure ⟨input, .failed e.message, []⟩
    | .ok output =>
      match ← (b.writeOutput d input output).run with
      | .ok found => pure ⟨input, .written output, found⟩
      | .error e => pure ⟨input, .failed e.message, []⟩

/-- Works on all inputs in order. -/
def run (d : Disk m) (b : Batch) (cancelled : Bool) (inputs : List Text) : m Report := do
  pure ⟨← (inputs.zip (b.plan inputs)).mapM (fun (input, planned) => b.process d cancelled input planned)⟩

/-- The number of files worked on at once, for a wish and a number of cores. -/
def workers (cores wish : Nat) : Nat := max 1 (min wish cores)

end Batch

end ClassdefDoc
