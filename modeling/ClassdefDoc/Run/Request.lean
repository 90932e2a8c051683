import ClassdefDoc.Run.Batch

/-!
# Requests

A filter request asks for the pseudo-code of one file, a batch request for that of many. What a request says
counts more than the settings.
-/

namespace ClassdefDoc

/-- What a run prints. -/
structure Printed where
  out : Text := []
  /-- The lines of messages. -/
  err : List Text := []
  deriving DecidableEq, Repr

structure FilterRequest where
  input : Text
  /-- The path of a macro table. -/
  macros : Option Text := none
  /-- The path to write to; without it the pseudo-code is printed. -/
  output : Option Text := none
  group : Option Text := none
  deriving DecidableEq, Repr

structure BatchRequest where
  inputs : List Text
  outputDir : Text
  jobs : Option Nat := none
  group : Option Text := none
  /-- The path of the report to write. -/
  report : Option Text := none
  deriving DecidableEq, Repr

/-- The options with another group, if one is given. -/
def Options.withGroup (o : Options) (group : Option Text) : Options :=
  { o with layout := { o.layout with group := group.or o.layout.group } }

/-- Options that pass their check. -/
def Options.checked (o : Options) : Except RunError Options :=
  match o.check with
  | .ok _ => .ok o
  | .error e => .error (.layout e)

variable {m : Type → Type} [Monad m]

namespace FilterRequest

/-- The pseudo-code of the input. -/
def pseudocode (d : Disk m) (s : Settings) (r : FilterRequest) : RunM m Pseudocode := do
  let o ← s.options d
  let macros ← match r.macros with
    | some path => MacroTable.load d path
    | none => pure o.macros
  let text ← d.readFile r.input (.read r.input)
  let o ← liftExcept (({ o with macros := macros }.withGroup r.group).checked)
  liftExcept ((o.pseudocode ⟨r.input, text⟩).mapError .source)
where
  liftExcept {α : Type} (e : Except RunError α) : RunM m α := ExceptT.mk (pure e)

/-- Prints the diagnostics, then prints or writes the pseudo-code. -/
def run (d : Disk m) (s : Settings) (r : FilterRequest) : m (Printed × Except RunError Unit) := do
  match ← (r.pseudocode d s).run with
  | .error e => pure ({}, .error e)
  | .ok p =>
    let err := p.diagnostics.map (·.text)
    match r.output with
    | none => pure (⟨p.text, err⟩, .ok ())
    | some path => pure (⟨[], err⟩, ← (d.writeFile path p.text).run)

end FilterRequest

namespace BatchRequest

/-- The batch that is asked for. -/
def batch (d : Disk m) (s : Settings) (r : BatchRequest) : RunM m Batch := do
  let o ← s.options d
  match (o.withGroup r.group).checked with
  | .error e => throw e
  | .ok o => pure ⟨o, r.outputDir, s.outputExtension⟩

/-- Runs the batch, prints its messages and writes the report. -/
def run (d : Disk m) (s : Settings) (r : BatchRequest) : m (Printed × Except RunError Report) := do
  match ← (r.batch d s).run with
  | .error e => pure ({}, .error e)
  | .ok b =>
    let report ← b.run d false r.inputs
    let printed : Printed := ⟨[], report.messages⟩
    match r.report with
    | none => pure (printed, .ok report)
    | some path =>
      match ← (d.writeFile path report.json).run with
      | .ok _ => pure (printed, .ok report)
      | .error e => pure (printed, .error e)

end BatchRequest

end ClassdefDoc
