import ClassdefDoc.Pseudocode.OfSource
import ClassdefDoc.Run.Error
import ClassdefDoc.Toml.Document

/-!
# Settings

Settings come from a TOML file; a key that is missing has its default, and keys that are not known do not
count. A macro table is a TOML file with the table `macros`, whose values are the replacements.
-/

namespace ClassdefDoc

/-- The value of a key, or the default if the key is missing. -/
def Toml.field {α : Type} (es : Toml.Entries) (key : Text) (read : Toml → Option α) (d : α) : Option α :=
  match es.lookup key with
  | none => some d
  | some v => read v

namespace MacroTable

/-- The table in a TOML document. -/
def ofEntries? (es : Toml.Entries) : Option MacroTable :=
  Toml.field es "macros"
    (fun v => do
      let entries ← v.entries?
      pure ⟨← entries.mapM (fun (name, v) => do pure (name, ← v.string?))⟩)
    {}

/-- The first of the names that are no identifiers, in the order of their characters. -/
def badName? (m : MacroTable) : Option Text :=
  ((m.entries.map (·.1)).filter (!Name.isIdentifier ·)).foldl
    (fun least name =>
      match least with
      | none => some name
      | some l => some (if Text.before name l then name else l))
    none

/-- The table that a text gives; `path` names the text in errors. -/
def parse (path text : Text) : Except RunError MacroTable :=
  match (Toml.parse text).bind ofEntries? with
  | none => .error (.macroFormat path)
  | some table =>
    match table.badName? with
    | some name => .error (.macroName name)
    | none => .ok table

/-- Reads the table in a file. -/
def load {m : Type → Type} [Monad m] (d : Disk m) (path : Text) : RunM m MacroTable := do
  let text ← d.readFile path (.macroRead path)
  match parse path text with
  | .ok table => pure table
  | .error e => throw e

end MacroTable

structure Settings where
  /-- How many files may be worked on at once; zero stands for as many as there are cores. -/
  jobs : Nat := 0
  group : Option Text := none
  banner : Bool := true
  /-- The path of a macro table. -/
  macros : Option Text := none
  /-- The extension of the files that a batch writes. -/
  outputExtension : Text := "cc"
  placeholders : Placeholders := {}
  deriving DecidableEq, Repr

/-- Placeholders in a table by name, or in an array by position. -/
def Placeholders.ofToml? (v : Toml) : Option Placeholders :=
  let d : Placeholders := {}
  match v with
  | .table _ es => do
    pure {
      typeToken := ← Toml.field es "type_token" Toml.string? d.typeToken
      noReturn := ← Toml.field es "no_return" Toml.string? d.noReturn
      singleReturn := ← Toml.field es "single_return" Toml.string? d.singleReturn
      multiReturn := ← Toml.field es "multi_return" Toml.string? d.multiReturn
      eventType := ← Toml.field es "event_type" Toml.string? d.eventType }
  | .array items => do
    let given ← (items.take 5).mapM Toml.string?
    pure {
      typeToken := given[0]?.getD d.typeToken
      noReturn := given[1]?.getD d.noReturn
      singleReturn := given[2]?.getD d.singleReturn
      multiReturn := given[3]?.getD d.multiReturn
      eventType := given[4]?.getD d.eventType }
  | _ => none

namespace Settings

/-- The settings in a TOML document. -/
def ofEntries? (es : Toml.Entries) : Option Settings := do
  let d : Settings := {}
  pure {
    jobs := ← Toml.field es "jobs" Toml.nat? d.jobs
    group := ← Toml.field es "group" (fun v => v.string?.map some) d.group
    banner := ← Toml.field es "banner" Toml.boolean? d.banner
    macros := ← Toml.field es "macros" (fun v => v.string?.map some) d.macros
    outputExtension := ← Toml.field es "output_extension" Toml.string? d.outputExtension
    placeholders := ← Toml.field es "placeholders" Placeholders.ofToml? d.placeholders }

def check (s : Settings) : Except SettingsError Unit :=
  if s.outputExtension.isEmpty || s.outputExtension.any (fun c => c == '/' || c == '\\' || c == '.') then
    .error (.outputExtension s.outputExtension)
  else s.placeholders.check.mapError .layout

/-- The settings that a text gives; `path` names the text in errors. -/
def parse (path text : Text) : Except RunError Settings :=
  match (Toml.parse text).bind ofEntries? with
  | none => .error (.settingsFormat path)
  | some s =>
    match s.check with
    | .ok _ => .ok s
    | .error e => .error (.settings e)

/-- The number of files worked on at once, if there are `cores` cores. -/
def workers (s : Settings) (cores : Nat) : Nat := if s.jobs = 0 then cores else min s.jobs cores

variable {m : Type → Type} [Monad m]

/-- Reads the settings in a file. -/
def load (d : Disk m) (path : Text) : RunM m Settings := do
  let text ← d.readFile path (.read path)
  match parse path text with
  | .ok s => pure s
  | .error e => throw e

/-- The settings of a file named by the caller, or else by the environment, or else the defaults. -/
def resolve (d : Disk m) (given environment : Option Text) : RunM m Settings :=
  match given.or environment with
  | some path => load d path
  | none => pure {}

/-- The options that settings stand for; the macro table is read. -/
def options (d : Disk m) (s : Settings) : RunM m Options := do
  let macros ← match s.macros with
    | some path => MacroTable.load d path
    | none => pure {}
  let o : Options := {
    layout := { group := s.group, banner := s.banner, placeholders := s.placeholders }
    macros := macros }
  match o.check with
  | .ok _ => pure o
  | .error e => throw (.settings (.layout e))

end Settings

end ClassdefDoc
