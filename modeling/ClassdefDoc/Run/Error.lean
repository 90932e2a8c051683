import ClassdefDoc.File.Error
import ClassdefDoc.Fault
import ClassdefDoc.Pseudocode.Layout

/-!
# Errors of a run

What can stop the work on a file or a whole run, with its wording.
-/

namespace ClassdefDoc

/-- Why settings are refused. -/
inductive SettingsError where
  | outputExtension (found : Text)
  | layout (e : LayoutError)
  deriving DecidableEq, Repr

def SettingsError.message : SettingsError → Text
  | outputExtension found =>
    Text.join ["output_extension must be a bare extension, found '", found, "'"]
  | layout e => e.message

inductive RunError where
  | read (path : Text) (e : FileError)
  | write (path : Text) (e : FileError)
  /-- A settings file is no TOML document, or a value has the wrong type. -/
  | settingsFormat (path : Text)
  | settings (e : SettingsError)
  | macroRead (path : Text) (e : FileError)
  /-- A macro table is no TOML document, or a value has the wrong type. -/
  | macroFormat (path : Text)
  | macroName (name : Text)
  | layout (e : LayoutError)
  | source (e : SourceError)
  /-- The output of an input is that of an earlier one. -/
  | collision (input output first : Text)
  deriving DecidableEq, Repr

def RunError.message : RunError → Text
  | read path e => Text.join ["Failed to read ", path, ": ", e.text]
  | write path e => Text.join ["Failed to write ", path, ": ", e.text]
  | settingsFormat path =>
    Text.join ["Invalid configuration file ", path, ": not a TOML document of settings"]
  | settings e => Text.join ["Invalid configuration: ", e.message]
  | macroRead path e => Text.join ["Failed to read macro table ", path, ": ", e.text]
  | macroFormat path =>
    Text.join ["Invalid macro table ", path, ": not a TOML document of macros"]
  | macroName name => Text.join ["Invalid macro name '", name, "'"]
  | layout e => Text.join ["Invalid filter configuration: ", e.message]
  | source e => e.text
  | collision input output first =>
    Text.join [input, ": output ", output, " is already produced by ", first]

/-- A part of a run. -/
abbrev RunM (m : Type → Type) := ExceptT RunError m

namespace Disk

variable {m : Type → Type} [Monad m]

/-- Reads a file; `wrap` turns a failure into an error of the run. -/
def readFile (d : Disk m) (path : Text) (wrap : FileError → RunError) : RunM m Text :=
  ExceptT.mk do pure ((← d.read path).mapError wrap)

def writeFile (d : Disk m) (path text : Text) : RunM m Unit :=
  ExceptT.mk do pure ((← d.write path text).mapError (.write path))

end Disk

end ClassdefDoc
