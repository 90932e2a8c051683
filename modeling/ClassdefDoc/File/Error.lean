import ClassdefDoc.Text.Basic

/-!
# File errors

Why a file cannot be read or written, with the wording of the operating system.
-/

namespace ClassdefDoc

inductive FileError where
  | missing | busy | exists | notDirectory | isDirectory
  /-- The content is not text. -/
  | notText
  /-- Any other reason. -/
  | other (text : Text)
  deriving DecidableEq, Repr

def FileError.text : FileError → Text
  | missing => "No such file or directory (os error 2)"
  | busy => "Device or resource busy (os error 16)"
  | .exists => "File exists (os error 17)"
  | notDirectory => "Not a directory (os error 20)"
  | isDirectory => "Is a directory (os error 21)"
  | notText => "stream did not contain valid UTF-8"
  | other text => text

/-- Reading and writing whole files. -/
structure Disk (m : Type → Type) where
  read : Text → m (Except FileError Text)
  /-- Writes a file completely or not at all; missing directories are made. -/
  write : Text → Text → m (Except FileError Unit)

end ClassdefDoc
