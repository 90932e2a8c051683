import ClassdefDoc.CommandLine.Invocation

/-!
# The program

Reads the command line, works on the files of the machine and prints.
-/

namespace ClassdefDoc

/-- A string of the machine as text. -/
def ofMachine (s : String) : Text := s.toList

def toMachine (t : Text) : String := String.ofList t

def fileErrorOf : IO.Error → FileError
  | .noFileOrDirectory .. => .missing
  | .alreadyExists .. => .exists
  | .resourceBusy .. => .busy
  | .inappropriateType _ code text =>
    if code = 20 then .notDirectory else if code = 21 then .isDirectory else .other (ofMachine text)
  | e => .other (ofMachine (toString e))

/-- Runs an action on files. -/
def attempt {α : Type} (action : IO α) : IO (Except FileError α) := do
  try pure (.ok (← action))
  catch e => pure (.error (fileErrorOf e))

def readMachineFile (path : Text) : IO (Except FileError Text) := do
  match ← attempt (IO.FS.readBinFile (toMachine path)) with
  | .error e => pure (.error e)
  | .ok bytes =>
    match String.fromUTF8? bytes with
    | some s => pure (.ok (ofMachine s))
    | none => pure (.error .notText)

/-- Writes a file beside its place and then moves it there. -/
def writeMachineFile (path text : Text) : IO (Except FileError Unit) := do
  let dir := toMachine (match Path.splitName? path with
    | some (lead, _) => if lead.isEmpty then ".".toList else lead
    | none => ".")
  let aside := toMachine (Path.join dir.toList ".mdoxy-unfinished")
  attempt do
    IO.FS.createDirAll dir
    IO.FS.writeFile aside (toMachine text)
    try IO.FS.rename aside (toMachine path)
    catch e =>
      IO.FS.removeFile aside
      throw e

def machineDisk : Disk IO where
  read := readMachineFile
  write := writeMachineFile

end ClassdefDoc

open ClassdefDoc in
def main (args : List String) : IO UInt32 := do
  let environment ← IO.getEnv "MDOXY_CONFIG"
  let exit ← runCommandLine machineDisk (environment.map ofMachine) (args.map ofMachine)
  for line in exit.printed.err do
    IO.eprintln (toMachine line)
  IO.print (toMachine exit.printed.out)
  pure exit.code.toUInt32
