import ClassdefDoc.Text.Basic

/-!
# Paths

Paths are compared and taken apart by their parts. Repeated and final slashes do not count, nor does a
`.` other than at the start of a relative path; `..` is a part like any other and is not resolved.
-/

namespace ClassdefDoc

namespace Path

inductive Part where
  | root
  /-- A leading `.` -/
  | here
  /-- The part `..` -/
  | up
  | name (n : Text)
  deriving DecidableEq, Repr

namespace Part

def text : Part → Text
  | root => "/"
  | here => "."
  | up => ".."
  | name n => n

/-- The part spelled by the text between two slashes, if it counts. -/
def ofText? (t : Text) : Option Part :=
  if t = [] || t = ".".toList then none
  else if t = "..".toList then some up
  else some (name t)

def name? : Part → Option Text
  | name n => some n
  | _ => none

end Part

/-- The parts of a path. -/
def parts (path : Text) : List Part :=
  match path with
  | '/' :: _ => .root :: (Text.split '/' path).filterMap Part.ofText?
  | _ =>
    match Text.split '/' path with
    | first :: rest =>
      (if first = ".".toList then [.here] else (Part.ofText? first).toList) ++
        rest.filterMap Part.ofText?
    | [] => []

/-- Whether two paths have the same parts. -/
def same (p q : Text) : Bool := parts p == parts q

/-- The names of the package directories that a path lies in, outermost first. -/
def packages (path : Text) : List Text :=
  (parts path).dropLast.filterMap fun part =>
    match part.name? with
    | some ('+' :: name) => some name
    | _ => none

/-- Drops the slashes and the parts `.` that end a path, which is given last character first. -/
def dropTail : Text → Text
  | '/' :: rest => dropTail rest
  | '.' :: '/' :: rest => dropTail rest
  | rest => rest

/-- The last part of a path, if it is a name, and the text before it. -/
def splitName? (path : Text) : Option (Text × Text) :=
  let back := dropTail path.reverse
  let name := (back.takeWhile (· != '/')).reverse
  if name = [] || name = ".".toList || name = "..".toList then none
  else some ((back.dropWhile (· != '/')).reverse, name)

/-- A name without its extension, which starts at the last point. A point that starts the name starts no
extension. -/
def stemOf (name : Text) : Text :=
  match name.reverse.dropWhile (· != '.') with
  | [] | [_] => name
  | _ :: stem => stem.reverse

/-- The stem of the last part of a path, if that is a name. -/
def stem? (path : Text) : Option Text := (splitName? path).map (fun p => stemOf p.2)

/-- The path that leads from one path on to another; an absolute path stands for itself. -/
def join (path next : Text) : Text :=
  if next.head? = some '/' then next
  else if path.getLast?.all (· == '/') then path ++ next
  else path ++ '/' :: next

/-- The path with the extension of its last name replaced. An empty extension removes it. -/
def withExtension (path ext : Text) : Text :=
  match splitName? path with
  | none => path
  | some (lead, name) => Text.join [lead, stemOf name, if ext.isEmpty then [] else '.' :: ext]

end Path

end ClassdefDoc
