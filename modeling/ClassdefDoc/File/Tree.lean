import ClassdefDoc.File.Error
import ClassdefDoc.Path

/-!
# File trees

A file tree is a finite map from locations to files and directories; a location is the list of the names
that lead to it. `FileTree.disk` reads and writes files in it.

A path is followed name by name, from the root or from the working directory: each part but the last has to be
a directory, `..` goes up, and a slash at the end asks for a directory.
-/

namespace ClassdefDoc

/-- What stands at a location. The content of a file that is not text is not kept. -/
inductive Node where
  | dir
  | file (content : Option Text)
  deriving DecidableEq, Repr

/-- The names that lead to a file or directory. -/
abbrev Location := List Text

/-- Where a path starts: at the root, or in the working directory. -/
def Path.start (home : Location) (path : Text) : Location := if path.head? = some '/' then [] else home

structure FileTree where
  entries : List (Location × Node) := []
  /-- The working directory. -/
  home : Location := []
  deriving DecidableEq, Repr

namespace FileTree

/-- What stands at a location; the empty location is the root. -/
def find? (t : FileTree) (l : Location) : Option Node :=
  if l.isEmpty then some .dir else t.entries.lookup l

def remove (t : FileTree) (l : Location) : FileTree :=
  { t with entries := t.entries.filter (·.1 != l) }

def insert (t : FileTree) (l : Location) (n : Node) : FileTree :=
  { t with entries := (l, n) :: (t.remove l).entries }

/-- Puts a file or directory at a location, with the directories that lead to it. -/
def put (t : FileTree) (l : Location) (n : Node) : FileTree :=
  let above := ((List.range l.length).map (l.take ·)).filter (fun d => (t.find? d).isNone)
  (above.foldl (fun t d => t.insert d .dir) t).insert l n

/-- All files in the tree. -/
def files (t : FileTree) : List (Location × Option Text) :=
  t.entries.filterMap fun (l, n) =>
    match n with
    | .file content => some (l, content)
    | .dir => none

/-! ## Following a path -/

/-- The location of a name below a location, which has to be a directory. -/
def enter (t : FileTree) (l : Location) (name : Text) : Except FileError Location :=
  match t.find? l with
  | none => .error .missing
  | some (.file _) => .error .notDirectory
  | some .dir =>
    if name = [] || name = ".".toList then .ok l
    else if name = "..".toList then .ok l.dropLast
    else .ok (l ++ [name])

/-- The location that names lead to from another one. -/
def walk (t : FileTree) (l : Location) (names : List Text) : Except FileError Location :=
  names.foldlM t.enter l

/-- Whether names lead to a directory. -/
def isDir (t : FileTree) (l : Location) (names : List Text) : Bool :=
  match t.walk l names with
  | .ok l => t.find? l == some .dir
  | .error _ => false

def read (t : FileTree) (path : Text) : Except FileError Text :=
  if path.isEmpty then .error .missing
  else do
    let l ← t.walk (Path.start t.home path) (Text.split '/' path)
    match t.find? l with
    | none => .error .missing
    | some .dir => .error .isDirectory
    | some (.file none) => .error .notText
    | some (.file (some text)) => .ok text

/-! ## Writing -/

/-- Whether a name goes nowhere new. -/
def isDots (name : Text) : Bool := name = ".".toList || name = "..".toList

/-- The tree with one more directory. -/
def makeDir (t : FileTree) (l : Location) (parent : List Text) (name : Text) :
    Except FileError FileTree := do
  let l ← t.enter (← t.walk l parent) name
  if isDots name || (t.find? l).isSome then .error .exists else .ok (t.insert l .dir)

/-- Makes the directory that names lead to from a location, and those on the way to it. The names are given
last name first. -/
def makeDirs (l : Location) : List Text → StateM FileTree (Except FileError Unit)
  | [] => pure (.ok ())
  | name :: above => do
    let settle : StateM FileTree (Except FileError Unit) := do
      let t ← get
      match t.makeDir l above.reverse name with
      | .ok t => set t; pure (.ok ())
      | .error .exists =>
        pure (if t.isDir l (name :: above).reverse then .ok () else .error .exists)
      | .error e => pure (.error e)
    match ← settle with
    | .error .missing =>
      match ← makeDirs l above with
      | .ok _ => settle
      | .error e => pure (.error e)
    | done => pure done

/-- The tree with a file put in place of what a path leads to. -/
def replace (t : FileTree) (path text : Text) : Except FileError FileTree :=
  if path.isEmpty then .error .missing
  else match (Text.split '/' path).reverse.dropWhile List.isEmpty with
    | [] => .error .busy
    | name :: above => do
      let l ← t.enter (← t.walk (Path.start t.home path) above.reverse) []
      if isDots name then .error .busy
      else if path.getLast? = some '/' then .error .notDirectory
      else match t.find? (l ++ [name]) with
        | some .dir => .error .isDirectory
        | _ => .ok (t.insert (l ++ [name]) (.file (some text)))

/-- The names of the directory that a path lies in, last name first. -/
def parentNames (path : Text) : List Text :=
  (((Path.parts path).dropLast.filter (· != .root)).map (·.text)).reverse

/-- Writes a file, after the directories on the way to it are made. -/
def write (path text : Text) : StateM FileTree (Except FileError Unit) := do
  match ← makeDirs (Path.start (← get).home path) (parentNames path) with
  | .error e => pure (.error e)
  | .ok _ =>
    match (← get).replace path text with
    | .ok t => set t; pure (.ok ())
    | .error e => pure (.error e)

def disk : Disk (StateM FileTree) where
  read path := do pure ((← get).read path)
  write := write

end FileTree

end ClassdefDoc
