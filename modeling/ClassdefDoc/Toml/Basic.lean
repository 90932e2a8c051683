import ClassdefDoc.Text.Basic

/-!
# TOML values and tables

A TOML document is a table. A table may be opened by a header `[a.b]`, which implies
the table `a`; by a dotted key `a.b = 1`; or it may be written in braces. How a table
came about decides what may still be added to it, and `Toml.update` keeps these rules.
-/

namespace ClassdefDoc

/-- How a table came about. -/
inductive TableOrigin where
  /-- A header of its own. -/
  | header
  /-- On the way to the table of a header. -/
  | implied
  /-- On the way to a dotted key. -/
  | dotted
  /-- Braces. -/
  | braces
  deriving DecidableEq, Repr

inductive Toml where
  | string (t : Text)
  | integer (n : Int)
  | float
  | boolean (b : Bool)
  /-- A date, a time or both. -/
  | moment
  | array (items : List Toml)
  | table (origin : TableOrigin) (entries : List (Text × Toml))
  /-- Tables opened by headers `[[a]]`, in order. -/
  | tables (items : List (List (Text × Toml)))
  deriving Repr

namespace Toml

/-- The entries of a table. -/
abbrev Entries := List (Text × Toml)

/-- The entries with the value of a key replaced. -/
def replace (key : Text) (value : Toml) (es : Entries) : Entries :=
  es.map (fun e => if e.1 = key then (key, value) else e)

/-- Changes the entries of the table that a path leads to. Tables that are missing on the way are made. A
dotted path leads through no table that has a header or braces, and no path leads through braces or a value
that is no table; of several tables under one key, the last counts. -/
def update (dotted : Bool) (change : TableOrigin → Entries → Option Entries) :
    List Text → TableOrigin → Entries → Option Entries
  | [], origin, es => change origin es
  | key :: path, _, es =>
    match es.lookup key with
    | none =>
      let origin : TableOrigin := if dotted then .dotted else .implied
      (update dotted change path origin []).map (fun inner => es ++ [(key, table origin inner)])
    | some (table origin inner) =>
      if origin = .braces || (dotted && origin = .header) then none
      else (update dotted change path origin inner).map
        (fun inner => replace key (table origin inner) es)
    | some (tables items) =>
      match items.getLast? with
      | none => none
      | some last => (update dotted change path .header last).map
          (fun inner => replace key (tables (items.dropLast ++ [inner])) es)
    | some _ => none

/-- Adds a value under a dotted key to a table. A key is given once, and a dotted key adds only to tables that
dotted keys have made. -/
def addKey (path : List Text) (key : Text) (value : Toml) : TableOrigin → Entries → Option Entries :=
  update true
    (fun origin es =>
      if (path != [] && origin != .dotted) || (es.lookup key).isSome then none
      else some (es ++ [(key, value)]))
    path

/-- Opens the table of a header in the table above it. A table has one header. -/
def openTable (key : Text) (es : Entries) : Option Entries :=
  match es.lookup key with
  | none => some (es ++ [(key, table .header [])])
  | some (table .implied inner) => some (replace key (table .header inner) es)
  | some _ => none

/-- Opens one more table under a key. -/
def openElement (key : Text) (es : Entries) : Option Entries :=
  match es.lookup key with
  | none => some (es ++ [(key, tables [[]])])
  | some (tables items) => some (replace key (tables (items ++ [[]])) es)
  | some _ => none

/-- The table of a list of dotted keys and their values. -/
def ofKeys (keys : List (List Text × Text × Toml)) : Option Toml :=
  (keys.foldlM (fun es (path, key, value) => addKey path key value .braces es) []).map (table .braces)

/-- The text of a string. -/
def string? : Toml → Option Text
  | string t => some t
  | _ => none

/-- A number from zero up. -/
def nat? : Toml → Option Nat
  | integer (.ofNat n) => some n
  | _ => none

def boolean? : Toml → Option Bool
  | boolean b => some b
  | _ => none

/-- The entries of one table. -/
def entries? : Toml → Option Entries
  | table _ es => some es
  | _ => none

end Toml

end ClassdefDoc
