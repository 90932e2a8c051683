import ClassdefDoc.Text.Basic

/-!
# Access, modifiers and regions

A region of the pseudo-code has one access level and a set of modifiers. A set of modifiers is listed
in the order of `Modifier.all`, so equal sets are equal lists.
-/

namespace ClassdefDoc

/-- Access levels, from least to most restrictive. -/
inductive Access where
  | «public» | «protected» | «private»
  deriving DecidableEq, Repr

namespace Access

/-- An access level by its name in any case. What can be set only once counts as private. -/
def ofWord? (w : Text) : Option Access :=
  let w := Text.lower w
  if w = "public".toList then some .public
  else if w = "protected".toList then some .protected
  else if w = "private".toList || w = "immutable".toList then some .private
  else none

def word : Access → Text
  | .public => "public"
  | .protected => "protected"
  | .private => "private"

def rank : Access → Nat
  | .public => 0
  | .protected => 1
  | .private => 2

/-- The more restrictive of two levels. -/
def strictest (a b : Access) : Access := if a.rank ≤ b.rank then b else a

end Access

/-- Attributes that are true or false. -/
inductive Modifier where
  | «abstract» | constant | dependent | hidden | sealed | static | transient
  | abortSet | getObservable | nonCopyable | setObservable
  deriving DecidableEq, Repr

namespace Modifier

/-- The modifiers in the order in which they are listed. -/
def all : List Modifier :=
  [.abstract, constant, dependent, hidden, sealed, static, transient, abortSet, getObservable,
    nonCopyable, setObservable]

def word : Modifier → Text
  | .abstract => "Abstract"
  | constant => "Constant"
  | dependent => "Dependent"
  | hidden => "Hidden"
  | sealed => "Sealed"
  | static => "Static"
  | transient => "Transient"
  | abortSet => "AbortSet"
  | getObservable => "GetObservable"
  | nonCopyable => "NonCopyable"
  | setObservable => "SetObservable"

/-- A modifier by its name in any case. -/
def ofWord? (w : Text) : Option Modifier := all.find? (fun m => Text.sameWord m.word w)

/-- Modifiers that set a region apart. -/
def splitsRegion : Modifier → Bool
  | .abstract | constant | dependent | hidden | sealed | static | transient => true
  | _ => false

/-- The set of the modifiers in a list. -/
def setOf (ms : List Modifier) : List Modifier := all.filter (ms.contains ·)

end Modifier

structure Region where
  access : Access
  modifiers : List Modifier
  deriving DecidableEq, Repr

/-- The marker of a region, such as `public: /* ( Abstract, Static ) */`. -/
def Region.text (r : Region) : Text :=
  Text.join [r.access.word, ":",
    if r.modifiers.isEmpty then []
    else Text.join [" /* ( ", Text.joinWith ", " (r.modifiers.map (·.word)), " ) */"]]

end ClassdefDoc
