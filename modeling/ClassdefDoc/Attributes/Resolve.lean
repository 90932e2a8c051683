import ClassdefDoc.Attributes.Region
import ClassdefDoc.Class.Basic
import ClassdefDoc.Diagnostic

/-!
# Resolving attribute lists

An attribute list puts the members of its block into a region and attaches notes to them. Names are
compared without regard to case. A key that is repeated with different values is reported; its flags
count as true if one of them is, and of its access levels the strictest one counts. So the order of a
list does not change the region.

The pseudo-code has one access level for each member: if a property differs in who may set and who
may get it, the stricter level is used and a note spells out both.
-/

namespace ClassdefDoc

namespace AttributeValue

/-- The form in which values are compared. -/
def normal : AttributeValue → Text
  | flag b => (flag b).text
  | word w => Text.lower w
  | raw t => Text.trim t

/-- The truth value, if there is one. -/
def truth? (v : AttributeValue) : Option Bool :=
  let ofText (t : Text) : Option Bool :=
    let t := Text.lower (Text.trim t)
    if t = "true".toList || t = "1".toList then some true
    else if t = "false".toList || t = "0".toList then some false
    else none
  match v with
  | flag b => some b
  | word w => ofText w
  | raw t => ofText t

end AttributeValue

/-- All occurrences of one key in a list. -/
structure AttributeKey where
  /-- The name as it is written first. -/
  name : Text
  values : List AttributeValue
  /-- The position of the first occurrence. -/
  position : Position
  deriving DecidableEq, Repr

namespace AttributeKey

def key (k : AttributeKey) : Text := Text.lower k.name

/-- Adds an occurrence to the keys before it. -/
def add (a : Attribute) : List AttributeKey → List AttributeKey
  | [] => [⟨a.name, [a.value], a.position⟩]
  | k :: rest =>
    if k.key = Text.lower a.name then { k with values := k.values ++ [a.value] } :: rest
    else k :: add a rest

/-- The keys of a list in the order of their first occurrences. -/
def ofList (attributes : List Attribute) : List AttributeKey :=
  attributes.foldl (fun keys a => add a keys) []

/-- The different values in normal form, in the order of their first occurrences. -/
def distinct (k : AttributeKey) : List Text :=
  (k.values.map (·.normal)).foldl (fun seen v => if seen.contains v then seen else seen ++ [v]) []

def conflicts (k : AttributeKey) : Bool := 1 < k.distinct.length

/-- Whether one of the values is true; each has to be true or false. -/
def flag (k : AttributeKey) : Except Fault Bool :=
  k.values.foldlM
    (fun asserted v =>
      match v.truth? with
      | some b => .ok (asserted || b)
      | none => .error ⟨.notBoolean k.name v.text, k.position⟩)
    false

def accessOf (k : AttributeKey) (v : AttributeValue) : Except Fault Access :=
  match v with
  | .word w =>
    match Access.ofWord? w with
    | some a => .ok a
    | none => .error ⟨.unknownAccess k.name w, k.position⟩
  | .raw t =>
    if t.contains '?' then
      .error ⟨.unsupported (Text.join ["meta-class access list '", t, "'"]), k.position⟩
    else .error ⟨.notAccess k.name v.text, k.position⟩
  | .flag _ => .error ⟨.notAccess k.name v.text, k.position⟩

/-- The strictest of the access levels. -/
def access (k : AttributeKey) : Except Fault Access :=
  k.values.foldlM (fun level v => (k.accessOf v).map level.strictest) .public

end AttributeKey

/-- What an attribute list is attached to. -/
inductive AttributeOwner where
  | «class»
  | block (kind : BlockKind)
  deriving DecidableEq, Repr

namespace AttributeOwner

def text : AttributeOwner → Text
  | .class => "class definition"
  | block kind => Text.join [kind.word, " block"]

/-- What a note calls the thing it is about. -/
def noun : AttributeOwner → Text
  | .class => "class"
  | block .properties => "property"
  | block .methods => "method"
  | block .events => "event"

/-- The known keys in lower case. -/
def knownKeys : AttributeOwner → List Text
  | .class =>
    ["sealed", "abstract", "hidden", "handlecompatible", "constructonload", "allowedsubclasses",
      "inferiorclasses", "description", "detaileddescription"]
  | block .properties =>
    ["access", "setaccess", "getaccess", "constant", "dependent", "hidden", "transient", "abstract",
      "abortset", "setobservable", "getobservable", "noncopyable", "description",
      "detaileddescription"]
  | block .methods =>
    ["access", "static", "abstract", "hidden", "sealed", "description", "detaileddescription"]
  | block .events => ["listenaccess", "notifyaccess", "hidden", "description", "detaileddescription"]

/-- The findings about the keys of a list: first the unknown ones, then the conflicting ones. -/
def findings (owner : AttributeOwner) (keys : List AttributeKey) : List Diagnostic :=
  (keys.filter (fun k => !owner.knownKeys.contains k.key)).map
      (fun k => ⟨.unknownAttribute k.name owner.text, k.position, none⟩) ++
    (keys.filter (·.conflicts)).map
      (fun k => ⟨.conflictingAttribute k.name owner.text k.distinct, k.position, none⟩)

/-- One note for each conflicting key. -/
def conflictNotes (owner : AttributeOwner) (keys : List AttributeKey) : List Text :=
  (keys.filter (·.conflicts)).map fun k =>
    Text.join ["This ", owner.noun, " has conflicting values for attribute <tt>", k.name, "</tt>: ",
      Text.joinWith ", " k.distinct]

end AttributeOwner

/-- What an attribute list means for the members of its block. -/
structure Resolved where
  region : Region
  /-- All modifiers that are set. -/
  modifiers : List Modifier
  notes : List Text
  deriving DecidableEq, Repr

namespace Resolved

def has (r : Resolved) (m : Modifier) : Bool := r.modifiers.contains m

/-- The modifiers that are set in a list. -/
def modifiersOf (keys : List AttributeKey) : Except Fault (List Modifier) := do
  let set ← keys.filterMapM fun k =>
    match Modifier.ofWord? k.key with
    | none => pure none
    | some m => do pure (if ← k.flag then some m else none)
  pure (Modifier.setOf set)

/-- The access level given by a key, if it occurs. -/
def accessOf? (keys : List AttributeKey) (key : Text) : Except Fault (Option Access) :=
  match keys.find? (·.key == key) with
  | none => .ok none
  | some k => k.access.map some

/-- The modifiers that members are told about, in the order of the notes. -/
def notedModifiers : BlockKind → List Modifier
  | .properties =>
    [.transient, .dependent, .hidden, .abortSet, .setObservable, .getObservable, .nonCopyable]
  | .methods => [.hidden, .sealed]
  | .events => [.hidden]

def modifierNote (kind : BlockKind) (m : Modifier) : Text :=
  Text.join ["This ", (AttributeOwner.block kind).noun, " has the MATLAB ",
    if kind = .methods then "method attribute" else "attribute", " @c ", m.word, " set to true."]

/-- The note on two access levels that differ. -/
def accessNote (kind : BlockKind) (firstKey secondKey : Text) (first second : Access) : List Text :=
  if first = second then []
  else [Text.join ["This ", (AttributeOwner.block kind).noun,
    " has non-unique access specifier: <tt>", firstKey, " = ", first.word, ", ", secondKey, " = ",
    second.word, "</tt>"]]

/-- The access level of a block and the note on it. -/
def accessOf (kind : BlockKind) (keys : List AttributeKey) : Except Fault (Access × List Text) :=
  match kind with
  | .properties => do
    let both ← accessOf? keys "access"
    let set := ((← accessOf? keys "setaccess").or both).getD .public
    let get := ((← accessOf? keys "getaccess").or both).getD .public
    pure (set.strictest get, accessNote kind "SetAccess" "GetAccess" set get)
  | .methods => do pure ((← accessOf? keys "access").getD .public, [])
  | .events => do
    let listen := (← accessOf? keys "listenaccess").getD .public
    let notify := (← accessOf? keys "notifyaccess").getD .public
    pure (listen, accessNote kind "ListenAccess" "NotifyAccess" listen notify)

/-- The meaning of the keys of a block's list. -/
def ofKeys (kind : BlockKind) (keys : List AttributeKey) : Except Fault Resolved := do
  let modifiers ← modifiersOf keys
  let (access, accessNotes) ← accessOf kind keys
  pure {
    region := ⟨access, modifiers.filter (·.splitsRegion)⟩
    modifiers := modifiers
    notes := ((notedModifiers kind).filter (modifiers.contains ·)).map (modifierNote kind) ++
      accessNotes ++ (AttributeOwner.block kind).conflictNotes keys }

end Resolved

/-- The findings about a block's attribute list, and its meaning. -/
def resolveBlock (kind : BlockKind) (attributes : List Attribute) :
    List Diagnostic × Except Fault Resolved :=
  let keys := AttributeKey.ofList attributes
  ((AttributeOwner.block kind).findings keys, Resolved.ofKeys kind keys)

/-- The class attributes that are noted, with their notes. -/
def classNotes : List (Text × Text) :=
  [("sealed", "This class has the class property <tt>Sealed</tt> and cannot be derived from."),
    ("abstract", "This class has the class property <tt>Abstract</tt> and cannot be instantiated."),
    ("hidden",
      "This class has the class property <tt>Hidden</tt> and is not listed in class queries."),
    ("handlecompatible",
      "This class has the class property <tt>HandleCompatible</tt> and can be combined with handle classes."),
    ("constructonload",
      "This class has the class property <tt>ConstructOnLoad</tt>: its constructor runs when an object is loaded.")]

/-- The findings about a class's attribute list, and the notes on the class. -/
def resolveClass (attributes : List Attribute) : List Diagnostic × Except Fault (List Text) :=
  let keys := AttributeKey.ofList attributes
  (AttributeOwner.class.findings keys, do
    let notes ← classNotes.filterMapM fun (key, note) =>
      match keys.find? (·.key == key) with
      | none => pure none
      | some k => do pure (if ← k.flag then some note else none)
    pure (notes ++ AttributeOwner.class.conflictNotes keys))

end ClassdefDoc
