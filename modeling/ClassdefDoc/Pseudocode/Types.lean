import ClassdefDoc.Documentation.DocText
import ClassdefDoc.Pseudocode.Layout

/-!
# Types, return values and parameters

Types are written in scope notation. Where the source and its documentation give no type, a placeholder
stands.
-/

namespace ClassdefDoc.Placeholders

/-- The type of a property: the declared one, or else the documented one. -/
def declaredType (p : Placeholders) (declared : Option DottedName) (documented : Option Text) : Text :=
  match declared.filter (!·.isEmpty), documented with
  | some name, _ => name.qualified
  | none, some type => Name.qualify type
  | none, none => p.typeToken

/-- The type of a return value. -/
def returnType (types : TypeMap) (name : Text) : Text :=
  match types.lookup name with
  | some type => Name.qualify type
  | none => "void"

/-- What a method with the given return values returns. -/
def returns (p : Placeholders) (names : List Text) (types : TypeMap) : Text :=
  match names with
  | [] => p.noReturn
  | [name] => Text.join [p.singleReturn, "<", returnType types name, ">"]
  | names =>
    let parts := names.map fun name =>
      Text.join [p.singleReturn, "<", returnType types name, ",", name, ">"]
    Text.join [p.multiReturn, "<", Text.joinWith " ," parts, " >"]

/-- A parameter list. A parameter that is ignored has a type and no name. -/
def params (p : Placeholders) (names : List Text) (types : TypeMap) : Text :=
  Text.joinWith "," (names.map fun name =>
    let type := match types.lookup name with
      | some type => Name.qualify type
      | none => p.typeToken
    if name = "~".toList then type else Text.join [type, " ", name])

end ClassdefDoc.Placeholders
