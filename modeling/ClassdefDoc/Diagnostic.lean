import ClassdefDoc.Fault

/-!
# Diagnostics

Findings that do not stop the work. A `Finding` says what was found; its severity, its kind and
its wording follow from it.
-/

namespace ClassdefDoc

inductive Severity where
  | info | warning
  deriving DecidableEq, Repr

def Severity.text : Severity → Text
  | info => "info"
  | warning => "warning"

inductive Finding where
  /-- A comment block documents `bound`, though it also stands above `following`. -/
  | trailingWins (bound following : Text)
  /-- A comment block above `target` is not used, because `target` is documented. -/
  | leadingUnused (target : Text)
  | conflictingAttribute (key owner : Text) (values : List Text)
  | unknownAttribute (key owner : Text)
  | undeclaredParameter (parameter member : Text)
  | undocumentedParameter (parameter member : Text)
  | unresolvedTarget (target : Text)
  | unknownMacro (name : Text)
  | missingConstant (property used : Text)
  | invalidNamespace (package used : Text)
  deriving DecidableEq, Repr

namespace Finding

def severity : Finding → Severity
  | trailingWins _ _ | leadingUnused _ | unknownAttribute _ _ => .info
  | _ => .warning

def kind : Finding → Text
  | trailingWins _ _ | leadingUnused _ => "AssociationAmbiguity"
  | conflictingAttribute _ _ _ => "ConflictingAttribute"
  | unknownAttribute _ _ => "UnknownAttribute"
  | undeclaredParameter _ _ | undocumentedParameter _ _ => "DocParamMismatch"
  | unresolvedTarget _ => "UnresolvedDocTarget"
  | unknownMacro _ => "UnknownMacro"
  | missingConstant _ _ => "MissingConstantDefault"
  | invalidNamespace _ _ => "InvalidNamespace"

def message : Finding → Text
  | trailingWins bound following =>
    Text.join ["comment block documents ", bound, " rather than the following ", following]
  | leadingUnused target =>
    Text.join ["leading comment block left unbound: ", target,
      " is already documented by a trailing block"]
  | conflictingAttribute key owner values =>
    Text.join ["attribute '", key, "' repeated with conflicting values in ", owner, ": ",
      Text.joinWith ", " values]
  | unknownAttribute key owner =>
    Text.join ["unknown attribute '", key, "' in ", owner, " ignored"]
  | undeclaredParameter parameter member =>
    Text.join ["documented parameter '", parameter, "' is not a parameter of '", member, "'"]
  | undocumentedParameter parameter member =>
    Text.join ["parameter '", parameter, "' of '", member, "' is not documented"]
  | unresolvedTarget target =>
    Text.join ["documentation block names unknown member '", target, "'"]
  | unknownMacro name => Text.join ["unknown macro '$\x7b", name, "\x7d' left unexpanded"]
  | missingConstant property used =>
    Text.join ["constant property '", property, "' has no value; using ", used]
  | invalidNamespace package used =>
    Text.join ["package '+", package, "' is not an identifier; namespace '", used, "' is used"]

end Finding

structure Diagnostic where
  finding : Finding
  position : Position
  file : Option Text := none
  deriving DecidableEq, Repr

namespace Diagnostic

/-- `path:line:column: severity: message`. -/
def lineText (file : Option Text) (p : Position) (s : Severity) (message : Text) : Text :=
  Text.join [file.getD anonymousPath, ":", p.text, ": ", s.text, ": ", message]

def text (d : Diagnostic) : Text :=
  lineText d.file d.position d.finding.severity d.finding.message

def inFile (path : Text) (d : Diagnostic) : Diagnostic := { d with file := some path }

def isWarning (d : Diagnostic) : Bool := d.finding.severity == .warning

end Diagnostic

end ClassdefDoc
