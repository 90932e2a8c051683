import ClassdefDoc.Class.Parse
import ClassdefDoc.Path
import ClassdefDoc.Pseudocode.Outline

/-!
# Pseudo-code of a source file

`Options.pseudocode` takes a class file to its pseudo-code and the findings about it. A class in package
directories such as `+geo/+grid` is put into namespaces of those names, unless the caller gives namespaces.
-/

namespace ClassdefDoc

/-- What the pseudo-code depends on besides the source. -/
structure Options where
  layout : Layout := {}
  limits : Limits := {}
  macros : MacroTable := {}
  /-- Whether namespaces come from the package directories of the path. -/
  namespacesFromPath : Bool := true

/-- The namespace for a package. Characters that an identifier does not have become underscores. -/
def namespaceOf (package : Text) : Text :=
  let name := package.map (fun c => if Name.isContinue c then c else '_')
  if (name.head?.map Name.isStart).getD false then name else Text.join ["pkg_", name]

/-- The pseudo-code of a class and the findings about the class. -/
structure Pseudocode where
  text : Text
  diagnostics : List Diagnostic
  deriving DecidableEq, Repr

/-- The number of warnings. -/
def Pseudocode.warnings (p : Pseudocode) : Nat := p.diagnostics.countP (·.isWarning)

namespace ClassDecl

/-- The notes on a class and the meaning of each block's attribute list, with the findings. -/
def resolve (c : ClassDecl) : Except Fault (List Diagnostic × List Text × List Resolved) := do
  let (classFindings, notes) := resolveClass c.attributes
  let blocks := c.blocks.map (fun b => resolveBlock b.kind b.attributes)
  let notes ← notes
  let resolved ← blocks.mapM (·.2)
  pure (classFindings ++ blocks.flatMap (·.1), notes, resolved)

/-- The members with what their pseudo-code depends on. -/
def entries (c : ClassDecl) (macros : MacroTable) (binding : Binding) (resolved : List Resolved) :
    List Entry :=
  let attributed := (c.blocks.zip resolved).flatMap (fun (b, r) => b.members.map (·, r))
  attributed.zipIdx.map fun ((m, r), n) =>
    { member := m
      attributes := r
      doc := DocText.ofDocumentation macros (binding.ofMember n)
      isConstructor := c.isConstructor m
      accessorNote := c.accessorNote? m.name }

/-- The findings about macros in the documentation of a class. -/
def macroFindings (c : ClassDecl) (macros : MacroTable) (binding : Binding) : List Diagnostic :=
  macros.findings c.position binding.ofHeader.lines ++
    c.members.zipIdx.flatMap fun (m, n) => macros.findings m.position (binding.ofMember n).lines

/-- The outline of a class's pseudo-code and the findings about the class. -/
def outline (c : ClassDecl) (layout : Layout) (macros : MacroTable) :
    Except Fault (Outline × List Diagnostic) := do
  let (found, notes, resolved) ← c.resolve
  let (bindingFound, binding) := Binding.ofClass c
  let entries := c.entries macros binding resolved
  let head : ClassHead :=
    ⟨c.name, c.superclasses, DocText.ofDocumentation macros binding.ofHeader, notes⟩
  pure (Outline.ofClass layout c.header.first head entries binding.free,
    found ++ bindingFound ++ c.macroFindings macros binding ++ entries.flatMap (·.findings))

end ClassDecl

namespace Options

def check (o : Options) : Except LayoutError Unit := o.layout.check

/-- The layout of a source file, and the findings about its package directories. -/
def layoutFor (o : Options) (path : Text) : Layout × List Diagnostic :=
  if o.namespacesFromPath then
    let packages := Path.packages path
    ({ o.layout with namespaces := packages.map namespaceOf },
      (packages.filter (fun p => namespaceOf p != p)).map
        (fun p => ⟨.invalidNamespace p (namespaceOf p), .start, none⟩))
  else (o.layout, [])

/-- The pseudo-code of a source file. -/
def pseudocode (o : Options) (s : Source) : Except SourceError Pseudocode := do
  let c ← s.parse o.limits
  let (layout, found) := o.layoutFor s.path
  let (outline, more) ←
    (c.outline layout o.macros).mapError (fun fault => s.locate fault.toError)
  pure ⟨outline.render layout, (found ++ more).map (·.inFile s.path)⟩

end Options

end ClassdefDoc
