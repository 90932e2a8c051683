import ClassdefDoc.Proofs.Attributes.Modifiers
import ClassdefDoc.Proofs.Balance.BodyCode
import ClassdefDoc.Proofs.Outline.SourceOrder

/-!
# Accessors in the pseudo-code

An accessor stands on lines of its own between a guard and `#endif` (`accessorLines`).
A getter shows no parameter and a setter shows the one behind the object, unless its
block is static: then the object is shown, too (`Options.accessors_guarded`).
-/

namespace ClassdefDoc

open List Page Member

variable {a : Accessor} {d : Method} {e : Entry} {l : Layout} {c : ClassDecl} {m : Member}

/-! ## The lines of an accessor -/

/-- The lines of the accessor `m` with its guards, if it shows the parameters `shown`. -/
def accessorLines (l : Layout) (types : TypeMap) (m : Member) (d : Method) (shown : List Text) : Text :=
  Text.join [line (m.guardLine l.guardLabel),
    l.placeholders.returns d.returns types, " ", m.name, "(", l.placeholders.params shown types, ")",
    match d.body with
    | some b => line (Text.join [" \x7b", b.pieces.flatMap (·.render), "\x7d"])
    | none => line ";",
    blank, line "#endif"]

/-- What an accessor has to show: a getter no parameter, a setter the one behind the object. -/
def AccessorKind.Shows (params shown : List Text) : AccessorKind → Prop
  | get => shown = []
  | set => ∃ object value, params = [object, value] ∧ shown = [value]

theorem Entry.methodLines_accessor (ha : d.accessor = some a)
    (hconstructor : e.isConstructor = false) : e.methodLines l d =
    accessorLines l e.doc.types e.member d (e.params d) := by
  simp only [methodLines, ha, signature, hconstructor, Bool.false_eq_true,
    if_false, accessorLines, guard, guardLine, Body.render]
  cases d.body <;> simp [line]

theorem ClassDecl.isConstructor_of_accessor (hd : m.method? = some d)
    (ha : d.accessor = some a) : c.isConstructor m = false := by
  simp [ClassDecl.isConstructor, accessor?, hd, ha]

/-- A block that is not static shows what an accessor has to show, and a static one does not. -/
theorem AccessorKind.shows_iff {k : AccessorKind} {params : List Text}
    (h : params.length = k.arity) (isStatic : Bool) :
    k.Shows params (if isStatic then params else params.drop 1) ↔ isStatic = false := by
  cases k with
  | get =>
    obtain ⟨object, rfl⟩ := length_eq_one_iff.1 h
    cases isStatic <;> simp [Shows]
  | set =>
    obtain ⟨object, value, rfl⟩ := length_eq_two.1 h
    cases isStatic <;> simp [Shows]

/-! ## Accessors of a class -/

/-- The entry of a member has the meaning of its block's attributes. -/
theorem ClassDecl.exists_entry {resolving : List Diagnostic}
    {notes : List Text} {resolved : List Resolved} (h : c.resolve = .ok (resolving, notes, resolved))
    {b : Block} (hb : b ∈ c.blocks) (hm : m ∈ b.members)
    (macros : MacroTable) (binding : Binding) : ∃ e ∈ c.entries macros binding resolved, e.member = m ∧
      e.isConstructor = c.isConstructor m ∧ (resolveBlock b.kind b.attributes).2 = .ok e.attributes := by
  obtain ⟨hlength, hblocks⟩ := forall₂_iff_zip.1 (blocks_of_resolve h)
  obtain ⟨n, hn, rfl⟩ := getElem_of_mem hb
  have hzip : (c.blocks[n], resolved[n]) ∈ c.blocks.zip resolved :=
    mem_iff_getElem.2 ⟨n, by rw [length_zip]; omega, by simp⟩
  have hentry : (m, resolved[n]) ∈ (c.entries macros binding resolved).map fun e => (e.member,
      e.attributes) := by
    rw [map_entries]
    exact mem_flatMap.2 ⟨_, hzip, mem_map_of_mem hm⟩
  obtain ⟨e, he, heq⟩ := mem_map.1 hentry
  obtain ⟨rfl, hattributes⟩ := Prod.mk.inj heq
  refine ⟨e, he, rfl, ?_, hattributes ▸ hblocks hzip⟩
  obtain ⟨x, -, rfl⟩ := mem_map.1 he
  rfl

/-- An accessor is written between its guards. -/
theorem Outline.exists_accessorLines {outline : Outline} (he : .entry e ∈ outline)
    (hd : e.member.method? = some d) (ha : d.accessor = some a) (hconstructor : e.isConstructor = false) :
    ∃ before after, outline.render l = before ++
      accessorLines l e.doc.types e.member d (e.params d) ++ after ∧
      (before = [] ∨ before.getLast? = some '\n') := by
  obtain ⟨above, below, rfl⟩ := append_of_mem he
  have hdetail := detail_of_method? hd
  refine ⟨render l above,
    DocBlock.ofMember (Text.join ["@fn ", e.signature l.placeholders d]) e.doc e.attributes.notes [] ++
    (blank ++ render l below), ?_, Outline.getLast?_render l above⟩
  simp only [render, flatMap_append, flatMap_cons, OutlineItem.render, Entry.render, hdetail, Entry.method,
    Entry.methodLines_accessor ha hconstructor, Text.join_cons, Text.join_nil, append_nil, append_assoc]

/-- The guard of an accessor is one line. -/
theorem Entry.newline_notMem_guardLine {text : Text} (h : e.member.WellFormed text) {label : Text}
    (hlabel : '\n' ∉ label) : '\n' ∉ e.member.guardLine label := by
  have hname := Balance.newline_notMem_sourceName h
  simp [guardLine, hlabel, hname]

/-- Whether an attribute list makes its block static. -/
def Attribute.MakesStatic (attributes : List Attribute) : Prop :=
  ∃ a ∈ attributes, Text.sameWord Modifier.static.word a.name ∧ a.value.truth? = some true

/-- Each accessor is shown between guards; it shows what it has to if and only if its block is not static. -/
theorem Options.accessors_guarded {o : Options} {s : Source} {p : Pseudocode} (h : o.pseudocode s = .ok p) :
    ∃ c, ClassDecl.parse o.limits s.text = .ok c ∧ ∀ b ∈ c.blocks,
      ∀ m ∈ b.members, ∀ d a, m.method? = some d →
      d.accessor = some a → (o.check = .ok () → '\n' ∉ m.guardLine o.layout.guardLabel) ∧
        ∃ types shown before after,
          p.text = before ++ accessorLines (o.layoutFor s.path).1 types m d shown ++ after ∧
          (before = [] ∨ before.getLast? = some '\n') ∧ (shown = d.params ∨ shown = d.params.drop 1) ∧
          (a.kind.Shows d.params shown ↔ ¬Attribute.MakesStatic b.attributes) := by
  obtain ⟨c, outline, found, hparse, houtline, rfl⟩ := pseudocode_eq_ok_iff.1 h
  obtain ⟨resolving, notes, resolved, hresolve, rfl, -⟩ := ClassDecl.outline_eq_ok_iff.1 houtline
  refine ⟨c, hparse, fun b hb m hm d a hd ha => ?_⟩
  obtain ⟨e, he, rfl, hconstructor, hresolved⟩ :=
    ClassDecl.exists_entry hresolve hb hm o.macros (Binding.ofClass c).2
  rw [ClassDecl.isConstructor_of_accessor hd ha] at hconstructor
  have hmember : e.member ∈ c.members := List.mem_flatMap.2 ⟨b, hb, hm⟩
  have harity := ((ClassDecl.shaped_of_parse hparse).accessor e.member hmember d a hd ha).2.2
  refine ⟨fun hcheck => ?_, ?_⟩
  · exact Entry.newline_notMem_guardLine ((ClassDecl.wellFormed_of_parse hparse).members _ hmember)
      (Balance.layout_of_check hcheck).2.1
  · obtain ⟨before, after, hpage, hbefore⟩ :=
      Outline.exists_accessorLines (Outline.entry_mem_ofClass_iff.2 he) hd ha hconstructor
    refine ⟨e.doc.types, e.params d, before, after, hpage, hbefore, ?_, ?_⟩
    · simp only [Entry.params, hconstructor, Bool.or_false]
      split_ifs
      · exact .inl rfl
      · exact .inr rfl
    · simp only [Entry.params, hconstructor, Bool.or_false]
      rw [AccessorKind.shows_iff harity, ← Bool.not_eq_true,
        Resolved.has_iff hresolved, Attribute.MakesStatic]

/-- A class with the name of its property, whose accessors stand in a block
with attributes and in one without. -/
def accessorsSource : Source where
  path := "A.m"
  text := "classdef x\nproperties\nx\nend\nmethods (Abstract, Hidden)\nv = get.x(self)\nend\n" ++
    "methods\nfunction self = set.x(self, v)\nend\nend\nend\n"

theorem Options.accessors_guarded_abstract : ∃ p c, ({} : Options).pseudocode accessorsSource = .ok p ∧
    ClassDecl.parse {} accessorsSource.text = .ok c ∧
    c.members.filterMap (·.accessor?) = [⟨.get, ['x']⟩, ⟨.set, ['x']⟩] ∧
    (∀ b ∈ c.blocks, ∀ m ∈ b.members, ∀ d a, m.method? = some d → d.accessor = some a →
      '\n' ∉ m.guardLine "mdoxy" ∧ ∃ types shown before after,
        p.text = before ++ accessorLines (({} : Options).layoutFor accessorsSource.path).1 types m d shown ++
        after ∧
        (a.kind.Shows d.params shown ↔ ¬Attribute.MakesStatic b.attributes)) ∧
    "#if 0 // mdoxy: 'get.x'\nmlhsInnerSubst<void> x();\n\n#endif\n".toList <:+: p.text ∧
    "#if 0 // mdoxy: 'set.x'\nmlhsInnerSubst<void> x(matlabtypesubstitute v) \x7b\n\x7d\n\n#endif\n".toList
    <:+: p.text := by
  obtain ⟨p, hp⟩ := exists_of_isOk (x := ({} : Options).pseudocode accessorsSource) (by decide +kernel)
  have hclass : ∀ c, ClassDecl.parse {} accessorsSource.text = .ok c →
      c.members.filterMap (·.accessor?) = [⟨.get, ['x']⟩, ⟨.set, ['x']⟩] := by decide +kernel
  obtain ⟨c, hc, hshown⟩ := Options.accessors_guarded hp
  refine ⟨p, c, hp, hc, hclass c hc, fun b hb m hm d a hd ha => ?_, ?_⟩
  · obtain ⟨hguard, types, shown, before, after, htext, -, -, hiff⟩ := hshown b hb m hm d a hd ha
    exact ⟨hguard rfl, types, shown, before, after, htext, hiff⟩
  · clear hshown
    revert p
    decide +kernel

/-- A class with a getter in a static block. -/
def staticAccessorSource : Source where
  path := "A.m"
  text := "classdef A\nproperties\nx\nend\nmethods (Static)\nfunction v = get.x(self)\nend\nend\nend\n"

/-- The object of a getter in a static block is shown as a parameter. -/
theorem Options.static_getter_shows_object : ∃ p, ({} : Options).pseudocode staticAccessorSource = .ok p ∧
    "#if 0 // mdoxy: 'get.x'\nmlhsInnerSubst<void> x(matlabtypesubstitute self) \x7b\n\x7d\n\n#endif\n".toList
    <:+: p.text ∧
    ¬"x()".toList <:+: p.text := by
  decide +kernel

end ClassdefDoc
