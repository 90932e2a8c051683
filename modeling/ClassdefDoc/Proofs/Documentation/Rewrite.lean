import ClassdefDoc.Proofs.Documentation.Pattern

/-!
# Documentation line by line

A line of documentation is read as one of five things, by its own form and by the section it stands in
(`Reading`, `Reads`). Headings are taken out; every other line is written as one line (`Writes`), and the
parameters that a block describes are those of its lines (`Describes`). One line is read by `read_line` and a
whole block by `exists_rewriting`, and `ofDocumentation_kept` says the same of all blocks of a declaration.
-/

namespace ClassdefDoc

open DocLine List
open Text (isBlank)

/-- What a line of documentation is read as. -/
inductive Reading where
  | blank
  | heading
  | entry (kind : SectionKind) (name rest : Text)
  /-- A line of a section that is no entry of it. -/
  | text (line : Text)
  /-- A line outside of sections. -/
  | plain (line : Text)

namespace Reading

def isHeading : Reading → Bool
  | heading => true
  | _ => false

/-- A line in a section or outside of sections is read as something, and the
next line stands in the last section. -/
inductive Reads : Option Section → Text → Reading → Option Section → Prop
  | blank {s : Option Section} {l : Text} : isBlank l → Reads s l .blank none
  | heading {s : Option Section} {l : Text} {kind : SectionKind} : Opens kind l →
    Reads s l .heading (some { kind := kind })
  | plain {l : Text} : isBlank l = false → (∀ kind, ¬Opens kind l) → Reads none l (.plain l) none
  | entry {s : Section} {l name rest : Text} : (∀ kind, ¬Opens kind l) → IsEntry l name rest →
      (∀ first ∈ s.indent, indent l ≤ first) →
      Reads (some s) l (.entry s.kind name rest) (some ⟨s.kind, some (s.indent.getD (indent l)), some name⟩)
  | text {s : Section} {l : Text} : isBlank l = false → (∀ kind, ¬Opens kind l) →
      (∀ name rest, IsEntry l name rest → ∃ first ∈ s.indent, first < indent l) →
      Reads (some s) l (.text l) (some s)

/-- Lines are read one after the other. -/
inductive ReadsAll : Option Section → List Text → List Reading → Prop
  | nil {s : Option Section} : ReadsAll s [] []
  | cons {s s' : Option Section} {l : Text} {r : Reading} {ls : List Text} {rs : List Reading} :
      Reads s l r s' → ReadsAll s' ls rs → ReadsAll s (l :: ls) (r :: rs)

/-- The line that is written for a reading. -/
inductive Writes : Reading → Text → Prop
  | blank : Writes .blank []
  | entry {kind : SectionKind} {name rest out : Text} : Untyped rest out →
      Writes (.entry kind name rest) (kind.tag ++ ' ' :: (name ++ out))
  | text {line out : Text} : Untyped line out → Writes (.text line) out
  | plain {line out : Text} : Untyped line out → Writes (.plain line) out

/-- The parameters that a reading describes. -/
inductive Describes : Reading → List Text → Prop
  | blank : Describes .blank []
  | heading : Describes .heading []
  | parameter {name rest : Text} : Describes (.entry .parameters name rest) [name]
  | result {name rest : Text} : Describes (.entry .returns name rest) []
  | text {line : Text} : Describes (.text line) []
  | tag {line name : Text} : IsParamTag line name → Describes (.plain line) [name]
  | plain {line : Text} : (∀ name, ¬IsParamTag line name) → Describes (.plain line) []

end Reading

open Reading (Reads ReadsAll Writes Describes)

namespace DocText

variable {d d' : DocText} {s : Option Section} {l : Text}

/-! ## One line -/

section

variable (d : DocText)

@[simp] theorem lines_addLine (l : Text) : (d.addLine l).lines = d.lines ++ [l] := rfl

@[simp] theorem params_addLine (l : Text) : (d.addLine l).params = d.params := rfl

@[simp] theorem lines_setType (name type : Option Text) : (d.setType name type).lines = d.lines := by
  cases name <;> cases type <;> rfl

@[simp] theorem params_setType (name type : Option Text) : (d.setType name type).params = d.params := by
  cases name <;> cases type <;> rfl

/-- What a line adds to the text. -/
structure Adds (d d' : DocText) (r : Reading) : Prop where
  lines : (r.isHeading ∧ d'.lines = d.lines) ∨ r.isHeading = false ∧
    ∃ out, Writes r out ∧ d'.lines = d.lines ++ [out]
  params : ∃ names, Describes r names ∧ d'.params = d.params ++ names

theorem adds_addEntry (kind : SectionKind) (name rest : Text) :
    Adds d (d.addEntry kind name rest) (.entry kind name rest) where
  lines := by
    refine .inr ⟨rfl, _, .entry (untyped_takeType rest), ?_⟩
    cases kind <;> simp [addEntry]
  params := by
    cases kind with
    | parameters => exact ⟨_, .parameter, by simp [addEntry]⟩
    | returns => exact ⟨_, .result, by simp [addEntry]⟩

theorem adds_addPlain (l : Text) : Adds d (d.addPlain l) (.plain l) where
  lines := .inr ⟨rfl, _, .plain (untyped_takeType l), rfl⟩
  params := by
    cases hparam : param? l with
    | none =>
      refine ⟨_, .plain fun name htag => ?_, by simp [addPlain, hparam]⟩
      rw [param?_eq_some_iff.2 htag] at hparam
      cases hparam
    | some name => exact ⟨_, .tag (param?_eq_some_iff.1 hparam), by simp [addPlain, hparam]⟩

end

/-- The entry that a line is in a section. -/
theorem entryIn_eq_some_iff {s : Section} {name rest : Text} :
    (if indent l ≤ s.indent.getD (indent l) then described? l else none) = some (name, rest) ↔
      IsEntry l name rest ∧ ∀ first ∈ s.indent, indent l ≤ first := by
  rw [← described?_eq_some_iff]
  cases s.indent with
  | none => simp
  | some first =>
    rw [Option.getD_some, Option.ite_none_right_eq_some, and_comm]
    simp

theorem read_line (d : DocText) (s : Option Section) (l : Text) :
    ∃ r, Reads s l r (read (d, s) l).2 ∧ Adds d (read (d, s) l).1 r := by
  unfold read
  simp only
  split_ifs with hblank
  · exact ⟨.blank, .blank hblank, ⟨.inr ⟨rfl, _, .blank, rfl⟩, _, .blank, (append_nil _).symm⟩⟩
  · rw [Bool.not_eq_true] at hblank
    cases hheading : heading? l with
    | some kind => exact ⟨.heading, .heading (opens_of_heading? hheading),
      ⟨.inl ⟨rfl, rfl⟩, _, .heading, (append_nil _).symm⟩⟩
    | none =>
      have hopens := not_opens_of_heading? hheading
      cases s with
      | none => exact ⟨.plain l, .plain hblank hopens, adds_addPlain d l⟩
      | some s =>
        simp only
        cases hentry : (if indent l ≤ s.indent.getD (indent l) then described? l else none) with
        | some p =>
          obtain ⟨name, rest⟩ := p
          obtain ⟨hname, hindent⟩ := entryIn_eq_some_iff.1 hentry
          exact ⟨.entry s.kind name rest, .entry hopens hname hindent, adds_addEntry d s.kind name rest⟩
        | none =>
          refine ⟨.text l, .text hblank hopens fun name rest hname => ?_,
            ⟨.inr ⟨rfl, _, .text (untyped_takeType l), by simp⟩, _, .text, by simp⟩⟩
          by_contra hindent
          simp only [not_exists, not_and, not_lt] at hindent
          rw [entryIn_eq_some_iff.2 ⟨hname, hindent⟩] at hentry
          cases hentry

/-! ## Blocks -/

/-- Lines are written as others, one for each that is no heading, and describe parameters. -/
def IsRewriting (lines out params : List Text) : Prop :=
  ∃ readings names, ReadsAll none lines readings ∧ Forall₂ Writes (readings.filter (!·.isHeading)) out ∧
    Forall₂ Describes readings names ∧ params = names.flatten

/-- Reading goes on from a section, line by line. -/
theorem exists_readings (d : DocText) (s : Option Section) (lines : List Text) :
    ∃ readings out names, ReadsAll s lines readings ∧ Forall₂ Writes (readings.filter (!·.isHeading)) out ∧
      Forall₂ Describes readings names ∧ (lines.foldl read (d, s)).1.lines = d.lines ++ out ∧
      (lines.foldl read (d, s)).1.params = d.params ++ names.flatten := by
  induction lines generalizing d s with
  | nil => exact ⟨[], [], [], .nil, .nil, .nil, (append_nil _).symm, (append_nil _).symm⟩
  | cons l lines ih =>
    obtain ⟨r, hread, hadds⟩ := read_line d s l
    obtain ⟨readings, out, names, hreads, hwrites, hnames, hout, hparams⟩ :=
      ih (read (d, s) l).1 (read (d, s) l).2
    obtain ⟨ns, hns, hadded⟩ := hadds.params
    rw [foldl_cons]
    rcases hadds.lines with ⟨hheading, hlines⟩ | ⟨hheading, o, ho, hlines⟩
    · refine ⟨r :: readings, out, ns :: names, .cons hread hreads, ?_, .cons hns hnames, ?_, ?_⟩
      · rwa [filter_cons_of_neg (by simp [hheading])]
      · rw [hout, hlines]
      · rw [hparams, hadded, append_assoc, flatten_cons]
    · refine ⟨r :: readings, o :: out, ns :: names, .cons hread hreads, ?_, .cons hns hnames, ?_, ?_⟩
      · rw [filter_cons_of_pos (by simp [hheading])]
        exact .cons ho hwrites
      · rw [hout, hlines, append_assoc, singleton_append]
      · rw [hparams, hadded, append_assoc, flatten_cons]

theorem exists_rewriting (m : MacroTable) (d : DocText) (lines : List Text) :
    ∃ out params, IsRewriting (lines.map m.expand) out params ∧ (readBlock m d lines).lines = d.lines ++ out ∧
      (readBlock m d lines).params = d.params ++ params := by
  obtain ⟨readings, out, names, hreads, hwrites, hnames, hout, hparams⟩ :=
    exists_readings d none (lines.map m.expand)
  exact ⟨out, names.flatten, ⟨readings, names, hreads, hwrites, hnames, rfl⟩, hout, hparams⟩

theorem exists_rewritings (m : MacroTable) (d : DocText) (blocks : List (List Text)) :
    ∃ others : List (List Text × List Text),
      Forall₂ (fun block r => IsRewriting (block.map m.expand) r.1 r.2) blocks others ∧
      (blocks.foldl (readBlock m) d).lines = d.lines ++ others.flatMap (·.1) ∧
      (blocks.foldl (readBlock m) d).params = d.params ++ others.flatMap (·.2) := by
  induction blocks generalizing d with
  | nil => exact ⟨[], .nil, (append_nil _).symm, (append_nil _).symm⟩
  | cons block blocks ih =>
    obtain ⟨out, params, hblock, hout, hparams⟩ := exists_rewriting m d block
    obtain ⟨others, hothers, houts, hall⟩ := ih (readBlock m d block)
    refine ⟨(out, params) :: others, .cons hblock hothers, ?_, ?_⟩
    · rw [foldl_cons, houts, hout, append_assoc, flatMap_cons]
    · rw [foldl_cons, hall, hparams, append_assoc, flatMap_cons]

/-! ## The brief description -/

/-- Blank lines before the first other one are dropped, and that one is
marked unless it starts, behind blanks, with `@`. -/
inductive Briefed : List Text → List Text → Prop
  | none {blanks : List Text} : (∀ l ∈ blanks, isBlank l) → Briefed blanks []
  | tag {blanks rest : List Text} {lead first : Text} : (∀ l ∈ blanks, isBlank l) → isBlank lead →
      Briefed (blanks ++ (lead ++ '@' :: first) :: rest) ((lead ++ '@' :: first) :: rest)
  | brief {blanks rest : List Text} {c : Char} {first : Text} : (∀ l ∈ blanks, isBlank l) →
      isBlank (c :: first) = false → (∀ lead u, isBlank lead → c :: first ≠ lead ++ '@' :: u) →
      Briefed (blanks ++ (c :: first) :: rest)
        (("@brief".toList ++ ((if Text.isSpace c then [] else [' ']) ++ c :: first)) :: rest)

theorem briefed_markBrief (lines : List Text) : Briefed lines (markBrief lines) := by
  have hcut : lines.takeWhile isBlank ++ lines.dropWhile isBlank = lines := takeWhile_append_dropWhile
  have hblanks : ∀ l ∈ lines.takeWhile isBlank, isBlank l := fun l => mem_takeWhile_imp
  unfold markBrief
  cases hlines : lines.dropWhile isBlank with
  | nil =>
    rw [hlines, append_nil] at hcut
    rw [← hcut]
    exact .none hblanks
  | cons first rest =>
    rw [hlines] at hcut
    rw [← hcut]
    have hfirst : isBlank first = false := by
      have hhead := head?_dropWhile_not isBlank lines
      rwa [hlines] at hhead
    by_cases htag : (Text.trimStart first).head? = some '@'
    · obtain ⟨u, hu⟩ := head?_eq_some_iff.1 htag
      obtain ⟨lead, rfl, hlead, -⟩ := Text.trimStart_eq_iff.1 hu
      simp only [htag, if_true]
      exact .tag hblanks hlead
    · cases first with
      | nil => cases hfirst
      | cons c first =>
        have hnot (lead u : Text) (hlead : isBlank lead) : c :: first ≠ lead ++ '@' :: u := by
          intro heq
          have htight : Text.StartsTight ('@' :: u) := by
            rintro _ ⟨⟩
            decide
          rw [Text.trimStart_eq_iff.2 ⟨lead, heq, hlead, htight⟩] at htag
          exact htag rfl
        simp only [htag, if_false, Text.join_cons, Text.join_nil, append_nil]
        exact .brief hblanks hfirst hnot

/-- Every line of documentation that is no heading is written as one line, in
order, and the lines of all blocks follow each other; the first block is marked. -/
theorem ofDocumentation_kept (m : MacroTable) (docs : Documentation) :
    (∀ d lines, ∃ out params, IsRewriting (lines.map m.expand) out params ∧
      (readBlock m d lines).lines = d.lines ++ out ∧
        (readBlock m d lines).params = d.params ++ params) ∧
      ∃ first marked params, ∃ others : List (List Text × List Text),
        IsRewriting ((docs.primary.getD []).map m.expand) first params ∧ Briefed first marked ∧
        List.Forall₂ (fun block r => IsRewriting (block.map m.expand) r.1 r.2) docs.supplementary others ∧
        (ofDocumentation m docs).lines = marked ++ others.flatMap (·.1) ∧
        (ofDocumentation m docs).params = params ++ others.flatMap (·.2) := by
  obtain ⟨first, params, hfirst, hlines, hparams⟩ := exists_rewriting m {} (docs.primary.getD [])
  obtain ⟨others, hothers, hrest, hall⟩ := exists_rewritings m
    { readBlock m {} (docs.primary.getD []) with
      lines := markBrief (readBlock m {} (docs.primary.getD [])).lines } docs.supplementary
  refine ⟨exists_rewriting m, first, markBrief first, params,
    others, hfirst, briefed_markBrief first, hothers, ?_, ?_⟩
  · rw [ofDocumentation, hrest, hlines]
    rfl
  · rw [ofDocumentation, hall]
    exact congrArg (· ++ _) hparams

/-- The phrase `@type` is taken out of the description of an entry too, and
a first line is left alone when only blanks stand before its `@`. -/
theorem kept_up_to_type_and_tag :
    IsEntry "e: @type double x" "e" " @type double x" ∧
      (readBlock {} {} ["Parameters:", "e: @type double x"]).lines = ["@param e x"] ∧
      (readBlock {} {} ["Parameters:", "e: @type double x"]).lines ≠
      [Text.join ["@param", " ", "e", " @type double x"]] ∧
      (ofDocumentation {} ⟨some [" @copydoc other"], []⟩).lines = [" @copydoc other"] :=
  ⟨described?_eq_some_iff.1 (by decide +kernel), by decide +kernel, by decide +kernel, by decide +kernel⟩

end DocText

end ClassdefDoc
