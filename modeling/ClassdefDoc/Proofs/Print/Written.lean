import ClassdefDoc.Proofs.Print.Value

/-!
# The tokens of a printed class

Each part of a form is spelled by tokens whose text is the printed part (`ClassForm.write_spell`), and the
scanner takes these tokens from the text (`ClassForm.scan_print`). A line starts in the context `lineStart`;
what stands behind its first word is read in the context `inLine`, where every word is an identifier.
-/

namespace ClassdefDoc

open List Scanner
open Spelling (write_append write_nil tokens token)

variable {ι : Type} {kind : BlockKind} {c : Char} {w : Word} {t : Text} {op : Operator} {b : Bracket}

theorem Text.joinWith_cons (sep t : Text) (ts : List Text) :
    joinWith sep (t :: ts) = t ++ ts.flatMap (sep ++ ·) := by
  induction ts generalizing t with
  | nil => simp
  | cons u ts ih => rw [joinWith_cons_cons, ih, flatMap_cons, append_assoc, append_assoc]

/-! ## Spellings -/

namespace Spelling

def word (gap : Text) (w : Word) : Spelling := ⟨gap, .identifier w.text, w.text⟩

def delimiter (gap : Text) (d : Delimiter) : Spelling := ⟨gap, .delimiter d, [d.char]⟩

def sign (gap : Text) (op : Operator) (c : Char) : Spelling := ⟨gap, .operator op, [c]⟩

def newline : Spelling := ⟨[], .newline, ['\n']⟩

def keyword (k : Keyword) : Spelling := ⟨[], .keyword k, k.word⟩

/-- Names with commas between them. -/
def listed : List Spelling → List Spelling
  | [] => []
  | p :: ps => p :: ps.flatMap fun q => [delimiter [] .comma, q]

end Spelling

open Spelling (word delimiter sign keyword listed assign write)

def DottedForm.spell (gap : Text) (n : DottedForm) : List Spelling :=
  word gap n.first :: n.rest.flatMap fun w => [sign [] .dot '.', word [] w]

theorem DottedForm.write_spell (gap : Text) (n : DottedForm) :
    write (n.spell gap) = gap ++ n.name.dotted := by
  rw [DottedName.dotted, name, Text.joinWith_cons, spell, Spelling.write_cons, Spelling.write_flatMap,
    flatMap_map]
  simp [word, sign]

noncomputable def DefaultForm.first (v : DefaultForm) : Spelling := v.exists_spelled.choose

noncomputable def DefaultForm.others (v : DefaultForm) : List Spelling := v.exists_spelled.choose_spec.choose

theorem DefaultForm.spelled (v : DefaultForm) : v.Spelled v.first v.others :=
  v.exists_spelled.choose_spec.choose_spec

namespace AttributeForm

def spell (gap : Text) : AttributeForm → List Spelling
  | asserted name => [word gap name]
  | negated name => [sign gap .tilde '~', word [] name]
  | assigned name value _ => [word gap name, assign, word [' '] value]

theorem write_spell (gap : Text) (a : AttributeForm) : write (a.spell gap) = gap ++ a.print := by
  cases a <;> simp [spell, word, sign, assign, print, Text.join]

/-- The attributes behind the first one of a list, and its end. -/
def spellTail (as : List AttributeForm) : List Spelling :=
  as.flatMap (fun a => delimiter [] .comma :: a.spell [' ']) ++ [delimiter [] (.closing .paren)]

def spellList : List AttributeForm → List Spelling
  | [] => []
  | a :: as => delimiter [' '] (.opening .paren) :: (a.spell [] ++ spellTail as)

theorem write_spellList (as : List AttributeForm) : write (spellList as) = BlockForm.printAttributes as := by
  cases as with
  | nil => rfl
  | cons a as =>
    simp [spellList, spellTail, BlockForm.printAttributes, Spelling.write_flatMap, write_spell, delimiter,
      Text.joinWith_cons, flatMap_map, Delimiter.char, Bracket.opener, Bracket.closer, Text.join]

end AttributeForm

def ParamForm.spell : ParamForm → Spelling
  | named name => word [] name
  | ignored => sign [] .tilde '~'

/-- Names are printed with commas between them. -/
theorem Spelling.write_listed {f : ι → Spelling} {g : ι → Text} (h : ∀ i, write [f i] = g i)
    (l : List ι) : write (listed (l.map f)) = Text.joinWith "," (l.map g) := by
  cases l with
  | nil => rfl
  | cons i l =>
    have hi (j : ι) : (f j).gap ++ (f j).lexeme = g j := by simpa using h j
    rw [map_cons, map_cons, listed, Text.joinWith_cons, write_cons, write_flatMap, ← append_assoc,
      hi, flatMap_map, flatMap_map]
    simp [delimiter, Delimiter.char, hi]

namespace MemberForm

/-- The tokens `[a, b] =` before a method's name. -/
def spellReturns (returns : List Word) : List Spelling :=
  delimiter [' '] (.opening .square) ::
    (listed (returns.map (word [])) ++ [delimiter [] (.closing .square)] ++ [assign])

/-- The tokens of a method between `function` and the end of the line. -/
def spellSignature (returns : List Word) (name : Word) (params : List ParamForm) : List Spelling :=
  spellReturns returns ++ word [' '] name :: delimiter [] (.opening .paren) ::
    (listed (params.map (·.spell)) ++ [delimiter [] (.closing .paren)])

/-- The tokens of a member, up to the end of its declaration. -/
noncomputable def spell {kind : BlockKind} : MemberForm kind → List Spelling
  | property name type value =>
    word [] name.toWord :: ((type.elim [] fun t => sign [] .atSign '@' :: t.spell []) ++
      value.elim [] fun v => assign :: v.first :: v.others)
  | event name => [word [] name.toWord]
  | method returns name params =>
    keyword .function :: (spellSignature returns name params ++ [.newline, keyword .close])

/-- The tokens between a member and the next line. -/
def trail {kind : BlockKind} : MemberForm kind → List Spelling
  | property _ _ _ => [delimiter [] .semicolon, .newline]
  | event _ => [.newline]
  | method _ _ _ => [.newline]

theorem write_spell (m : MemberForm kind) : write (m.spell ++ m.trail) = m.print := by
  cases m with
  | property name type value =>
    have htype : write (type.elim [] fun t => sign [] .atSign '@' :: t.spell []) =
        type.elim [] fun t => Text.join ["@", t.name.dotted] := by
      cases type with
      | none => rfl
      | some t => simp [sign, DottedForm.write_spell, Text.join]
    have hvalue : write (value.elim [] fun v => assign :: v.first :: v.others) =
        value.elim [] fun d => Text.join [" = ", d.text] := by
      cases value with
      | none => rfl
      | some v => simp [assign, v.spelled.gap, v.spelled.text, Text.join]
    simp [spell, trail, print, word, delimiter, Delimiter.char, Spelling.newline, htype, hvalue]
  | event name => simp [spell, trail, print, word, Spelling.newline]
  | method returns name params =>
    have hreturns := Spelling.write_listed (f := word []) (g := (·.text)) (fun w => by simp [word]) returns
    have hparams := Spelling.write_listed (f := ParamForm.spell) (g := (·.text))
      (fun p => by cases p <;> simp [ParamForm.spell, ParamForm.text, word, sign]) params
    simp only [spell, spellSignature, spellReturns, trail, cons_append, append_assoc, nil_append,
      Spelling.write_cons, write_append, write_nil, hreturns, hparams]
    rfl

end MemberForm

namespace BlockForm

/-- The lines of a block behind its header. -/
noncomputable def spellMembers {kind : BlockKind} (ms : List (MemberForm kind)) : List Spelling :=
  ms.flatMap (fun m => m.spell ++ m.trail) ++ [Spelling.keyword .close]

noncomputable def spell (b : BlockForm) : List Spelling :=
  Spelling.keyword b.kind.keyword ::
    (AttributeForm.spellList b.attributes ++ .newline :: spellMembers b.members)

theorem write_spell (b : BlockForm) : write (b.spell ++ [.newline]) = b.print := by
  have hword : b.kind.keyword.word = b.kind.word := by cases b.kind <;> rfl
  have hmembers : write (b.members.flatMap fun m => m.spell ++ m.trail) = b.members.flatMap (·.print) := by
    simp only [Spelling.write_flatMap, MemberForm.write_spell]
  simp only [spell, spellMembers, cons_append, append_assoc, nil_append, Spelling.write_cons,
    write_append, write_nil, AttributeForm.write_spellList, hmembers, Spelling.keyword, hword]
  rfl

end BlockForm

namespace ClassForm

def spellSuperclasses : List DottedForm → List Spelling
  | [] => []
  | n :: ns =>
    sign [' '] .less '<' :: (n.spell [' '] ++ ns.flatMap fun m => sign [' '] .ampersand '&' :: m.spell [' '])

theorem write_spellSuperclasses (ns : List DottedForm) :
    write (spellSuperclasses ns) = printSuperclasses ns := by
  cases ns with
  | nil => rfl
  | cons n ns =>
    simp [spellSuperclasses, printSuperclasses, Spelling.write_flatMap, DottedForm.write_spell, sign,
      Text.joinWith_cons, flatMap_map, Text.join]

/-- The lines of a class behind its header. -/
noncomputable def spellBlocks (bs : List BlockForm) : List Spelling :=
  bs.flatMap (fun b => b.spell ++ [.newline]) ++ [Spelling.keyword .close]

noncomputable def spell (c : ClassForm) : List Spelling :=
  Spelling.keyword .classdef :: word [' '] c.name ::
    (spellSuperclasses c.superclasses ++ .newline :: (spellBlocks c.blocks ++ [.newline]))

theorem write_spell (c : ClassForm) : write c.spell = c.print := by
  have hblocks : write (c.blocks.flatMap fun b => b.spell ++ [.newline]) = c.blocks.flatMap (·.print) := by
    simp only [Spelling.write_flatMap, BlockForm.write_spell]
  simp only [spell, spellBlocks, append_assoc, Spelling.write_cons, write_append, write_nil,
    write_spellSuperclasses, hblocks]
  rfl

end ClassForm

/-! ## Scanning the spellings -/

/-- The context at the start of a line outside brackets. -/
def Context.lineStart : Context := ⟨[], true⟩

/-- The context behind the first word of a line. -/
def Context.inLine : Context := ⟨[], false⟩

/-- The context inside a bracket. -/
def Context.inside (b : Bracket) : Context := ⟨[b], false⟩

open Context (lineStart inLine inside)

theorem endsWord_cons (h : Name.isContinue c = false) (rest : Text) : EndsWord (c :: rest) := by
  rintro d ⟨⟩
  exact h

/-- A text that starts with a word starts with a letter. -/
theorem Word.isStart_of_starts (h : w.text <+: t) : ∃ c, t.head? = some c ∧ Name.isStart c := by
  have hw := w.isIdentifier
  obtain ⟨rest, rfl⟩ := h
  cases htext : w.text with
  | nil => simp [htext, Name.isIdentifier] at hw
  | cons c cs =>
    simp only [htext, Name.isIdentifier, Bool.and_eq_true] at hw
    exact ⟨c, rfl, hw.1⟩

theorem Word.starts_write (w : Word) (ps : List Spelling) (after : Text) :
    w.text <+: write (word [] w :: ps) ++ after :=
  ⟨write ps ++ after, by simp [word]⟩

namespace Scans

variable {after gap : Text} {bs : List Bracket}

/-- The blanks that a printed text holds between tokens. -/
def IsPrintedGap (gap : Text) : Prop := gap = [] ∨ gap = [' ']

theorem IsPrintedGap.blank (h : IsPrintedGap gap) : ∀ c ∈ gap, Cursor.isGap c := by
  rcases h with rfl | rfl
  · exact forall_mem_nil _
  · exact forall_mem_singleton.2 rfl

section

variable (hgap : IsPrintedGap gap)
include hgap

theorem word (w : Word) (hafter : EndsWord after) : Scans ⟨bs, false⟩ [.word gap w] after ⟨bs, false⟩ :=
  .identifier hgap.blank w.isIdentifier hafter (by rintro ⟨⟩)

/-- A sign in front of a word. -/
theorem signBefore (hc : c ∈ ['=', '.', '@', '<', '&', '~'])
    (hop : Lexeme.singleOperator c = op) (hafter : w.text <+: after) :
    Scans ⟨bs, false⟩ [.sign gap op c] after ⟨bs, false⟩ := by
  obtain ⟨d, hhead, hd⟩ := Word.isStart_of_starts hafter
  exact .operator hgap.blank hc hop hhead (.inl hd) fun _ => hd

/-- A sign in front of a blank. -/
theorem signSpaced (hc : c ∈ ['=', '<', '&'])
    (hop : Lexeme.singleOperator c = op) (hafter : after.head? = some ' ') :
    Scans ⟨bs, false⟩ [.sign gap op c] after ⟨bs, false⟩ := by
  have hdot : c ≠ '.' := by rintro rfl; exact absurd hc (by decide)
  have hc' : c ∈ ['=', '.', '@', '<', '&', '~'] := by
    simp only [mem_cons, not_mem_nil, or_false] at hc ⊢
    tauto
  exact .operator hgap.blank hc' hop hafter (.inr (by decide)) fun h => absurd h hdot

theorem opening (b : Bracket) : Scans inLine [.delimiter gap (.opening b)] after (inside b) :=
  .delimiter hgap.blank (.opening b) rfl

end

theorem closing (b : Bracket) : Scans (inside b) [.delimiter [] (.closing b)] after inLine :=
  .delimiter (forall_mem_nil _) (.closing b) (by simp [inside, Bracket.after])

theorem comma (b : Bracket) : Scans (inside b) [.delimiter [] .comma] after (inside b) :=
  .delimiter (forall_mem_nil _) .comma rfl

theorem endLine {b : Bool} : Scans ⟨[], b⟩ [.newline] after lineStart := by
  have h : Scans ⟨[], b⟩ [.newline] after ⟨[], b || true⟩ := .newline
  rwa [Bool.or_true] at h

theorem dotted (hgap : IsPrintedGap gap) (n : DottedForm) (hafter : EndsWord after) :
    Scans ⟨bs, false⟩ (n.spell gap) after ⟨bs, false⟩ := by
  obtain ⟨first, rest⟩ := n
  rw [DottedForm.spell]
  induction rest generalizing first gap with
  | nil => exact word hgap first hafter
  | cons w rest ih =>
    rw [flatMap_cons]
    refine cons (word hgap first (endsWord_cons rfl _)) (cons ?_ (ih (.inl rfl) w))
    exact signBefore (.inl rfl) (by decide) rfl (w.starts_write _ after)

theorem attributeForm (hgap : IsPrintedGap gap) (a : AttributeForm) (hafter : EndsWord after) :
    Scans (inside .paren) (a.spell gap) after (inside .paren) := by
  cases a with
  | asserted name => exact word hgap name hafter
  | negated name =>
    exact cons (signBefore hgap (by decide) rfl (name.starts_write [] after)) (word (.inl rfl) name hafter)
  | assigned name value =>
    refine cons (word hgap name (endsWord_cons rfl _)) (cons ?_ (word (.inr rfl) value hafter))
    exact signSpaced (.inr rfl) (by decide) rfl rfl

theorem attributeTail (as : List AttributeForm) :
    Scans (inside .paren) (AttributeForm.spellTail as) after inLine ∧
      EndsWord (write (AttributeForm.spellTail as) ++ after) := by
  induction as with
  | nil => exact ⟨closing .paren, endsWord_cons rfl _⟩
  | cons a as ih =>
    refine ⟨?_, endsWord_cons rfl _⟩
    rw [AttributeForm.spellTail, flatMap_cons, append_assoc, cons_append]
    exact cons (comma .paren) (append (attributeForm (.inr rfl) a ih.2) ih.1)

theorem attributeList (as : List AttributeForm) : Scans inLine (AttributeForm.spellList as) after inLine := by
  cases as with
  | nil => exact nil
  | cons a as =>
    exact cons (opening (.inr rfl) .paren)
      (append (attributeForm (.inl rfl) a (attributeTail as).2) (attributeTail as).1)

/-- Names between brackets, when each of them is read in front of a comma and of the end. -/
theorem listed {f : ι → Spelling} (hf : ∀ i after, after.head? = some ',' ∨ after.head? = some b.closer →
      Scans (inside b) [f i] after (inside b))
    (l : List ι) (hafter : after.head? = some b.closer) :
    Scans (inside b) (Spelling.listed (l.map f)) after (inside b) := by
  cases l with
  | nil => exact nil
  | cons i l =>
    induction l generalizing i with
    | nil => exact hf i after (.inr hafter)
    | cons j l ih => exact cons (hf i _ (.inl rfl)) (cons (comma b) (ih j))

theorem endsWord_of_closer (h : t.head? = some ',' ∨ t.head? = some b.closer) : EndsWord t := by
  intro c hc
  rcases h with h | h
  · cases hc.symm.trans h
    rfl
  · cases hc.symm.trans h
    cases b <;> rfl

theorem listedWord (w : Word) (after : Text) (hafter : after.head? = some ',' ∨ after.head? = some b.closer) :
    Scans (inside b) [.word [] w] after (inside b) :=
  word (.inl rfl) w (endsWord_of_closer hafter)

theorem listedParam (p : ParamForm) (after : Text)
    (hafter : after.head? = some ',' ∨ after.head? = some Bracket.paren.closer) :
    Scans (inside .paren) [p.spell] after (inside .paren) := by
  cases p with
  | named name => exact listedWord name after hafter
  | ignored =>
    rcases hafter with h | h <;>
      exact .operator (forall_mem_nil _) (by decide) rfl h (.inr (by decide)) (by decide)

/-- The type of a property, which stands in front of a default value or of the end of the line. -/
theorem propertyType (type : Option DottedForm) (hafter : EndsWord after) :
    Scans inLine (type.elim [] fun t => Spelling.sign [] .atSign '@' :: t.spell []) after inLine := by
  cases type with
  | none => exact nil
  | some t =>
    exact cons (signBefore (.inl rfl) (by decide) rfl (t.first.starts_write _ _)) (dotted (.inl rfl) t hafter)

theorem propertyValue (value : Option DefaultForm) :
    ∃ b, Scans inLine (value.elim [] fun v => Spelling.assign :: v.first :: v.others) (';' :: after) ⟨[],
      b⟩ := by
  cases value with
  | none => exact ⟨false, nil⟩
  | some v => exact v.spelled.scans after

theorem member (m : MemberForm kind) : Scans lineStart (m.spell ++ m.trail) after lineStart := by
  cases m with
  | property name type value =>
    obtain ⟨b, hvalue⟩ : ∃ b, Scans inLine (value.elim [] fun v => Spelling.assign :: v.first :: v.others)
        (';' :: '\n' :: after) ⟨[], b⟩ := propertyValue value
    have hends : EndsWord (write (value.elim [] fun v => Spelling.assign :: v.first :: v.others) ++
        ';' :: '\n' :: after) := by
      cases value <;> exact endsWord_cons rfl _
    have hname : EndsWord (write ((type.elim [] fun t => Spelling.sign [] .atSign '@' :: t.spell []) ++
        value.elim [] fun v => Spelling.assign :: v.first :: v.others) ++ ';' :: '\n' :: after) := by
      rw [write_append, append_assoc]
      cases type with
      | none => exact hends
      | some t => exact endsWord_cons rfl _
    refine append (τ := ⟨[], b⟩) ?_ (cons (τ := lineStart) ?_ endLine)
    · refine cons (τ := inLine) ?_ (append (propertyType type hends) hvalue)
      exact .identifier (forall_mem_nil _) name.isIdentifier hname fun _ _ => name.notKeyword
    · exact .delimiter (forall_mem_nil _) .semicolon rfl
  | event name =>
    refine cons (τ := inLine) ?_ endLine
    exact .identifier (forall_mem_nil _) name.isIdentifier (endsWord_cons rfl _) fun _ _ => name.notKeyword
  | method returns name params =>
    simp only [MemberForm.spell, MemberForm.spellSignature, MemberForm.spellReturns, MemberForm.trail,
      cons_append, append_assoc, nil_append]
    refine cons (.keyword .function (endsWord_cons rfl _)) (cons (opening (.inr rfl) .square) ?_)
    refine append (listed listedWord returns rfl) (cons (closing .square) (cons (assign rfl) ?_))
    refine cons (word (.inr rfl) name (endsWord_cons rfl _)) (cons (opening (.inl rfl) .paren) ?_)
    refine append (listed listedParam params rfl) (cons (closing .paren) (cons endLine ?_))
    exact cons (.keyword .close (endsWord_cons rfl _)) endLine

/-- Items on lines of their own, and the `end` behind them. -/
theorem lines {f : ι → List Spelling} (hf : ∀ i after, Scans lineStart (f i) after lineStart)
    (l : List ι) (hafter : EndsWord after) :
    Scans lineStart (l.flatMap f ++ [Spelling.keyword .close]) after lineStart := by
  induction l with
  | nil => exact .keyword .close hafter
  | cons i l ih =>
    rw [flatMap_cons, append_assoc]
    exact append (hf i _) ih

theorem endsWord_attributeList (as : List AttributeForm) (hafter : EndsWord after) :
    EndsWord (write (AttributeForm.spellList as) ++ after) := by
  cases as with
  | nil => exact hafter
  | cons a as => exact endsWord_cons rfl _

theorem block (b : BlockForm) : Scans lineStart (b.spell ++ [.newline]) after lineStart := by
  have hstatement (k : BlockKind) : statementAfter true true (.keyword k.keyword) = false := by
    cases k <;> rfl
  have hheader : EndsWord (write (AttributeForm.spellList b.attributes ++
      .newline :: (BlockForm.spellMembers b.members ++ [.newline])) ++ after) := by
    rw [write_append, append_assoc]
    exact endsWord_attributeList _ (endsWord_cons rfl _)
  have hkeyword := Scans.keyword b.kind.keyword hheader
  rw [hstatement] at hkeyword
  rw [BlockForm.spell, cons_append, append_assoc, cons_append]
  refine cons hkeyword (append (attributeList b.attributes) (cons endLine ?_))
  exact append (lines (fun m _ => member m) b.members (endsWord_cons rfl _)) endLine

theorem superclasses (ns : List DottedForm) (hafter : EndsWord after) :
    Scans inLine (ClassForm.spellSuperclasses ns) after inLine ∧
      EndsWord (write (ClassForm.spellSuperclasses ns) ++ after) := by
  cases ns with
  | nil => exact ⟨nil, hafter⟩
  | cons n ns =>
    refine ⟨cons (signSpaced (.inr rfl) (by decide) rfl rfl) ?_, endsWord_cons rfl _⟩
    induction ns generalizing n with
    | nil => exact append (dotted (.inr rfl) n hafter) nil
    | cons m ns ih =>
      rw [flatMap_cons]
      exact append (dotted (.inr rfl) n (endsWord_cons rfl _))
        (cons (signSpaced (.inr rfl) (by decide) rfl rfl) (ih m))

theorem classForm (c : ClassForm) : Scans lineStart c.spell [] lineStart := by
  have hline : EndsWord (write (.newline :: (ClassForm.spellBlocks c.blocks ++ [.newline])) ++ []) :=
    endsWord_cons rfl _
  obtain ⟨hsupers, hends⟩ := superclasses c.superclasses hline
  rw [ClassForm.spell]
  refine cons (.keyword .classdef (endsWord_cons rfl _)) (cons (word (.inr rfl) c.name ?_) ?_)
  · rwa [write_append, append_assoc]
  · exact append hsupers
      (cons endLine (append (lines (fun b _ => block b) c.blocks (endsWord_cons rfl _)) endLine))

end Scans

/-- The token at the end of a text. -/
def Spelling.eof : Spelling := ⟨[], .eof, []⟩

/-- Scanning the text of a form gives the tokens that spell it. -/
theorem ClassForm.scan_print (c : ClassForm) :
    scan c.print = .ok (tokens [] c.spell ++ [Spelling.eof.token c.print]) := by
  rw [← write_spell]
  have hstart : (start (write c.spell)).Stands [] (write c.spell ++ []) lineStart := by
    rw [append_nil]
    exact ⟨rfl, rfl, rfl⟩
  obtain ⟨s, hchain, hs⟩ := Scans.classForm c hstart
  refine scan_eq_ok_iff.2 ⟨_, s, _, hchain, ?_, rfl⟩
  have hcursor : s.cursor = .between (write c.spell) ([] ++ []) := hs.cursor
  rw [step_between hcursor (forall_mem_nil _) (by rintro _ ⟨⟩), map_eq_nil_iff.1 hs.brackets]
  simp [tokenAt, sees, Spelling.eof, token]

end ClassdefDoc
