import ClassdefDoc.Proofs.LineEnd.Return
import ClassdefDoc.Proofs.Parse.DefaultValue
import ClassdefDoc.Proofs.Scan.CellReader

/-!
# Cell arrays as default values

A default value that starts and ends with a brace stands between two brace tokens
(`ValueTokens.Writes.exists_braces`). It is shown as a cell array if these belong together
(`ClassDecl.cellArray_iff`), as long as nothing between them misleads the reader of cell arrays.
-/

namespace ClassdefDoc

open List Scanner Delimiter
open ClassdefDoc.Bracket (Nested opener closer)

/-! ## The braces around a value -/

namespace Lexeme

variable {s : Surroundings} {c : Char} {rest : Text} {l : Lexeme}

theorem read_brace (s : Surroundings) (rest : Text) :
    read s '\x7b' rest = .ok ⟨.delimiter (.opening .brace), 1⟩ := rfl

/-- A lexeme that ends with a closing brace is one, unless it is a comment or a continuation. -/
theorem kind_of_getLast?_brace {x after : Text} (h : Cut s c x after l)
    (hl : (c :: x).getLast? = some '\x7d') (hcomment : l.kind.isComment = false)
    (hcontinuation : l.kind.isContinuation = false) :
    l.kind = .delimiter (.closing .brace) := by
  have hinner : ¬IsInner '\x7d' := by decide
  have hliteral (q : Quote) (value : Text) : l.kind ≠ .literal q value := by
    intro hkind
    rw [(written_of_cut h hkind).1, Quote.written, ← cons_append, getLast?_concat] at hl
    cases q <;> cases hl
  have hreads := reads_of_cut h
  generalize l.kind = k at hreads hcomment hcontinuation hliteral ⊢
  generalize c :: x = lexeme at hreads hl
  have hmem := mem_of_getLast? hl
  cases hreads with
  | newline | comma | semicolon => cases hl
  | comment | blockComment => cases hcomment
  | continuation => cases hcontinuation
  | literal => exact absurd rfl (hliteral _ _)
  | number _ hall | operator _ hall => exact absurd (hall _ hmem) hinner
  | keyword _ _ _ hname | identifier hname =>
    exact absurd (Name.isInner_of_isContinue (Name.isContinue_of_isIdentifier hname _ hmem)) hinner
  | opening =>
    rename_i b
    cases b <;> cases hl
  | closing =>
    rename_i b
    cases b <;> first | rfl | cases hl

end Lexeme

theorem TokenKind.rise_eq_sum (k : TokenKind) :
    k.rise = (k.nesting?.toList.map fun d => (delimiter d).rise).sum := by
  cases k with
  | delimiter d => cases d <;> rfl
  | _ => rfl

/-- Nested brackets close what they open. -/
theorem depth_of_nested {ts : List Token} (h : Nested (ts.filterMap (·.kind.nesting?))) : depth ts = 0 := by
  have hsum : depth ts = ((ts.filterMap (·.kind.nesting?)).map fun d =>
      (TokenKind.delimiter d).rise).sum := by
    clear h
    induction ts with
    | nil => rfl
    | cons t ts ih => rw [depth, ih, nesting_cons, map_append, sum_append, TokenKind.rise_eq_sum]
  rw [hsum]
  generalize ts.filterMap (·.kind.nesting?) = ds at h
  induction h with
  | nil => rfl
  | pair _ _ ihinner ihafter =>
    simp only [cons_append, map_cons, map_append, sum_cons, sum_append, ihinner, ihafter]
    rfl

theorem exists_chain_between {text : Text} {before ts after : List Token}
    (h : scan text = .ok (before ++ ts ++ after)) (hafter : after ≠ []) :
    ∃ s s', Scanner.Over text s ∧ Chain Scanner.step s ts s' := by
  obtain ⟨all, s', e, hchain, -, htokens⟩ := scan_eq_ok_iff.1 h
  obtain ⟨after, e', rfl⟩ := (eq_nil_or_concat' after).resolve_left hafter
  rw [← append_assoc] at htokens
  obtain ⟨rfl, -⟩ := append_inj' htokens rfl
  obtain ⟨s₁, hts, -⟩ := hchain.of_append
  obtain ⟨s₀, hbefore, hts⟩ := hts.of_append
  exact ⟨s₀, s₁, (over_start text).of_chain hbefore, hts⟩

namespace Scanner

variable {s s' : Scanner} {text : Text} {t : Token}

theorem opens_of_step (more : Text) (hs : Over text s) (h : step s = .ok (.item t s'))
    (hl : (t.lexeme ++ more).head? = some '\x7b') :
    t.kind = .delimiter (.opening .brace) := by
  obtain ⟨past, ahead, hcursor, -⟩ := hs
  obtain ⟨gap, c, x, after, l, brackets, -, hlex, -, rfl, -⟩ := read_of_step hcursor h
  cases hl
  cases hlex.cut.read.symm.trans (Lexeme.read_brace _ _)
  rfl

theorem closes_of_step (more : Text) (hs : Over text s) (h : step s = .ok (.item t s'))
    (hl : (more ++ t.lexeme).getLast? = some '\x7d') (hcomment : t.kind.isComment = false)
    (hcontinuation : t.kind.isContinuation = false) : t.kind = .delimiter (.closing .brace) := by
  obtain ⟨past, ahead, hcursor, -⟩ := hs
  obtain ⟨gap, c, x, after, l, brackets, -, hlex, -, rfl, -⟩ := read_of_step hcursor h
  refine Lexeme.kind_of_getLast?_brace hlex.cut ?_ hcomment hcontinuation
  exact (getLast?_append_of_ne_nil more (cons_ne_nil c x)).symm.trans hl

theorem Took.of_delimiter {past gap lexeme hidden rest : Text}
    {d : Delimiter} (h : Took s past gap lexeme hidden rest t s') (hkind : t.kind = .delimiter d) :
    lexeme = [d.char] ∧ hidden = [] := by
  have hreads := h.reads
  have hhides := h.hides
  rw [hkind] at hreads hhides
  refine ⟨?_, hhides⟩
  cases hreads <;> rfl

end Scanner

namespace ValueTokens.Writes

variable {v : ValueTokens} {text value inner : Text} {before mid after : List Token} {first last : Token}

/-- A value that starts and ends with a brace stands between two brace tokens. -/
theorem exists_braces (h : v.Writes text value) (hscan : scan text = .ok (before ++ v.value ++ after))
    (hafter : after ≠ []) (hopen : value.head? = some '\x7b')
    (hclose : value.getLast? = some '\x7d') : ∃ first mid last, v.value = first :: mid ++ [last] ∧
      first.kind = .delimiter (.opening .brace) ∧ last.kind = .delimiter (.closing .brace) := by
  obtain ⟨s, s', hover, hchain⟩ := exists_chain_between hscan hafter
  obtain ⟨first, last, lead, rest, hfirst, hlast, -, hcontinuation, htext, hstart, hend⟩ := h.written
  obtain ⟨more, hmore⟩ := head?_eq_some_iff.1 hfirst
  obtain ⟨init, hinit⟩ := getLast?_eq_some_iff.1 hlast
  have hcut := (laid_of_scan hscan).exists_cut (show text = [] ++ text from rfl)
  have hfirstKind : first.kind = .delimiter (.opening .brace) := by
    obtain ⟨a, a', ha, hstands, -⟩ := hcut first (by simp [hmore])
    rw [htext, append_assoc, append_assoc] at ha
    obtain ⟨-, hvalue⟩ := Text.append_inj_of_bytes ha (hstart.symm.trans hstands.offset)
    rw [hmore] at hchain
    cases hchain with
    | cons hstep _ =>
      exact opens_of_step a' hover hstep (by rw [← hvalue, head?_append, hopen, Option.some_or])
  have hlastKind : last.kind = .delimiter (.closing .brace) := by
    obtain ⟨a, a', ha, hstands, -⟩ := hcut last (by simp [hinit])
    obtain ⟨hvalue, -⟩ := Text.append_inj_of_bytes (htext.symm.trans ha) (hend.symm.trans hstands.endOffset)
    -- a comment would end the value, since no bracket is open behind its last token
    have hcomment : last.kind.isComment = false := by
      refine Bool.eq_false_iff.2 fun hcomment => ?_
      have hends : Read.endsValue last.kind ∧ last.kind.rise = 0 := by
        generalize last.kind = k at hcomment
        cases k <;> first | exact ⟨rfl, rfl⟩ | cases hcomment
      have hdepth := h.inside init last [] hinit hends.1
      have hall := depth_of_nested h.nested
      rw [hinit, depth_append, depth, depth, hends.2] at hall
      omega
    rw [hinit] at hchain
    obtain ⟨s₁, hinitChain, hlastChain⟩ := hchain.of_append
    cases hlastChain with
    | cons hstep _ =>
      refine closes_of_step a (hover.of_chain hinitChain) hstep ?_ hcomment hcontinuation
      rw [← hvalue, getLast?_append, hclose, Option.some_or]
  -- one token cannot be both braces
  rw [hinit] at hmore
  cases init with
  | nil =>
    cases hmore
    cases hfirstKind.symm.trans hlastKind
  | cons u mid =>
    cases hmore
    exact ⟨first, mid, last, hinit, hfirstKind, hlastKind⟩

/-- What stands between the brace at which a value starts and the one at which it ends is its inner text. -/
theorem between_eq {lead between rest : Text} (h : v.Writes text ('\x7b' :: inner ++ ['\x7d']))
    (hfirst : v.value.head? = some first) (hlast : v.value.getLast? = some last)
    (htext : text = lead ++ ['\x7b'] ++ between ++ ['\x7d'] ++ rest) (hstart : first.offset = Text.bytes lead)
    (hend : last.endOffset = Text.bytes (lead ++ ['\x7b'] ++ between ++ ['\x7d'])) : between = inner := by
  obtain ⟨first', last', lead', rest', hfirst', hlast', -, -, htext', hstart', hend'⟩ := h.written
  cases hfirst.symm.trans hfirst'
  cases hlast.symm.trans hlast'
  have hcut : lead ++ ['\x7b'] ++ between ++ ['\x7d'] ++ rest =
      lead' ++ ('\x7b' :: inner ++ ['\x7d']) ++ rest' := htext.symm.trans htext'
  obtain ⟨hupTo, -⟩ := Text.append_inj_of_bytes hcut (hend.symm.trans hend')
  have hwhole : lead ++ ('\x7b' :: (between ++ ['\x7d'])) = lead' ++ ('\x7b' :: (inner ++ ['\x7d'])) := by
    simpa using hupTo
  obtain ⟨-, hvalue⟩ := Text.append_inj_of_bytes hwhole (hstart.symm.trans hstart')
  exact append_cancel_right (List.cons.inj hvalue).2

/-- Between the braces around a value the reader of cell arrays finds the braces that the scanner finds. -/
theorem foldlM_inner (h : v.Writes text ('\x7b' :: inner ++ ['\x7d']))
    (hscan : scan text = .ok (before ++ v.value ++ after)) (hafter : after ≠ [])
    (hvalue : v.value = first :: mid ++ [last]) (hfirst : first.kind = .delimiter (.opening .brace))
    (hlast : last.kind = .delimiter (.closing .brace))
    (hmid : ∀ t ∈ mid, t.kind.mayMislead → t.isPassed text) :
    ∃ c, inner.foldlM (Default.Scan.step .brace) { last := '\x7b' } =
      ((mid.filterMap (·.kind.nesting?)).foldlM bracesAfter 0).map fun n => ⟨n, none, c⟩ := by
  obtain ⟨s₀, s₃, ⟨past, ahead, hcursor, htext⟩, hchain⟩ := exists_chain_between hscan hafter
  rw [hvalue, cons_append] at hchain
  cases hchain with
  | cons hopens hrest =>
    obtain ⟨s₂, hchain, hend⟩ := hrest.of_append
    cases hend with
    | cons hcloses _ =>
      obtain ⟨gap, lexeme, hidden, rest, rfl, htook⟩ := took_of_step hcursor hopens
      obtain ⟨rfl, rfl⟩ := htook.of_delimiter hfirst
      obtain ⟨passed, rest, rfl, hcursor₂, hfold⟩ :=
        foldlM_of_chain hchain htook.cursor_eq (by simp [← htext]) hmid
      obtain ⟨gap', lexeme', hidden', rest, rfl, htook'⟩ := took_of_step hcursor₂ hcloses
      obtain ⟨rfl, rfl⟩ := htook'.of_delimiter hlast
      obtain ⟨hstands, -⟩ := htook.stands
      obtain ⟨hstands', hlexeme⟩ := htook'.stands
      obtain rfl : passed ++ gap' = inner := by
        have hcut : text = past ++ gap ++ ['\x7b'] ++ (passed ++ gap') ++ ['\x7d'] ++ rest := by
          rw [← htext]
          simp [char, opener, closer]
        refine h.between_eq (by rw [hvalue]; rfl) (by rw [hvalue, getLast?_concat]) hcut hstands.offset ?_
        rw [hstands'.endOffset, hlexeme, append_nil, append_assoc (past ++ gap ++ _) passed]
        rfl
      have hbrace : Default.lastShown ' ' (past ++ gap ++ [char (.opening .brace)] ++ []) = '\x7b' := by
        rw [append_nil, Default.lastShown_append]
        rfl
      have hfold := hfold 0
      rw [hbrace] at hfold
      refine ⟨Default.lastShown ' ' (past ++ gap ++ ['\x7b'] ++ passed ++ gap'), ?_⟩
      rw [foldlM_append, hfold]
      cases (mid.filterMap (·.kind.nesting?)).foldlM bracesAfter 0 with
      | none => rfl
      | some n =>
        rw [Option.map_some, Option.bind_eq_bind, Option.bind_some,
          goesOver_gap htook'.blank, ← Default.lastShown_append, append_nil]
        rfl

end ValueTokens.Writes

namespace Default

theorem enclosed?_brace (inner : Text) : enclosed? .brace ('\x7b' :: inner ++ ['\x7d']) =
    (inner.foldlM (Scan.step .brace) { last := '\x7b' }).bind fun s => if s.depth =
    0 && s.literal.isNone then some inner else none := by
  have hlast : Text.dropLast? '\x7d' (inner ++ ['\x7d']) = some inner := by simp [Text.dropLast?]
  rw [cons_append, enclosed?, if_neg (fun h => h rfl), show closer .brace = '\x7d' from rfl, hlast]
  simp only [opener]
  cases inner.foldlM (Scan.step .brace) { last := '\x7b' } <;> rfl

/-- A text in braces is shown as a cell array, if they enclose it all, and quoted as a whole otherwise. -/
theorem render_brace (inner : Text) : render ('\x7b' :: inner ++ ['\x7d']) =
    (enclosed? .brace ('\x7b' :: inner ++ ['\x7d'])).elim (Quoted.quote ('\x7b' :: inner ++ ['\x7d']))
      fun inner => Text.join ["\x7b", Quoted.quote inner, "\x7d"] := by
  have htrim : Text.trim ('\x7b' :: inner ++ ['\x7d']) = '\x7b' :: inner ++ ['\x7d'] := by
    rw [Text.trim, Text.trimStart, cons_append, dropWhile_cons_of_neg (by decide), ← cons_append]
    exact Text.trimEnd_append_of_not_isSpace _ (by decide)
  have hnumber : isNumber ('\x7b' :: inner ++ ['\x7d']) = false := rfl
  have hname : Name.isIdentifier ('\x7b' :: inner ++ ['\x7d']) = false := rfl
  have hliteral : literal? ('\x7b' :: inner ++ ['\x7d']) = none := rfl
  have hstruct : Text.dropLead? "struct" ('\x7b' :: inner ++ ['\x7d']) = none := rfl
  simp only [render, htrim, hnumber, hname, hliteral, hstruct]
  cases enclosed? .brace ('\x7b' :: inner ++ ['\x7d']) <;> rfl

end Default

/-- The default value of a property is `inner` in braces, and between their tokens stand the tokens `mid`. -/
structure Member.InBraces (text : Text) (m : Member) (value inner : Text) (mid : List Token) : Prop where
  tokens : ∃ v first last, m.HasValue text v value ∧ v.value = first :: mid ++ [last] ∧
    first.kind = .delimiter (.opening .brace) ∧ last.kind = .delimiter (.closing .brace)
  value_eq : value = '\x7b' :: inner ++ ['\x7d']

/-- A default value in braces is shown as a cell array if and only if its first brace is
closed by its last one, and quoted as a whole otherwise, provided that the reader of cell
arrays passes each character array, transpose, comment and continuation between them. -/
theorem ClassDecl.cellArray_iff {limits : Limits} {text : Text} {c : ClassDecl} {m : Member}
    {type : Option DottedName} {value : Text} (h : ClassDecl.parse limits text = .ok c) (hm : m ∈ c.members)
    (hvalue : m.detail = .property type (some value)) (hopen : value.head? = some '\x7b')
    (hclose : value.getLast? = some '\x7d') : ∃ inner mid, m.InBraces text value inner mid ∧
      ((∀ t ∈ mid, t.kind.mayMislead = true → t.isPassed text = true) →
        (Default.render value = Text.join ["\x7b", Quoted.quote inner, "\x7d"] ↔
          Bracket.Nested (mid.filterMap (·.kind.nesting?))) ∧
        (¬Bracket.Nested (mid.filterMap (·.kind.nesting?)) → Default.render value = Quoted.quote value)) := by
  obtain ⟨v, hhas, -⟩ := exists_valueTokens h hm hvalue
  obtain ⟨before, after, hscan, hafter⟩ := hhas.exists_scan
  obtain ⟨first, mid, last, hmid, hfirst, hlast⟩ := hhas.writes.exists_braces hscan hafter hopen hclose
  obtain ⟨inner, rfl⟩ : ∃ inner, value = '\x7b' :: inner ++ ['\x7d'] := by
    obtain ⟨init, rfl⟩ := List.getLast?_eq_some_iff.1 hclose
    cases init with
    | nil => cases hopen
    | cons d inner =>
      cases hopen
      exact ⟨inner, rfl⟩
  refine ⟨inner, mid, ⟨⟨v, first, last, hhas, hmid, hfirst, hlast⟩, rfl⟩, fun hpassed => ?_⟩
  obtain ⟨shown, hfold⟩ := hhas.writes.foldlM_inner hscan hafter hmid hfirst hlast hpassed
  have hrender := Default.render_brace inner
  rw [Default.enclosed?_brace, hfold] at hrender
  by_cases hnested : Nested (mid.filterMap (·.kind.nesting?))
  · rw [hnested.foldlM_bracesAfter 0] at hrender
    exact ⟨iff_of_true hrender hnested, fun hnot => absurd hnested hnot⟩
  · have hall : Nested (.opening .brace :: mid.filterMap (·.kind.nesting?) ++ [.closing .brace]) := by
      simpa [hmid, hfirst, hlast, TokenKind.nesting?] using hhas.writes.nested
    rw [foldlM_bracesAfter_eq_none hall hnested] at hrender
    refine ⟨iff_of_false (fun hcell => ?_) hnested, fun _ => hrender⟩
    cases (List.cons.inj (hrender.symm.trans hcell)).1

def inBraces (elements : Text) : Text := '\x7b' :: elements ++ ['\x7d']

/-- A class with one property, whose default value has these elements in braces. -/
def withElements (elements : Text) : Text :=
  Text.join ["classdef A\nproperties\nx = ", inBraces elements, "\nend\nend\n"]

/-- Braces in literals, a doubled quote, a transpose, a continuation and a comment. -/
def mixedElements : Text := "1, 'a\x7d', \"b\x7b\", \x7bx', 'it''s'\x7d ... w\n% isn't \x7b\x7d\n[2; 3]"

theorem ClassDecl.cellArray_iff_mixed : ∃ c m mid, ClassDecl.parse {} (withElements mixedElements) = .ok c ∧
    m ∈ c.members ∧ m.detail = .property none (some (inBraces mixedElements)) ∧
    (inBraces mixedElements).head? = some '\x7b' ∧ (inBraces mixedElements).getLast? = some '\x7d' ∧
    m.InBraces (withElements mixedElements) (inBraces mixedElements) mixedElements mid ∧
    (∀ t ∈ mid, t.kind.mayMislead = true → t.isPassed (withElements mixedElements) = true) ∧
    Default.render (inBraces mixedElements) = Text.join ["\x7b", Quoted.quote mixedElements, "\x7d"] ∧
    Bracket.Nested (mid.filterMap (·.kind.nesting?)) := by
  have hpassed : ∀ tokens, scan (withElements mixedElements) = .ok tokens → ∀ t ∈ tokens,
      t.kind.mayMislead = true → t.isPassed (withElements mixedElements) = true := by decide +kernel
  have hrender : Default.render (inBraces mixedElements) =
      Text.join ["\x7b", Quoted.quote mixedElements, "\x7d"] := by decide +kernel
  have hopen : (inBraces mixedElements).head? = some '\x7b' := rfl
  have hclose : (inBraces mixedElements).getLast? = some '\x7d' := List.getLast?_concat
  obtain ⟨c, hc, m, hm, hdetail⟩ : ∃ c, parse {} (withElements mixedElements) = .ok c ∧ ∃ m ∈ c.members,
      m.detail = .property none (some (inBraces mixedElements)) := by decide +kernel
  obtain ⟨inner, mid, hbraces, hiff⟩ := cellArray_iff hc hm hdetail hopen hclose
  obtain rfl : mixedElements = inner := List.append_cancel_right (List.cons.inj hbraces.value_eq).2
  have hpasses : ∀ t ∈ mid, t.kind.mayMislead = true → t.isPassed (withElements mixedElements) = true := by
    intro t ht
    obtain ⟨v, first, last, hhas, hmid, -⟩ := hbraces.tokens
    obtain ⟨before, after, hscan, -⟩ := hhas.exists_scan
    exact hpassed _ hscan t (by simp [hmid, ht])
  exact ⟨c, m, mid, hc, hm, hdetail, hopen, hclose, hbraces, hpasses, hrender, (hiff hpasses).1.1 hrender⟩

/-- The kinds of the tokens before the default value of that class. -/
def kindsBefore : List TokenKind :=
  [.keyword .classdef, .identifier "A", .newline, .keyword .properties,
    .newline, .identifier "x", .operator .assign]

/-- The kinds of the tokens behind it. -/
def kindsBehind : List TokenKind := [.newline, .keyword .close, .newline, .keyword .close, .newline, .eof]

/-- The class is read, and tokens of the kinds `mid` stand between the braces. -/
structure IsRead (elements : Text) (mid : List TokenKind) : Prop where
  parsed : ∃ c, ClassDecl.parse {} (withElements elements) = .ok c ∧
    ∃ m ∈ c.members, m.detail = .property none (some (inBraces elements))
  scanned : (scan (withElements elements)).map (·.map (·.kind)) =
    .ok (kindsBefore ++ .delimiter (.opening .brace) :: mid ++ .delimiter (.closing .brace) :: kindsBehind)

/-- A literal behind a word, of which the reader of cell arrays takes the first quote for a transpose. -/
def literalElements : Text := "a '\x7d'"

/-- The sum of two cell arrays, with comments of which the reader takes the quotes for those of a literal. -/
def commentElements : Text := "1 % \"\n\x7d + \x7b2 % \"\n"

/-- Braces that belong together may be missed, and braces that do not may be taken for such. -/
theorem ClassDecl.cellArray_misread :
    (∃ mid, IsRead literalElements mid ∧ Bracket.Nested (mid.filterMap TokenKind.nesting?) ∧
      Default.render (inBraces literalElements) ≠ Text.join ["\x7b", Quoted.quote literalElements, "\x7d"]) ∧
    ∃ mid, IsRead commentElements mid ∧ ¬Bracket.Nested (mid.filterMap TokenKind.nesting?) ∧
      Default.render (inBraces commentElements) = Text.join ["\x7b",
        Quoted.quote commentElements, "\x7d"] := by
  constructor
  · refine ⟨[.identifier "a", .literal .single "\x7d"],
      ⟨by decide +kernel, by decide +kernel⟩, .nil, by decide +kernel⟩
  · refine ⟨[.number "1", .comment " \"", .newline, .delimiter (.closing .brace),
      .operator (.other "+"), .delimiter (.opening .brace), .number "2", .comment " \"", .newline],
      ⟨by decide +kernel, by decide +kernel⟩, fun h => ?_, by decide +kernel⟩
    exact absurd (h.foldlM_bracesAfter 0) (by decide)

end ClassdefDoc
