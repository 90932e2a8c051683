import ClassdefDoc.Documentation.DocText
import ClassdefDoc.Proofs.Documentation.Macros
import ClassdefDoc.Proofs.Name

/-!
# Patterns in documentation lines

What the readers of a documentation line find, said by how the line is put together: a heading is a heading
word and a colon with blanks around them (`IsHeading`), an entry a word, a colon and what follows it
(`IsEntry`), a tag `@param` is followed by blanks and a word (`IsParamTag`), and so is a phrase `@type`,
which may stand anywhere in the line and whose word may have points (`IsTypePhrase`). The readers find
exactly these (`heading?_eq_none_iff`, `opens_of_heading?`, `described?_eq_some_iff`, `param?_eq_some_iff`,
`typePhrase?_eq_some_iff`), and `takeType` takes the first phrase out of a line (`untyped_takeType`).
-/

namespace ClassdefDoc

open List

variable {c : Char} {w heading word before after : Text} {kind : SectionKind}

namespace Text

variable {t u : Text}

/-- No white space starts a text. -/
def StartsTight (t : Text) : Prop := ∀ c, t.head? = some c → isSpace c = false

theorem trimStart_eq_iff : trimStart t = u ↔ ∃ lead, t = lead ++ u ∧ isBlank lead ∧ u.StartsTight := by
  constructor
  · rintro rfl
    exact ⟨t.takeWhile isSpace, takeWhile_append_dropWhile.symm,
      all_takeWhile, fun c => not_of_head?_dropWhile⟩
  · rintro ⟨lead, rfl, hlead, hu⟩
    exact dropWhile_append_stop (all_eq_true.1 hlead) hu

/-- A text without the white space at its end. -/
def IsTrimmed (t u : Text) : Prop :=
  ∃ blanks, t = u ++ blanks ∧ isBlank blanks ∧ ∀ c, u.getLast? = some c → isSpace c = false

theorem isTrimmed_trimEnd (t : Text) : IsTrimmed t (trimEnd t) := by
  obtain ⟨lead, hcut, hlead, htight⟩ := trimStart_eq_iff.1 (rfl : trimStart t.reverse = trimStart t.reverse)
  refine ⟨lead.reverse, ?_, ?_, ?_⟩
  · rw [trimEnd, ← trimStart, ← reverse_append, ← hcut, reverse_reverse]
  · rwa [isBlank, all_reverse]
  · intro c hc
    rw [trimEnd, getLast?_reverse] at hc
    exact htight c hc

end Text

namespace Name

theorem startsWord_of_isWord (h : isWord (c :: w)) : startsWord c :=
  (Bool.and_eq_true_iff.1 h).1

theorem isContinue_of_startsWord (h : startsWord c) : isContinue c := by
  rcases Bool.or_eq_true_iff.1 h with hstart | hunderscore
  · exact isContinue_of_isStart hstart
  · exact Bool.or_eq_true_iff.2 (.inr hunderscore)

theorem isSpace_of_startsWord (h : startsWord c) : Text.isSpace c = false :=
  isSpace_of_isContinue (isContinue_of_startsWord h)

theorem startsTight_of_isWord (h : isWord w) (rest : Text) : (w ++ rest).StartsTight := by
  cases w with
  | nil => cases h
  | cons c w =>
    rintro _ ⟨⟩
    exact isSpace_of_startsWord (startsWord_of_isWord h)

/-- White space does not go on with a word. -/
theorem isContinue_of_isBlank {gap rest : Text} (hgap : Text.isBlank gap)
    (hrest : ∀ c, rest.head? = some c → isContinue c = false) (c : Char) (hc : (gap ++ rest).head? = some c) :
    isContinue c = false := by
  cases gap with
  | nil => exact hrest c hc
  | cons d gap =>
    cases hc
    rw [Text.isBlank, all_cons, Bool.and_eq_true] at hgap
    rw [Bool.eq_false_iff]
    intro hcontinue
    rw [isSpace_of_isContinue hcontinue] at hgap
    cases hgap.1

end Name

namespace DocLine

variable {line name rest type t : Text}

/-! ## Entries and parameters -/

/-- Blanks, a word, blanks, a colon, and the description to the end of the line. -/
def IsEntry (line name rest : Text) : Prop :=
  ∃ lead gap, line = lead ++ (name ++ (gap ++ ':' :: rest)) ∧ Text.isBlank lead ∧ Text.isBlank gap ∧
    Name.isWord name ∧ '\n' ∉ rest

theorem startsTight_colon (rest : Text) : Text.StartsTight (':' :: rest) := by
  rintro _ ⟨⟩
  decide

theorem described?_eq_some_iff : described? line = some (name, rest) ↔ IsEntry line name rest := by
  unfold described?
  constructor
  · intro h
    split at h
    · cases h
    · rename_i name' behind hword
      split at h
      · rename_i rest' hcolon
        split_ifs at h with hnewline
        cases h
        obtain ⟨lead, hline, hlead, -⟩ := Text.trimStart_eq_iff.1 (rfl : Text.trimStart line = _)
        obtain ⟨gap, hgap, hblank, -⟩ := Text.trimStart_eq_iff.1 hcolon
        obtain ⟨hcut, hname, -⟩ := Name.word?_eq_some_iff.1 hword
        exact ⟨lead, gap, by rw [hline, hcut, hgap], hlead, hblank, hname, by simpa using hnewline⟩
      · cases h
  · rintro ⟨lead, gap, rfl, hlead, hgap, hname, hnewline⟩
    have hstart :=
      Text.trimStart_eq_iff.2 ⟨lead, rfl, hlead, Name.startsTight_of_isWord hname (gap ++ ':' :: rest)⟩
    have hword : Name.word? (name ++ (gap ++ ':' :: rest)) = some (name, gap ++ ':' :: rest) :=
      Name.word?_eq_some_iff.2 ⟨rfl, hname, Name.isContinue_of_isBlank hgap (by rintro _ ⟨⟩; decide)⟩
    have hcolon := Text.trimStart_eq_iff.2 ⟨gap, rfl, hgap, startsTight_colon rest⟩
    rw [hstart, hword]
    simp only [hcolon]
    rw [if_neg (by simpa using hnewline)]

/-- Blanks, `@param`, blanks and a word. -/
def IsParamTag (line name : Text) : Prop :=
  ∃ lead gap rest, line = lead ++ ("@param".toList ++ (gap ++ (name ++ rest))) ∧ Text.isBlank lead ∧
    gap ≠ [] ∧ Text.isBlank gap ∧ Name.isWord name ∧ ∀ c, rest.head? = some c → Name.isContinue c = false

theorem param?_eq_some_iff : param? line = some name ↔ IsParamTag line name := by
  unfold param?
  constructor
  · intro h
    split at h
    · rename_i c behind htag
      split_ifs at h with hspace
      obtain ⟨⟨name', rest⟩, hword, rfl⟩ := Option.map_eq_some_iff.1 h
      obtain ⟨lead, hline, hlead, -⟩ := Text.trimStart_eq_iff.1 (rfl : Text.trimStart line = _)
      obtain ⟨gap, hgap, hblank, -⟩ := Text.trimStart_eq_iff.1 (rfl : Text.trimStart behind = _)
      obtain ⟨hcut, hname, hrest⟩ := Name.word?_eq_some_iff.1 hword
      refine ⟨lead, c :: gap, rest, ?_, hlead, cons_ne_nil _ _, ?_, hname, hrest⟩
      · rw [hline, Text.dropLead?_eq_some_iff.1 htag, hgap, hcut, cons_append]
      · rw [Text.isBlank, all_cons, hspace, ← Text.isBlank, hblank]
        rfl
    · cases h
  · rintro ⟨lead, gap, rest, rfl, hlead, hne, hgap, hname, hrest⟩
    obtain ⟨c, gap, rfl⟩ := exists_cons_of_ne_nil hne
    rw [Text.isBlank, all_cons, Bool.and_eq_true] at hgap
    have hstart := Text.trimStart_eq_iff.2
      ⟨lead, rfl, hlead,
        (by rintro _ ⟨⟩; decide : Text.StartsTight ("@param".toList ++ (c :: gap ++ (name ++ rest))))⟩
    have hword : Name.word? (name ++ rest) = some (name, rest) := Name.word?_eq_some_iff.2 ⟨rfl, hname, hrest⟩
    have hgap' := Text.trimStart_eq_iff.2 ⟨gap, rfl, hgap.2, Name.startsTight_of_isWord hname rest⟩
    rw [hstart, Text.dropLead?_eq_some_iff.2 rfl]
    simp only [cons_append, hgap.1, if_true, hgap', hword, Option.map_some]

/-! ## Headings -/

/-- A word spells a heading letter by letter, in any case; the long s is an s. -/
def Spells (heading word : Text) : Prop := Forall₂ (fun letter c => spells letter c) heading word

theorem spells_take_iff :
    (decide (heading.length ≤ t.length) && (heading.zip t).all (fun p => spells p.1 p.2)) ↔
      Spells heading (t.take heading.length) := by
  induction heading generalizing t with
  | nil => exact iff_of_true rfl .nil
  | cons letter heading ih =>
    cases t with
    | nil => exact iff_of_false (by simp) (by rintro ⟨⟩)
    | cons c t =>
      rw [length_cons, take_succ_cons, Spells, forall₂_cons, ← Spells, ← ih]
      simp only [length_cons, Nat.add_le_add_iff_right, zip_cons_cons, all_cons, Bool.and_eq_true]
      exact and_left_comm

theorem headingWord?_eq_some_iff :
    headingWord? heading t = some (word, rest) ↔ t = word ++ rest ∧ Spells heading word := by
  rw [headingWord?]
  constructor
  · intro h
    split_ifs at h with hspells
    cases h
    exact ⟨(take_append_drop _ _).symm, spells_take_iff.1 hspells⟩
  · rintro ⟨rfl, hspells⟩
    have hlength := hspells.length_eq
    have htake : (word ++ rest).take heading.length = word := take_left' hlength.symm
    rw [if_pos (spells_take_iff.2 (by rwa [htake])), htake, drop_left' hlength.symm]

/-- The word of the heading that opens a section. -/
def headingOf : SectionKind → Text
  | .parameters => "parameters"
  | .returns => "return values"

/-- Blanks, a heading word, blanks, a colon and blanks. -/
def IsHeading (kind : SectionKind) (word line : Text) : Prop :=
  ∃ lead gap tail, line = lead ++ (word ++ (gap ++ ':' :: tail)) ∧ Text.isBlank lead ∧ Text.isBlank gap ∧
    Text.isBlank tail ∧ Spells (headingOf kind) word

/-- A heading opens the section whose heading its word spells. Which one it
is for parameters with a long s is left open. -/
def Opens (kind : SectionKind) (line : Text) : Prop :=
  ∃ spelled word, IsHeading spelled word line ∧ (spelled = kind ∨ spelled = .parameters ∧ 'ſ' ∈ word)

theorem toLower_of_spells {letter : Char} (h : spells letter c) (hc : c ≠ 'ſ') : c.toLower = letter := by
  rw [spells, Bool.or_eq_true, Bool.and_eq_true, beq_iff_eq, beq_iff_eq] at h
  refine h.resolve_right fun hlong => hc ?_
  exact Char.toNat_inj.1 (beq_iff_eq.1 hlong.2)

theorem lower_of_spells (h : Spells heading word) (hlong : 'ſ' ∉ word) : Text.lower word = heading := by
  induction h with
  | nil => rfl
  | cons hc _ ih =>
    rw [mem_cons, not_or] at hlong
    rw [Text.lower, map_cons, toLower_of_spells hc (Ne.symm hlong.1), ← Text.lower, ih hlong.2]

/-- The first letter of a heading has only its two cases. -/
theorem exists_cons_of_spells (h : Spells (headingOf kind) word) :
    ∃ c cs, word = c :: cs ∧ (headingOf kind).head? = some c.toLower := by
  cases kind with
  | parameters | returns =>
    cases h with
    | cons hc _ =>
      exact ⟨_, _, rfl, congrArg some (toLower_of_spells hc (by rintro rfl; revert hc; decide)).symm⟩

theorem startsTight_of_spells (h : Spells (headingOf kind) word) (rest : Text) :
    Text.StartsTight (word ++ rest) := by
  obtain ⟨c, cs, rfl, hc⟩ := exists_cons_of_spells h
  rintro _ ⟨⟩
  rw [← Text.isSpace_toLower]
  cases kind with
  | parameters | returns => rw [← Option.some.inj hc]; decide

/-- The section that a heading word opens. -/
def sectionOf (word : Text) : SectionKind := if Text.sameWord word "parameters" then .parameters else .returns

theorem sectionOf_of_spells (h : Spells (headingOf kind) word) :
    kind = sectionOf word ∨ kind = .parameters ∧ 'ſ' ∈ word := by
  cases kind with
  | parameters =>
    by_cases hlong : 'ſ' ∈ word
    · exact .inr ⟨rfl, hlong⟩
    · have hsame : Text.sameWord word "parameters" := by
        rw [Text.sameWord, lower_of_spells h hlong]
        decide
      exact .inl (if_pos hsame).symm
  | returns =>
    have hsame : ¬Text.sameWord word "parameters" := by
      intro hsame
      have hlength := congrArg List.length (beq_iff_eq.1 hsame)
      rw [Text.lower, length_map, ← h.length_eq] at hlength
      exact absurd hlength (by decide)
    exact .inl (if_neg hsame).symm

/-- No word is spelled at the start of both headings. -/
theorem spelled_inj {kind' : SectionKind} {word' rest' : Text} (h : Spells (headingOf kind) word)
    (h' : Spells (headingOf kind') word') (heq : word ++ rest = word' ++ rest') : kind = kind' := by
  obtain ⟨c, cs, rfl, hc⟩ := exists_cons_of_spells h
  obtain ⟨c', cs', rfl, hc'⟩ := exists_cons_of_spells h'
  rw [(List.cons.inj heq).1, ← hc'] at hc
  revert hc
  cases kind <;> cases kind' <;> decide

theorem or_headingWord?_eq_some_iff :
    (headingWord? "parameters" t).or (headingWord? "return values" t) = some (word, rest) ↔
      t = word ++ rest ∧ ∃ kind, Spells (headingOf kind) word := by
  constructor
  · intro h
    rcases Option.or_eq_some_iff.1 h with hparameters | ⟨-, hreturns⟩
    · exact (headingWord?_eq_some_iff.1 hparameters).imp_right fun hspells => ⟨.parameters, hspells⟩
    · exact (headingWord?_eq_some_iff.1 hreturns).imp_right fun hspells => ⟨.returns, hspells⟩
  · rintro ⟨ht, kind, hspells⟩
    cases kind with
    | parameters => exact Option.or_eq_some_iff.2 (.inl (headingWord?_eq_some_iff.2 ⟨ht, hspells⟩))
    | returns =>
      refine Option.or_eq_some_iff.2 (.inr ⟨?_, headingWord?_eq_some_iff.2 ⟨ht, hspells⟩⟩)
      rw [Option.eq_none_iff_forall_ne_some]
      rintro ⟨word', rest'⟩ hparameters
      obtain ⟨ht', hspells'⟩ := headingWord?_eq_some_iff.1 hparameters
      have hsame : SectionKind.parameters = .returns := spelled_inj hspells' hspells (ht'.symm.trans ht)
      cases hsame

theorem heading?_eq_some_iff :
    heading? line = some kind ↔ ∃ spelled word, IsHeading spelled word line ∧ kind = sectionOf word := by
  unfold heading?
  simp only
  constructor
  · intro h
    obtain ⟨lead, hline, hlead, -⟩ := Text.trimStart_eq_iff.1 (rfl : Text.trimStart line = _)
    split at h
    · cases h
    · rename_i word behind hword
      obtain ⟨hcut, spelled, hspells⟩ := or_headingWord?_eq_some_iff.1 hword
      split at h
      · rename_i tail hcolon
        obtain ⟨gap, hgap, hblank, -⟩ := Text.trimStart_eq_iff.1 hcolon
        cases htail : Text.isBlank tail with
        | false => simp [htail] at h
        | true =>
          have hkind : some (sectionOf word) = some kind := by
            rw [← h, htail, if_neg (by decide), sectionOf]
            split_ifs <;> rfl
          exact ⟨spelled, word, ⟨lead, gap, tail, by rw [hline, hcut, hgap], hlead, hblank, htail, hspells⟩,
            (Option.some.inj hkind).symm⟩
      · cases h
  · rintro ⟨spelled, word, ⟨lead, gap, tail, rfl, hlead, hgap, htail, hspells⟩, rfl⟩
    have hstart :=
      Text.trimStart_eq_iff.2 ⟨lead, rfl, hlead, startsTight_of_spells hspells (gap ++ ':' :: tail)⟩
    have hword : (headingWord? "parameters" (word ++ (gap ++ ':' :: tail))).or
        (headingWord? "return values" (word ++ (gap ++ ':' :: tail))) = some (word, gap ++ ':' :: tail) :=
      or_headingWord?_eq_some_iff.2 ⟨rfl, spelled, hspells⟩
    have hcolon := Text.trimStart_eq_iff.2 ⟨gap, rfl, hgap, startsTight_colon tail⟩
    rw [hstart, hword]
    simp only [hcolon, htail]
    rw [if_neg (by decide), sectionOf]
    split_ifs <;> rfl

theorem opens_of_heading? (h : heading? line = some kind) : Opens kind line := by
  obtain ⟨spelled, word, hheading, rfl⟩ := heading?_eq_some_iff.1 h
  obtain ⟨-, -, -, -, -, -, -, hspells⟩ := id hheading
  exact ⟨spelled, word, hheading, sectionOf_of_spells hspells⟩

theorem not_opens_of_heading? (h : heading? line = none) (kind : SectionKind) : ¬Opens kind line := by
  rintro ⟨spelled, word, hheading, -⟩
  rw [heading?_eq_some_iff.2 ⟨spelled, word, hheading, rfl⟩] at h
  cases h

/-! ## Types -/

/-- A word that may have points behind its first character. -/
def isTypeName : Text → Bool
  | [] => false
  | c :: cs => Name.startsWord c && cs.all typeAt?.inType

/-- `@type`, blanks, the longest type name that stands there, and all the blanks behind it. -/
def IsTypePhrase (line before type after : Text) : Prop :=
  ∃ gap blanks, line = before ++ ("@type".toList ++ (gap ++ (type ++ (blanks ++ after)))) ∧ gap ≠ [] ∧
    Text.isBlank gap ∧ isTypeName type ∧ (∀ c, (blanks ++ after).head? = some c → typeAt?.inType c = false) ∧
    Text.isBlank blanks ∧ after.StartsTight

theorem typeAt?_eq_some_iff : typeAt? t = some (type, rest) ↔ IsTypePhrase t [] type rest := by
  unfold typeAt?
  constructor
  · intro h
    split at h
    · rename_i c behind htag
      split_ifs at h with hspace
      split at h
      · rename_i d ds hstart
        split_ifs at h with hd
        cases h
        obtain ⟨gap, hgap, hblank, -⟩ := Text.trimStart_eq_iff.1 hstart
        obtain ⟨blanks, hblanks, hisblank, htight⟩ :=
          Text.trimStart_eq_iff.1 (rfl : Text.trimStart (ds.dropWhile typeAt?.inType) = _)
        have hname : (ds.takeWhile typeAt?.inType).all typeAt?.inType := all_takeWhile
        refine ⟨c :: gap, blanks, ?_, cons_ne_nil _ _, ?_, ?_, ?_, hisblank, htight⟩
        · rw [nil_append, Text.dropLead?_eq_some_iff.1 htag, hgap, ← hblanks, cons_append, cons_append,
            takeWhile_append_dropWhile]
        · rw [Bool.not_eq_true, Bool.not_eq_false'] at hspace
          rw [Text.isBlank, all_cons, hspace, ← Text.isBlank, hblank]
          rfl
        · rw [isTypeName, hd, hname]
          rfl
        · rw [← hblanks]
          exact fun e => Text.not_of_head?_dropWhile
      · cases h
    · cases h
  · rintro ⟨gap, blanks, rfl, hne, hgap, htype, hend, hblanks, htight⟩
    obtain ⟨c, gap, rfl⟩ := exists_cons_of_ne_nil hne
    rw [Text.isBlank, all_cons, Bool.and_eq_true] at hgap
    cases type with
    | nil => cases htype
    | cons d ds =>
      rw [isTypeName, Bool.and_eq_true, all_eq_true] at htype
      have hd : Text.StartsTight (d :: ds ++ (blanks ++ rest)) := by
        rintro _ ⟨⟩
        exact Name.isSpace_of_startsWord htype.1
      have hstart := Text.trimStart_eq_iff.2 ⟨gap, rfl, hgap.2, hd⟩
      have hblanks' := Text.trimStart_eq_iff.2 ⟨blanks, rfl, hblanks, htight⟩
      rw [nil_append, Text.dropLead?_eq_some_iff.2 rfl]
      simp only [cons_append] at hstart ⊢
      simp only [hgap.1, Bool.not_true, Bool.false_eq_true, if_false, hstart, htype.1, if_true,
        Text.takeWhile_append_stop htype.2 hend, Text.dropWhile_append_stop htype.2 hend, hblanks']

theorem isTypePhrase_cons :
    IsTypePhrase (c :: line) (c :: before) type after ↔ IsTypePhrase line before type after := by
  simp only [IsTypePhrase, cons_append, List.cons.injEq, true_and]

/-- A phrase further on in a line. -/
theorem exists_isTypePhrase_of_cons (h : IsTypePhrase (c :: line) before type after) (hne : before ≠ []) :
    ∃ before', before = c :: before' ∧ IsTypePhrase line before' type after := by
  obtain ⟨d, before, rfl⟩ := exists_cons_of_ne_nil hne
  obtain ⟨gap, blanks, hline, -⟩ := id h
  obtain rfl : c = d := (List.cons.inj hline).1
  exact ⟨before, rfl, isTypePhrase_cons.1 h⟩

/-- A phrase with no other one before it. -/
def IsFirstTypePhrase (line before type after : Text) : Prop :=
  IsTypePhrase line before type after ∧
    ∀ before' type' after', IsTypePhrase line before' type' after' → before.length ≤ before'.length

theorem not_isTypePhrase_of_typeAt? (h : typeAt? line = none)
    (hphrase : IsTypePhrase line before type after) :
    before ≠ [] := by
  rintro rfl
  rw [typeAt?_eq_some_iff.2 hphrase] at h
  cases h

theorem not_isTypePhrase_of_typePhrase? (h : typePhrase? line = none) (before type after : Text) :
    ¬IsTypePhrase line before type after := by
  induction line generalizing before with
  | nil =>
    rintro ⟨gap, blanks, hline, -⟩
    simp at hline
  | cons c line ih =>
    intro hphrase
    rw [typePhrase?] at h
    split at h
    · cases h
    · rename_i hat
      obtain ⟨before', -, hrest⟩ :=
        exists_isTypePhrase_of_cons hphrase (not_isTypePhrase_of_typeAt? hat hphrase)
      exact ih (Option.map_eq_none_iff.1 h) before' hrest

theorem isFirstTypePhrase_of_typePhrase? {out : Text} (h : typePhrase? line = some (type, out)) :
    ∃ before after, IsFirstTypePhrase line before type after ∧ out = before ++ after := by
  induction line generalizing out with
  | nil => cases h
  | cons c line ih =>
    rw [typePhrase?] at h
    split at h
    · rename_i hat
      cases h
      exact ⟨[], out, ⟨typeAt?_eq_some_iff.1 hat, fun _ _ _ _ => Nat.zero_le _⟩, rfl⟩
    · rename_i hat
      obtain ⟨⟨type', out'⟩, hrest, heq⟩ := Option.map_eq_some_iff.1 h
      cases heq
      obtain ⟨before, after, ⟨hphrase, hfirst⟩, rfl⟩ := ih hrest
      refine ⟨c :: before, after, ⟨isTypePhrase_cons.2 hphrase, fun before' type' after' hphrase' => ?_⟩, rfl⟩
      obtain ⟨before'', rfl, hrest'⟩ :=
        exists_isTypePhrase_of_cons hphrase' (not_isTypePhrase_of_typeAt? hat hphrase')
      exact Nat.succ_le_succ (hfirst before'' type' after' hrest')

/-- A line without its first phrase `@type` and then the blanks at its end;
a line without such a phrase stays as it is. -/
def Untyped (line out : Text) : Prop :=
  ((∀ before type after, ¬IsTypePhrase line before type after) ∧ out = line) ∨
    ∃ before type after, IsFirstTypePhrase line before type after ∧ Text.IsTrimmed (before ++ after) out

theorem untyped_takeType (line : Text) : Untyped line (takeType line).1 := by
  cases hphrase : typePhrase? line with
  | none =>
    refine .inl ⟨not_isTypePhrase_of_typePhrase? hphrase, ?_⟩
    rw [takeType, hphrase]
  | some p =>
    obtain ⟨type, out⟩ := p
    obtain ⟨before, after, hfirst, rfl⟩ := isFirstTypePhrase_of_typePhrase? hphrase
    refine .inr ⟨before, type, after, hfirst, ?_⟩
    rw [takeType, hphrase]
    exact Text.isTrimmed_trimEnd _

end DocLine

end ClassdefDoc
