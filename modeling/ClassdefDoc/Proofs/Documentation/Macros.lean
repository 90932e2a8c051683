import ClassdefDoc.Documentation.Macros
import ClassdefDoc.Proofs.Text

/-!
# Expansion of macros

A line has one split into characters and references, where a reference is taken wherever one starts and the
search goes on behind it (`LinePart.splits_iff`). The expansion of the line follows its split part by part:
a replacement is put in place of its reference and is not looked at again (`MacroTable.expansion_unique`).
-/

namespace ClassdefDoc

open List

theorem Text.dropLead?_eq_some_iff {lead t rest : Text} :
    dropLead? lead t = some rest ↔ t = lead ++ rest := by
  rw [dropLead?]
  constructor
  · intro h
    split_ifs at h with hlead
    obtain ⟨u, rfl⟩ := isPrefixOf_iff_prefix.1 hlead
    rw [drop_left] at h
    rw [Option.some.inj h]
  · rintro rfl
    have hlead : lead.isPrefixOf (lead ++ rest) := isPrefixOf_iff_prefix.2 (prefix_append lead rest)
    rw [if_pos hlead, drop_left]

namespace Name

/-- A letter or an underscore, and then letters, digits and underscores. -/
def isWord : Text → Bool
  | [] => false
  | c :: cs => startsWord c && cs.all isContinue

/-- The word at the start of a text is the longest one. -/
theorem word?_eq_some_iff {t w rest : Text} :
    word? t = some (w, rest) ↔ t = w ++ rest ∧ isWord w ∧ ∀ c, rest.head? = some c →
    isContinue c = false := by
  constructor
  · intro h
    cases t with
    | nil => cases h
    | cons c cs =>
      rw [word?] at h
      split_ifs at h with hstart
      cases h
      have hword : (cs.takeWhile isContinue).all isContinue := all_takeWhile
      exact ⟨by rw [cons_append, takeWhile_append_dropWhile], by rw [isWord, hstart, hword]; rfl,
        fun d => Text.not_of_head?_dropWhile⟩
  · rintro ⟨rfl, hword, hrest⟩
    cases w with
    | nil => cases hword
    | cons c cs =>
      rw [isWord, Bool.and_eq_true, all_eq_true] at hword
      rw [cons_append, word?, if_pos hword.1, Text.takeWhile_append_stop hword.2 hrest,
        Text.dropWhile_append_stop hword.2 hrest]

end Name

namespace LinePart

variable {c : Char} {name t rest : Text} {ps : List LinePart}

theorem text_reference (name : Text) : (reference name).text = '$' :: '\x7b' :: (name ++ ['\x7d']) := by
  simp [text]

/-- A reference starts here. -/
def StartsReference (t : Text) : Prop := ∃ name rest, Name.isWord name ∧ t = (reference name).text ++ rest

/-- The parts of a line from left to right. -/
inductive Splits : Text → List LinePart → Prop
  | nil : Splits [] []
  | plain {c : Char} {t : Text} {ps : List LinePart} : ¬StartsReference (c :: t) →
    Splits t ps → Splits (c :: t) (.plain c :: ps)
  | reference {name t : Text} {ps : List LinePart} : Name.isWord name → Splits t ps →
      Splits ((LinePart.reference name).text ++ t) (.reference name :: ps)

theorem referenceAt?_eq_some_iff :
    referenceAt? t = some name ↔ Name.isWord name ∧ ∃ rest, t = (reference name).text ++ rest := by
  constructor
  · intro h
    unfold referenceAt? at h
    split at h
    · cases h
    · rename_i u hlead
      split at h
      · rename_i v rest hword
        cases h
        obtain ⟨rfl, hname, -⟩ := Name.word?_eq_some_iff.1 hword
        exact ⟨hname, rest, by rw [Text.dropLead?_eq_some_iff.1 hlead, text_reference]; simp⟩
      · cases h
  · rintro ⟨hname, rest, rfl⟩
    have hlead : Text.dropLead? "$\x7b" ((reference name).text ++ rest) = some (name ++ '\x7d' :: rest) := by
      rw [Text.dropLead?_eq_some_iff, text_reference]
      simp
    have hword : Name.word? (name ++ '\x7d' :: rest) = some (name, '\x7d' :: rest) :=
      Name.word?_eq_some_iff.2 ⟨rfl, hname, fun c hc => by cases hc; decide⟩
    rw [referenceAt?, hlead]
    simp only [hword]

theorem referenceAt?_eq_none_iff : referenceAt? t = none ↔ ¬StartsReference t := by
  rw [Option.eq_none_iff_forall_ne_some]
  simp only [ne_eq, referenceAt?_eq_some_iff, StartsReference, not_exists, not_and]
  exact forall_congr' fun name => ⟨fun h rest hname => h hname rest, fun h hname rest => h rest hname⟩

theorem partsFrom_eq (skip : Nat) (t : Text) : partsFrom skip t = parts (t.drop skip) := by
  induction t generalizing skip with
  | nil => cases skip <;> rfl
  | cons c t ih =>
    cases skip with
    | zero => rfl
    | succ skip => rw [partsFrom, ih, drop_succ_cons]

theorem parts_plain (h : ¬StartsReference (c :: t)) : parts (c :: t) = plain c :: parts t := by
  rw [parts, partsFrom, referenceAt?_eq_none_iff.2 h]
  rfl

theorem parts_reference (hname : Name.isWord name) (rest : Text) :
    parts ((reference name).text ++ rest) = reference name :: parts rest := by
  have hat : referenceAt? ((reference name).text ++ rest) = some name :=
    referenceAt?_eq_some_iff.2 ⟨hname, rest, rfl⟩
  have hdrop : ('\x7b' :: (name ++ ['\x7d']) ++ rest).drop (name.length + 2) = rest :=
    drop_left' (by simp)
  rw [text_reference, cons_append] at hat ⊢
  rw [parts, partsFrom, hat]
  simp only [partsFrom_eq, hdrop]

/-- Every line has one split, its parts. -/
theorem splits_iff : Splits t ps ↔ ps = parts t := by
  constructor
  · intro h
    induction h with
    | nil => rfl
    | plain hplain _ ih => rw [parts_plain hplain, ih]
    | reference hname _ ih => rw [parts_reference hname, ih]
  · rintro rfl
    induction hn : t.length using Nat.strong_induction_on generalizing t with
    | _ n ih =>
      subst hn
      by_cases href : StartsReference t
      · obtain ⟨name, rest, hname, rfl⟩ := href
        rw [parts_reference hname]
        exact .reference hname (ih rest.length (by simp [text_reference]; omega) rfl)
      · cases t with
        | nil => exact .nil
        | cons c t =>
          rw [parts_plain href]
          exact .plain href (ih t.length (Nat.lt_succ_self _) rfl)

/-- A line is its parts, one behind the other. -/
theorem Splits.flatMap_text (h : Splits t ps) : ps.flatMap text = t := by
  induction h with
  | nil => rfl
  | plain _ _ ih => rw [flatMap_cons, ih]; rfl
  | reference _ _ ih => rw [flatMap_cons, ih]

end LinePart

namespace MacroTable

open LinePart

/-- Parts, what they expand to and the names of the references that stay. -/
inductive Expands (m : MacroTable) : List LinePart → Text → List Text → Prop
  | nil : Expands m [] [] []
  | plain {c ps out names} : Expands m ps out names → Expands m (.plain c :: ps) (c :: out) names
  | known {name replacement ps out names} : m.get? name = some replacement → Expands m ps out names →
      Expands m (.reference name :: ps) (replacement ++ out) names
  | unknown {name ps out names} : m.get? name = none → Expands m ps out names →
      Expands m (.reference name :: ps) ((LinePart.reference name).text ++ out) (name :: names)

variable {m : MacroTable} {line : Text}

theorem expands_iff {ps : List LinePart} {out : Text} {names : List Text} :
    m.Expands ps out names ↔ out = ps.flatMap (·.expand m) ∧ names = ps.filterMap (·.unknown? m) := by
  constructor
  · intro h
    induction h with
    | nil => exact ⟨rfl, rfl⟩
    | plain _ ih => exact ⟨by rw [ih.1]; rfl, ih.2⟩
    | known hname _ ih | unknown hname _ ih => simp [LinePart.expand, LinePart.unknown?, hname, ih.1, ih.2]
  · rintro ⟨rfl, rfl⟩
    induction ps with
    | nil => exact .nil
    | cons part ps ih =>
      cases part with
      | plain c => exact .plain ih
      | reference name =>
        cases hname : m.get? name with
        | none => simpa [LinePart.expand, LinePart.unknown?, hname] using Expands.unknown hname ih
        | some replacement => simpa [LinePart.expand, LinePart.unknown?, hname] using Expands.known hname ih

theorem findings_cons (m : MacroTable) (p : Position) (line : Text) (lines : List Text) :
    m.findings p (line :: lines) = m.findings p [line] ++ m.findings p lines := by
  simp [findings]

/-- A line splits in one way; its expansion has the plain text and the unknown
references as they are and the replacements of the known ones, and there is one finding
for each unknown reference, in order. A line without known references stays as it is. -/
theorem expand_single_pass (m : MacroTable) (p : Position) (line : Text) :
    ∃ ps names, (∀ qs, Splits line qs ↔ qs = ps) ∧ ps.flatMap LinePart.text = line ∧
      (∀ out stay, m.Expands ps out stay ↔ out = m.expand line ∧ stay = names) ∧
      (∀ lines, m.findings p (line :: lines) = names.map (fun name => ⟨.unknownMacro name, p, none⟩) ++
        m.findings p lines) ∧
      ((∀ name, .reference name ∈ ps → m.get? name = none) → m.expand line = line) := by
  have hsplits : Splits line (parts line) := splits_iff.2 rfl
  refine ⟨parts line, m.unknown line, fun qs => splits_iff, hsplits.flatMap_text,
    fun out stay => expands_iff, fun lines => ?_, fun hunknown => ?_⟩
  · rw [findings_cons]
    simp [findings]
  · have hexpand : ∀ part ∈ parts line, part.expand m = part.text := by
      intro part hpart
      cases part with
      | plain c => rfl
      | reference name => rw [LinePart.expand, hunknown name hpart, Option.getD_none]
    rw [expand, List.flatMap_congr hexpand, hsplits.flatMap_text]

example :
    (⟨[("a", "$\x7bb\x7d"), ("b", "x")]⟩ : MacroTable).expand "$\x7b$\x7ba\x7d$$\x7bb\x7d $\x7b1\x7d $\x7bc" =
    "$\x7b$\x7bb\x7d$x $\x7b1\x7d $\x7bc".toList := by
  decide +kernel

end MacroTable

end ClassdefDoc
