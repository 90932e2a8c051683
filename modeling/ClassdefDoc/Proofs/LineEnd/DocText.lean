import ClassdefDoc.Documentation.DocText
import ClassdefDoc.Proofs.Documentation.Macros
import ClassdefDoc.Proofs.LineEnd.Place

/-!
# Documentation with carriage returns

A carriage return at the end of a documentation line is white space: it stays at the end of the line where
the line is kept, and is not seen where something is read from the line (`DocLine.heading?_eq`,
`DocLine.rel_described?`, `DocLine.takeType_ended`). So documentation whose lines end in returns describes
the same parameters and types, in lines that differ by returns at the end (`DocText.alike_ofDocumentation`).
-/

namespace ClassdefDoc

open List DocLine

variable {c : Char} {word t t' : Text} {ls ls' : List Text}

namespace Text

/-- The same start, and ends that differ by a return. -/
structure SameStart (p p' : Text × Text) : Prop where
  start_eq : p'.1 = p.1
  rest : Ended p.2 p'.2

namespace Ended

variable {t t' : Text}

theorem cons (c : Char) (h : Ended t t') : Ended (c :: t) (c :: t') :=
  h.imp (congrArg (c :: ·)) (congrArg (c :: ·))

theorem join (parts : List Text) (h : Ended t t') : Ended (join (parts ++ [t])) (join (parts ++ [t'])) := by
  rcases h with rfl | rfl
  · exact .inl rfl
  · exact .inr (by simp [Text.join])

theorem of_cons {u : Text} (h : Ended (c :: u) t') : ∃ u', t' = c :: u' ∧ Ended u u' := by
  rcases h with rfl | rfl
  · exact ⟨u, rfl, .inl rfl⟩
  · exact ⟨u ++ ['\r'], rfl, .inr rfl⟩

/-- Both texts start with the same character, or the first one is empty. -/
@[elab_as_elim]
theorem elim_head {F : Text → Text → Prop} (h : Ended t t') (nil : F [] []) (ended : F [] ['\r'])
    (cons : ∀ c u u', Ended u u' → F (c :: u) (c :: u')) : F t t' := by
  cases t with
  | nil =>
    rcases h with rfl | rfl
    · exact nil
    · exact ended
  | cons c u =>
    obtain ⟨u', rfl, hu⟩ := h.of_cons
    exact cons c u u' hu

theorem takeWhile_eq {p : Char → Bool} (hp : p '\r' = false) (h : Ended t t') :
    t'.takeWhile p = t.takeWhile p := by
  rcases h with rfl | rfl
  · rfl
  · induction t with
    | nil => simp [hp]
    | cons c t ih => rw [cons_append, takeWhile_cons, takeWhile_cons, ih]

theorem trimStart (h : Ended t t') : Ended (trimStart t) (trimStart t') := by
  rcases h with rfl | rfl
  · exact .inl rfl
  · cases hblank : isBlank t with
    | true =>
      have hblank' : isBlank (t ++ ['\r']) := (Ended.isBlank_eq (.inr rfl)).trans hblank
      exact .inl (by rw [trimStart_of_isBlank hblank, trimStart_of_isBlank hblank'])
    | false => exact .inr (trimStart_append_of_not_isBlank hblank _)

theorem trimEnd_eq (h : Ended t t') : trimEnd t' = trimEnd t := by
  rcases h with rfl | rfl
  · rfl
  · exact trimEnd_append_of_isSpace t (by decide)

/-- What follows a lead that has no return. -/
theorem dropLead? (lead : Text) (hlead : '\r' ∉ lead) (h : Ended t t') :
    Option.Rel Ended (dropLead? lead t) (dropLead? lead t') := by
  rw [Text.dropLead?, Text.dropLead?]
  rcases h with rfl | rfl
  · split_ifs
    · exact .some (.inl rfl)
    · exact .none
  · have hleads : lead.isPrefixOf (t ++ ['\r']) = lead.isPrefixOf t := by
      rw [Bool.eq_iff_iff, isPrefixOf_iff_prefix, isPrefixOf_iff_prefix, prefix_concat_iff]
      refine or_iff_right fun heq => hlead ?_
      rw [heq]
      simp
    rw [hleads]
    split_ifs with hlead
    · have hstart := isPrefixOf_iff_prefix.1 hlead
      rw [drop_append_of_le_length hstart.length_le]
      exact .some (.inr rfl)
    · exact .none

end Ended

theorem words_cons_of_isSpace (hc : isSpace c) (t : Text) : words (c :: t) = words t := if_pos hc

/-- Whether a word goes on is decided by the next character. -/
theorem words_cons_congr (c d : Char) (h : words (d :: t') = words (d :: t)) :
    words (c :: d :: t') = words (c :: d :: t) := by
  cases hc : isSpace c with
  | true => rw [words_cons_of_isSpace hc, words_cons_of_isSpace hc, h]
  | false =>
    have hwords (u : Text) : words (c :: d :: u) = _ := if_neg (by simp [hc])
    rw [hwords, hwords, h]
    cases words (d :: t) <;> rfl

theorem words_append_return (t : Text) : words (t ++ ['\r']) = words t := by
  induction t with
  | nil => exact words_cons_of_isSpace (by decide) []
  | cons c t ih =>
    cases t with
    | nil =>
      cases hc : isSpace c with
      | true => rw [singleton_append, words_cons_of_isSpace hc, words_cons_of_isSpace hc]; exact ih
      | false =>
        have hword : words [c, '\r'] = [[c]] := if_neg (by simp [hc])
        have hword' : words [c] = [[c]] := if_neg (by simp [hc])
        exact hword.trans hword'.symm
    | cons d t => exact words_cons_congr c d ih

theorem Ended.words_eq (h : Ended t t') : words t' = words t := by
  rcases h with rfl | rfl
  · rfl
  · exact words_append_return t

@[elab_as_elim]
theorem SameStart.elim {F : Option (Text × Text) → Option (Text × Text) → Prop} {o o' : Option (Text × Text)}
    (h : Option.Rel SameStart o o') (none : F none none)
    (some : ∀ w u u', Ended u u' → F (some (w, u)) (some (w, u'))) : F o o' := by
  cases h with
  | none => exact none
  | @some p p' hp =>
    obtain ⟨w, u⟩ := p
    obtain ⟨w', u'⟩ := p'
    obtain ⟨rfl, hu⟩ := hp
    exact some w' u u' hu

end Text

open Text (Ended SameStart)

theorem Name.rel_word? (h : Ended t t') : Option.Rel SameStart (word? t) (word? t') := by
  have hreturn : isContinue '\r' = false := by decide
  refine h.elim_head .none .none fun c u u' hu => ?_
  rw [word?, word?]
  split_ifs
  · exact .some ⟨congrArg (c :: ·) (hu.takeWhile_eq hreturn), hu.dropWhile hreturn⟩
  · exact .none

/-! ## Macros -/

namespace LinePart

theorem referenceAt?_append_return (t : Text) : referenceAt? (t ++ ['\r']) = referenceAt? t := by
  have hlead := Ended.dropLead? "$\x7b" (by decide) (.inr rfl : Ended t (t ++ ['\r']))
  unfold referenceAt?
  refine hlead.casesOn (fun hrest => ?_) rfl
  dsimp only
  refine SameStart.elim (Name.rel_word? hrest) rfl fun name u u' hu => ?_
  refine hu.elim_head rfl rfl fun c v v' _ => ?_
  by_cases hc : c = '\x7d'
  · subst hc
    rfl
  · simp [hc]

/-- A reference is as long as its name and its three signs. -/
theorem length_of_referenceAt? {cs name : Text} (h : referenceAt? (c :: cs) = some name) :
    name.length + 2 ≤ cs.length := by
  obtain ⟨-, rest, htext⟩ := referenceAt?_eq_some_iff.1 h
  have hlength := congrArg List.length htext
  rw [text_reference] at hlength
  simp only [length_cons, length_append] at hlength
  omega

theorem partsFrom_append_return (t : Text) (skip : Nat) (h : skip ≤ t.length) :
    partsFrom skip (t ++ ['\r']) = partsFrom skip t ++ [plain '\r'] := by
  induction t generalizing skip with
  | nil =>
    obtain rfl : skip = 0 := Nat.le_zero.1 h
    rfl
  | cons c t ih =>
    cases skip with
    | succ skip =>
      rw [cons_append, partsFrom, partsFrom]
      exact ih skip (Nat.le_of_succ_le_succ h)
    | zero =>
      have hreference := referenceAt?_append_return (c :: t)
      rw [cons_append] at hreference ⊢
      rw [partsFrom, partsFrom, hreference]
      cases hname : referenceAt? (c :: t) with
      | none => exact congrArg (plain c :: ·) (ih 0 (Nat.zero_le _))
      | some name => exact congrArg (reference name :: ·) (ih _ (length_of_referenceAt? hname))

end LinePart

/-- A return at the end of a line stays there. -/
theorem MacroTable.expand_ended (m : MacroTable) {l l' : Text} (h : Ended l l') :
    Ended (m.expand l) (m.expand l') := by
  rcases h with rfl | rfl
  · exact .inl rfl
  · refine .inr ?_
    rw [expand, LinePart.parts, LinePart.partsFrom_append_return l 0 (Nat.zero_le _), flatMap_append]
    rfl

/-! ## Reading a line -/

namespace DocLine

variable {l l' : Text}

/-- No letter of a heading is spelled by a return. -/
theorem headingWord_append_return (hword : ∀ c ∈ word, spells c '\r' = false) (t : Text) :
    (decide (word.length ≤ (t ++ ['\r']).length) && (word.zip (t ++ ['\r'])).all (fun p => spells p.1 p.2)) =
      (decide (word.length ≤ t.length) && (word.zip t).all (fun p => spells p.1 p.2)) := by
  induction word generalizing t with
  | nil => simp
  | cons w word ih =>
    obtain ⟨hw, hword⟩ := forall_mem_cons.1 hword
    cases t with
    | nil => simp [hw]
    | cons c t =>
      have hrest := ih hword t
      simp only [cons_append, length_cons, Nat.add_le_add_iff_right, zip_cons_cons, all_cons] at hrest ⊢
      rw [Bool.and_left_comm, hrest, Bool.and_left_comm]

theorem rel_headingWord? (hword : ∀ c ∈ word, spells c '\r' = false) (h : Ended t t') :
    Option.Rel SameStart (headingWord? word t) (headingWord? word t') := by
  rw [headingWord?, headingWord?]
  rcases h with rfl | rfl
  · split_ifs
    · exact .some ⟨rfl, .inl rfl⟩
    · exact .none
  · rw [headingWord_append_return hword]
    split_ifs with hfits
    · have hlength : word.length ≤ t.length := by simpa using (Bool.and_eq_true_iff.1 hfits).1
      rw [take_append_of_le_length hlength, drop_append_of_le_length hlength]
      exact .some ⟨rfl, .inr rfl⟩
    · exact .none

section

variable (h : Ended l l')
include h

theorem heading?_eq : heading? l' = heading? l := by
  have hword :
      Option.Rel SameStart ((headingWord? "parameters" (Text.trimStart l)).or
      (headingWord? "return values" (Text.trimStart l))) _ :=
    rel_or (rel_headingWord? (by simp [spells]) h.trimStart) (rel_headingWord? (by simp [spells]) h.trimStart)
  unfold heading?
  dsimp only
  refine SameStart.elim hword rfl fun word rest rest' hrest => ?_
  dsimp only
  refine hrest.trimStart.elim_head rfl rfl fun c u u' hended => ?_
  by_cases hc : c = ':'
  · subst hc
    simp only [hended.isBlank_eq]
  · simp [hc]

theorem rel_described? : Option.Rel SameStart (described? l) (described? l') := by
  unfold described?
  refine SameStart.elim (Name.rel_word? h.trimStart) .none fun name rest rest' hrest => ?_
  dsimp only
  refine hrest.trimStart.elim_head .none .none fun c u u' hended => ?_
  by_cases hc : c = ':'
  · subst hc
    have hline : u'.contains '\n' = u.contains '\n' := by
      rcases hended with rfl | rfl
      · rfl
      · simp
    simp only [hline]
    split_ifs
    · exact .none
    · exact .some ⟨rfl, hended⟩
  · simp [hc]

theorem param?_eq : param? l' = param? l := by
  unfold param?
  refine (h.trimStart.dropLead? "@param" (by decide)).casesOn (fun hrest => ?_) rfl
  refine hrest.elim_head rfl rfl fun c u u' hended => ?_
  have hname : (Name.word? (Text.trimStart u')).map (·.1) = (Name.word? (Text.trimStart u)).map (·.1) :=
    (Name.rel_word? hended.trimStart).casesOn (fun hp => congrArg some hp.start_eq) rfl
  simp only [hname]

theorem rel_typeAt? : Option.Rel SameStart (typeAt? l) (typeAt? l') := by
  have hreturn : typeAt?.inType '\r' = false := by decide
  unfold typeAt?
  refine (h.dropLead? "@type" (by decide)).casesOn (fun hrest => ?_) .none
  refine hrest.elim_head .none .none fun c u u' hended => ?_
  dsimp only
  split_ifs
  · exact .none
  · refine hended.trimStart.elim_head .none .none fun d v v' hended' => ?_
    dsimp only
    split_ifs
    · exact .some ⟨congrArg (d :: ·) (hended'.takeWhile_eq hreturn), (hended'.dropWhile hreturn).trimStart⟩
    · exact .none

theorem rel_typePhrase? : Option.Rel SameStart (typePhrase? l) (typePhrase? l') := by
  induction l generalizing l' with
  | nil =>
    rcases h with rfl | rfl
    · exact .none
    · exact .none
  | cons c cs ih =>
    obtain ⟨u', rfl, hended⟩ := h.of_cons
    rw [typePhrase?, typePhrase?]
    refine (rel_typeAt? h).casesOn .some ?_
    exact (ih hended).casesOn (fun hp => .some ⟨hp.start_eq, hp.rest.cons c⟩) .none

/-- The type is the same; what is left of the line keeps the return at its
end, unless a phrase is taken out. -/
theorem takeType_ended : Ended (takeType l).1 (takeType l').1 ∧ (takeType l').2 = (takeType l).2 := by
  unfold takeType
  refine (rel_typePhrase? h).casesOn (fun hp => ?_) ⟨h, rfl⟩
  exact ⟨.inl hp.rest.trimEnd_eq, congrArg some hp.start_eq⟩

theorem indent_eq (hblank : Text.isBlank l = false) : indent l' = indent l := by
  rcases h with rfl | rfl
  · rfl
  · refine congrArg Text.bytes ?_
    induction l with
    | nil => cases hblank
    | cons c l ih =>
      rw [cons_append, takeWhile_cons, takeWhile_cons]
      split_ifs with hc
      · rw [ih (by simpa [Text.isBlank, hc] using hblank)]
      · rfl

end

end DocLine

/-! ## Reading documentation -/

/-- Documentation in lines that differ by returns at the end. -/
structure Documentation.Alike (docs docs' : Documentation) : Prop where
  primary : Option.Rel (Forall₂ Ended) docs.primary docs'.primary
  supplementary : Forall₂ (Forall₂ Ended) docs.supplementary docs'.supplementary

namespace DocText

/-- The same parameters and types, in lines that differ by returns at the end. -/
structure Alike (d d' : DocText) : Prop where
  lines : Forall₂ Ended d.lines d'.lines
  params : d'.params = d.params
  types : d'.types = d.types
  declaredType : d'.declaredType = d.declaredType

variable {d d' : DocText} {l l' : Text}

section

variable (h : Alike d d')
include h

theorem Alike.addLine (hl : Ended l l') : Alike (d.addLine l) (d'.addLine l') :=
  ⟨rel_append h.lines (.cons hl .nil), h.params, h.types, h.declaredType⟩

theorem Alike.setType (name type : Option Text) : Alike (d.setType name type) (d'.setType name type) := by
  unfold DocText.setType
  split
  · exact ⟨h.lines, h.params, congrArg (TypeMap.set · _ _) h.types, h.declaredType⟩
  · exact h

theorem Alike.addEntry (kind : SectionKind) (name : Text) (hl : Ended l l') :
    Alike (d.addEntry kind name l) (d'.addEntry kind name l') := by
  obtain ⟨hrest, htype⟩ := takeType_ended hl
  unfold DocText.addEntry
  simp only [htype]
  refine Alike.addLine ?_ (hrest.join [kind.tag, _, name])
  have hset := h.setType (some name) (DocLine.takeType l).2
  split_ifs
  · exact ⟨hset.lines, congrArg (· ++ [name]) hset.params, hset.types, hset.declaredType⟩
  · exact hset

theorem Alike.addPlain (hl : Ended l l') : Alike (d.addPlain l) (d'.addPlain l') := by
  obtain ⟨hrest, htype⟩ := takeType_ended hl
  unfold DocText.addPlain
  simp only [htype, param?_eq hl]
  exact Alike.addLine ⟨h.lines, congrArg (· ++ _) h.params, h.types,
    congrArg (Option.or · _) h.declaredType⟩ hrest

/-- One line leads from the same section to the same section. -/
theorem Alike.read (sec : Option Section) (hl : Ended l l') :
    Alike (DocText.read (d, sec) l).1 (DocText.read (d', sec) l').1 ∧
    (DocText.read (d', sec) l').2 = (DocText.read (d, sec) l).2 := by
  unfold DocText.read
  simp only [hl.isBlank_eq, heading?_eq hl]
  split_ifs with hblank
  · exact ⟨h.addLine (.inl rfl), rfl⟩
  · cases DocLine.heading? l with
    | some kind => exact ⟨h, rfl⟩
    | none =>
      cases sec with
      | none => exact ⟨h.addPlain hl, rfl⟩
      | some s =>
        simp only [indent_eq hl (by simpa using hblank)]
        have hentry : Option.Rel SameStart (if DocLine.indent l ≤
            s.indent.getD (DocLine.indent l) then DocLine.described? l else none)
            (if DocLine.indent l ≤
              s.indent.getD (DocLine.indent l) then DocLine.described? l' else none) := by
          split_ifs
          · exact rel_described? hl
          · exact .none
        refine SameStart.elim hentry ?_ fun name u u' hu => ⟨h.addEntry s.kind name hu, rfl⟩
        obtain ⟨hrest, htype⟩ := takeType_ended hl
        simp only [htype]
        exact ⟨(h.setType s.entry _).addLine hrest, trivial⟩

end

/-- The lines of a comment, whose macros are expanded one by one. -/
theorem Alike.readBlock (m : MacroTable) (h : Alike d d') (hls : Forall₂ Ended ls ls') :
    Alike (DocText.readBlock m d ls) (DocText.readBlock m d' ls') := by
  have hread (state state' : DocText × Option Section) (h : Alike state.1 state'.1)
      (hsection : state'.2 = state.2) :
      Alike ((ls.map m.expand).foldl DocText.read state).1
      ((ls'.map m.expand).foldl DocText.read state').1 := by
    induction hls generalizing state state' with
    | nil => exact h
    | cons hl _ ih =>
      obtain ⟨d, sec⟩ := state
      obtain ⟨d', sec'⟩ := state'
      obtain rfl : sec' = sec := hsection
      obtain ⟨hstep, hnext⟩ := h.read sec' (m.expand_ended hl)
      exact ih _ _ hstep hnext
  exact hread (d, none) (d', none) h rfl

theorem Alike.hasText_eq (h : Alike d d') : d'.hasText = d.hasText := by
  have hlines := h.lines
  unfold hasText
  generalize d.lines = ls, d'.lines = ls' at hlines ⊢
  induction hlines with
  | nil => rfl
  | cons hl _ ih => rw [any_cons, any_cons, ih, hl.isBlank_eq]

/-- Blank lines at the start are passed in both. -/
theorem forall₂_dropWhile_isBlank (h : Forall₂ Ended ls ls') :
    Forall₂ Ended (ls.dropWhile Text.isBlank) (ls'.dropWhile Text.isBlank) := by
  induction h with
  | nil => exact .nil
  | cons hl hls ih =>
    rw [dropWhile_cons, dropWhile_cons, hl.isBlank_eq]
    split_ifs
    · exact ih
    · exact .cons hl hls

theorem forall₂_markBrief (h : Forall₂ Ended ls ls') : Forall₂ Ended (markBrief ls) (markBrief ls') := by
  have hlines := forall₂_dropWhile_isBlank h
  unfold markBrief
  cases hls : ls.dropWhile Text.isBlank with
  | nil =>
    rw [hls] at hlines
    rw [forall₂_nil_left_iff.1 hlines]
    exact .nil
  | cons first rest =>
    rw [hls] at hlines
    obtain ⟨first', rest', hfirst, hrest, hls'⟩ := forall₂_cons_left_iff.1 hlines
    rw [hls']
    -- the first line is not blank, so both start with the same character
    have hblank : Text.isBlank first = false := by
      have := head?_dropWhile_not Text.isBlank ls
      rwa [hls] at this
    cases first with
    | nil => cases hblank
    | cons c u =>
      obtain ⟨u', rfl, -⟩ := hfirst.of_cons
      have htag : (Text.trimStart (c :: u')).head? = some '@' ↔ (Text.trimStart (c :: u)).head? = some '@' :=
        hfirst.trimStart.elim_head Iff.rfl (by decide) fun _ _ _ _ => Iff.rfl
      simp only [htag, head?_cons]
      by_cases htagged : (Text.trimStart (c :: u)).head? = some '@'
      · rw [if_pos htagged, if_pos htagged]
        exact .cons hfirst hrest
      · rw [if_neg htagged, if_neg htagged]
        exact .cons (hfirst.join [_, _]) hrest

theorem alike_ofDocumentation (m : MacroTable) {docs docs' : Documentation} (h : docs.Alike docs') :
    Alike (ofDocumentation m docs) (ofDocumentation m docs') := by
  have hlines : Forall₂ Ended (docs.primary.getD []) (docs'.primary.getD []) := h.primary.casesOn id .nil
  have hfirst : Alike (readBlock m {} (docs.primary.getD [])) (readBlock m {} (docs'.primary.getD [])) :=
    Alike.readBlock m ⟨.nil, rfl, rfl, rfl⟩ hlines
  have hmore (d d' : DocText) (hd : Alike d d') :
      Alike (docs.supplementary.foldl (readBlock m) d) (docs'.supplementary.foldl (readBlock m) d') := by
    have hblocks := h.supplementary
    generalize docs.supplementary = bs, docs'.supplementary = bs' at hblocks ⊢
    induction hblocks generalizing d d' with
    | nil => exact hd
    | cons hb _ ih => exact ih _ _ (hd.readBlock m hb)
  exact hmore _ _ ⟨forall₂_markBrief hfirst.lines, hfirst.params, hfirst.types, hfirst.declaredType⟩

end DocText

end ClassdefDoc
