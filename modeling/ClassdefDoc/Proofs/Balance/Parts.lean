import ClassdefDoc.Proofs.Balance.Machine
import ClassdefDoc.Proofs.Parse.WellFormed
import ClassdefDoc.Pseudocode.Entry

/-!
# Names, types, values and comments of the pseudo-code

The pseudo-code of a member is put together from names, types, default values and documentation blocks, and
none of them opens or closes a bracket that stays. Types come from declarations and from documentation text;
both spell them with the characters of dotted names (`DocText.typed_ofDocumentation`).
-/

namespace ClassdefDoc

open List Name DocLine
open Text (join join_cons join_nil)
open DocBlock (ofMember close ofClass)

variable {w type rest name : Text} {c : Char}

variable {t : Text}

/-! ## Spelled names -/

/-- The text has only the characters of a dotted name. -/
def Name.IsSpelled (t : Text) : Prop := ∀ c ∈ t, isContinue c ∨ c = '.'

theorem Name.isSpelled_of_isIdentifier (h : isIdentifier w) : IsSpelled w :=
  fun c hc => .inl (isContinue_of_isIdentifier h c hc)

theorem DottedName.isSpelled_dotted {n : DottedName} (h : n.IsValid) : IsSpelled n.dotted := by
  intro c hc
  rcases Text.mem_joinWith hc with hc | ⟨w, hw, hc⟩
  · exact .inr (by simpa using hc)
  · exact isSpelled_of_isIdentifier (h w hw) c hc

theorem Text.mem_of_mem_split {sep : Char} {p : Text} (hp : p ∈ Text.split sep t) (hc : c ∈ p) : c ∈ t := by
  induction t generalizing p with
  | nil => simp_all [Text.split]
  | cons d t ih =>
    simp only [Text.split] at hp
    split_ifs at hp with hd
    · rcases mem_cons.1 hp with rfl | hp
      · cases hc
      · exact mem_cons_of_mem _ (ih hp hc)
    · split at hp
      · obtain rfl := mem_singleton.1 hp
        exact mem_cons.2 (.inl (mem_singleton.1 hc))
      · rename_i q qs hsplit
        rcases mem_cons.1 hp with rfl | hp
        · rcases mem_cons.1 hc with rfl | hc
          · exact mem_cons_self
          · exact mem_cons_of_mem _ (ih (hsplit ▸ mem_cons_self) hc)
        · exact mem_cons_of_mem _ (ih (hsplit ▸ mem_cons_of_mem _ hp) hc)

/-! ## Documented types -/

/-- The types that documentation text gives are spelled like dotted names. -/
structure DocText.Typed (d : DocText) : Prop where
  types : ∀ p ∈ d.types, IsSpelled p.2
  declaredType : ∀ t ∈ d.declaredType, IsSpelled t

theorem DocLine.isSpelled_typeAt? (h : typeAt? t = some (type, rest)) : IsSpelled type := by
  unfold typeAt? at h
  split at h
  · split_ifs at h
    split at h
    · split_ifs at h with hstart
      cases h
      intro c hc
      rcases mem_cons.1 hc with rfl | hc
      · simp only [startsWord, Bool.or_eq_true, beq_iff_eq] at hstart
        rcases hstart with hstart | rfl
        · exact .inl (isContinue_of_isStart hstart)
        · exact .inl (by decide)
      · simpa [typeAt?.inType] using mem_takeWhile_imp hc
    · cases h
  · cases h

theorem DocLine.isSpelled_typePhrase? (h : typePhrase? t = some (type, rest)) : IsSpelled type := by
  induction t generalizing rest with
  | nil => cases h
  | cons c t ih =>
    unfold typePhrase? at h
    split at h
    · rename_i hat
      cases h
      exact isSpelled_typeAt? hat
    · obtain ⟨p, hp, heq⟩ := Option.map_eq_some_iff.1 h
      cases heq
      exact ih hp

theorem DocLine.isSpelled_takeType (line : Text) : ∀ type ∈ (takeType line).2, IsSpelled type := by
  intro type h
  unfold takeType at h
  split at h
  · cases h
    exact isSpelled_typePhrase? ‹_›
  · cases h

namespace DocText

variable {d : DocText}

section

variable (h : d.Typed)
include h

theorem Typed.setType (name type : Option Text)
    (htype : ∀ t ∈ type, IsSpelled t) : (d.setType name type).Typed := by
  unfold DocText.setType
  split
  · refine ⟨fun p hp => ?_, h.declaredType⟩
    rcases mem_cons.1 hp with rfl | hp
    · exact htype _ rfl
    · exact h.types p (mem_of_mem_filter hp)
  · exact h

theorem Typed.addPlain (line : Text) : (d.addPlain line).Typed := by
  refine ⟨h.types, fun t ht => ?_⟩
  rcases Option.or_eq_some_iff.1 ht with ht | ⟨-, ht⟩
  · exact h.declaredType t ht
  · exact isSpelled_takeType line t ht

theorem Typed.addEntry (kind : SectionKind) (name rest : Text) : (d.addEntry kind name rest).Typed := by
  have hset := h.setType (some name) _ (isSpelled_takeType rest)
  unfold DocText.addEntry
  split_ifs
  · exact ⟨hset.types, hset.declaredType⟩
  · exact ⟨hset.types, hset.declaredType⟩

/-- One line keeps the types spelled. -/
theorem Typed.read (sec : Option Section) (line : Text) : (DocText.read (d, sec) line).1.Typed := by
  unfold DocText.read
  simp only
  split_ifs
  · exact ⟨h.types, h.declaredType⟩
  · split
    · exact h
    · exact h.addPlain line
    · split
      · exact h.addEntry _ _ _
      · have hset := h.setType ‹Section›.entry _ (isSpelled_takeType line)
        exact ⟨hset.types, hset.declaredType⟩

theorem Typed.readBlock (m : MacroTable) (lines : List Text) : (DocText.readBlock m d lines).Typed := by
  unfold DocText.readBlock
  generalize (none : Option Section) = sec
  induction lines generalizing d sec with
  | nil => exact h
  | cons line lines ih => exact ih (h.read sec _) _

theorem Typed.readBlocks (m : MacroTable) (blocks : List (List Text)) :
    (blocks.foldl (DocText.readBlock m) d).Typed := by
  induction blocks generalizing d with
  | nil => exact h
  | cons lines blocks ih => exact ih (h.readBlock m lines)

end

/-- Documentation gives types that are spelled like dotted names. -/
theorem typed_ofDocumentation (m : MacroTable) (docs : Documentation) :
    (DocText.ofDocumentation m docs).Typed := by
  have hempty : ({} : DocText).Typed := ⟨by simp, by simp⟩
  have hfirst := hempty.readBlock m (docs.primary.getD [])
  unfold DocText.ofDocumentation
  refine Typed.readBlocks ?_ m docs.supplementary
  exact ⟨hfirst.types, hfirst.declaredType⟩

/-- Documentation that gives the same types. -/
structure SameTypes (d d' : DocText) : Prop where
  types : ∀ name, d.types.lookup name = d'.types.lookup name
  declaredType : d.declaredType = d'.declaredType

theorem SameTypes.symm {d' : DocText} (h : d.SameTypes d') : d'.SameTypes d :=
  ⟨fun name => (h.types name).symm, h.declaredType.symm⟩

end DocText

/-! ## Types that are looked up -/

namespace Placeholders

variable {types types' : TypeMap}

section

variable (p : Placeholders) (names : List Text) (h : ∀ name, types.lookup name = types'.lookup name)
include p names h

theorem returns_congr : p.returns names types = p.returns names types' := by
  have htype : returnType types = returnType types' := funext fun name => by rw [returnType, returnType, h]
  simp only [returns, htype]

theorem params_congr : p.params names types = p.params names types' := by
  simp only [params, h]

end

end Placeholders

/-- A signature depends on the documentation through the types that are looked up. -/
theorem Entry.signature_congr {e : Entry} {d : DocText} (h : d.SameTypes e.doc)
    (p : Placeholders) (m : Method) : ({ e with doc := d } : Entry).signature p m = e.signature p m := by
  simp only [signature, params, p.returns_congr m.returns h.types, p.params_congr _ h.types]

/-! ## Parts of a method -/

/-- The pseudo-code of a method up to its signature. -/
def Entry.opening (l : Layout) (e : Entry) (m : Method) : Text :=
  match m.accessor with
  | some _ => e.guard l.guardLabel ++ e.signature l.placeholders m
  | none =>
    join ["    ", if e.attributes.has .static then "static " else if m.isAbstract then "virtual " else [],
      e.signature l.placeholders m]

/-- What stands behind the signature of a method. -/
def Method.ending (m : Method) : Text :=
  if m.accessor.isNone && m.isAbstract then " = 0;"
  else match m.body with
    | some b => join [" \x7b", b.pieces.flatMap (·.render), "\x7d"]
    | none => ";"

/-- The lines that end a method. -/
def Method.closing (m : Method) : Text := if m.accessor.isSome then "\n\n#endif\n" else "\n"

theorem Entry.methodLines_eq (l : Layout) (e : Entry) (m : Method) :
    e.methodLines l m = join [e.opening l m, m.ending, m.closing] := by
  obtain ⟨params, returns, body, isAbstract, accessor⟩ := m
  cases accessor <;> cases isAbstract <;> cases body <;>
    simp only [methodLines, opening, Method.ending, Method.closing,
      Body.render, Page.line, join_cons, join_nil, append_nil,
      append_assoc, Option.isNone_some, Option.isNone_none, Option.isSome_some,
      Option.isSome_none, Bool.false_and, Bool.true_and, Bool.false_eq_true, if_true, if_false] <;> rfl

namespace Balance

variable {names : List Text} {t : Text}

theorem plain_of_isSpelled (h : IsSpelled t) : Plain t := fun c hc => by
  rcases h c hc with hc | rfl
  · exact isPlain_of_isContinue hc
  · decide

/-- A name in scope notation is plain. -/
theorem plain_qualify (h : IsSpelled t) : Plain (qualify t) := by
  refine Plain.flatMap fun s hs => Plain.append (by decide) (plain_of_isSpelled fun c hc => h c ?_)
  exact Text.mem_of_mem_split (mem_of_mem_filter hs) hc

/-! ## Types, returns and parameters -/

/-- What the caller's placeholders must be, so that the pseudo-code stays balanced. -/
structure PlainPlaceholders (p : Placeholders) : Prop where
  typeToken : Plain p.typeToken
  noReturn : Plain p.noReturn
  singleReturn : Plain p.singleReturn
  multiReturn : Plain p.multiReturn
  eventType : Plain p.eventType

variable {p : Placeholders} {types : TypeMap}

theorem plain_lookup (htypes : ∀ q ∈ types, IsSpelled q.2)
    (h : types.lookup name = some type) : Plain (qualify type) := by
  obtain ⟨l₁, l₂, rfl, -⟩ := lookup_eq_some_iff.1 h
  exact plain_qualify (htypes (name, type) (by simp))

theorem plain_declaredType (hp : PlainPlaceholders p) {declared : Option DottedName}
    (hdeclared : ∀ n ∈ declared, n.IsValid) {documented : Option Text}
    (hdocumented : ∀ t ∈ documented, IsSpelled t) : Plain (p.declaredType declared documented) := by
  unfold Placeholders.declaredType
  split
  · rename_i name hname
    exact plain_qualify (DottedName.isSpelled_dotted
      (hdeclared name (Option.eq_some_of_filter_eq_some hname)))
  · exact plain_qualify (hdocumented _ rfl)
  · exact hp.typeToken

theorem plain_returnType (htypes : ∀ q ∈ types, IsSpelled q.2) (name : Text) :
    Plain (Placeholders.returnType types name) := by
  unfold Placeholders.returnType
  split
  · exact plain_lookup htypes ‹_›
  · decide

section

variable (hp : PlainPlaceholders p) (htypes : ∀ q ∈ types, IsSpelled q.2)
include hp htypes

theorem plain_returns (hnames : ∀ n ∈ names, Plain n) : Plain (p.returns names types) := by
  unfold Placeholders.returns
  split
  · exact hp.noReturn
  · exact .cons hp.singleReturn <| .cons (by decide) <| .cons (plain_returnType htypes _) <|
      .cons (by decide) .nil
  · refine .cons hp.multiReturn <| .cons (by decide) <| .cons (.joinWith (by decide) ?_) <|
      .cons (by decide) .nil
    intro t ht
    obtain ⟨name, hname, rfl⟩ := mem_map.1 ht
    exact .cons hp.singleReturn <| .cons (by decide) <| .cons (plain_returnType htypes _) <|
      .cons (by decide) <| .cons (hnames name hname) <| .cons (by decide) .nil

theorem plain_paramType (name : Text) :
    Plain (match types.lookup name with
      | some type => qualify type
      | none => p.typeToken) := by
  split
  · exact plain_lookup htypes ‹_›
  · exact hp.typeToken

theorem plain_params (hnames : ∀ n ∈ names, Plain n) : Plain (p.params names types) := by
  refine .joinWith (by decide) fun t ht => ?_
  obtain ⟨name, hname, rfl⟩ := mem_map.1 ht
  have htype := plain_paramType hp htypes name
  split_ifs
  · exact htype
  · exact .cons htype <| .cons (by decide) <| .cons (hnames name hname) .nil

end

/-! ## Default values -/

theorem isPlain_of_isDigit (h : c.isDigit) : IsPlain c :=
  isPlain_of_isContinue (by simp [isContinue, Char.isAlphanum, h])

theorem plain_of_dropSign (h : Plain (Default.dropSign t)) : Plain t := by
  unfold Default.dropSign at h
  split at h
  · exact forall_mem_cons.2 ⟨by decide, h⟩
  · exact forall_mem_cons.2 ⟨by decide, h⟩
  · exact h

theorem plain_of_dropDigits (h : Plain (t.dropWhile Char.isDigit)) : Plain t := by
  rw [← takeWhile_append_dropWhile (p := Char.isDigit) (l := t)]
  exact Plain.append (fun c hc => isPlain_of_isDigit (mem_takeWhile_imp hc)) h

theorem plain_of_mantissa? (h : Default.mantissa? t = some rest) (hrest : Plain rest) : Plain t := by
  unfold Default.mantissa? at h
  refine plain_of_dropDigits ?_
  simp only at h
  split at h
  · rename_i hdrop
    split_ifs at h
    cases h
    rw [hdrop]
    exact forall_mem_cons.2 ⟨by decide, plain_of_dropDigits hrest⟩
  · split_ifs at h
    cases h
    exact hrest

theorem plain_of_isExponent (h : Default.isExponent t) : Plain t := by
  unfold Default.isExponent at h
  split at h
  · exact .nil
  · simp only [Bool.and_eq_true, Bool.or_eq_true, beq_iff_eq, all_eq_true] at h
    obtain ⟨⟨hmark, -⟩, hdigits⟩ := h
    refine forall_mem_cons.2 ⟨?_, plain_of_dropSign fun c hc => isPlain_of_isDigit (hdigits c hc)⟩
    rcases hmark with rfl | rfl <;> decide

theorem isPlain_of_toLower (h : IsPlain c.toLower) : IsPlain c := by
  refine ⟨Bracket.ofOpener?_eq_none.2 ⟨?_, ?_, ?_⟩, Bracket.ofCloser?_eq_none.2 ⟨?_, ?_, ?_⟩, ?_, ?_⟩ <;>
    (rintro rfl; revert h; decide)

theorem plain_of_sameWord (hw : Plain (Text.lower w)) (h : Text.sameWord w t) : Plain t := by
  intro c hc
  rw [beq_iff_eq.1 h] at hw
  exact isPlain_of_toLower (hw _ (mem_map_of_mem hc))

theorem plain_of_isNumber (h : Default.isNumber t) : Plain t := by
  refine plain_of_dropSign ?_
  simp only [Default.isNumber, Bool.or_eq_true, any_eq_true] at h
  rcases h with ⟨w, hw, h⟩ | h
  · refine plain_of_sameWord ?_ h
    simp only [mem_cons, not_mem_nil, or_false] at hw
    rcases hw with rfl | rfl | rfl <;> decide
  · obtain ⟨rest, hrest, hexp⟩ := (Option.any_eq_true _ _).1 h
    exact plain_of_mantissa? hrest (plain_of_isExponent hexp)

/-- Quoted text between brackets. -/
theorem neutral_enclosed (b : Bracket) (opening closing : Text)
    (hopen : ∀ stack, read ⟨.code, stack⟩ opening = some ⟨.code, b :: stack⟩)
    (hclose : ∀ stack, read ⟨.code, b :: stack⟩ closing = some ⟨.code, stack⟩) (ht : Neutral t) :
    Neutral (join [opening, t, closing]) := fun stack => by
  simp only [join_cons, join_nil, append_nil]
  rw [read_append_of (hopen stack), read_append_of (ht _), hclose]

theorem neutral_default (v : Text) : Neutral (Default.render v) := by
  unfold Default.render
  simp only
  split_ifs with hword
  · rcases Bool.or_eq_true_iff.1 hword with h | h
    · exact (plain_of_isNumber h).neutral
    · exact (plain_of_isIdentifier h).neutral
  · split
    · exact neutral_quote _
    · split
      · exact neutral_enclosed .paren "struct(" ")" (fun _ => rfl) (fun _ => rfl) (neutral_quote _)
      · split
        · exact neutral_enclosed .brace "\x7b" "\x7d" (fun _ => rfl) (fun _ => rfl) (neutral_quote _)
        · exact neutral_quote _

/-! ## Documentation blocks -/

theorem buried_line (t : Text) : Buried (DocBlock.line t) := by
  unfold DocBlock.line
  split_ifs
  · exact ⟨rfl, rfl⟩
  · have hlead : Buried "  * ".toList := ⟨rfl, rfl⟩
    simp only [Page.line, join_cons, join_nil, append_nil, append_assoc]
    exact hlead.append (buried_escape_line t)

theorem buried_body (doc : DocText) (notes : List Text) : Buried (DocBlock.body doc notes) := by
  have hgap : Buried (if doc.hasText && !notes.isEmpty then Page.line "  *" else []) := by
    split_ifs
    · exact ⟨rfl, rfl⟩
    · exact .nil rfl
  simp only [DocBlock.body, join_cons, join_nil, append_nil]
  exact .append (.flatMap rfl fun _ _ => buried_line _) (.append hgap (.flatMap rfl fun _ _ => buried_line _))

/-- A documentation block up to the end of its last line. -/
theorem isComment_block (opening : Text) {inner : Text} (hopen : Buried opening) (hinner : Buried inner) :
    IsComment ("/*".toList ++ opening ++ inner ++ "  */".toList) :=
  ⟨_, by simp, hopen.append (hinner.append (b := "  *".toList) ⟨rfl, rfl⟩)⟩

/-- Nothing, or a comment that ends with its line. -/
def IsBlock (t : Text) : Prop := t = [] ∨ ∃ block, t = Page.line block ∧ TakenFor .comment .code .code block

theorem IsBlock.neutral (h : IsBlock t) : Neutral t := by
  rcases h with rfl | ⟨block, rfl, hblock⟩
  · exact .nil
  · exact neutral_line (hblock.read (by decide))

theorem isComment_ofMember (header : Text) {doc : DocText} {notes : List Text}
    (h : doc.hasText || !notes.isEmpty) (trailer : List Text) :
    ∃ block, ofMember header doc notes trailer = Page.line block ∧ IsComment block := by
  have hinner := (buried_escape_line header).append ((buried_body doc notes).append
    (.flatMap rfl fun t (_ : t ∈ trailer) => buried_line t))
  refine ⟨_, ?_, isComment_block "* " ⟨rfl, rfl⟩ hinner⟩
  rw [ofMember, if_neg (by simpa [Classical.or_iff_not_imp_left] using h)]
  simp [close, Page.line]

theorem isBlock_ofMember (header : Text) (doc : DocText) (notes trailer : List Text) :
    IsBlock (ofMember header doc notes trailer) := by
  by_cases h : doc.hasText || !notes.isEmpty
  · obtain ⟨block, hblock, hcomment⟩ := isComment_ofMember header h trailer
    exact .inr ⟨block, hblock, hcomment.takenFor⟩
  · exact .inl (if_pos (by simpa using h))

theorem isComment_ofClass (hname : isIdentifier name) (group : Option Text)
    (doc : DocText) (notes : List Text) : ∃ block, ofClass name group doc notes = Page.line block ∧
    IsComment block := by
  have hstar : '*' ∉ name := fun h =>
    absurd (isContinue_of_isIdentifier hname _ h) (by decide)
  have hquote : Buried "\"\n".toList := buried_of_noStar (by decide)
  have hgroup : Buried (group.toList.flatMap fun g => DocBlock.line (join ["@ingroup ", g])) :=
    .flatMap rfl fun _ _ => buried_line _
  have hinner := (buried_of_noStar hstar).append (hquote.append (hgroup.append (buried_body doc notes)))
  refine ⟨_, ?_, isComment_block "* @class \"" ⟨rfl, rfl⟩ hinner⟩
  simp [ofClass, close, Page.line]

theorem isBlock_ofClass (hname : isIdentifier name) (group : Option Text)
    (doc : DocText) (notes : List Text) :
    IsBlock (ofClass name group doc notes) := by
  obtain ⟨block, hblock, hcomment⟩ := isComment_ofClass hname group doc notes
  exact .inr ⟨block, hblock, hcomment.takenFor⟩

end Balance

end ClassdefDoc
