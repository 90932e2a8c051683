import ClassdefDoc.Proofs.Attributes.Unknown
import ClassdefDoc.Proofs.Balance.Uncomment
import ClassdefDoc.Proofs.LineEnd.Return
import ClassdefDoc.Proofs.Parse.Safety

/-!
# Errors point into their source

A source is refused by the scanner, by a reading, for an accessor or for an attribute. Each of them takes
the position of its fault from the text: the scanner from where it stands or from a bracket it has
passed, the others from the start of a token. So the position of every error is that of a beginning of
the source (`Options.exists_fault`). The line shown with an error is found by another way of counting
lines, which leaves returns and an empty last line out; `Text.getElem?_lines` says how far the two agree.
-/

namespace ClassdefDoc

open List Resolved

variable {p : Position} {k : TokenKind} {limits : Limits} {c : ClassDecl}

variable {attributes : List Attribute} {f : Fault} {text : Text}

/-! ## Lines -/

namespace Text

theorem length_split (sep : Char) (t : Text) : (split sep t).length = t.count sep + 1 := by
  induction t with
  | nil => rfl
  | cons c t ih =>
    rw [split]
    split_ifs with hc
    · rw [length_cons, ih, hc, count_cons_self]
    · rw [count_cons_of_ne hc, ← ih]
      split
      · rename_i hsplit
        exact absurd hsplit (split_ne_nil sep t)
      · rename_i p ps hsplit
        rw [hsplit]
        rfl

theorem trimEnd_dropReturn (t : Text) : trimEnd (dropReturn t) = trimEnd t := by
  unfold dropReturn
  split
  · rename_i r hreverse
    rw [← reverse_reverse t, hreverse, reverse_cons, trimEnd_append_of_isSpace r.reverse (by decide)]
  · rfl

/-- The lines of a text are the pieces between its line ends, up to the
white space at their ends, and an empty last piece is no line. -/
theorem getElem?_lines (t : Text) (n : Nat) : (lines t)[n]?.map trimEnd =
    if (split '\n' t)[n]? = some [] ∧
    n + 1 = (split '\n' t).length then none else (split '\n' t)[n]?.map trimEnd := by
  obtain hnil | ⟨ended, last, hsplit⟩ := eq_nil_or_concat' (split '\n' t)
  · exact absurd hnil (split_ne_nil '\n' t)
  have hlines : (lines t).map trimEnd = (if last = [] then ended else ended ++ [last]).map trimEnd := by
    rw [lines, hsplit, reverse_append, reverse_singleton, singleton_append]
    cases last with
    | nil => simp [trimEnd_dropReturn]
    | cons c cs => simp [trimEnd_dropReturn]
  rw [← getElem?_map, hlines, getElem?_map, hsplit, length_append, length_singleton]
  by_cases hlast : last = []
  · subst hlast
    rw [if_pos rfl]
    rcases Nat.lt_trichotomy n ended.length with hn | rfl | hn
    · rw [getElem?_append_left hn, if_neg (by omega)]
    · simp
    · simp [Nat.le_of_lt hn, hn]
  · rw [if_neg hlast, if_neg]
    rintro ⟨hempty, hn⟩
    obtain rfl : n = ended.length := by omega
    rw [getElem?_concat_length] at hempty
    exact hlast (Option.some.inj hempty)

end Text

/-! ## Positions in a text -/

/-- The position is that of a beginning of the text. -/
def Position.InText (text : Text) (p : Position) : Prop :=
  ∃ before after, text = before ++ after ∧ p = Position.start.advance before

theorem Position.AtToken.inText {ts : List Token} (h : p.AtToken ts) (hts : TokenStream text ts) :
    p.InText text := by
  obtain ⟨t, ht, rfl⟩ := h
  obtain ⟨before, after, htext, hstands⟩ := hts.cut t ht
  exact ⟨before, t.lexeme ++ after, by rw [htext, append_assoc], by rw [hstands.span]⟩

/-! ## Faults of the scanner -/

namespace Scanner

variable {text : Text} {s s' : Scanner} {t : Token} {f : Fault} {brackets : List (Bracket × Position)}

/-- The scanner stands in `text`, and so do the brackets it has passed. -/
structure Placed (text : Text) (s : Scanner) : Prop where
  inText : s.Over text
  opened : ∀ x ∈ s.brackets, x.2.InText text

theorem placed_start (text : Text) : Placed text (start text) := ⟨over_start text, by simp [start]⟩

theorem mem_bracketsAfter {brackets' : List (Bracket × Position)} {x : Bracket × Position}
    (h : bracketsAfter brackets k p = .ok brackets') (hx : x ∈ brackets') : x ∈ brackets ∨ x.2 = p := by
  unfold bracketsAfter at h
  split at h
  · cases h
    rcases mem_cons.1 hx with rfl | hx
    · exact .inr rfl
    · exact .inl hx
  · split at h
    · cases h
    · split_ifs at h
      cases h
      exact .inl (mem_cons_of_mem _ hx)
  · cases h
    exact .inl hx

theorem position_of_bracketsAfter
    (h : bracketsAfter brackets k p = .error f) : f.position = p := by
  unfold bracketsAfter at h
  split at h
  · cases h
  · split at h
    · cases h
      rfl
    · split_ifs at h
      cases h
      rfl
  · cases h

theorem Placed.step (h : s.Placed text) (hstep : step s = .ok (.item t s')) : s'.Placed text := by
  refine ⟨h.inText.of_step hstep, fun x hx => ?_⟩
  obtain ⟨past, ahead, hcursor, rfl⟩ := h.inText
  obtain ⟨gap, lexeme, hidden, rest, rfl, htook⟩ := took_of_step hcursor hstep
  rcases mem_bracketsAfter htook.brackets_eq hx with hx | hx
  · exact h.opened x hx
  · rw [hx, htook.token_eq]
    exact ⟨past ++ gap, lexeme ++ hidden ++ rest, by simp only [append_assoc], rfl⟩

theorem Placed.fault (h : s.Placed text) (hstep : Scanner.step s = .error f) : f.position.InText text := by
  obtain ⟨past, ahead, hcursor, rfl⟩ := h.inText
  obtain ⟨gap, rest, rfl, hgap, hrest⟩ := exists_gap ahead
  have hhere : (Position.start.advance (past ++ gap)).InText (past ++ (gap ++ rest)) :=
    ⟨past ++ gap, rest, by rw [append_assoc], rfl⟩
  rw [step_between hcursor hgap hrest] at hstep
  cases rest with
  | nil =>
    simp only at hstep
    split at hstep
    · cases hstep
    · rename_i b p brackets hbrackets
      cases hstep
      exact h.opened (b, p) (hbrackets ▸ mem_cons_self)
  | cons c rest =>
    simp only at hstep
    split at hstep
    · cases hstep
      exact hhere
    · split at hstep
      · rename_i hbrackets
        cases hstep
        rwa [position_of_bracketsAfter hbrackets]
      · cases hstep

end Scanner

theorem inText_of_scan (h : scan text = .error f) : f.position.InText text := by
  unfold scan at h
  cases hcollect : collect ⟨.broken .tokens, .start⟩ Scanner.step (text.length + 1) (Scanner.start text) with
  | ok x =>
    rw [hcollect] at h
    cases h
  | error e =>
    rw [hcollect] at h
    cases h
    obtain rfl | ⟨as, s, hchain, hstep⟩ := error_of_collect hcollect
    · exact ⟨[], text, rfl, rfl⟩
    · exact (hchain.keeps Scanner.Placed.step (Scanner.placed_start text)).fault hstep

theorem ClassDecl.inText_of_parse (h : ClassDecl.parse limits text = .error f) :
    f.position.InText text := by
  rcases of_bind_eq_error h with hscan | ⟨tokens, hscan, h⟩
  · exact inText_of_scan hscan
  · obtain ⟨c, hc, -⟩ | ⟨f', hf, hstands⟩ := ClassDecl.ofTokens_answers (tokenStream_of_scan hscan) limits
    · cases hc.symm.trans h
    · cases hf.symm.trans h
      exact hstands.position.inText (tokenStream_of_scan hscan)

/-- The attributes of a class that is read stand in its text. -/
theorem ClassDecl.attributes_inText (h : ClassDecl.parse limits text = .ok c) :
    ∀ a ∈ c.attributes ++ c.blocks.flatMap (·.attributes), a.position.InText text := by
  obtain ⟨tokens, hscan, h⟩ := ClassDecl.parse_eq_ok_iff.1 h
  obtain ⟨c', hc, hplaced⟩ | ⟨f, hf, -⟩ := ClassDecl.ofTokens_answers (tokenStream_of_scan hscan) limits
  · cases hc.symm.trans h
    intro a ha
    rcases mem_append.1 ha with ha | ha
    · exact (hplaced.attributes a ha).inText (tokenStream_of_scan hscan)
    · obtain ⟨b, hb, ha⟩ := mem_flatMap.1 ha
      exact ((hplaced.blocks b hb).attributes a ha).inText (tokenStream_of_scan hscan)
  · cases hf.symm.trans h

/-! ## Faults of attributes -/

namespace AttributeKey

/-- A key stands where one of its attributes does. -/
theorem exists_position {k : AttributeKey} (h : k ∈ ofList attributes) :
    ∃ a ∈ attributes, k.position = a.position := by
  have hadd {a : Attribute} {keys : List AttributeKey} {k : AttributeKey} (h : k ∈ add a keys) :
      k.position = a.position ∨ ∃ k' ∈ keys, k.position = k'.position := by
    induction keys with
    | nil =>
      rw [mem_singleton.1 h]
      exact .inl rfl
    | cons k' keys ih =>
      rw [add] at h
      split_ifs at h
      · rcases mem_cons.1 h with rfl | h
        · exact .inr ⟨k', mem_cons_self, rfl⟩
        · exact .inr ⟨k, mem_cons_of_mem _ h, rfl⟩
      · rcases mem_cons.1 h with rfl | h
        · exact .inr ⟨k, mem_cons_self, rfl⟩
        · obtain h | ⟨k'', hk'', h⟩ := ih h
          · exact .inl h
          · exact .inr ⟨k'', mem_cons_of_mem _ hk'', h⟩
  induction attributes using List.reverseRecOn generalizing k with
  | nil => cases h
  | append_singleton attributes a ih =>
    rw [ofList, foldl_append] at h
    obtain h | ⟨k', hk', h⟩ := hadd h
    · exact ⟨a, by simp, h⟩
    · obtain ⟨a', ha', hposition⟩ := ih hk'
      exact ⟨a', mem_append_left _ ha', h.trans hposition⟩

end AttributeKey

theorem exists_of_mapM_eq_error {ε α β : Type} {f : α → Except ε β}
    {as : List α} {e : ε} (h : as.mapM f = .error e) :
    ∃ a ∈ as, f a = .error e := by
  induction as with
  | nil => cases h
  | cons a as ih =>
    rw [mapM_cons] at h
    rcases of_bind_eq_error h with ha | ⟨b, -, h⟩
    · exact ⟨a, mem_cons_self, ha⟩
    rcases of_bind_eq_error h with has | ⟨bs, -, h⟩
    · obtain ⟨a', ha', herror⟩ := ih has
      exact ⟨a', mem_cons_of_mem a ha', herror⟩
    · cases h

theorem position_of_resolveBlock {kind : BlockKind}
    (h : (resolveBlock kind attributes).2 = .error f) : ∃ a ∈ attributes, f.position = a.position := by
  suffices hkey : ∃ k ∈ AttributeKey.ofList attributes, f.position = k.position by
    obtain ⟨k, hk, hposition⟩ := hkey
    obtain ⟨a, ha, hka⟩ := AttributeKey.exists_position hk
    exact ⟨a, ha, hposition.trans hka⟩
  rcases ofKeys_eq_error_iff.1 h with hflag | ⟨-, haccess⟩
  · obtain ⟨before, k, after, hkeys, hk, -⟩ := filterMapM_eq_error_iff.1 hflag
    exact ⟨k, by rw [hkeys]; simp, (modifierOf_eq_error hk).2⟩
  · exact (accessOf_eq_error haccess).2

theorem position_of_resolveClass (h : (resolveClass attributes).2 = .error f) :
    ∃ a ∈ attributes, f.position = a.position := by
  rcases of_bind_eq_error h with h | ⟨notes, -, h⟩
  · obtain ⟨before, x, after, -, hx, -⟩ := filterMapM_eq_error_iff.1 h
    simp only at hx
    split at hx
    · cases hx
    · rename_i k hk
      rcases of_bind_eq_error hx with hflag | ⟨b, -, hx⟩
      · obtain ⟨v, -, -, rfl⟩ := AttributeKey.flag_eq_error hflag
        exact AttributeKey.exists_position (mem_of_find?_eq_some hk)
      · cases hx
  · cases h

theorem ClassDecl.position_of_outline {layout : Layout} {macros : MacroTable}
    (h : c.outline layout macros = .error f) :
    ∃ a ∈ c.attributes ++ c.blocks.flatMap (·.attributes), f.position = a.position := by
  rcases of_bind_eq_error h with hresolve | ⟨x, -, h⟩
  · rcases of_bind_eq_error hresolve with hclass | ⟨notes, -, hresolve⟩
    · obtain ⟨a, ha, hposition⟩ := position_of_resolveClass hclass
      exact ⟨a, mem_append_left _ ha, hposition⟩
    rcases of_bind_eq_error hresolve with hblocks | ⟨resolved, -, hresolve⟩
    · obtain ⟨x, hx, herror⟩ := exists_of_mapM_eq_error hblocks
      obtain ⟨b, hb, rfl⟩ := mem_map.1 hx
      obtain ⟨a, ha, hposition⟩ := position_of_resolveBlock herror
      exact ⟨a, mem_append_right _ (mem_flatMap.2 ⟨b, hb, ha⟩), hposition⟩
    · cases hresolve
  · cases h

/-! ## Errors of a source -/

/-- A source is refused for a fault that stands in its text. -/
theorem Options.exists_fault {o : Options} {s : Source} {e : SourceError} (h : o.pseudocode s = .error e) :
    ∃ f : Fault, e = s.locate f.toError ∧ f.position.InText s.text := by
  rw [Options.pseudocode_eq] at h
  cases hparse : ClassDecl.parse o.limits s.text with
  | error f =>
    rw [hparse] at h
    cases h
    exact ⟨f, rfl, ClassDecl.inText_of_parse hparse⟩
  | ok c =>
    rw [hparse] at h
    cases houtline : c.outline (o.layoutFor s.path).1 o.macros with
    | ok x =>
      simp [houtline, Except.mapError, bind, Except.bind] at h
    | error f =>
      simp only [houtline, Except.mapError, bind, Except.bind, Except.error.injEq] at h
      obtain ⟨a, ha, hposition⟩ := ClassDecl.position_of_outline houtline
      exact ⟨f, h.symm, hposition ▸ ClassDecl.attributes_inText hparse a ha⟩

/-- The line that is attached to a fault in the text. -/
theorem Source.context_locate (s : Source) (h : f.position.InText s.text) :
    ∃ n line, f.position.line = n + 1 ∧ (Text.split '\n' s.text)[n]? = some line ∧
      (s.locate f.toError).context =
        if line = [] ∧ n + 1 = (Text.split '\n' s.text).length then none else some (Text.trimEnd line) := by
  obtain ⟨before, after, htext, hposition⟩ := h
  have hline : f.position.line = before.count '\n' + 1 := by
    rw [hposition, Position.line_advance, Nat.add_comm]
    rfl
  have hlength : before.count '\n' < (Text.split '\n' s.text).length := by
    rw [Text.length_split, htext, count_append]
    omega
  refine ⟨before.count '\n', (Text.split '\n' s.text)[before.count '\n'],
    hline, getElem?_eq_getElem hlength, ?_⟩
  show (s.line? f.position.line).map Text.trimEnd = _
  rw [Source.line?, hline, Nat.add_sub_cancel, Text.getElem?_lines, getElem?_eq_getElem hlength]
  simp only [Option.some.injEq, Option.map_some]

/-- An error of a source names its file, stands where a beginning of the text
ends, and shows the line it stands on without the white space at its end. No line
is shown for the empty text behind the last line end, nor for an empty source. -/
theorem Options.error_points_into_source {o : Options} {s : Source}
    {e : SourceError} (h : o.pseudocode s = .error e) :
    e.file = some s.path ∧
    (∃ before after, s.text = before ++ after ∧ e.position = Position.start.advance before) ∧
    ∃ n line, e.position.line = n + 1 ∧ (Text.split '\n' s.text)[n]? = some line ∧
      e.context = if line = [] ∧
      n + 1 = (Text.split '\n' s.text).length then none else some (Text.trimEnd line) := by
  obtain ⟨f, rfl, hf⟩ := Options.exists_fault h
  exact ⟨rfl, hf, s.context_locate hf⟩

/-- An access level that does not exist, on a line with white space and a return at its end. -/
def secretSource : Source where
  path := "A.m"
  text := "classdef A\nmethods (Access = secret) \r\nend\nend\n"

def secretError : SourceError where
  kind := .unexpectedToken
  position := ⟨2, 10⟩
  message := "invalid access level 'secret' for attribute 'Access'"
  context := some "methods (Access = secret)"
  file := some "A.m"

theorem Options.error_points_into_source_secret :
    ({} : Options).pseudocode secretSource = .error secretError ∧
    secretError.file = some secretSource.path ∧
    (∃ before after, secretSource.text = before ++ after ∧
      secretError.position = Position.start.advance before) ∧
    ∃ n line, secretError.position.line = n + 1 ∧ (Text.split '\n' secretSource.text)[n]? = some line ∧
      secretError.context =
        if line = [] ∧
        n + 1 = (Text.split '\n' secretSource.text).length then none else some (Text.trimEnd line) := by
  have hsecret : ({} : Options).pseudocode secretSource = .error secretError := by decide +kernel
  exact ⟨hsecret, Options.error_points_into_source hsecret⟩

/-- Behind the last line end there is no line to show. -/
example : ({} : Options).pseudocode ⟨"A.m", "classdef A\n"⟩ =
    .error ⟨.unexpectedEof, ⟨2, 1⟩, "unexpected end of file, expected 'end' closing class 'A'",
      none, some "A.m"⟩ := by decide +kernel

end ClassdefDoc
