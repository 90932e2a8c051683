import ClassdefDoc.Proofs.Parse.Takes
import ClassdefDoc.Proofs.Parse.WellFormed
import ClassdefDoc.Proofs.Print.Written

/-!
# Reading back a printed class

The reader takes the tokens of each part of a form and gives what the part describes. The parts are
put together as the reader's functions are: names and attribute lists, members, blocks and the class.
`ClassForm.parse_print` says that the text of a form is parsed to the declaration it stands for.
-/

namespace ClassdefDoc

open List Spelling Text Body
open AttributeForm (spellTail spellList)
open MemberForm (spellSignature)

open Spelling (word delimiter sign keyword listed assign write tokens)

variable {m : Member}

namespace Read

variable {comments : List LooseComment} {last : Option Token} {past text what gap name : Text} {u t : Token}
  {rest layout sep ts : List Token} {kind : BlockKind} {limits : Limits} {p : Spelling} {limit : Nat}

/-! ## Names -/

/-- The segments of a dotted name behind its first one. -/
theorem takes_segments (hcont : u.kind.isContinuation = false)
    (hu : u.kind ≠ .operator .dot) (ws : List Word) :
    Takes comments last (tokens past (ws.flatMap fun w => [sign [] .dot '.', word [] w])) (u :: rest)
      (many (segment what))
      (· = ws.map (·.text)) := by
  induction ws generalizing past last with
  | nil => exact .many_stop (.not_sees rfl hcont hu (.pure rfl))
  | cons w ws ih =>
    rw [flatMap_cons, tokens_append]
    refine .many_item (A := (· = w.text)) (.sees rfl rfl ?_) (cons_ne_nil _ _) ih ?_
    · exact .discard rfl (cons_ne_nil _ _) (.expectIdentifier rfl (by simp) (.pure ⟨_, rfl, rfl⟩))
    · rintro _ _ rfl rfl
      rfl

theorem takes_dottedName (hcont : u.kind.isContinuation = false) (hu : u.kind ≠ .operator .dot) (gap : Text)
    (n : DottedForm) :
    Takes comments last (tokens past (n.spell gap)) (u :: rest) (dottedName what) (· = n.name) := by
  refine .expectIdentifier rfl (by simp) ?_
  refine .bind_last (takes_segments hcont hu n.rest) ?_
  rintro _ rfl
  exact .pure rfl

/-- A token that stands for the name `w` in a list of names. -/
def IsNamed (ignored : Bool) (p : Spelling) (w : Text) : Prop :=
  p.kind = .identifier w ∨ (p.kind = .operator .tilde ∧ ignored ∧ w = ['~'])

/-- One round of a list of names. -/
abbrev name? (b : Bracket) (ignored : Bool) (what : Text) : Read (Option (Option Text)) := do
  skipLines
  let t ← peek
  match t.kind with
  | .delimiter .comma => discard advance; pure (some none)
  | .identifier name => discard advance; pure (some (some name))
  | .operator .tilde =>
    if ignored then do discard advance; pure (some (some ['~'])) else unexpected t what
  | k => if k = .delimiter (.closing b) then do discard advance; pure none else unexpected t what

theorem takes_name {b : Bracket} {ignored : Bool} {w : Text} (hp : IsNamed ignored p w) (hrest : rest ≠ []) :
    Takes comments last (tokens past [p]) rest (name? b ignored what) fun o => ∃ a, o = some a ∧
    a = some w := by
  have hkind : (p.token past).kind = p.kind := rfl
  obtain ⟨hcont, hline⟩ : p.kind.isContinuation = false ∧ isLineLayout p.kind = false := by
    rcases hp with h | ⟨h, -⟩ <;> rw [h] <;> exact ⟨rfl, rfl⟩
  refine .skipLines rfl hline (.peek rfl hcont ?_)
  rcases hp with h | ⟨h, rfl, rfl⟩ <;> simp only [hkind, h,
    if_true] <;> exact .discard hcont hrest (.pure ⟨_, rfl, rfl⟩)

variable {ι : Type} {f : ι → Spelling} {g : ι → Text} {b : Bracket} {ignored : Bool}

theorem takes_comma (hrest : rest ≠ []) :
    Takes comments last (tokens past [delimiter [] .comma]) rest (name? b ignored what)
      fun o => ∃ a, o = some a ∧ a = none :=
  .skipLines rfl rfl (.peek rfl rfl (.discard rfl hrest (.pure ⟨_, rfl, rfl⟩)))

theorem takes_closing (hrest : rest ≠ []) :
    Takes comments last (tokens past [delimiter [] (.closing b)]) rest (name? b ignored what) (· = none) := by
  refine .skipLines rfl rfl (.peek rfl rfl ?_)
  simp only [token, delimiter, if_true]
  exact .discard rfl hrest (.pure rfl)

/-- The names behind the first one of a list, and its end. -/
theorem takes_moreNames (hf : ∀ i, IsNamed ignored (f i) (g i)) (hrest : rest ≠ []) (l : List ι) :
    Takes comments last
      (tokens past (l.flatMap (fun i => [delimiter [] .comma, f i]) ++ [delimiter [] (.closing b)])) rest
      (many (name? b ignored what)) fun found => found.filterMap id = l.map g := by
  induction l generalizing past last with
  | nil => exact .mono (.many_stop (takes_closing hrest)) fun _ h => by rw [h]; rfl
  | cons i l ih =>
    show Takes comments last (tokens past ([delimiter [] .comma] ++ ([f i] ++ (l.flatMap _ ++ _)))) rest _ _
    rw [tokens_append, tokens_append]
    refine .many_item (C := fun found => found.filterMap id = (i :: l).map g) (takes_comma (by simp [hrest]))
      (cons_ne_nil _ _) (.many_item (takes_name (hf i) (by simp [hrest])) (cons_ne_nil _ _) ih ?_) ?_
    · rintro _ found rfl hfound
      exact congrArg (g i :: ·) hfound
    · rintro _ found rfl hfound
      exact hfound

/-- A list of names and its end. -/
theorem takes_names (hf : ∀ i, IsNamed ignored (f i) (g i)) (hrest : rest ≠ []) (l : List ι) :
    Takes comments last (tokens past (listed (l.map f) ++ [delimiter [] (.closing b)])) rest
      (names b ignored what) (· = l.map g) := by
  have hmany : Takes comments last (tokens past (listed (l.map f) ++ [delimiter [] (.closing b)])) rest
      (many (name? b ignored what)) fun found => found.filterMap id = l.map g := by
    cases l with
    | nil => exact takes_moreNames hf hrest []
    | cons i l =>
      rw [map_cons, listed, flatMap_map]
      show Takes comments last (tokens past ([f i] ++ (l.flatMap _ ++ _))) rest _ _
      rw [tokens_append]
      refine .many_item (takes_name (hf i) (by simp [hrest])) (cons_ne_nil _ _)
        (takes_moreNames hf hrest l) ?_
      rintro _ found rfl hfound
      exact congrArg (g i :: ·) hfound
  exact .bind_last hmany fun found hfound => .pure hfound

/-! ## Attributes -/

/-- What stands behind an attribute: a comma, which is taken, or the end of the list. -/
def Separates (sep rest : List Token) : Prop :=
  (∃ t, sep = [t] ∧ t.kind = .delimiter .comma ∧ rest ≠ []) ∨
    (sep = [] ∧ ∃ t, rest.head? = some t ∧ t.kind = .delimiter (.closing .paren))

theorem Separates.exists_head (h : Separates sep rest) :
    ∃ t, (sep ++ rest).head? = some t ∧
      (t.kind = .delimiter .comma ∨ t.kind = .delimiter (.closing .paren)) := by
  rcases h with ⟨t, rfl, hkind, -⟩ | ⟨rfl, t, ht, hkind⟩
  · exact ⟨t, rfl, .inl hkind⟩
  · exact ⟨t, ht, .inr hkind⟩

theorem takes_expression {stops : TokenKind → Bool} (h : expression stops 0 (ts ++ rest) = (ts, rest)) :
    Takes comments last ts rest (takeExpression stops) (· = ts) := by
  refine ⟨ts, rfl, ?_⟩
  show (let x := expression stops 0 (ts ++ rest)
    Except.ok (x.1, (⟨x.2, x.1.getLast?.or last, comments⟩ : Reader))) = _
  rw [h]

/-- The text of some tokens, from the first to the last. -/
theorem takes_textOf {ps : List Spelling}
    (htext : past ++ write (p :: ps) <+: text) (ht : (tokens past (p :: ps)).getLast? = some t) :
    Takes comments last [] rest (textOf text (p.token past) t) (· = p.lexeme ++ write ps) := by
  obtain ⟨after, rfl⟩ := htext
  have hslice : slice? (past ++ write (p :: ps) ++ after) (p.token past).offset t.endOffset =
      some (p.lexeme ++ write ps) := by
    refine slice?_of_eq (a := past ++ p.gap) (c := after) ?_ rfl ?_
    · simp only [write_cons, append_assoc]
    · rw [endOffset_getLast ht]
      simp only [write_cons, append_assoc]
  refine ⟨_, rfl, ?_⟩
  rw [textOf, hslice]
  rfl

/-- The value `word` of an attribute, up to what stands behind it. -/
theorem takes_attributeValue {w : Word}
    (hplain : sameWord w.text "true" = false ∧ sameWord w.text "false" = false)
    (htext : past ++ write [word gap w] <+: text) (ht : rest.head? = some t)
    (hkind : t.kind = .delimiter .comma ∨ t.kind = .delimiter (.closing .paren)) :
    Takes comments last (tokens past [word gap w]) rest (attributeValue text) (· = .word w.text) := by
  obtain ⟨more, rfl⟩ := head?_eq_some_iff.1 ht
  have hexpression : expression endsAttribute 0 (tokens past [word gap w] ++ t :: more) =
      (tokens past [word gap w], t :: more) := by
    rcases hkind with h | h <;> simp [expression, tokens, word, token, endsAttribute, h]
  refine .bind_last (takes_expression hexpression) ?_
  rintro _ rfl
  refine .peek rfl (by rcases hkind with h | h <;> rw [h] <;> rfl) ?_
  rw [if_neg (by rcases hkind with h | h <;> simp [h])]
  refine .bind_nil (takes_textOf htext rfl) fun _ _ => .pure ?_
  simp only [tokens, AttributeValue.ofTokens, token, word, hplain]
  rfl

/-- The comma behind an attribute is taken. -/
theorem takes_separator {value : AttributeValue} {p : Position}
    {A : Option Attribute → Prop} (hsep : Separates sep rest) (hx : A (some ⟨name, value, p⟩)) :
    Takes comments last sep rest (itemEnd name value p) A := by
  rcases hsep with ⟨t, rfl, hkind, hne⟩ | ⟨rfl, t, ht, hkind⟩
  · refine .skipLines rfl (by rw [hkind]; rfl) (.peek rfl (by rw [hkind]; rfl) ?_)
    rw [if_pos hkind]
    exact .discard (by rw [hkind]; rfl) (by simpa using hne) (.pure hx)
  · refine .skipLines ht (by rw [hkind]; rfl) (.peek ht (by rw [hkind]; rfl) ?_)
    rw [if_neg (by simp [hkind]), if_neg (by simp [hkind])]
    exact .pure hx

theorem takes_attribute (a : AttributeForm) (hsep : Separates sep rest)
    (htext : past ++ write (a.spell gap) <+: text) :
    Takes comments last (tokens past (a.spell gap) ++ sep) rest (attributeItem? text)
      fun o => ∃ x, o = some x ∧ x.unplaced = a.decl := by
  obtain ⟨t, ht, hkind⟩ := hsep.exists_head
  have hcont : t.kind.isContinuation = false := by rcases hkind with h | h <;> rw [h] <;> rfl
  have hline : isLineLayout t.kind = false := by rcases hkind with h | h <;> rw [h] <;> rfl
  have hassign : t.kind ≠ .operator .assign := by rcases hkind with h | h <;> simp [h]
  have hne : sep ++ rest ≠ [] := by rintro h; simp [h] at ht
  cases a with
  | asserted name =>
    refine .skipLines rfl rfl (.not_sees rfl rfl (by rintro ⟨⟩) (.not_sees rfl rfl (by rintro ⟨⟩) ?_))
    refine .expectIdentifier rfl hne (.skipLines ht hline (.not_sees ht hcont hassign ?_))
    exact takes_separator hsep ⟨_, rfl, rfl⟩
  | negated name =>
    refine .skipLines rfl rfl (.not_sees rfl rfl (by rintro ⟨⟩)
      (.sees rfl rfl (.discard rfl (cons_ne_nil _ _) ?_)))
    refine .expectIdentifier rfl hne (.skipLines ht hline (.not_sees ht hcont hassign ?_))
    exact takes_separator hsep ⟨_, rfl, rfl⟩
  | assigned name value hplain =>
    have hvalue : past ++ gap ++ name.text ++ [' '] ++ ['='] ++ write [word [' '] value] <+: text := by
      refine .trans ⟨[], ?_⟩ htext
      simp [AttributeForm.spell, word, assign]
    refine .skipLines rfl rfl (.not_sees rfl rfl (by rintro ⟨⟩) (.not_sees rfl rfl (by rintro ⟨⟩) ?_))
    refine .expectIdentifier rfl (cons_ne_nil _ _) (.skipLines rfl rfl (.sees rfl rfl ?_))
    refine .discard rfl (cons_ne_nil _ _) (.skipLines rfl rfl ?_)
    exact .andThen (takes_attributeValue hplain hvalue ht hkind) (takes_separator hsep ⟨_, rfl, rfl⟩)

theorem takes_listEnd (hrest : rest ≠ []) :
    Takes comments last (tokens past (spellTail [])) rest (attributeItem? text) (· = none) :=
  .skipLines rfl rfl (.sees rfl rfl (.discard rfl hrest (.pure rfl)))

/-- The attributes of a list and its end. -/
theorem takes_attributeItems (hrest : rest ≠ []) (a : AttributeForm) (as : List AttributeForm)
    (htext : past ++ write (a.spell gap ++ spellTail as) <+: text) :
    Takes comments last (tokens past (a.spell gap ++ spellTail as)) rest (many (attributeItem? text))
      fun xs => xs.map (·.unplaced) = (a :: as).map (·.decl) := by
  have hne (a : AttributeForm) (gap past : Text) (sep : List Token) :
      tokens past (a.spell gap) ++ sep ≠ [] := by
    cases a <;> exact cons_ne_nil _ _
  induction as generalizing a gap past last with
  | nil =>
    rw [write_append, ← append_assoc] at htext
    rw [tokens_append, ← append_nil (tokens past _)]
    refine .many_item (takes_attribute a ?_ (.trans ⟨_, rfl⟩ htext))
      (hne _ _ _ _) (.many_stop (takes_listEnd hrest)) ?_
    · exact .inr ⟨rfl, _, rfl, rfl⟩
    · rintro x _ hx rfl
      simp [hx]
  | cons b as ih =>
    have htail : spellTail (b :: as) =
        [delimiter [] .comma] ++ (b.spell [' '] ++ spellTail as) := by
      simp [spellTail]
    rw [htail, write_append, ← append_assoc, write_append, ← append_assoc] at htext
    rw [htail, tokens_append, tokens_append, ← append_assoc (tokens past _)]
    refine .many_item (takes_attribute a ?_ (.trans ⟨_, rfl⟩ (.trans ⟨_, rfl⟩ htext)))
      (hne _ _ _ _) (ih b htext) ?_
    · exact .inl ⟨_, rfl, rfl, by simp [hrest]⟩
    · rintro x xs hx hxs
      simp [hx, hxs]

theorem takes_attributes (hu : u.kind = .newline) (as : List AttributeForm)
    (htext : past ++ write (spellList as) <+: text) :
    Takes comments last (tokens past (spellList as)) (u :: rest) (attributes text)
      fun xs => xs.map (·.unplaced) = as.map (·.decl) := by
  cases as with
  | nil => exact .not_sees rfl (by rw [hu]; rfl) (by simp [hu]) (.pure rfl)
  | cons a as =>
    rw [spellList, write_cons, ← append_assoc, ← append_assoc] at htext
    refine .sees rfl rfl (.discard rfl (by simp) ?_)
    exact takes_attributeItems (cons_ne_nil _ _) a as htext

/-! ## Properties and events -/

/-- A value ends at the first semicolon outside brackets. -/
theorem expression_value {stack : List Bracket} (hu : u.kind = .delimiter .semicolon)
    (hinline : ∀ t ∈ ts, t.kind.isInline ∧ t.kind ≠ .eof)
    (houter : hasOuterSeparator stack.length (ts.map (·.kind)) = false)
    (hbalanced : (ts.map (·.kind)).foldlM Bracket.after stack = some []) :
    expression endsValue stack.length (ts ++ u :: rest) = (ts, u :: rest) := by
  induction ts generalizing stack with
  | nil =>
    simp only [map_nil, foldlM_nil, pure, Option.some.injEq] at hbalanced
    subst hbalanced
    simp [expression, hu, endsValue]
  | cons t ts ih =>
    obtain ⟨⟨ht, hend⟩, hts⟩ := forall_mem_cons.1 hinline
    simp only [map_cons, foldlM_cons, Option.bind_eq_bind, Option.bind_eq_some_iff] at houter hbalanced
    obtain ⟨stack', hafter, hbalanced⟩ := hbalanced
    cases hkind : t.kind with
    | delimiter d =>
      rw [hkind] at hafter houter
      cases d with
      | opening b =>
        cases hafter
        have hrest := ih hts houter hbalanced
        rw [length_cons] at hrest
        simp [expression, hkind, endsValue, hrest]
      | closing b =>
        obtain rfl := Bracket.after_closing hafter
        have hrest := ih hts houter hbalanced
        simp [expression, hkind, hrest]
      | comma | semicolon =>
        cases hafter
        rw [hasOuterSeparator, Bool.or_eq_false_iff] at houter
        have hdepth : stack.length ≠ 0 := by simpa using houter.1
        have hrest := ih hts houter.2 hbalanced
        simp [expression, hkind, hrest, hdepth]
    | newline | comment | blockComment | continuation => simp [hkind, TokenKind.isInline] at ht
    | eof => exact absurd hkind hend
    | number | literal | identifier | operator | keyword =>
      rw [hkind] at hafter houter
      cases hafter
      have hrest := ih hts houter hbalanced
      simp [expression, hkind, endsValue, hrest]

theorem takes_defaultValue {v : DefaultForm} (hu : u.kind = .delimiter .semicolon)
    (htext : past ++ write (v.first :: v.others) <+: text) :
    Takes comments last (tokens past (v.first :: v.others)) (u :: rest) (defaultValue text) (· = v.text) := by
  have hv := v.spelled
  have hkinds : ∀ t ∈ tokens past (v.first :: v.others), t.kind.isInline ∧ t.kind ≠ .eof := by
    rw [← forall_mem_map (f := Token.kind) (P := fun k => k.isInline ∧ k ≠ .eof),
      map_kind_tokens, forall_mem_map]
    exact hv.inline
  have hexpression : expression endsValue 0 (tokens past (v.first :: v.others) ++ u :: rest) =
      (tokens past (v.first :: v.others), u :: rest) := by
    rw [← length_nil (α := Bracket)]
    refine expression_value hu hkinds ?_ ?_
    · rw [map_kind_tokens]
      exact hv.outer
    · rw [map_kind_tokens]
      exact hv.balanced
  refine .peek rfl (TokenKind.isContinuation_of_isInline (hv.inline v.first mem_cons_self).1).2 ?_
  have hfirst : endsStatement (v.first.token past).kind = false := hv.first
  rw [hfirst, if_neg Bool.false_ne_true]
  refine .bind_last (takes_expression hexpression) ?_
  rintro _ rfl
  have hlast := getLast?_eq_some_getLast (l := tokens past (v.first :: v.others)) (cons_ne_nil _ _)
  rw [hlast, Option.getD_some]
  exact .mono (takes_textOf htext hlast) fun _ h => h.trans hv.text

theorem takes_propertyType (hcont : u.kind.isContinuation = false)
    (hu : u.kind = .operator .assign ∨ u.kind = .delimiter .semicolon) (type : Option DottedForm) :
    Takes comments last (tokens past (type.elim [] fun t => sign [] .atSign '@' :: t.spell []))
    (u :: rest) propertyType
      (· = type.map (·.name)) := by
  have hne (k : TokenKind) (hassign : k ≠ .operator .assign) (hsemicolon : k ≠ .delimiter .semicolon) :
      u.kind ≠ k := by
    rintro rfl
    exact hu.elim hassign hsemicolon
  have hword (w : Text) : u.kind ≠ .identifier w := hne _ (by rintro ⟨⟩) (by rintro ⟨⟩)
  cases type with
  | some t =>
    refine .sees rfl rfl (.discard rfl (cons_ne_nil _ _) ?_)
    refine .bind_last (takes_dottedName hcont (hne _ (by rintro ⟨⟩) (by rintro ⟨⟩)) [] t) ?_
    rintro _ rfl
    refine .bind_nil (A := fun _ => True) (.map (f := Function.const _ ()) ?_) fun _ _ => .pure rfl
    exact .mono (.many_stop (.seesIdentifier rfl hcont hword (.pure rfl))) fun _ _ => trivial
  | none =>
    refine .not_sees rfl hcont (hne _ (by rintro ⟨⟩) (by rintro ⟨⟩))
      (.not_sees rfl hcont (hne _ (by rintro ⟨⟩) (by rintro ⟨⟩)) ?_)
    refine .seesIdentifier rfl hcont hword (.bind_nil (.pure (A := (· = none)) rfl) ?_)
    rintro _ rfl
    exact .not_sees rfl hcont (hne _ (by rintro ⟨⟩) (by rintro ⟨⟩)) (.pure rfl)

theorem takes_property (hu : u.kind = .delimiter .semicolon) (name : MemberName) (type : Option DottedForm)
    (value : Option DefaultForm)
    (htext : past ++ write (MemberForm.property name type value).spell <+: text) :
    Takes comments last (tokens past (MemberForm.property name type value).spell) (u :: rest) (property text)
      fun m => m.unplaced = (MemberForm.property name type value).decl := by
  have hcont : u.kind.isContinuation = false := by rw [hu]; rfl
  refine .expectIdentifier rfl (by simp) ?_
  rw [tokens_append]
  cases value with
  | none =>
    refine .andThen (takes_propertyType hcont (.inr hu) type) ?_
    refine .not_sees rfl hcont (by simp [hu]) (.bind_nil (.pure (A := (· = none)) rfl) ?_)
    rintro _ rfl
    exact .lastLine fun _ => .endStatement rfl hcont (by rw [hu]; rfl) (.pure rfl)
  | some v =>
    refine .andThen (takes_propertyType rfl (.inl rfl) type)
      (.sees rfl rfl (.discard rfl (cons_ne_nil _ _) ?_))
    refine .bind_last (A := (· = some v.text))
      (.map (.mono (takes_defaultValue hu ?_) fun _ h => by rw [h])) ?_
    · refine .trans ⟨[], ?_⟩ htext
      simp [MemberForm.spell, word, assign]
    · rintro _ rfl
      exact .lastLine fun _ => .endStatement rfl hcont (by rw [hu]; rfl) (.pure rfl)

theorem takes_event (hu : u.kind = .newline) (name : MemberName) :
    Takes comments last (tokens past (MemberForm.event name).spell) (u :: rest) event
      fun m => m.unplaced = (MemberForm.event name).decl :=
  .expectIdentifier rfl (cons_ne_nil _ _)
    (.lastLine fun _ => .endStatement rfl (by rw [hu]; rfl) (by rw [hu]; rfl) (.pure rfl))

/-! ## Methods -/

theorem takes_returnNames (hrest : rest ≠ []) (returns : List Word) :
    Takes comments last (tokens past (MemberForm.spellReturns returns)) rest returnNames (· =
      returns.map (·.text)) := by
  refine .sees rfl rfl (.discard rfl (by simp [hrest]) ?_)
  rw [tokens_append]
  refine .bind (takes_names (fun _ => .inl rfl) (cons_ne_nil _ _) returns) fun _ hnames => ?_
  exact .expect rfl rfl hrest (.pure hnames)

theorem takes_signature (returns : List Word) (name : Word) (params : List ParamForm) (hrest : rest ≠ []) :
    Takes comments last (tokens past (spellSignature returns name params)) rest signature
      (· = ⟨name.text, none, params.map (·.text), returns.map (·.text)⟩) := by
  have hparam (p : ParamForm) : IsNamed true p.spell p.text := by
    cases p with
    | named name => exact .inl rfl
    | ignored => exact .inr ⟨rfl, rfl, rfl⟩
  rw [spellSignature, tokens_append]
  refine .andThen (takes_returnNames (cons_ne_nil _ _) returns) ?_
  refine .expectIdentifier rfl (cons_ne_nil _ _) ?_
  refine .bind_nil (.many_stop (.not_sees rfl rfl (by intro h; cases h) (.pure rfl))) ?_
  rintro _ rfl
  refine .sees rfl rfl (.discard rfl (by simp [hrest]) ?_)
  refine .bind_last (takes_names hparam hrest params) ?_
  rintro _ rfl
  exact .pure (by simp [accessorOf])

theorem body_eq {r : Reader} {close : Token} {pieces : List BodyPiece}
    (hsplit : splitAtEnd limit name 0 r.ahead = .ok (ts, close, rest)) (hdoc : docLength none ts = 0)
    (hcut : cut text close.offset ((r.last.map Token.endOffset).getD close.offset) ts = some pieces) :
    body limit text name r = .ok (⟨none, joinCode pieces⟩, { r with ahead := rest, last := some close }) := by
  refine body_eq_ok_iff.2 ⟨ts, close, rest, pieces, hsplit, ?_, ?_, rfl⟩
  · rwa [start, hdoc, take_zero, getLast?_nil, Option.none_or, drop_zero]
  · rw [hdoc]
    rfl

/-- An empty body, behind a signature that ends where `past` ends. -/
theorem takes_body (ht : t.endOffset = bytes past) (htext : past ++ ['\n'] <+: text) :
    Takes comments (some t) (tokens past [.newline, keyword .close]) rest (body limit text name)
      (· = ⟨none, [.code "\n"]⟩) := by
  obtain ⟨after, rfl⟩ := htext
  have hslice : slice? (past ++ ['\n'] ++ after) t.endOffset
      ((keyword .close).token (past ++ [] ++ ['\n'])).offset = some ['\n'] :=
    slice?_of_eq rfl ht (by simp [token, keyword])
  have hcut : cut (past ++ ['\n'] ++ after) ((keyword .close).token (past ++ [] ++ ['\n'])).offset t.endOffset
      [Spelling.newline.token past] = some [.code ['\n']] :=
    congrArg (fun code? : Option Text => do pure [BodyPiece.code (← code?)]) hslice
  exact ⟨_, rfl, (body_eq rfl rfl hcut).trans rfl⟩

theorem takes_functionMember (hrest : rest ≠ []) (returns : List Word) (name : Word)
    (params : List ParamForm) (htext : past ++ write (MemberForm.method returns name params).spell <+: text) :
    Takes comments last (tokens past (MemberForm.method returns name params).spell) rest
      (functionMember limits text false) fun m => m.unplaced =
      (MemberForm.method returns name params).decl := by
  refine .advance rfl (by simp [hrest]) ?_
  rw [tokens_append]
  refine .andThen (takes_signature returns name params (cons_ne_nil _ _)) (.lastLine fun _ =>
    .endHeader rfl rfl ?_)
  have hne : spellSignature returns name params ≠ [] := by simp [spellSignature]
  have hclosing := getLast?_eq_some_getLast (mt tokens_eq_nil.1 hne)
    (l := tokens (past ++ [] ++ Keyword.function.word) (spellSignature returns name params))
  rw [keyword, hclosing, Option.some_or]
  refine .bind_last (A := (· = some ⟨none, [.code "\n"]⟩))
    (.map (.mono (takes_body (endOffset_getLast hclosing) ?_) fun _ h => by rw [h])) ?_
  · refine .trans ⟨Keyword.close.word, ?_⟩ htext
    simp [MemberForm.spell, Spelling.newline, keyword]
  · rintro _ rfl
    exact .pure rfl

/-! ## Blocks -/

/-- Tokens that are passed before a statement, with no comment among them. -/
def IsPlainLayout (layout : List Token) : Prop :=
  ∀ u ∈ layout, isLayout u.kind ∧ LooseComment.ofToken? u = none

theorem isPlainLayout_nil : IsPlainLayout [] := forall_mem_nil _

theorem isPlainLayout_newline : IsPlainLayout (tokens past [.newline]) := forall_mem_singleton.2 ⟨rfl, rfl⟩

theorem isPlainLayout_trail (m : MemberForm kind) : IsPlainLayout (tokens past m.trail) := by
  cases m with
  | property => exact forall_mem_cons.2 ⟨⟨rfl, rfl⟩, isPlainLayout_newline⟩
  | event | method => exact isPlainLayout_newline

theorem structural?_memberName (name : MemberName) : structural? (.identifier name.text) = none := by
  rw [structural?, name.notKeyword]
  rfl

/-- One member, with the layout before it. -/
theorem takes_member (hlayout : IsPlainLayout layout) (m : MemberForm kind)
    (htext : past ++ write m.spell <+: text) :
    Takes comments last (layout ++ tokens past m.spell) (tokens (past ++ write m.spell) m.trail ++ rest)
      (member? limits text kind false) fun o => ∃ a, o = some a ∧ a.unplaced = m.decl := by
  have hname (name : MemberName) : structural? ((word [] name.toWord).token past).kind = none :=
    structural?_memberName name
  cases m with
  | property name type value =>
    refine .skipLayout hlayout rfl (.peek rfl rfl ?_)
    rw [hname]
    exact .map (.mono (takes_property rfl name type value htext) fun a ha => ⟨a, rfl, ha⟩)
  | event name =>
    refine .skipLayout hlayout rfl (.peek rfl rfl ?_)
    rw [hname]
    exact .map (.mono (takes_event rfl name) fun a ha => ⟨a, rfl, ha⟩)
  | method returns name params =>
    refine .skipLayout hlayout rfl (.peek rfl rfl ?_)
    exact .map (.mono (takes_functionMember (cons_ne_nil _ _) returns name params htext) fun a ha =>
      ⟨a, rfl, ha⟩)

/-- Items that stand on lines of their own, and the `end` behind them. -/
theorem takes_rounds {α δ : Type} {step : Read (Option α)} {f g : ι → List Spelling} {a : α → δ} {d : ι → δ}
    (hclose : ∀ {past layout last}, IsPlainLayout layout →
      Takes comments last (layout ++ tokens past [keyword .close]) rest step (· = none))
    (hitem : ∀ {past layout last rest} i, IsPlainLayout layout →
      past ++ write (f i) <+: text → Takes comments last
      (layout ++ tokens past (f i)) (tokens (past ++ write (f i)) (g i) ++ rest) step fun o => ∃ x,
      o = some x ∧ a x = d i)
    (hne : ∀ i, f i ≠ []) (htrail : ∀ {past} i, IsPlainLayout (tokens past (g i)))
    (hlayout : IsPlainLayout layout) (l : List ι)
    (htext : past ++ write (l.flatMap (fun i => f i ++ g i) ++ [keyword .close]) <+: text) :
    Takes comments last (layout ++ tokens past (l.flatMap (fun i => f i ++ g i) ++ [keyword .close]))
    rest (many step)
      fun xs => xs.map a = l.map d := by
  induction l generalizing past last layout with
  | nil => exact .mono (.many_stop (hclose hlayout)) fun _ h => by rw [h]; rfl
  | cons i l ih =>
    rw [flatMap_cons, append_assoc, append_assoc] at htext ⊢
    rw [write_append, ← append_assoc, write_append, ← append_assoc] at htext
    rw [tokens_append, tokens_append, ← append_assoc layout]
    refine .many_item (A := (a · = d i)) ?_ (by simp [tokens_eq_nil, hne]) (ih (htrail i) htext) ?_
    · rw [append_assoc]
      exact hitem i hlayout (.trans ⟨_, rfl⟩ (.trans ⟨_, rfl⟩ htext))
    · rintro x xs hx hxs
      rw [map_cons, map_cons, hx, hxs]

/-- The members of a block and its end. -/
theorem takes_members (hlayout : IsPlainLayout layout) (hrest : rest ≠ []) (ms : List (MemberForm kind))
    (htext : past ++ write (BlockForm.spellMembers ms) <+: text) :
    Takes comments last (layout ++ tokens past (BlockForm.spellMembers ms))
    rest (many (member? limits text kind false))
      fun xs => xs.map (·.unplaced) = ms.map (·.decl) := by
  refine takes_rounds (fun hlayout => ?_) (fun m hlayout => takes_member hlayout m) (fun m =>
    ?_) isPlainLayout_trail hlayout ms htext
  · exact .skipLayout hlayout rfl (.peek rfl rfl (.discard rfl hrest (.pure rfl)))
  · cases m <;> exact cons_ne_nil _ _

theorem takes_block (hrest : rest ≠ []) (b : BlockForm) (htext : past ++ write b.spell <+: text) :
    Takes comments last (tokens past b.spell) rest (block limits text b.kind) fun x => x.unplaced =
    b.decl := by
  rw [BlockForm.spell, write_cons, write_append, ← append_assoc, ← append_assoc,
    ← append_assoc] at htext
  refine .advance rfl (by simp [hrest]) ?_
  rw [tokens_append]
  refine .bind (takes_attributes rfl b.attributes (.trans ⟨_, rfl⟩ htext)) fun xs hxs => ?_
  refine .endHeader rfl rfl ?_
  have hconcrete : (b.kind == .methods && Attribute.anyAsserted xs "Abstract") = false := by
    rw [Bool.and_eq_false_imp, ← Attribute.anyAsserted_map_unplaced, hxs, beq_iff_eq]
    exact b.concrete
  rw [hconcrete]
  refine .bind_last (takes_members isPlainLayout_newline hrest b.members ?_) fun ys hys => .pure ?_
  · rwa [write_cons, ← append_assoc, ← append_assoc] at htext
  · rw [Block.unplaced, hxs, hys, BlockForm.decl]

/-- One block, with the layout before it. -/
theorem takes_block? (hlayout : IsPlainLayout layout)
    (hrest : rest ≠ []) (b : BlockForm) (htext : past ++ write b.spell <+: text) :
    Takes comments last (layout ++ tokens past b.spell) rest (block? limits text name)
      fun o => ∃ a, o = some a ∧ a.unplaced = b.decl := by
  have hkeyword (kind : BlockKind) {ts : List Token}
      (h : Takes comments last ((keyword kind.keyword).token past :: ts) rest (block limits text kind)
        fun x => x.unplaced = b.decl) :
      Takes comments last (layout ++ (keyword kind.keyword).token past :: ts) rest (block? limits text name)
        fun o => ∃ a, o = some a ∧ a.unplaced = b.decl := by
    refine .skipLayout hlayout rfl (.peek rfl rfl ?_)
    cases kind <;> exact .map (.mono h fun a ha => ⟨a, rfl, ha⟩)
  exact hkeyword b.kind (takes_block hrest b htext)

/-- The blocks of a class and its end. -/
theorem takes_blocks (hlayout : IsPlainLayout layout)
    (hrest : rest ≠ []) (bs : List BlockForm) (htext : past ++ write (ClassForm.spellBlocks bs) <+: text) :
    Takes comments last (layout ++ tokens past (ClassForm.spellBlocks bs))
    rest (many (block? limits text name))
      fun xs => xs.map (·.unplaced) = bs.map (·.decl) := by
  refine takes_rounds (fun hlayout => ?_) (fun b hlayout =>
    takes_block? hlayout (cons_ne_nil _ _) b) (fun b => cons_ne_nil _ _)
    (fun _ => isPlainLayout_newline) hlayout bs htext
  exact .skipLayout hlayout rfl (.peek rfl rfl (.discard rfl hrest (.pure rfl)))

/-! ## Classes -/

/-- What stands behind the name of a superclass: another one, or the end of the header. -/
def EndsSuperclass (u : Token) : Prop := u.kind = .operator .ampersand ∨ u.kind = .newline

theorem takes_superclass? (hu : EndsSuperclass u) (n : DottedForm) :
    Takes comments last (tokens past (sign [' '] .ampersand '&' :: n.spell [' '])) (u :: rest) superclass?
      fun o => ∃ a, o = some a ∧ a = n.name := by
  have hcont : u.kind.isContinuation = false := by rcases hu with h | h <;> rw [h] <;> rfl
  have hdot : u.kind ≠ .operator .dot := by rcases hu with h | h <;> rw [h] <;> rintro ⟨⟩
  refine .peek rfl rfl (.discard rfl (cons_ne_nil _ _) (.bind_nil (.pure (A := (· = true)) rfl) ?_))
  rintro _ rfl
  refine .skipLayout isPlainLayout_nil rfl ?_
  exact .map (.mono (takes_dottedName hcont hdot [' '] n) fun a ha => ⟨a, rfl, ha⟩)

section

variable (hu : u.kind = .newline) (hnext : wordAfterLines (u :: rest) = false)
include hu hnext

/-- The header of a class ends at a line that is not followed by a plain word. -/
theorem takes_headerEnd : Takes comments last [] (u :: rest) superclass? (· = none) := by
  refine .peek rfl (by rw [hu]; rfl) ?_
  rw [hu]
  refine .get (.bind_nil (.pure (A := (· = false)) hnext) ?_)
  rintro _ rfl
  exact .pure rfl

/-- The superclasses behind the first one. -/
theorem takes_moreSuperclasses (ns : List DottedForm) :
    Takes comments last (tokens past (ns.flatMap fun n => sign [' '] .ampersand '&' :: n.spell [' ']))
    (u :: rest)
      (many superclass?) (· = ns.map (·.name)) := by
  induction ns generalizing past last with
  | nil => exact .many_stop (takes_headerEnd hu hnext)
  | cons n ns ih =>
    rw [flatMap_cons, tokens_append]
    refine .many_item (A := (· = n.name)) ?_ (cons_ne_nil _ _) ih ?_
    · cases ns with
      | nil => exact takes_superclass? (.inr hu) n
      | cons => exact takes_superclass? (.inl rfl) n
    · rintro _ _ rfl rfl
      rfl

theorem takes_superclasses (ns : List DottedForm) :
    Takes comments last (tokens past (ClassForm.spellSuperclasses ns)) (u :: rest) superclasses
      (· = ns.map (·.name)) := by
  cases ns with
  | nil => exact .not_sees rfl (by rw [hu]; rfl) (by rw [hu]; rintro ⟨⟩) (.pure rfl)
  | cons n ns =>
    refine .sees rfl rfl (.discard rfl (cons_ne_nil _ _) ?_)
    rw [tokens_append]
    refine .bind (A := (· = n.name)) ?_ ?_
    · cases ns with
      | nil => exact takes_dottedName (by rw [hu]; rfl) (by rw [hu]; rintro ⟨⟩) [' '] n
      | cons => exact takes_dottedName rfl (by rintro ⟨⟩) [' '] n
    · rintro _ rfl
      refine .bind_last (takes_moreSuperclasses hu hnext ns) ?_
      rintro _ rfl
      exact .pure rfl

end

/-- Only a newline stands behind the class. -/
theorem many_localFunction?_eq {eof : Token} (hu : u.kind = .newline) (heof : eof.kind = .eof) :
    many (localFunction? limits text) ⟨[u, eof], last, comments⟩ = .ok ([], ⟨[eof], last, comments⟩) := by
  have hskip : skipLayout false ⟨[u, eof], last, comments⟩ = .ok ((), ⟨[eof], last, comments⟩) := by
    show Except.ok _ = _
    simp [hu, heof, isLayout]
  have hpeek : peek ⟨[eof], last, comments⟩ = .ok (eof, ⟨[eof], last, comments⟩) :=
    peek_eq (sees_of_ahead rfl (by rw [heof]; rfl))
  have hstop : localFunction? limits text ⟨[u, eof], last, comments⟩ =
      .ok (none, ⟨[eof], last, comments⟩) := by
    rw [localFunction?, bind_eq hskip, bind_eq hpeek, heof]
    rfl
  simp only [many, collect, hstop]

theorem wordAfterLines_blocks (hu : u.kind = .newline) (bs : List BlockForm) :
    wordAfterLines (u :: (tokens past (ClassForm.spellBlocks bs) ++ rest)) = false := by
  have hline : isLineLayout u.kind := by rw [hu]; rfl
  rw [wordAfterLines, dropWhile_cons, if_pos hline]
  cases bs <;> rfl

/-- The tokens of a class up to the `end` that closes it. -/
noncomputable def spellPart (c : ClassForm) : List Spelling :=
  keyword .classdef :: word [' '] c.name ::
    (ClassForm.spellSuperclasses c.superclasses ++ .newline :: ClassForm.spellBlocks c.blocks)

theorem takes_classPart (c : ClassForm) (hrest : rest ≠ []) (htext : past ++ write (spellPart c) <+: text) :
    Takes [] last (tokens past (spellPart c)) rest (classPart limits text) fun d => d.unplaced = c.decl := by
  refine .skipLayout isPlainLayout_nil rfl (.peek rfl rfl (.discard rfl (cons_ne_nil _ _) ?_))
  refine .bind_nil (A := (· = [])) (.not_sees rfl rfl (by rintro ⟨⟩) (.pure rfl)) ?_
  rintro _ rfl
  refine .expectIdentifier rfl (by simp [hrest]) ?_
  rw [tokens_append]
  refine .andThen (takes_superclasses rfl (wordAfterLines_blocks rfl c.blocks) c.superclasses)
    (.lastLine fun n => .endHeader rfl rfl ?_)
  refine .bind_last (takes_blocks isPlainLayout_newline hrest c.blocks ?_) fun bs hbs => .get (.pure ?_)
  · refine .trans ⟨[], ?_⟩ htext
    simp [spellPart]
  · simp [ClassDecl.unplaced, ClassForm.decl, hbs, LooseComment.group]

end Read

/-! ## The class -/

theorem ClassDecl.unplaced_members (d : ClassDecl) : d.unplaced.members = d.members.map (·.unplaced) := by
  simp only [members, unplaced, flatMap_map, map_flatMap]
  rfl

theorem MemberForm.accessor?_decl {kind : BlockKind} (m : MemberForm kind) : m.decl.accessor? = none := by
  cases m <;> rfl

theorem ClassForm.accessor?_decl (c : ClassForm) (hm : m ∈ c.decl.members) : m.accessor? = none := by
  simp only [ClassDecl.members, decl, BlockForm.decl, mem_flatMap, mem_map] at hm
  obtain ⟨_, ⟨b, -, rfl⟩, hm⟩ := hm
  obtain ⟨m, -, rfl⟩ := mem_map.1 hm
  exact m.accessor?_decl

theorem ClassDecl.accessorFault?_eq_none {d : ClassDecl} (h : m.accessor? = none) :
    d.accessorFault? m = none := by
  obtain ⟨name, detail, header, position⟩ := m
  cases detail with
  | property | event => rfl
  | method d =>
    obtain ⟨params, returns, body, isAbstract, accessor⟩ := d
    cases h
    rfl

namespace ClassForm

theorem parse_eq (limits : Limits) (c : ClassForm) :
    ∃ d, ClassDecl.parse limits c.print = .ok d ∧ d.unplaced = c.decl := by
  obtain ⟨d, r, hd, hrun⟩ : ∃ d r, d.unplaced = c.decl ∧ Read.classFile limits c.print
      ⟨tokens [] c.spell ++ [Spelling.eof.token c.print], none, []⟩ = .ok (d, r) := by
    have hspell : c.spell = Read.spellPart c ++ [.newline] := by simp [spell, Read.spellPart]
    have htext : [] ++ write (Read.spellPart c) <+: c.print :=
      ⟨['\n'], by rw [← c.write_spell, hspell]; simp [Spelling.newline]⟩
    rw [Read.classFile_eq_classPart, hspell, tokens_append, append_assoc]
    obtain ⟨d, hd, hrun⟩ := Read.takes_classPart c (cons_ne_nil _ _) htext
    exact ⟨d, _, hd,
      (Read.bind_eq hrun).trans (Read.bind_eq (Read.map_eq (Read.many_localFunction?_eq rfl rfl)))⟩
  have hmembers : d.members.findSome? d.accessorFault? = none := by
    refine findSome?_eq_none_iff.2 fun m hm => ClassDecl.accessorFault?_eq_none ?_
    have hunplaced : m.unplaced ∈ c.decl.members := by
      rw [← hd, ClassDecl.unplaced_members]
      exact mem_map_of_mem hm
    exact show m.unplaced.accessor? = none from c.accessor?_decl hunplaced
  have hlast : (tokens [] c.spell ++ [Spelling.eof.token c.print]).getLast?.map (·.kind) = some .eof := by
    rw [getLast?_concat]
    rfl
  exact ⟨d, ClassDecl.parse_eq_ok_iff.2 ⟨_, c.scan_print,
    ClassDecl.ofTokens_eq_ok_iff.2 ⟨hlast, ⟨r, hrun⟩, hmembers⟩⟩, hd⟩

/-- Parsing undoes printing: the text of a form is parsed to the declaration that the form stands for. -/
theorem parse_print (limits : Limits) (path : Text) (c : ClassForm) :
    (Source.parse limits ⟨path, c.print⟩).map ClassDecl.unplaced = .ok c.decl := by
  obtain ⟨d, hparse, hd⟩ := c.parse_eq limits
  rw [Source.parse, hparse, ← hd]
  rfl

/-- Keywords are plain words where no statement starts, and a default value may hold quotes and separators. -/
example :
    (ClassForm.mk ⟨"end", by decide⟩ [⟨⟨"methods", by decide⟩, [⟨"events", by decide⟩]⟩]
      [⟨.properties, [.negated ⟨"function", by decide⟩],
        [.property ⟨⟨"x", by decide⟩, by decide⟩ (some ⟨⟨"end", by decide⟩, []⟩)
          (some ⟨"[a', ';']'", by decide +kernel⟩)], (by rintro ⟨⟩)⟩,
       ⟨.methods, [], [.method [⟨"end", by decide⟩] ⟨"classdef", by decide⟩ [.ignored]], by decide⟩]).print =
    ("classdef end < methods.events\nproperties (~function)\nx@end = [a', ';']';\nend\nmethods\n" ++
      "function [end] = classdef(~)\nend\nend\nend\n").toList := by
  decide +kernel

end ClassForm

end ClassdefDoc
