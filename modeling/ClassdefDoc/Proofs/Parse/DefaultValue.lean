import ClassdefDoc.Proofs.Parse.BodyEnd
import ClassdefDoc.Proofs.Parse.Onward
import ClassdefDoc.Proofs.Scan.Lossless

/-!
# The text of a default value

A default value is the text from the first token behind the `=` that is no continuation to the last one before
the statement ends (`ValueTokens.Writes`). Its brackets are nested, and what would end the statement stands
inside them. The `=` is the first one outside brackets behind the name of the property (`Member.Assigns`).
-/

namespace ClassdefDoc

open List

variable {first t : Token} {tokens : List Token} {stack : List Bracket}
  {k : TokenKind} {value text : Text} {limits : Limits} {m : Member}

/-- The name of a property, the tokens of its type, and the `=` before its default value. -/
structure Member.Assigns (m : Member) (name : Token) (type : List Token) (assign : Token) : Prop where
  kind : name.kind = .identifier m.name
  start : name.span.start = m.position
  nested : Bracket.Nested (type.filterMap (·.kind.nesting?))
  inside : ∀ l t r, type = l ++ t :: r → t.kind = .operator .assign → 0 < depth l
  assign : assign.kind = .operator .assign

/-- The tokens of a value between continuations, and the token at which its statement ends. -/
structure ValueTokens where
  before : List Token
  value : List Token
  behind : List Token
  stop : Token

namespace ValueTokens

def all (v : ValueTokens) : List Token := v.before ++ v.value ++ v.behind ++ [v.stop]

/-- The tokens are those of the value that is written `value` in `text`. -/
structure Writes (v : ValueTokens) (text value : Text) : Prop where
  continuations : ∀ t ∈ v.before ++ v.behind, t.kind.isContinuation
  written : ∃ first last lead rest, v.value.head? = some first ∧ v.value.getLast? = some last ∧
    first.kind.isContinuation = false ∧ last.kind.isContinuation = false ∧ text = lead ++ value ++ rest ∧
      first.offset = Text.bytes lead ∧ last.endOffset = Text.bytes (lead ++ value)
  nested : Bracket.Nested (v.value.filterMap (·.kind.nesting?))
  inside : ∀ l t r, v.value = l ++ t :: r → Read.endsValue t.kind → 0 < depth l
  stop : Read.endsValue v.stop.kind ∨ v.stop.kind = .eof

end ValueTokens

/-! ## Continuations around tokens -/

/-- The tokens from the first to the last that is no continuation. -/
theorem exists_trimmed {run kept : List Token} (h : run.filter (!·.kind.isContinuation) = first :: kept) :
    ∃ gap tokens gap', run = gap ++ tokens ++ gap' ∧ (∀ t ∈ gap ++ gap', t.kind.isContinuation) ∧
      tokens.head? = some first ∧
      tokens.getLast? = (first :: kept).getLast? := by
  obtain ⟨gap, rest, rfl, hgap, -, hrest⟩ := filter_eq_cons_iff.1 h
  -- the continuations at the end are taken off one by one
  have hend : ∃ tokens gap', rest = tokens ++ gap' ∧ (∀ t ∈ gap', t.kind.isContinuation) ∧
      (first :: tokens).getLast? = (first :: kept).getLast? := by
    clear h
    induction rest using List.reverseRecOn generalizing kept with
    | nil => exact ⟨[], [], rfl, by simp, by rw [← hrest]; rfl⟩
    | append_singleton rest t ih =>
      rw [filter_append] at hrest
      cases ht : t.kind.isContinuation with
      | true =>
        obtain ⟨tokens, gap', rfl, hgap', hlast⟩ := ih (by simpa [ht] using hrest)
        exact ⟨tokens,
          gap' ++ [t], by rw [append_assoc], by simpa [or_imp, forall_and, ht] using hgap', hlast⟩
      | false =>
        refine ⟨rest ++ [t], [], by simp, by simp, ?_⟩
        rw [← hrest, filter_cons_of_pos (by simp [ht]), filter_nil, ← cons_append, ← cons_append,
          getLast?_concat, getLast?_concat]
  obtain ⟨tokens, gap', rfl, hgap', hlast⟩ := hend
  refine ⟨gap, first :: tokens, gap', by simp, fun t ht => ?_, rfl, hlast⟩
  rcases mem_append.1 ht with ht | ht
  · simpa using hgap t ht
  · exact hgap' t ht

/-- Continuations around tokens neither open nor close brackets. -/
theorem Walk.trim {p : TokenKind → Bool} {gap gap' : List Token} (h : Walk p [] (gap ++ tokens ++ gap') [])
    (hgaps : ∀ t ∈ gap ++ gap', t.kind.isContinuation) : Walk p [] tokens [] := by
  have still {stack stack' : List Bracket} {ts : List Token}
      (h : Walk p stack ts stack') (hts : ∀ t ∈ ts, t.kind.isContinuation) :
      stack' = stack := by
    induction h with
    | nil => rfl
    | @cons _ _ _ t _ _ hafter _ ih =>
      obtain ⟨ht, hts⟩ := forall_mem_cons.1 hts
      rw [ih hts]
      exact Option.some.inj (hafter.symm.trans (Bracket.after_of_isContinuation ht))
  obtain ⟨stack', h, hgap'⟩ := h.of_append
  obtain ⟨stack, hgap, htokens⟩ := h.of_append
  obtain rfl := still hgap fun t ht => hgaps t (mem_append_left _ ht)
  obtain rfl := still hgap' fun t ht => hgaps t (mem_append_right _ ht)
  exact htokens

namespace Read

variable {text : Text} {m : Member} {r s : Reader} {ts : List Token}

/-! ## The type of a property -/

def isAssign (k : TokenKind) : Bool := k == .operator .assign

/-- From the tokens `ts` the reader has come to a place outside brackets,
and each `=` on the way stands inside brackets. -/
structure Typed (text : Text) (ts : List Token) (r : Reader) : Prop where
  place : At text [] r
  exists_run : ∃ run, ts = run ++ r.ahead ∧ Walk isAssign [] run []

theorem isContinuation_of_isAssign (k : TokenKind) (h : isAssign k) : k.isContinuation = false := by
  rw [beq_iff_eq.1 h]
  rfl

/-- A token is taken with the continuations before it. -/
theorem exists_gap_of_advance {u : Token} (hr : At text stack r) (ht : Sees t r) (hkind : t.kind ≠ .eof)
    (h : advance r = .ok (u, s)) : ∃ gap, r.ahead = gap ++ t :: s.ahead ∧
    (∀ v ∈ gap, v.kind.isContinuation) := by
  obtain ⟨rest, hrest, hahead⟩ := hr.sees ht
  obtain ⟨stack', n, -, hnext, -⟩ := hahead.next hkind
  obtain ⟨v, vs, rfl⟩ := exists_cons_of_ne_nil (Ahead.ne_nil ⟨n, hnext⟩)
  rw [advance_eq hrest] at h
  cases h
  refine ⟨r.ahead.takeWhile (·.kind.isContinuation), ?_, fun v hv => by simpa using mem_takeWhile_imp hv⟩
  rw [← hrest, continuations_append]

theorem expectIdentifier_gap {what : Text} (hr : At text stack r) : Triple (· = r) (expectIdentifier what)
    fun x s => At text stack s ∧ x.1.kind = .identifier x.2 ∧ ∃ gap, r.ahead = gap ++ x.1 :: s.ahead := by
  refine (expectIdentifier_spec.weaken (fun q hq => hq ▸ hr) fun _ _ hs =>
    hs.2.at).both (peek_spec.bind fun t => ?_)
  split
  · rename_i w hkind
    refine Triple.bind (Q := fun _ s => ∃ gap, r.ahead = gap ++ t :: s.ahead) (.discard ?_) fun _ =>
      .pure fun _ hr => ⟨hkind, hr⟩
    rintro _ u s ⟨rfl, hsees⟩ htake
    obtain ⟨gap, hgap, -⟩ := exists_gap_of_advance hr hsees (by simp [hkind]) htake
    exact ⟨gap, hgap⟩
  · exact .unexpected

theorem propertyType_typed : Triple (Typed text ts) propertyType fun _ r => Typed text ts r := by
  refine (propertyType_keeps (V := fun _ => True) (fun _ _ _ _ => trivial) (fun k hk => ?_) fun b =>
    ?_).mono fun _ _ hr => hr.2
  · rintro r u s ⟨⟨hplace, run, rfl, hwalk⟩, t, ht, rfl⟩ hrun
    have hpart : t.kind ≠ .eof ∧ Bracket.after [] t.kind = some [] ∧ isAssign t.kind = false := by
      cases hkind : t.kind with
      | identifier => exact ⟨by simp, rfl, rfl⟩
      | operator o => cases o <;> simp_all [isTypePart, isAssign, Bracket.after]
      | _ => simp [isTypePart, hkind] at hk
    obtain ⟨hkind, hafter, hassign⟩ := hpart
    obtain ⟨gap, hahead, hgap⟩ := exists_gap_of_advance hplace ht hkind hrun
    refine ⟨(advance_kind_spec hkind hafter ⟨hplace, t, ht, rfl⟩ hrun).at,
      run ++ (gap ++ [t]), by simp [hahead], ?_⟩
    exact hwalk.append ((Walk.continuations isContinuation_of_isAssign [] hgap).append
      (.single (by simp [hassign]) hafter))
  · rintro r u s ⟨⟨hplace, run, rfl, hwalk⟩, hsees⟩ hrun
    obtain ⟨group, hahead, hgroup, hs⟩ :=
      walk_skipGroup isAssign isContinuation_of_isAssign rfl hplace hsees hrun
    exact ⟨hs, run ++ group, by rw [append_assoc, hahead], hwalk.append hgroup⟩

/-! ## The value -/

theorem endsStatement_of_endsValue (h : endsValue k) : endsStatement k := by
  unfold endsValue at h
  split at h <;> first | rfl | cases h

theorem isContinuation_of_endsStatement (h : endsStatement k) : k.isContinuation = false := by
  cases k <;> first | rfl | cases h

/-- The token that is seen ahead is the first one that is no continuation. -/
theorem Sees.find? (h : Sees t r) : r.ahead.find? (!·.kind.isContinuation) = some t := by
  rw [find?_eq_head?_dropWhile_not]
  simpa [Sees, significant] using h

theorem takeExpression_run (stops : TokenKind → Bool) (r : Reader) :
    takeExpression stops r = .ok ((expression stops 0 r.ahead).1,
    { r with ahead := (expression stops 0 r.ahead).2, last :=
      (expression stops 0 r.ahead).1.getLast?.or r.last }) := rfl

theorem slice?_of_textOf {last : Token} {written : Text} (h : textOf text first last r = .ok (written, s)) :
    text.slice? first.offset last.endOffset = some written ∧ s = r := by
  rw [textOf] at h
  cases hslice : text.slice? first.offset last.endOffset with
  | none =>
    rw [hslice] at h
    cases h
  | some t =>
    rw [hslice] at h
    cases h
    exact ⟨rfl, rfl⟩

theorem writes_of_defaultValue (hr : At text [] r) (hrun : defaultValue text r = .ok (value, s)) :
    ∃ (v : ValueTokens) (rest : List Token), r.ahead = v.all ++ rest ∧
      s.last = v.value.getLast? ∧ v.Writes text value := by
  obtain ⟨first, q, hpeek, h⟩ := bind_eq_ok_iff.1 hrun
  obtain ⟨rfl, hsees⟩ := peek_spec (P := (· = r)) rfl hpeek
  split_ifs at h with hfirst
  · exact (Triple.unexpected_bind (P := fun _ => True) (Q := fun _ _ => False) trivial h).elim
  obtain ⟨taken, q', htake, h⟩ := bind_eq_ok_iff.1 h
  obtain ⟨run, stop, rest, hexpression, hahead, hstop, hwalk, -⟩ := walk_expression (p := endsValue) []
    (fun k hk => ⟨hk, isContinuation_of_endsStatement (endsStatement_of_endsValue hk)⟩) (by simp) hr
  have hends : endsStatement stop.kind := by
    rcases hstop with hstop | hstop
    · exact endsStatement_of_endsValue hstop
    · rw [hstop]
      rfl
  -- the value is not empty, since its first token ends no statement
  have hkept : ∃ kept, run.filter (!·.kind.isContinuation) = first :: kept := by
    have hfind := hsees.find?
    rw [hahead, find?_append, find?_cons_of_pos (by simp [isContinuation_of_endsStatement hends])] at hfind
    cases hrun : run.find? (!·.kind.isContinuation) with
    | none =>
      rw [hrun] at hfind
      cases hfind
      exact absurd hends hfirst
    | some t =>
      rw [hrun] at hfind
      cases hfind
      rw [← head?_filter] at hrun
      exact head?_eq_some_iff.1 hrun
  obtain ⟨kept, hkept⟩ := hkept
  obtain ⟨gap, tokens, gap', hsplit, hgaps, hhead, hlast⟩ := exists_trimmed hkept
  have htokens : Walk endsValue [] tokens [] := (hsplit ▸ hwalk).trim hgaps
  obtain ⟨last, hgetLast⟩ : ∃ last, (first :: kept).getLast? = some last := ⟨_, getLast?_cons⟩
  have hlastKind : last.kind.isContinuation = false := by
    have := mem_of_getLast? hgetLast
    rw [← hkept] at this
    simpa using (mem_filter.1 this).2
  rw [takeExpression_run, show expression endsValue 0 q.ahead = _ from hexpression, hkept] at htake
  cases htake
  obtain ⟨hslice, rfl⟩ := slice?_of_textOf h
  rw [hgetLast, Option.getD_some] at hslice
  obtain ⟨before, after, htext, hbefore, hafter⟩ := Text.slice?_eq_some_iff.1 hslice
  refine ⟨⟨gap, tokens, gap', stop⟩,
    rest, by simp [hahead, hsplit, ValueTokens.all], by rw [hlast, hgetLast]; rfl,
    hgaps, ⟨first, last, before, after, hhead, hlast.trans hgetLast,
    hsees.isContinuation, hlastKind, htext, hbefore, hafter⟩, htokens.nested, ?_, hstop⟩
  rintro l t r rfl ht
  exact htokens.depth_pos ht

/-! ## The property -/

/-- The reader has come from `r` over the tokens of a property with a default value, if there is one. -/
def Assigned (text : Text) (r : Reader) (m : Member) (q : Reader) : Prop :=
  ∀ type value, m.detail = .property type (some value) → ∃ before name types assign v after,
    r.ahead = before ++ name :: types ++ assign :: ValueTokens.all v ++ after ∧ m.Assigns name types assign ∧
      v.Writes text value ∧ q.last = v.value.getLast?

/-- What is read behind the `=`. -/
theorem assignment_writes : Triple (fun q => q = r ∧ At text [] r ∧ SeesKind (.operator .assign) r)
    (do discard advance; some <$> defaultValue text : Read (Option Text)) fun o s =>
    ∃ value before assign v after,
      o = some value ∧ r.ahead = before ++ assign :: (ValueTokens.all v ++ after) ∧
      assign.kind = .operator .assign ∧
        (∀ t ∈ before, t.kind.isContinuation) ∧ v.Writes text value ∧ s.last = v.value.getLast? := by
  refine Triple.bind (Q := fun _ q => At text [] q ∧ ∃ before assign, r.ahead = before ++ assign :: q.ahead ∧
    assign.kind = .operator .assign ∧ ∀ t ∈ before, t.kind.isContinuation) (.discard ?_) fun _ => .map ?_
  · rintro _ u q ⟨rfl, hr, t, hsees, hkind⟩ htake
    obtain ⟨before, hahead, hbefore⟩ := exists_gap_of_advance hr hsees (by simp [hkind]) htake
    exact ⟨(advance_kind_spec (by simp) rfl ⟨hr, t, hsees, hkind⟩ htake).at,
      before, t, hahead, hkind, hbefore⟩
  · rintro q value s ⟨hq, before, assign, hahead, hkind, hbefore⟩ hvalue
    obtain ⟨v, after, hq', hlast, hwrites⟩ := writes_of_defaultValue hq hvalue
    exact ⟨value, before, assign, v, after, rfl, by rw [hahead, hq'], hkind, hbefore, hwrites, hlast⟩

theorem property_assigned (hr : At text [] r) :
    Triple (· = r) (property text) fun m q => Assigned text r m q ∧
    m.header.last = (q.last.map Token.lastLine).getD 1 := by
  refine (expectIdentifier_gap hr).bind fun x => ?_
  obtain ⟨name, w⟩ := x
  refine Triple.bind (Q := fun _ q => At text [] q ∧ name.kind = .identifier w ∧ ∃ before types,
    r.ahead = before ++ name :: types ++ q.ahead ∧
    Walk isAssign [] types []) ?_ fun type => ?_
  · rintro q _ q' ⟨hq, hkind, before, hahead⟩ htype
    have hstart : Typed text q.ahead q := ⟨hq, [], rfl, .nil⟩
    obtain ⟨hq', types, htypes, hwalk⟩ := propertyType_typed hstart htype
    exact ⟨hq', hkind, before, types, by rw [hahead, htypes]; simp, hwalk⟩
  refine sees_spec.bind fun b => ?_
  extract_lets ended
  have hended (o : Option Text) : Triple (fun q => ∀ header,
      Assigned text r ⟨w, .property type o, header, name.span.start⟩ q)
      (ended o) fun m q => Assigned text r m q ∧ m.header.last = (q.last.map Token.lastLine).getD 1 := by
    intro q m s hq hrun
    rw [show ended o = lastLine >>= _ from rfl, bind_eq (lastLine_run q)] at hrun
    obtain ⟨_, q', hend, hpure⟩ := bind_eq_ok_iff.1 hrun
    obtain rfl : q' = q := endStatement_spec (P := (· = q)) rfl hend
    cases hpure
    exact ⟨hq _, rfl⟩
  refine .ite (fun hb => ?_) fun _ => ?_
  · rw [← bind_assoc]
    rintro q m s ⟨⟨hq, hkind, before, types, hahead, hwalk⟩, hassign⟩ hrun
    refine (Triple.bind (assignment_writes (r := q)) fun o => (hended o).pre ?_) ⟨rfl, hq, hassign hb⟩ hrun
    rintro q' ⟨value, gap, assign, v, after, rfl, hq', hassign', hgap, hwrites, hlast⟩ header _ _ ⟨⟩
    -- the continuations before the `=` are counted to the type
    have htypes : Walk isAssign [] (types ++ gap) [] :=
      hwalk.append (.continuations isContinuation_of_isAssign [] hgap)
    refine ⟨before, name, types ++ gap, assign, v,
      after, by rw [hahead, hq']; simp, ⟨hkind, rfl, htypes.nested, ?_, hassign'⟩, hwrites, hlast⟩
    intro l t r hsplit ht
    exact (hsplit ▸ htypes).depth_pos (beq_iff_eq.2 ht)
  · exact (Triple.pure (Q := fun o _ => o = none) fun _ _ => rfl).bind fun o =>
      (hended o).pre (by rintro _ rfl _ _ _ ⟨⟩)

/-- A member that is a property is read as one. -/
theorem member?_property {kind : BlockKind} {isAbstract : Bool}
    (h : member? limits text kind isAbstract r = .ok (some m, s)) (hkind : m.kind = .properties) :
    ∃ q, skipLayout true r = .ok ((), q) ∧ property text q = .ok (m, s) := by
  cases member?_meeting rfl h with
  | @item t q _ x _ hq hx hm =>
    have other (hx : Triple (fun _ => True) x fun m _ => m.kind ≠ .properties) :
        ∃ q, skipLayout true r = .ok ((), q) ∧ property text q = .ok (m, s) :=
      absurd hkind (hx trivial hm)
    cases hx with
    | property => exact ⟨q, hq.skip, hm⟩
    | function =>
      refine other (.skip fun _ => .skip fun _ => .skip fun _ => .skip fun _ => ?_)
      extract_lets ended
      have hended (o : Option Body) : Triple (fun _ => True) (ended o) fun m _ => m.kind ≠ .properties :=
        .pure (by rintro _ - ⟨⟩)
      exact .ite (fun _ => .skip hended) fun _ => .skip hended
    | event => exact other (.skip fun _ => .skip fun _ => .skip fun _ => .pure (by rintro _ - ⟨⟩))
    | prototype =>
      exact other (.skip fun _ => .skip fun _ => .skip fun _ => .skip fun _ => .pure (by rintro _ - ⟨⟩))

end Read

/-- The line on which the last token of a value ends, told from the first one and the text of the value. -/
theorem ValueTokens.Writes.lastLine {v : ValueTokens} (h : v.Writes text value)
    (hscan : scan text = .ok tokens) (hv : ∀ t ∈ v.value, t ∈ tokens) :
    v.value.getLast?.map Token.lastLine = v.value.head?.map fun first => first.line + value.count '\n' := by
  obtain ⟨first, last, lead, rest, hhead, hlast, -, -, htext, hfirst, hend⟩ := h.written
  have hlaid := laid_of_scan hscan
  obtain ⟨a, a', ha, hstart, -⟩ := hlaid.exists_cut rfl first (hv _ (mem_of_head? hhead))
  obtain ⟨b, b', hb, hstop, -⟩ := hlaid.exists_cut rfl last (hv _ (mem_of_getLast? hlast))
  obtain ⟨rfl, -⟩ : a = lead ∧ _ := by
    rw [htext, append_assoc, append_assoc] at ha
    exact Text.append_inj_of_bytes ha.symm (hstart.offset.symm.trans hfirst)
  obtain ⟨hupTo, -⟩ : b ++ last.lexeme = a ++ value ∧ _ :=
    Text.append_inj_of_bytes (hb.symm.trans htext) (hstop.endOffset.symm.trans hend)
  have hfirstLine : first.line = (Position.start.advance a).line := by rw [Token.line, hstart.span]
  rw [hhead, hlast, Option.map_some, Option.map_some, hfirstLine,
    ← Position.line_advance, ← Position.advance_append, ← hupTo,
    Token.lastLine, hstop.span, Position.advance_append, Nat.max_eq_left (Position.line_le_advance _ _)]

/-- The tokens `v` behind the `=` of a property write its default value. -/
structure Member.HasValue (text : Text) (m : Member) (v : ValueTokens) (value : Text) : Prop where
  stands : ∃ before name types assign after,
    scan text = .ok (before ++ name :: types ++ assign :: v.all ++ after) ∧
    m.Assigns name types assign
  writes : v.Writes text value

/-- The value stands in the tokens of the text, with something behind it. -/
theorem Member.HasValue.exists_scan
    {v : ValueTokens} (h : m.HasValue text v value) :
    ∃ before after, scan text = .ok (before ++ v.value ++ after) ∧ after ≠ [] := by
  obtain ⟨before, name, types, assign, after, hscan, -⟩ := h.stands
  exact ⟨before ++ name :: types ++ assign :: v.before, v.behind ++ v.stop :: after,
    by rw [hscan, ValueTokens.all]; simp, by simp⟩

/-- The tokens of a property with a default value; its header ends with the last one of the value. -/
theorem ClassDecl.exists_valueTokens {c : ClassDecl} {type : Option DottedName}
    (h : ClassDecl.parse limits text = .ok c) (hm : m ∈ c.members)
    (hvalue : m.detail = .property type (some value)) :
    ∃ v, m.HasValue text v value ∧ m.header.last = (v.value.getLast?.map Token.lastLine).getD 1 := by
  obtain ⟨tokens, hscan, kind, isAbstract, r, s, hat, hmember⟩ := placed_of_parse h hm
  obtain ⟨q, hskip, hproperty⟩ := Read.member?_property hmember (by rw [Member.kind, hvalue]; rfl)
  have hq := Read.skipLayout_spec hat hskip
  obtain ⟨hassigned, hheader⟩ := Read.property_assigned hq rfl hproperty
  obtain ⟨before, name, types, assign, v, after, hahead, hassigns, hwrites, hlast⟩ :=
    hassigned type value hvalue
  obtain ⟨past, hpast⟩ := hq.scan
  refine ⟨v, ⟨⟨past ++ before, name, types, assign, after, ?_, hassigns⟩, hwrites⟩, by rw [hheader, hlast]⟩
  rw [hpast, hahead]
  simp

/-- The default value of a property is the text from the first token behind its `=` that is no continuation to
the last one before the statement ends, and the header of the property ends on the last line of that text. -/
theorem ClassDecl.default_written {limits : Limits} {text : Text} {c : ClassDecl} {m : Member}
    {type : Option DottedName} {value : Text} (h : ClassDecl.parse limits text = .ok c) (hm : m ∈ c.members)
    (hvalue : m.detail = .property type (some value)) : ∃ v, m.HasValue text v value ∧
      v.value.head?.map (fun first => first.line + value.count '\n') = some m.header.last := by
  obtain ⟨v, hhas, hheader⟩ := exists_valueTokens h hm hvalue
  obtain ⟨before, after, hscan, -⟩ := hhas.exists_scan
  refine ⟨v, hhas, ?_⟩
  have hline := hhas.writes.lastLine hscan fun t ht => by simp [ht]
  obtain ⟨first, last, -, -, hfirst, -⟩ := hhas.writes.written
  rw [hheader, hline, hfirst]
  rfl

/-- A value that is spread over lines, with continuations around it and a
comment, separators and a literal inside its brackets. -/
def spreadValue : Text := "\x7b1, ... v\n';)' % w\n[2; 3]\x7d"

/-- A property with that value behind a size, a type and a check. -/
def spreadDefault : Text :=
  Text.join ["classdef A\nproperties\nx (1,:) double \x7bf(y = 1)\x7d ... t\n= ... u\n",
    spreadValue, " ... z\n% end\nend\nend\n"]

theorem ClassDecl.default_written_spread :
    ∃ c m type v, ClassDecl.parse {} spreadDefault = .ok c ∧ m ∈ c.members ∧
    m.detail = .property type (some spreadValue) ∧ m.HasValue spreadDefault v spreadValue ∧
      v.value.head?.map (fun first => first.line + spreadValue.count '\n') = some m.header.last := by
  obtain ⟨c, hc, m, hm, hdetail⟩ : ∃ c, parse {} spreadDefault = .ok c ∧ ∃ m ∈ c.members,
      m.detail = .property (some ⟨["double".toList]⟩) (some spreadValue) := by decide +kernel
  obtain ⟨v, hhas, hlast⟩ := default_written hc hm hdetail
  exact ⟨c, m, _, v, hc, hm, hdetail, hhas, hlast⟩

end ClassdefDoc
