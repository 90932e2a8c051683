import ClassdefDoc.Proofs.Parse.Fork

/-!
# Places in an attribute list

`Slot.Leads` is the grammar of an attribute list from its opening parenthesis up to a place. Where two
texts have the same tokens up to there, their readings come to the place with the same attributes, and
go on with the same part of an attribute (`Slot.Rest`), which skips the layout that follows.
-/

namespace ClassdefDoc

open Read List

/-- A place in an attribute list: before an attribute or the end of the list,
behind a name, which may be negated, or behind a sign of assignment. -/
inductive Slot where
  | start
  | name (negated : Bool)
  | assign

/-- The tokens `v` are the value before the separator `t`. -/
structure IsValue (v : List Token) (t : Token) : Prop where
  head : ∃ u us, v = u :: us ∧ isLineLayout u.kind = false
  expression : (Read.expression endsAttribute 0 (v ++ [t])).2 = [t]

/-- The tokens that lead from one place to the next. -/
inductive Slot.Step : Slot → List Token → Slot → Prop
  | line {slot : Slot} {t : Token} : isLineLayout t.kind → Step slot [t] slot
  | name {t : Token} {w : Text} : t.kind = .identifier w → Step .start [t] (.name false)
  | negated {u t : Token} {c : List Token} {w : Text} : u.kind = .operator .tilde →
    (∀ v ∈ c, v.kind.isContinuation) → t.kind = .identifier w → Step .start (u :: (c ++ [t])) (.name true)
  | assign {t : Token} : t.kind = .operator .assign → Step (.name false) [t] .assign
  | comma {negated : Bool} {t : Token} : t.kind = .delimiter .comma → Step (.name negated) [t] .start
  | value {v : List Token} {t : Token} : IsValue v t → t.kind = .delimiter .comma →
    Step .assign (v ++ [t]) .start

/-- The tokens of an attribute list up to a place. -/
inductive Slot.Leads : Slot → List Token → Prop
  | nil : Leads .start []
  | step {slot slot' : Slot} {ts us : List Token} : Leads slot ts →
    slot.Step us slot' → Leads slot' (ts ++ us)

/-- The tokens from the word of a header up to a place in its attribute list. -/
inductive Slot.Within (slot : Slot) : List Token → Prop
  | mk {c ts : List Token} {t : Token} : (∀ u ∈ c, u.kind.isContinuation) →
    t.kind = .delimiter (.opening .paren) → slot.Leads ts → Within slot (c ++ t :: ts)

/-- What is left to read of an attribute at a place. -/
inductive Slot.Rest : Slot → (Text → Read (Option Attribute)) → Prop
  | start : Rest .start attributeItem?
  | name (negated : Bool) (w : Text) (p : Position) : Rest (.name negated) fun text =>
    itemRest text negated w p
  | assign (w : Text) (p : Position) : Rest .assign fun text => itemValue text w p

/-- The texts have the same parts between the tokens `ts`. -/
def SameParts (text text' : Text) (ts : List Token) : Prop :=
  ∀ t ∈ ts, ∀ u ∈ ts, text'.slice? t.offset u.endOffset = text.slice? t.offset u.endOffset

/-! ## Readings with known tokens ahead -/

namespace Read

variable {α : Type} {c l ts v x : List Token} {t u : Token} {k : TokenKind} {w text : Text} {p : Position}
  {last : Option Token} {comments : List LooseComment} {o : Option Attribute} {s : Reader} {negated : Bool}

theorem skipLines_append {f : Unit → Read α} (hl : ∀ t ∈ l, isLineLayout t.kind) :
    (skipLines >>= f) ⟨l ++ ts, last, comments⟩ = (skipLines >>= f) ⟨ts, last, comments⟩ := by
  have hskip : skipLines ⟨l ++ ts, last, comments⟩ = skipLines ⟨ts, last, comments⟩ := by
    show Except.ok ((), (⟨(l ++ ts).dropWhile (isLineLayout ·.kind), last, comments⟩ : Reader)) = _
    rw [dropWhile_append_of_pos hl]
    rfl
  show (skipLines _ >>= fun x => f x.1 x.2) = _
  rw [hskip]
  rfl

theorem skipLines_cons {f : Unit → Read α} (ht : isLineLayout t.kind = false) :
    (skipLines >>= f) ⟨t :: ts, last, comments⟩ = f () ⟨t :: ts, last, comments⟩ := by
  refine bind_eq ?_
  show Except.ok ((), (⟨(t :: ts).dropWhile (isLineLayout ·.kind), last, comments⟩ : Reader)) = _
  rw [dropWhile_cons_of_neg (by simp [ht])]

theorem sees_append {f : Bool → Read α} (b : Bool) (hc : ∀ u ∈ c, u.kind.isContinuation)
    (ht : t.kind.isContinuation = false) (hb : (t.kind == k) = b) :
    (sees k >>= f) ⟨c ++ t :: ts, last, comments⟩ = f b ⟨c ++ t :: ts, last, comments⟩ := by
  refine bind_eq ?_
  rw [sees, bind_eq (peek_eq (by rw [significant_append hc ht]; rfl)), hb]
  rfl

theorem sees_cons {f : Bool → Read α} (b : Bool) (ht : t.kind.isContinuation = false)
    (hb : (t.kind == k) = b) : (sees k >>= f) ⟨t :: ts, last, comments⟩ = f b ⟨t :: ts, last, comments⟩ :=
  sees_append b (forall_mem_nil _) ht hb

theorem take_append {f : Unit → Read α} (hc : ∀ u ∈ c, u.kind.isContinuation)
    (ht : t.kind.isContinuation = false) (hts : ts ≠ []) :
    (discard advance >>= f) ⟨c ++ t :: ts, last, comments⟩ = f () ⟨ts, some t, comments⟩ := by
  obtain ⟨u, us, rfl⟩ := exists_cons_of_ne_nil hts
  exact bind_eq (map_eq (advance_eq (significant_append hc ht)))

theorem take_cons {f : Unit → Read α} (ht : t.kind.isContinuation = false) (hts : ts ≠ []) :
    (discard advance >>= f) ⟨t :: ts, last, comments⟩ = f () ⟨ts, some t, comments⟩ :=
  take_append (forall_mem_nil _) ht hts

theorem name_append {f : Token × Text → Read α} {what : Text} (hc : ∀ u ∈ c, u.kind.isContinuation)
    (ht : t.kind = .identifier w) (hts : ts ≠ []) :
    (expectIdentifier what >>= f) ⟨c ++ t :: ts, last, comments⟩ = f (t, w) ⟨ts, some t, comments⟩ := by
  obtain ⟨u, us, rfl⟩ := exists_cons_of_ne_nil hts
  exact bind_eq (expectIdentifier_eq (significant_append hc (by rw [ht]; rfl)) ht)

/-! ## Parts of an attribute -/

theorem attributeItem?_name (ht : t.kind = .identifier w) (hx : x ≠ []) :
    attributeItem? text ⟨t :: x, last, comments⟩ =
    itemRest text false w t.span.start ⟨x, some t, comments⟩ := by
  have hcont : t.kind.isContinuation = false := by rw [ht]; rfl
  rw [attributeItem?_eq, skipLines_cons (by rw [ht]; rfl), sees_cons false hcont (by rw [ht]; rfl),
    if_neg (by decide), sees_cons false hcont (by rw [ht]; rfl), if_neg (by decide)]
  exact name_append (forall_mem_nil _) ht hx

theorem attributeItem?_negated (hu : u.kind = .operator .tilde) (hc : ∀ v ∈ c, v.kind.isContinuation)
    (ht : t.kind = .identifier w) (hx : x ≠ []) :
    attributeItem? text ⟨u :: (c ++ t :: x), last, comments⟩ =
    itemRest text true w t.span.start ⟨x, some t, comments⟩ := by
  have hcont : u.kind.isContinuation = false := by rw [hu]; rfl
  rw [attributeItem?_eq, skipLines_cons (by rw [hu]; rfl), sees_cons false hcont (by rw [hu]; rfl),
    if_neg (by decide), sees_cons true hcont (by rw [hu]; rfl), if_pos rfl]
  refine (take_cons hcont (by simp)).trans ?_
  exact name_append hc ht hx

theorem itemRest_assign (ht : t.kind = .operator .assign) (hx : x ≠ []) :
    itemRest text false w p ⟨t :: x, last, comments⟩ = itemValue text w p ⟨x, some t, comments⟩ := by
  have hcont : t.kind.isContinuation = false := by rw [ht]; rfl
  rw [itemRest, skipLines_cons (by rw [ht]; rfl), sees_cons true hcont (by rw [ht]; rfl),
    if_pos (by decide)]
  exact take_cons hcont hx

theorem itemEnd_comma {value : AttributeValue} (ht : t.kind = .delimiter .comma) (hx : x ≠ []) :
    itemEnd w value p ⟨t :: x, last, comments⟩ = .ok (some ⟨w, value, p⟩, ⟨x, some t, comments⟩) := by
  have hcont : t.kind.isContinuation = false := by rw [ht]; rfl
  rw [itemEnd, skipLines_cons (by rw [ht]; rfl), bind_eq (peek_eq (sees_of_ahead rfl hcont)), if_pos ht]
  exact take_cons hcont hx

theorem itemRest_comma (ht : t.kind = .delimiter .comma) (hx : x ≠ []) :
    itemRest text negated w p ⟨t :: x, last, comments⟩ =
    .ok (some ⟨w, .flag !negated, p⟩, ⟨x, some t, comments⟩) := by
  rw [itemRest, skipLines_cons (by rw [ht]; rfl), sees_cons false (by rw [ht]; rfl) (by rw [ht]; rfl),
    Bool.and_false, if_neg (by decide)]
  exact itemEnd_comma ht hx

/-- A value with the comma behind it is read alike from texts with the same parts. -/
theorem exists_itemValue (hv : IsValue v t) (ht : t.kind = .delimiter .comma) (hx : x ≠ [])
    (hrun : itemValue text w p ⟨v ++ t :: x, last, comments⟩ = .ok (o, s)) :
    ∃ a, o = some a ∧ s = ⟨x, some t, comments⟩ ∧ ∀ {text' x' last' comments'},
      SameParts text text' v → x' ≠ [] →
      itemValue text' w p ⟨v ++ t :: x', last', comments'⟩ = .ok (some a, ⟨x', some t, comments'⟩) := by
  obtain ⟨⟨u, us, rfl, hu⟩, hends⟩ := hv
  obtain ⟨run, hsplit, hsub, hsame⟩ := expression_append endsAttribute 0 (u :: us ++ [t])
  rw [hends] at hsplit
  obtain rfl := append_cancel_right hsplit
  have hmem {u' : Token} (h : u' ∈ (expression endsAttribute 0 (u :: us ++ [t])).1) : u' ∈ u :: us :=
    hsub.subset h
  generalize (expression endsAttribute 0 (u :: us ++ [t])).1 = taken at hmem hsame
  have htake {x : List Token} {last : Option Token} {comments : List LooseComment} :
      takeExpression endsAttribute ⟨u :: (us ++ t :: x), last, comments⟩ =
      .ok (taken, ⟨t :: x, taken.getLast?.or last, comments⟩) := by
    show Except.ok ((expression endsAttribute 0 (u :: us ++ t :: x)).1,
      (⟨(expression endsAttribute 0 (u :: us ++ t :: x)).2,
      (expression endsAttribute 0 (u :: us ++ t :: x)).1.getLast?.or last, comments⟩ : Reader)) = _
    rw [hsame (t :: x) t rfl (by rw [hends]; rfl)]
  have hpeek {x : List Token} {last : Option Token} {comments : List LooseComment} :
      peek ⟨t :: x, last, comments⟩ = .ok (t, ⟨t :: x, last, comments⟩) :=
    peek_eq (sees_of_ahead rfl (by rw [ht]; rfl))
  rw [itemValue, cons_append, skipLines_cons hu] at hrun
  obtain ⟨value, q, hvalue, hend⟩ := bind_eq_ok_iff.1 hrun
  rw [attributeValue, bind_eq htake, bind_eq hpeek, if_neg (by simp [ht])] at hvalue
  cases taken with
  | nil => exact absurd hvalue not_unexpected
  | cons first rest =>
    obtain ⟨stop, hstop⟩ : ∃ stop, (first :: rest).getLast? = some stop := ⟨_, getLast?_cons⟩
    rw [hstop] at hvalue
    obtain ⟨raw, _, htext, ⟨⟩⟩ := bind_eq_ok_iff.1 hvalue
    rw [textOf] at htext
    cases hslice : text.slice? first.offset stop.endOffset with
    | none =>
      rw [hslice] at htext
      cases htext
    | some raw =>
      rw [hslice] at htext
      cases htext
      cases (itemEnd_comma ht hx).symm.trans hend
      refine ⟨_, rfl, rfl, fun {text' x' last' comments'} hsame hx' => ?_⟩
      have hslice' := (hsame first (hmem mem_cons_self) stop (hmem (mem_of_getLast? hstop))).trans hslice
      have hvalue' : attributeValue text' ⟨u :: (us ++ t :: x'), last', comments'⟩ =
          .ok (.ofTokens (first :: rest) raw, ⟨t :: x', some stop, comments'⟩) := by
        rw [attributeValue, bind_eq htake, bind_eq hpeek, if_neg (by simp [ht]), hstop]
        refine bind_eq ?_
        rw [textOf, hslice']
        rfl
      rw [itemValue, cons_append, skipLines_cons hu, bind_eq hvalue']
      exact itemEnd_comma ht hx'

theorem attributes_append (hc : ∀ u ∈ c, u.kind.isContinuation)
    (ht : t.kind = .delimiter (.opening .paren)) (hts : ts ≠ []) :
    attributes text ⟨c ++ t :: ts, last, comments⟩ = many (attributeItem? text) ⟨ts, some t, comments⟩ := by
  have hcont : t.kind.isContinuation = false := by rw [ht]; rfl
  rw [attributes, sees_append true hc hcont (by rw [ht]; rfl), if_pos rfl]
  exact take_append hc hcont hts

end Read

/-! ## Reading up to a place -/

namespace Slot

variable {text text' : Text} {among l ts x x' y : List Token} {t o : Token} {last : Option Token}
  {comments comments' : List LooseComment} {q' s : Reader} {as : List Attribute} {slot slot' : Slot}
  {K : Text → Read (Option Attribute)}

theorem Rest.lines (h : slot.Rest K) (hl : ∀ t ∈ l, isLineLayout t.kind) :
    K text ⟨l ++ x, last, comments⟩ = K text ⟨x, last, comments⟩ := by
  cases h <;> exact skipLines_append hl

/-- Readings of the two texts come to a place, before the tokens `x` and `x'`,
with the same attributes. The last token that was taken is one of `among`, and
`as` are all the attributes of the first text. -/
inductive Reached (text text' : Text) (among : List Token) (comments comments' : List LooseComment)
    (q' s : Reader) (as : List Attribute) (slot : Slot) (x x' : List Token) : Prop
  | mk {before behind : List Attribute} {K : Text → Read (Option Attribute)} {u : Token} {r r' : Reader} :
    as = before ++ behind → slot.Rest K → u ∈ among →
    Collected (turn (attributeItem? text)) r behind s → attributeItem? text r = K text ⟨x, some u, comments⟩ →
    Chain (turn (attributeItem? text')) q' before r' →
    attributeItem? text' r' = K text' ⟨x', some u, comments'⟩ →
    Reached text text' among comments comments' q' s as slot x x'

section

variable (h : Reached text text' among comments comments' q' s as slot (y ++ x) (y ++ x'))
include h

/-- The tokens `y` are a part of an attribute. -/
theorem Reached.part
    (hx : x ≠ []) (hx' : x' ≠ []) (ht : t ∈ among) (hpart : ∀ {K}, slot.Rest K → ∃ K', slot'.Rest K' ∧
      ∀ {text x last comments}, x ≠ [] → K text ⟨y ++ x, last, comments⟩ = K' text ⟨x, some t, comments⟩) :
    Reached text text' among comments comments' q' s as slot' x x' := by
  obtain ⟨has, hK, -, hread, hitem, hchain, hitem'⟩ := h
  obtain ⟨K', hK', hpart⟩ := hpart hK
  exact ⟨has, hK', ht, hread, hitem.trans (hpart hx), hchain, hitem'.trans (hpart hx')⟩

/-- The tokens `y` end an attribute. -/
theorem Reached.comma
    (ht : t ∈ among) (hcomma : ∀ {K u o q}, slot.Rest K → K text ⟨y ++ x, u, comments⟩ = .ok (o, q) →
      ∃ a, o = some a ∧ q = ⟨x, some t, comments⟩ ∧
      K text' ⟨y ++ x', u, comments'⟩ = .ok (some a, ⟨x', some t, comments'⟩)) :
    Reached text text' among comments comments' q' s as .start x x' := by
  obtain ⟨rfl, hK, -, hread, hitem, hchain, hitem'⟩ := h
  cases hread with
  | done hdone =>
    obtain ⟨_, ⟨⟩, -⟩ := hcomma hK (hitem.symm.trans (stop_of_turn hdone))
  | @item _ a _ behind _ hturn hread =>
    obtain ⟨_, ⟨⟩, rfl, hround'⟩ := hcomma hK (hitem.symm.trans (step_of_turn hturn))
    refine ⟨append_cons .., .start, ht, hread, rfl, hchain.append (.single ?_), rfl⟩
    rw [turn, hitem', hround']

end

/-- Each step leads to the next place. -/
theorem Step.reached (h : slot.Step y slot') (hsame : SameParts text text' among) (hy : y ⊆ among)
    (hx : x ≠ []) (hx' : x' ≠ [])
    (hreached : Reached text text' among comments comments' q' s as slot (y ++ x) (y ++ x')) :
    Reached text text' among comments comments' q' s as slot' x x' := by
  cases h with
  | line ht =>
    obtain ⟨has, hK, hu, hread, hitem, hchain, hitem'⟩ := hreached
    have hline := (forall_mem_singleton (p := fun u : Token => isLineLayout u.kind)).2 ht
    exact ⟨has, hK, hu, hread, hitem.trans (hK.lines hline), hchain, hitem'.trans (hK.lines hline)⟩
  | @name t w ht =>
    refine hreached.part hx hx' (hy mem_cons_self) fun hK => ?_
    cases hK
    exact ⟨_, .name false w t.span.start, attributeItem?_name ht⟩
  | @negated u t c w hu hc ht =>
    refine hreached.part (t := t) hx hx' (hy (by simp)) fun hK => ?_
    cases hK
    refine ⟨_, .name true w t.span.start, fun {text x last comments} hx => ?_⟩
    rw [cons_append, append_assoc]
    exact attributeItem?_negated hu hc ht hx
  | @assign t ht =>
    refine hreached.part hx hx' (hy mem_cons_self) fun hK => ?_
    cases hK with
    | name _ w p => exact ⟨_, .assign w p, itemRest_assign ht⟩
  | @comma negated t ht =>
    refine hreached.comma (hy mem_cons_self) fun hK hrun => ?_
    cases hK
    cases (itemRest_comma ht hx).symm.trans hrun
    exact ⟨_, rfl, rfl, itemRest_comma ht hx'⟩
  | @value v t hv ht =>
    refine hreached.comma (t := t) (hy (by simp)) fun hK hrun => ?_
    cases hK
    simp only [append_assoc, singleton_append] at hrun ⊢
    obtain ⟨a, ha, hq, hitem⟩ := exists_itemValue hv ht hx hrun
    exact ⟨a, ha, hq, hitem (fun u hu u' hu' => hsame u (hy (by simp [hu])) u' (hy (by simp [hu']))) hx'⟩

theorem Leads.reached (h : slot.Leads ts) (hsame : SameParts text text' among)
    (hts : ts ⊆ among) (ho : o ∈ among) (hx : x ≠ []) (hx' : x' ≠ [])
    (hread : Collected (turn (attributeItem? text)) ⟨ts ++ x, some o, comments⟩ as s)
    (comments' : List LooseComment) :
    Reached text text' among comments comments' ⟨ts ++ x', some o, comments'⟩ s as slot x x' := by
  induction h generalizing x x' with
  | nil => exact ⟨(nil_append _).symm, .start, ho, hread, rfl, .nil _, rfl⟩
  | step _ hstep ih =>
    obtain ⟨hts, hus⟩ := append_subset.1 hts
    rw [append_assoc] at hread ⊢
    exact hstep.reached hsame hus hx hx'
      (ih hts (append_ne_nil_of_right_ne_nil _ hx) (append_ne_nil_of_right_ne_nil _ hx') hread)

end Slot

end ClassdefDoc
