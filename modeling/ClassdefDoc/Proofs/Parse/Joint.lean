import ClassdefDoc.Proofs.Parse.Fork

/-!
# Headers at a joint

A `Joint` is a line end of a text for which a blank stands in a second text, so that the line behind
it is joined to the line before. Where the header of a block or of a function ends at the joint,
what follows is read from both texts side by side (`Joint.Before.block`, `Joint.Before.method`).
-/

namespace ClassdefDoc

open List
open TokenKind (isContinuation cases_of_isJoined)

/-- A line end of a text that is a blank in a second text. -/
structure Joint extends Fork where
  newline : Token
  first : Token
  rest : List Token
  first' : Token
  rest' : List Token
  tail_eq : tail = newline :: first :: rest
  tail_eq' : tail' = first' :: rest'
  newline_kind : newline.kind = .newline
  joined : first.kind.isJoined
  joined' : first'.kind.isJoined
  offset_self : ∀ i, offset i i

namespace Joint

open Read

theorem shift_joined (J : Joint) : J.toShift.Joined := ⟨J.scanned, J.offset_self⟩

variable {J : Joint} {c d : List Token} {s : Reader} {text : Text} {t : Token}

/-! ## The joint of a text -/

theorem startsStatement_of_step {s next : Scanner}
    (hs : s.Over text) (h : Scanner.step s = .ok (.item t next)) :
    next.startsStatement = Scanner.statementAfter s.startsStatement next.brackets.isEmpty t.kind := by
  obtain ⟨_, _, hcursor, -⟩ := hs
  obtain ⟨_, _, _, _, -, htook⟩ := Scanner.took_of_step hcursor h
  exact htook.startsStatement_eq

/-- Behind a header no statement starts yet. -/
theorem startsStatement_of_chain {past : List Token} {u : Token} {s : Scanner}
    (h : Chain Scanner.step (.start text) (past ++ u :: d) s)
    (hu : endsHeader u.kind) (hd : ∀ v ∈ d, v.kind.isContinuation) :
    s.startsStatement = false := by
  have passed {s s' : Scanner} {d : List Token} (hchain : Chain Scanner.step s d s')
      (hd : ∀ v ∈ d, v.kind.isContinuation)
      (hs : s.Over text) (hfalse : s.startsStatement = false) : s'.startsStatement = false := by
    induction hchain with
    | nil => exact hfalse
    | @cons s v next d s' hstep _ ih =>
      refine ih (fun w hw => hd w (mem_cons_of_mem v hw)) (hs.of_step hstep) ?_
      rw [startsStatement_of_step hs hstep, hfalse]
      have hv := hd v mem_cons_self
      cases hk : v.kind <;> simp [hk, isContinuation] at hv
      rfl
  obtain ⟨s₁, hpast, hrest⟩ := h.of_append
  have hover := (Scanner.over_start text).of_chain hpast
  cases hrest with
  | @cons _ _ next _ _ hstep hrest =>
    refine passed hrest hd (hover.of_step hstep) ?_
    rw [startsStatement_of_step hover hstep]
    unfold endsHeader at hu
    split at hu <;> simp_all [Scanner.statementAfter]

/-- The joint behind a header, with what the scanner reads there. -/
theorem exists_joint {a b : Text} {tokens rest : List Token} {newline : Token} {q : Reader} {n : Nat}
    (hscan : scan (a ++ '\n' :: b) = .ok tokens) (hat : At (a ++ '\n' :: b) [] q) (hbehind : Behind tokens q)
    (hq : significant q.ahead = newline :: t :: rest) (hnewline : newline.kind = .newline)
    (hoffset : newline.offset = Text.bytes a) (hjoined : t.kind.isJoined) (hsteady : Steady n (t :: rest)) :
    ∃ J : Joint, J.text = a ++ '\n' :: b ∧ J.text' = a ++ ' ' :: b ∧
      J.tokens = tokens ∧ (∀ {i i'}, J.opens i i' → i = i') ∧ J.tail = newline :: t :: rest ∧
      Relaxed J.SameExtent J.SameToken n (J.first :: J.rest) (J.first' :: J.rest') := by
  obtain ⟨past, u, rfl, hu⟩ := hbehind
  have hcut := continuations_append q.ahead
  have hd : ∀ v ∈ q.ahead.takeWhile (·.kind.isContinuation), v.kind.isContinuation :=
    fun v hv => mem_takeWhile_imp (p := fun t : Token => t.kind.isContinuation) hv
  generalize q.ahead.takeWhile (·.kind.isContinuation) = d at hcut hd
  rw [hq] at hcut
  rw [← hcut] at hscan ⊢
  obtain ⟨_, before, s, hchain, hbrackets, -, hyields⟩ := hat.ahead_significant
  rw [hq] at hyields
  have hlist : past ++ u :: (d ++ newline :: t :: rest) = (past ++ u :: d) ++ newline :: t :: rest := by simp
  rw [hlist] at hscan ⊢
  obtain rfl : past ++ u :: d = before := by
    exact append_cancel_right (Except.ok.inj (hscan.symm.trans (scan_of_yields hchain hyields)))
  have hcomment : ∀ v ∈ (past ++ u :: d).getLast?, v.kind.isComment = false := by
    intro v hv
    rw [getLast?_append_of_ne_nil _ (cons_ne_nil u d)] at hv
    obtain rfl | hv := mem_cons.1 (mem_of_getLast? hv)
    · cases hk : v.kind <;> simp [hk, endsHeader] at hu <;> rfl
    · have := hd v hv
      cases hk : v.kind <;> simp [hk, isContinuation] at this
      rfl
  obtain ⟨t', rest', e, hscan', he, hlaid, hrelaxed⟩ :=
    exists_scan_joined hchain hyields (map_eq_nil_iff.1 hbrackets)
    (startsStatement_of_chain hchain hu hd) hnewline hoffset hcomment hjoined hsteady
  have hcut (c : Char) : a ++ [c] ++ b = a ++ c :: b := append_assoc ..
  rw [← hcut] at hscan hscan' ⊢
  have hbytes : Text.bytes (a ++ [' ']) = Text.bytes (a ++ ['\n']) := by
    simp only [Text.bytes_append]
    rfl
  have hlead (c : Char) : a <+: a ++ [c] := prefix_append _ _
  refine ⟨⟨.between (hlead _) (hlead _) hbytes.ge hscan hscan' (cons_ne_nil _ _) (cons_ne_nil _ _)
    he hlaid, newline, t, rest, t', rest', rfl, rfl, hnewline, hjoined,
    hrelaxed.isJoined Token.Kept.kind hjoined, fun i => ⟨by omega, ?_⟩⟩, rfl, hcut ' ', rfl, ?_, rfl,
    hrelaxed.imp (Shift.sameExtent_of_raised (hlead _) (hlead _) hbytes.ge)
      (Shift.sameToken_of_kept (hlead _) (hlead _) hbytes.ge)⟩
  · have hwidth : Text.bytes (a ++ ['\n']) = Text.bytes a + 1 := Text.bytes_append ..
    omega
  · rintro i i' (⟨-, rfl⟩ | ⟨-, rfl⟩) <;> omega

/-- A word that is joined is no layout, and no header goes on with it. -/
theorem not_layout_of_isJoined {k : TokenKind} (h : k.isJoined) :
    isLayout k = false ∧ k.isContinuation = false ∧ headerGoesOn k = false := by
  obtain ⟨w, rfl⟩ | ⟨w, rfl⟩ | rfl := cases_of_isJoined h <;> exact ⟨rfl, rfl, rfl⟩

/-- Neither the line end nor the first word behind the joint belongs to a header. -/
theorem stops (hd : ∀ u ∈ d, u.kind.isContinuation) (hsuffix : d ++ J.tail <:+ J.tokens) :
    Stops (d ++ J.tail) (d ++ [J.last]) ∧ Stops (d ++ [J.last]) (d ++ J.tail') := by
  have hnewline : (significant (d ++ J.tail)).head? = some J.newline := by
    rw [J.tail_eq, significant_append hd (by rw [J.newline_kind]; rfl)]
    rfl
  have hlast : (significant (d ++ [J.last])).head? = some J.last := by
    rw [significant_append hd (by rw [J.last_kind]; rfl)]
    rfl
  have hfirst' : (significant (d ++ J.tail')).head? = some J.first' := by
    rw [J.tail_eq', significant_append hd (not_layout_of_isJoined J.joined').2.1]
    rfl
  have heof : headerGoesOn J.last.kind = false := by rw [J.last_kind]; rfl
  obtain ⟨hgoes, hgoes'⟩ := Fork.goesOn hsuffix
  constructor
  · exact ⟨hgoes, _, _, hnewline, hlast, .inr ⟨by rw [J.newline_kind]; rfl, heof⟩⟩
  · exact ⟨hgoes', _, _, hlast, hfirst', .inr ⟨heof, (not_layout_of_isJoined J.joined').2.2⟩⟩

/-! ## Readers at the joint -/

variable {q : Reader}

/-- Only continuations stand between a header and the joint. -/
theorem exists_continuations (hq : significant q.ahead = J.tail) :
    ∃ d, q.ahead = d ++ J.tail ∧ ∀ u ∈ d, u.kind.isContinuation :=
  ⟨_, by rw [← hq]; exact (continuations_append q.ahead).symm,
    fun _ hu => mem_takeWhile_imp (p := fun t : Token => t.kind.isContinuation) hu⟩

/-- What is behind the joint, when a function ends there: nothing is expected of a body
that starts there but that its first word neither opens nor closes a construct. -/
structure Fits (J : Joint) (isAbstract : Bool) : Prop where
  bodiless : isAbstract → Relaxed J.SameExtent J.SameToken 2 (J.first :: J.rest) (J.first' :: J.rest')
  body : isAbstract = false → Relaxed J.SameExtent J.SameToken 0 (J.first :: J.rest) (J.first' :: J.rest') ∧
    Shift.isFlat J.first.kind

end Joint

namespace Fork

open Read

variable {J : Joint} {c d : List Token} {n : Nat} {limits : Limits}
  {isAbstract : Bool} {m : Member} {r r' q q' s : Reader}

/-- Behind the layout at the joint the readings go on side by side. -/
theorem Before.resync (h : J.Before d q q') (hd : ∀ u ∈ d, u.kind.isContinuation) (hq : q.ahead <:+ J.tokens)
    (hrelaxed : Relaxed J.SameExtent J.SameToken n (J.first :: J.rest) (J.first' :: J.rest')) :
    J.Resync n q q' := by
  have hlayout : ∀ u ∈ d, isLayout u.kind := fun u hu => isLayout_of_isContinuation _ (hd u hu)
  have hfirst : isLayout J.first.kind = false := (Joint.not_layout_of_isJoined J.joined).1
  have hfirst' : isLayout J.first'.kind = false := (Joint.not_layout_of_isJoined J.joined').1
  have hnewline : isLayout J.newline.kind := by rw [J.newline_kind]; rfl
  refine ⟨?_, hq, h.suffix' hq, h.last⟩
  rw [h.ahead, h.ahead', dropWhile_append_of_pos hlayout, dropWhile_append_of_pos hlayout]
  simpa [J.tail_eq, J.tail_eq', hnewline, hfirst, hfirst'] using hrelaxed

/-- The header of the second text is followed by a word or `[`. -/
theorem Before.endHeader (h : J.Before d q q') (hd : ∀ u ∈ d, u.kind.isContinuation) :
    Read.endHeader q' = .ok ((), q') := by
  have hpeek : peek q' = .ok (J.first', q') := by
    refine peek_eq ?_
    rw [h.ahead', J.tail_eq', significant_append hd (Joint.not_layout_of_isJoined J.joined').2.1]
    rfl
  rw [Read.endHeader, bind_eq hpeek]
  obtain ⟨w, hw⟩ | ⟨w, hw⟩ | hw := cases_of_isJoined J.joined' <;> (rw [hw]; rfl)

/-! ## A header at the joint -/

variable {t : Token} {b : Block} {name : Text} {q₁ q₂ : Reader}

section

variable (hbefore : J.Before c r r') (hr : r.ahead <:+ J.tokens)
include hbefore hr

/-- A block whose header ends at the joint. -/
theorem Before.block (hrun : BlockRun limits J.text b t r q q₁ q₂ s) (hq₂ : significant q₂.ahead = J.tail)
    (hrelaxed : Relaxed J.SameExtent J.SameToken 2 (J.first :: J.rest) (J.first' :: J.rest')) :
    ∃ b' s', block? limits J.text' name r' = .ok (some b', s') ∧
      J.SameBlock limits b b' ∧ J.Resync 1 s s' := by
  obtain ⟨d, hahead, hd⟩ := Joint.exists_continuations hq₂
  have hq₂ : q₂.ahead <:+ J.tokens := hrun.suffix hr
  obtain ⟨z, q', q₁', hword', hq₁'⟩ :=
    hbefore.word hr hrun.wordRun (hahead ▸ near_attributes.suffix hrun.attributes)
  obtain ⟨hO, hO'⟩ := Joint.stops hd (hahead ▸ hq₂)
  obtain ⟨as, q₂', hattributes', has, hq₂'⟩ := hq₁'.carry (fun _ _ => @stops_attributes J.text q₁ _ _)
    (fun _ _ => @stops_attributes J.text' _ _ _) Likeness.twin_attributes hrun.attributes hahead hO hO'
  obtain rfl := eq_of_likeAttributes has
  obtain ⟨ms, s', hmembers', hms, hs⟩ := (hq₂'.resync hd hq₂ hrelaxed).members J.scanned hrun.members
  refine ⟨⟨b.kind, b.attributes, ms, t.span.start⟩, s', BlockRun.block? (q := q') ⟨hword'.skip, hword'.ahead,
    hrun.word, hword'.take, hattributes', hq₂'.endHeader hd, hmembers', rfl⟩, ?_, hs⟩
  exact Shift.sameBlock_of_members rfl hms

/-- A function whose header ends at the joint; if it has a body, the
readings are side by side again behind it. -/
theorem Before.function {record : Bool} (hword : WordRun record t r q q₁)
    (hrun : FunctionRun limits J.text isAbstract m t q q₁ q₂ s)
    (hq₂ : significant q₂.ahead = J.tail) (hfits : J.Fits isAbstract) :
    ∃ q' q₁' m' s', WordRun record t r' q' q₁' ∧
      functionMember limits J.text' isAbstract q' = .ok (m', s') ∧ m.bare = m'.bare ∧
      Option.Rel J.SameExtent s.last s'.last ∧ (isAbstract → J.Resync 2 s s') ∧
      (isAbstract = false → J.Readers s s') := by
  obtain ⟨d, hahead, hd⟩ := Joint.exists_continuations hq₂
  have hsuffix : q₂.ahead <:+ J.tokens := hrun.suffix.trans (hword.suffix hr).2
  obtain ⟨z, q', q₁', hword', hq₁'⟩ := hbefore.word hr hword (hahead ▸ hrun.suffix)
  obtain ⟨-, signature', line, body', hsignature, hheader, hbody, rfl⟩ := hrun
  obtain ⟨hO, hO'⟩ := Joint.stops hd (hahead ▸ hsuffix)
  obtain ⟨_, q₂', hsignature', rfl, hq₂'⟩ := hq₁'.carry (fun _ _ => @stops_signature q₁ _ _)
    (fun _ _ => @stops_signature _ _ _) Likeness.twin_signature hsignature hahead hO hO'
  cases isAbstract with
  | true =>
    cases hbody
    obtain ⟨line', hrun'⟩ : ∃ line', functionMember limits J.text' true q' =
        .ok (methodOf signature' none true ⟨t.line, line'⟩ t, q₂') :=
      functionMember_of_parts hword'.take hsignature' (hq₂'.endHeader hd) rfl
    exact ⟨q', q₁', _, _, hword', hrun', Shift.bare_methodOf (by rfl) ..,
      hq₂'.last, fun _ => hq₂'.resync hd hsuffix (hfits.bodiless rfl), by rintro ⟨⟩⟩
  | false =>
    obtain ⟨hrelaxed, hflat⟩ := hfits.body rfl
    obtain ⟨hflush, hpost⟩ := Shift.Flush.of_relaxed hrelaxed J.joined hflat
    obtain ⟨b, rfl, hb⟩ := of_map hbody
    obtain ⟨b', s', hb', hs⟩ := Shift.exists_body_joint J.shift_joined hd (hahead.trans (by rw [J.tail_eq]))
      (hq₂'.ahead'.trans (by rw [J.tail_eq'])) J.newline_kind hflush hpost hsuffix
      (hq₂'.suffix' hsuffix) hq₂'.last hb
    obtain ⟨line', hrun'⟩ : ∃ line', functionMember limits J.text' false q' =
        .ok (methodOf signature' (some b') false ⟨t.line, line'⟩ t, s') :=
      functionMember_of_parts hword'.take hsignature' (hq₂'.endHeader hd) (map_eq hb')
    exact ⟨q', q₁', _, _, hword', hrun', Shift.bare_methodOf (by rfl) .., hs.last, by rintro ⟨⟩, fun _ => hs⟩

/-- A method whose header ends at the joint. -/
theorem Before.method (hword : WordRun true t r q q₁) (hkind : structural? t.kind = some .function)
    (hmember : member? limits J.text .methods isAbstract r = .ok (some m, s))
    (hrun : FunctionRun limits J.text isAbstract m t q q₁ q₂ s)
    (hq₂ : significant q₂.ahead = J.tail) (hfits : J.Fits isAbstract) :
    ∃ m' s', member? limits J.text' .methods isAbstract r' = .ok (some m', s') ∧
      J.SameMember limits m m' ∧ J.Resync 2 s s' := by
  obtain ⟨q', q₁', m', s', hword', hfunction, hbare, hlast, habstract, hbody⟩ :=
    hbefore.function hr hword hrun hq₂ hfits
  have hmember' : member? limits J.text' .methods isAbstract r' = .ok (some m', s') := by
    rw [member?, bind_eq hword'.skip, bind_eq hword'.peek, hkind]
    exact map_eq hfunction
  refine ⟨m', s', hmember', ?_, ?_⟩
  · exact Shift.sameMember_of_member? J.scanned hr (hbefore.suffix' hr) hmember hmember' hbare hlast
  · cases isAbstract with
    | true => exact habstract rfl
    | false => exact (hbody rfl).resync 2

/-- A function behind the class whose header ends at the joint. -/
theorem Before.localFunction
    (hword : WordRun false t r q q₁) (hkind : t.kind = .keyword .function) (hlimits : limits.localFunctions)
    (hrun : FunctionRun limits J.text false m t q q₁ q₂ s) (hq₂ : significant q₂.ahead = J.tail)
    (hfits : J.Fits false) :
    ∃ s', localFunction? limits J.text' r' = .ok (some (), s') ∧ J.Readers s s' := by
  obtain ⟨q', q₁', m', s', hword', hfunction, -, -, -, hbody⟩ := hbefore.function hr hword hrun hq₂ hfits
  refine ⟨s', ?_, hbody rfl⟩
  rw [localFunction?, bind_eq hword'.skip, bind_eq hword'.peek, hkind]
  simp only [hlimits, if_true]
  exact bind_eq (map_eq hfunction)

end

end Fork

end ClassdefDoc
