import ClassdefDoc.Proofs.Parse.Stream
import ClassdefDoc.Proofs.Scan.Beside

/-!
# Readings stay in their stream

Whatever stream a class is read from, its tokens may break off anywhere: reading gives a class or refuses
a token of the stream (`ClassDecl.ofTokens_answers`). There is one lemma for each reading function, which
says that it is `Safe` and how many tokens it takes at least. Brackets are counted only behind one that
opens (`groupEnd_standsAt`), a search for the end of a body stops at the end of file
(`splitAtEnd_standsAt`), and text is cut only between tokens in their order (`safe_textOf`, `exists_cut`).
-/

namespace ClassdefDoc

open List Body Text
open ClassDecl (ofTokens)

variable {r : Reader} {last : Token} {f : Fault} {limit : Nat}
  {name text : Text} {tokens : List Token} {kind : BlockKind}

namespace Read

variable {text what : Text} {ts rest us : List Token} {t : Token}
  {p : Prop} {n : Nat} {b : Bracket} {isAbstract : Bool} {k : TokenKind} {limits : Limits}

/-! ## Tokens -/

theorem peek_answers :
    Answers ts (Inside text ts p n) peek fun t r => t ∈ ts ∧ Inside text ts p n r ∧ Sees t r := by
  refine .of_ok fun r hr => ?_
  obtain ⟨t, rest, hahead, hsuffix⟩ := hr.exists_sees
  have hsees : Sees t r := by rw [Sees, hahead]; rfl
  exact ⟨t, r, peek_eq hsees, hsuffix.subset mem_cons_self, hr, hsees⟩

theorem safe_peek : Safe text ts p n n (· ∈ ts) peek := peek_answers.mono fun _ _ hr => ⟨hr.1, hr.2.1⟩

theorem sees_answers : Answers ts (Inside text ts p n) (sees k) fun b r =>
    Inside text ts p n r ∧ (b → SeesKind k r) :=
  peek_answers.bind fun t => .of_ok fun r hr => ⟨_, r, rfl, hr.2.1, fun hb => ⟨t, hr.2.2, beq_iff_eq.1 hb⟩⟩

theorem safe_sees : Safe text ts p n n (fun _ => True) (sees k) :=
  sees_answers.mono fun _ _ hr => ⟨trivial, hr.1⟩

theorem seesIdentifier_answers : Answers ts (Inside text ts p n) seesIdentifier fun b r =>
    Inside text ts p n r ∧ (b → ∃ t, Sees t r ∧ t.kind ≠ .eof) := by
  refine peek_answers.bind fun t => ?_
  split
  · rename_i hkind
    exact .of_ok fun r hr => ⟨_, r, rfl, hr.2.1, fun _ => ⟨t, hr.2.2, by rw [hkind]; rintro ⟨⟩⟩⟩
  · exact .of_ok fun r hr => ⟨_, r, rfl, hr.2.1, by rintro ⟨⟩⟩

theorem safe_seesIdentifier : Safe text ts p n n (fun _ => True) seesIdentifier :=
  seesIdentifier_answers.mono fun _ _ hr => ⟨trivial, hr.1⟩

theorem safe_peekSecond : Safe text ts p n n (fun _ => True) peekSecond := by
  refine .of_ok fun r hr => ?_
  obtain ⟨u, rest, hahead, -⟩ := hr.exists_sees
  exact ⟨_, r, by rw [peekSecond_run, hahead], trivial, hr⟩

/-- A token can be taken anywhere; the end of file stays ahead. -/
theorem advance_taken :
    Answers ts (Inside text ts p n) advance fun t r => t ∈ ts ∧ Inside text ts True n r := by
  refine .of_ok fun r hr => ?_
  obtain ⟨t, rest, hrest, hsuffix⟩ := hr.exists_sees
  have ht : t ∈ ts := hsuffix.subset mem_cons_self
  have hahead : r.ahead = r.ahead.takeWhile (·.kind.isContinuation) ++ t :: rest := by
    rw [← hrest, significant, takeWhile_append_dropWhile]
  cases rest with
  | cons u rest => exact ⟨t, _, advance_eq hrest, ht, (hr.take hahead (cons_ne_nil u rest)).weak⟩
  | nil =>
    refine ⟨t,
      _, by rw [advance_run, hrest], ht, hr.stream, hsuffix, cons_ne_nil t [], ?_, ?_, fun _ => ⟨t, rfl⟩⟩
    · exact (length_pos_of_ne_nil hr.ne_nil).trans_le hr.length
    · rintro _ ⟨⟩
      obtain ⟨past, rfl⟩ := hsuffix
      obtain ⟨e, he, -, hlexeme⟩ := hr.stream.last
      rw [getLast?_concat, Option.some.injEq] at he
      refine ⟨ht, forall_mem_singleton.2 ?_⟩
      rw [Token.endOffset, he, hlexeme]
      exact Nat.le_refl _

theorem safe_advance : Safe text ts p n n (· ∈ ts) advance :=
  advance_taken.mono fun _ _ hr => ⟨hr.1, { hr.2 with taken := fun _ => hr.2.taken trivial }⟩

theorem safe_take : Safe text ts p n n (fun _ => True) (discard advance) := safe_advance.discard

/-- A token that is not the end of file leaves one token less ahead. -/
theorem Inside.exists_advance (hr : Inside text ts p n r) (hsees : Sees t r) (ht : t.kind ≠ .eof) :
    ∃ r', advance r = .ok (t, r') ∧ Inside text ts p (n - 1) r' := by
  obtain ⟨rest, hrest⟩ := head?_eq_some_iff.1 hsees
  have hahead : r.ahead = r.ahead.takeWhile (·.kind.isContinuation) ++ t :: rest := by
    rw [← hrest, significant, takeWhile_append_dropWhile]
  have hne : rest ≠ [] := hr.stream.tail_ne_nil (hrest ▸ (dropWhile_suffix _).trans hr.suffix) ht
  obtain ⟨u, rest, rfl⟩ := exists_cons_of_ne_nil hne
  exact ⟨_, advance_eq hrest, hr.take hahead hne⟩

theorem advance_answers (ht : t.kind ≠ .eof) : Answers ts (fun r => Inside text ts p n r ∧ Sees t r) advance
    fun _ r => Inside text ts p (n - 1) r := by
  refine .of_ok fun r hr => ?_
  obtain ⟨r', hrun, hr'⟩ := hr.1.exists_advance hr.2 ht
  exact ⟨t, r', hrun, hr'⟩

theorem take_answers (ht : t.kind ≠ .eof) :
    Answers ts (fun r => Inside text ts p n r ∧ Sees t r) (discard advance)
    fun _ r => Inside text ts p (n - 1) r :=
  (advance_answers ht).map fun _ _ hr => hr

theorem safe_lastLine : Safe text ts p n n (fun _ => True) lastLine :=
  .of_ok fun r hr => ⟨_, r, lastLine_run r, trivial, hr⟩

theorem safe_expectIdentifier : Safe text ts p n (n - 1) (·.1 ∈ ts) (expectIdentifier what) := by
  refine peek_answers.bind fun t => .assume fun ht => ?_
  split
  · rename_i w hkind
    exact (take_answers (by rw [hkind]; rintro ⟨⟩)).bind fun _ => .pure ht
  · exact .unexpected ht

theorem safe_expect : Safe text ts p n n (fun _ => True) (expect k what) :=
  safe_peek.bind fun _ ht => .ite (fun _ => safe_take) fun _ => .unexpected ht

/-! ## Layout and statements -/

theorem safe_skipLayout {record : Bool} : Safe text ts p n n (fun _ => True) (skipLayout record) :=
  .of_ok fun _ hr => ⟨(), _, rfl, trivial, hr.dropWhile rfl _⟩

theorem safe_skipLines : Safe text ts p n n (fun _ => True) skipLines :=
  .of_ok fun r hr => ⟨(), _, rfl, trivial, hr.dropWhile rfl r.comments⟩

theorem safe_endStatement : Safe text ts p n n (fun _ => True) endStatement :=
  safe_peek.bind fun _ ht => .ite (fun _ => .pure trivial) fun _ => .unexpected ht

theorem safe_endHeader : Safe text ts p n n (fun _ => True) endHeader := by
  refine safe_peek.bind fun t ht => ?_
  split
  · exact .pure trivial
  · exact .pure trivial
  · exact .ite (fun _ => .pure trivial) fun _ => .unexpected ht

/-! ## Names and expressions -/

theorem safe_segment (n : Nat) : SafeRound text ts p n (fun _ => True) (segment what) :=
  safe_sees.bind fun _ _ => .ite (fun _ => safe_take.bind fun _ _ =>
    safe_expectIdentifier.bind fun _ _ => SafeRound.item trivial)
    fun _ => SafeRound.stop

theorem safe_dottedName : Safe text ts p n (n - 1) (fun _ => True) (dottedName what) :=
  safe_expectIdentifier.bind fun _ _ => (Safe.many safe_segment).bind fun _ _ => .pure trivial

/-- An expression ends before the end of file. -/
theorem expression_ne_nil (h : TokenStream text ts) (hsuffix : us <:+ ts)
    (hne : us ≠ []) (stops : TokenKind → Bool) (depth : Nat) : (expression stops depth us).2 ≠ [] := by
  induction us generalizing depth with
  | nil => exact hne
  | cons t us ih =>
    replace ih (hkind : t.kind ≠ .eof) := ih ((suffix_cons t us).trans hsuffix) (h.tail_ne_nil hsuffix hkind)
    obtain ⟨d, hkind, hskip⟩ | hstop | ⟨d, hkind, hkeep⟩ := expression_cons stops depth t
    · rw [hskip]
      exact ih hkind d
    · rw [hstop]
      exact hne
    · rw [hkeep]
      exact ih hkind d

theorem safe_takeExpression {stops : TokenKind → Bool} :
    Safe text ts p n n (List.Sublist · ts) (takeExpression stops) := by
  refine .of_ok fun r hr => ⟨_, _, takeExpression_run stops r, ?_⟩
  obtain ⟨run, hahead, hsub, -⟩ := expression_append stops 0 r.ahead
  have hsuffix : (expression stops 0 r.ahead).2 <:+ r.ahead := ⟨run, hahead.symm⟩
  have hrun : run ++ (expression stops 0 r.ahead).2 <:+ ts := hahead ▸ hr.suffix
  have hskip := hr.skip hsuffix (expression_ne_nil hr.stream hr.suffix hr.ne_nil stops 0) r.comments
  refine ⟨(hsub.trans (sublist_append_left _ _)).trans hrun.sublist,
    { hskip with behind := fun t ht => ?_, taken := fun hp => ?_ }⟩
  · rcases Option.or_eq_some_iff.1 ht with ht | ⟨-, ht⟩
    · have hmem : t ∈ run := hsub.subset (mem_of_getLast? ht)
      have hordered := (pairwise_append.1 (hr.stream.ordered.sublist hrun.sublist)).2.2
      exact ⟨hrun.subset (mem_append_left _ hmem), hordered t hmem⟩
    · exact hskip.behind t ht
  · obtain ⟨last, hlast⟩ := hr.taken hp
    cases hend : (expression stops 0 r.ahead).1.getLast? with
    | none => exact ⟨last, hlast⟩
    | some t => exact ⟨t, rfl⟩

theorem safe_textOf {first : Token} (hsub : List.Sublist (first :: rest) ts) (hlast : last ∈ first :: rest) :
    Safe text ts p n n (fun _ => True) (textOf text first last) := by
  refine .of_ok fun r hr => ?_
  obtain ⟨part, hpart⟩ := hr.stream.exists_slice hsub hlast
  exact ⟨part, r, by rw [textOf, hpart]; rfl, trivial, hr⟩

/-- Inside a group the count of open brackets does not fall below one. -/
theorem groupEnd_standsAt (h : TokenStream text ts) (hsuffix : us <:+ ts)
    (hne : us ≠ []) {depth : Nat} (hdepth : 0 < depth) (hend : groupEnd depth us = .error f) :
    f.StandsAt ts := by
  induction us generalizing depth with
  | nil => exact absurd rfl hne
  | cons t us ih =>
    obtain ⟨d, hkind, hd, hskip⟩ | ⟨-, hclose⟩ | ⟨cause, hcause, herror⟩ := groupEnd_cons depth t.kind
    · rw [hskip t us rfl] at hend
      exact ih ((suffix_cons t us).trans hsuffix) (h.tail_ne_nil hsuffix hkind) (hd hdepth) hend
    · cases (hclose t us rfl).symm.trans hend
    · cases (herror t us rfl).symm.trans hend
      exact ⟨hcause hdepth, t, hsuffix.subset mem_cons_self, rfl⟩

theorem skipGroup_answers :
    Answers ts (fun r => Inside text ts p n r ∧ SeesKind (.delimiter (.opening b)) r) skipGroup
    fun _ r => Inside text ts p n r := by
  refine .of_run ?_
  rintro r ⟨hr, t, hsees, hkind⟩
  obtain ⟨rest, hrest⟩ := head?_eq_some_iff.1 hsees
  have hsuffix : t :: rest <:+ ts := hrest ▸ (dropWhile_suffix _).trans hr.suffix
  -- the bracket that is seen opens the group
  have hgroup : groupEnd 0 r.ahead = groupEnd 1 rest := by
    rw [← groupEnd_significant, hrest, groupEnd.eq_def]
    simp only [hkind]
  rw [skipGroup_run]
  cases hend : groupEnd 0 r.ahead with
  | error e =>
    refine .inr ⟨e, rfl,
      groupEnd_standsAt hr.stream ((suffix_cons t rest).trans hsuffix) ?_ Nat.one_pos (hgroup ▸ hend)⟩
    exact hr.stream.tail_ne_nil hsuffix (by rw [hkind]; rintro ⟨⟩)
  | ok x =>
    obtain ⟨past, hahead, hne, -⟩ := groupEnd_append hend
    refine .inl ⟨_, _, rfl, (hr.take hahead (hr.stream.tail_ne_nil ?_ hne)).weak⟩
    exact (suffix_append past _).trans (hahead ▸ hr.suffix)

/-- A group is skipped if it is there. -/
theorem safe_group {α : Type} {A : α → Prop} {f : Unit → Read α} (hf : ∀ x, Safe text ts p n n A (f x)) :
    Safe text ts p n n A (do if ← sees (.delimiter (.opening b)) then skipGroup
                             f ()) :=
  sees_answers.bind fun _ => .ite (fun hb => (skipGroup_answers.pre fun _ hr => ⟨hr.1, hr.2 hb⟩).bind hf)
    fun _ => (hf ()).pre fun _ hr => hr.1

/-! ## Attribute lists -/

theorem safe_attributeValue : Safe text ts p n n (fun _ => True) (attributeValue text) := by
  refine safe_takeExpression.bind fun tokens hsub => safe_peek.bind fun next hnext => ?_
  refine .ite (fun _ => .bind_of_refused (.refuse hnext)) fun _ => ?_
  split
  · rename_i first last hfirst hlast
    obtain ⟨rest, rfl⟩ := head?_eq_some_iff.1 hfirst
    exact (safe_textOf hsub (mem_of_getLast? hlast)).bind fun _ _ => .pure trivial
  · exact .unexpected hnext

theorem safe_attributeItem? (n : Nat) :
    SafeRound text ts p n (·.position.AtToken ts) (attributeItem? text) := by
  refine safe_skipLines.bind fun _ _ => safe_sees.bind fun _ _ =>
    .ite (fun _ => safe_take.bind fun _ _ => SafeRound.stop) fun _ => ?_
  refine safe_sees.bind fun negated _ => ?_
  extract_lets item
  have hitem (x : Unit) : SafeRound text ts p n (·.position.AtToken ts) (item x) := by
    refine safe_expectIdentifier.bind fun x hx => safe_skipLines.bind fun _ _ =>
      safe_sees.bind fun assigned _ => ?_
    extract_lets separated
    have hseparated (v : AttributeValue) : Answers ts (Inside text ts p (n - 1)) (separated v)
        (Round (·.position.AtToken ts) (Inside text ts p (n - 1)) (Inside text ts p n)) := by
      refine safe_skipLines.bind fun _ _ => safe_peek.bind fun separator hmem =>
        .ite (fun _ => ?_) fun _ => ?_
      · exact safe_take.bind fun _ _ => SafeRound.item ⟨x.1, hx, rfl⟩
      · exact .ite (fun _ => .bind_of_refused (.unexpected hmem)) fun _ => SafeRound.item ⟨x.1, hx, rfl⟩
    refine .ite (fun _ => ?_) fun _ => .pure_bind (hseparated _)
    exact safe_take.bind fun _ _ => safe_skipLines.bind fun _ _ =>
      safe_attributeValue.bind fun v _ => hseparated v
  exact .ite (fun _ => safe_take.bind fun x _ => hitem x) fun _ => hitem ()

theorem safe_attributes : Safe text ts p n n (∀ a ∈ ·, a.position.AtToken ts) (attributes text) :=
  safe_sees.bind fun _ _ => .ite (fun _ => safe_take.bind fun _ _ => Safe.many safe_attributeItem?) fun _ =>
    .pure (by simp)

/-! ## Properties and events -/

theorem safe_defaultValue : Safe text ts p n n (fun _ => True) (defaultValue text) := by
  refine peek_answers.bind fun first => .assume fun hfirst =>
    .ite (fun _ => .bind_of_refused (.unexpected hfirst)) fun hends => ?_
  have hstop : endsValue first.kind = false := by
    rw [Bool.eq_false_iff]
    exact fun h => hends (endsStatement_of_endsValue h)
  have heof : first.kind ≠ .eof := fun h => hends (by rw [h]; rfl)
  -- the token that is seen is the first one of the expression
  have hopens : Triple (Sees first) (takeExpression endsValue) fun tokens _ => tokens.head? = some first := by
    intro r tokens r' hsees hrun
    obtain ⟨rest, hrest⟩ := head?_eq_some_iff.1 hsees
    obtain ⟨us, s, htake⟩ := Likeness.exists_takeExpression_eq hrest heof hstop
    rw [htake] at hrun
    cases hrun
    rfl
  have htaken : Answers ts (fun r => Inside text ts p n r ∧
      Sees first r) (takeExpression endsValue) fun tokens r =>
      (List.Sublist tokens ts ∧ tokens.head? = some first) ∧ Inside text ts p n r :=
    ⟨fun r tokens r' hr hrun => by
      obtain ⟨hsub, hr'⟩ := safe_takeExpression.triple hr.1 hrun
      exact ⟨⟨hsub, hopens hr.2 hrun⟩, hr'⟩, fun _ _ hr hrun => safe_takeExpression.standsAt hr.1 hrun⟩
  refine htaken.bind fun tokens => .assume fun htokens => ?_
  obtain ⟨rest, rfl⟩ := head?_eq_some_iff.1 htokens.2
  refine safe_textOf htokens.1 ?_
  rw [getLast?_eq_some_getLast (cons_ne_nil first rest)]
  exact getLast_mem _

theorem safe_propertyType : Safe text ts p n n (fun _ => True) propertyType := by
  refine safe_sees.bind fun _ _ => .ite (fun _ => ?_) fun _ => ?_
  · refine safe_take.bind fun _ _ => safe_dottedName.weak.bind fun type _ => ?_
    refine (Safe.many (A := fun _ => True) fun n => ?_).discard.bind fun _ _ => .pure trivial
    refine seesIdentifier_answers.bind fun b => .ite (fun hb => .of_ok fun r hr => ?_) fun _ =>
      SafeRound.stop.pre fun _ hr => hr.1
    obtain ⟨t, hsees, ht⟩ := hr.2 hb
    obtain ⟨r', hrun, hr'⟩ := hr.1.exists_advance hsees ht
    exact ⟨_, r', map_eq hrun, .some trivial hr'⟩
  · refine safe_group fun _ => safe_seesIdentifier.bind fun _ _ => ?_
    extract_lets typed
    have htyped (type : Option DottedName) : Safe text ts p n n (fun _ => True) (typed type) :=
      safe_group fun _ => .pure trivial
    exact .ite (fun _ => safe_dottedName.weak.map.bind fun type _ =>
      htyped type)
      fun _ => .pure_bind (htyped _)

theorem safe_property : Safe text ts p n (n - 1) (·.position.AtToken ts) (property text) := by
  refine safe_expectIdentifier.bind fun x hx => safe_propertyType.bind fun type _ =>
    safe_sees.bind fun _ _ => ?_
  extract_lets ended
  have hended (value : Option Text) : Safe text ts p (n - 1) (n - 1) (·.position.AtToken ts) (ended value) :=
    safe_lastLine.bind fun _ _ => safe_endStatement.bind fun _ _ => .pure ⟨x.1, hx, rfl⟩
  refine .ite (fun _ => ?_) fun _ => .pure_bind (hended _)
  exact safe_take.bind fun _ _ => safe_defaultValue.map.bind
    fun value _ => hended value

theorem safe_event : Safe text ts p n (n - 1) (·.position.AtToken ts) event :=
  safe_expectIdentifier.bind fun x hx => safe_lastLine.bind fun _ _ =>
    safe_endStatement.bind fun _ _ => .pure ⟨x.1, hx, rfl⟩

/-! ## Methods -/

theorem safe_names {ignored : Bool} : Safe text ts p n n (fun _ => True) (names b ignored what) := by
  refine (Safe.many (A := fun _ => True) fun n => ?_).bind fun found _ => .pure trivial
  refine safe_skipLines.bind fun _ _ => peek_answers.bind fun t => .assume fun ht => ?_
  have taken {k : TokenKind} (hkind : t.kind = k) (hk : k ≠ .eof) {o : Option Text} :
      Answers ts (fun r => Inside text ts p n r ∧ Sees t r) (do discard advance; pure (some o))
        (Round (fun _ => True) (Inside text ts p (n - 1)) (Inside text ts p n)) :=
    (take_answers (hkind ▸ hk)).bind fun _ => SafeRound.item trivial
  split
  · exact taken ‹_› (by simp)
  · exact taken ‹_› (by simp)
  · exact .ite (fun _ => taken ‹_› (by simp)) fun _ => .unexpected ht
  · exact .ite (fun _ => (safe_take.bind fun _ _ => SafeRound.stop).pre fun _ hr => hr.1) fun _ =>
      .unexpected ht

theorem safe_returnNames : Safe text ts p n n (fun _ => True) returnNames := by
  refine safe_sees.bind fun _ _ => .ite (fun _ => ?_) fun _ =>
    safe_peekSecond.bind fun _ _ => .ite (fun _ => ?_) fun _ => .pure trivial
  · exact safe_take.bind fun _ _ => safe_names.bind fun _ _ => safe_expect.bind fun _ _ => .pure trivial
  · exact safe_expectIdentifier.weak.bind fun _ _ => safe_take.bind fun _ _ => .pure trivial

theorem safe_signature : Safe text ts p n (n - 1) (fun _ => True) signature := by
  refine safe_returnNames.bind fun returns _ => safe_expectIdentifier.bind fun first _ =>
    (Safe.many safe_segment).bind fun rest _ => ?_
  refine safe_sees.bind fun _ _ => .ite (fun _ => ?_) fun _ => .pure_bind (.pure trivial)
  exact safe_take.bind fun _ _ => safe_names.bind fun params _ => .pure trivial

/-- The body of a function ends inside the stream. -/
theorem splitAtEnd_standsAt {inner : Nat} (h : TokenStream text ts)
    (hsuffix : us <:+ ts) (hne : us ≠ []) (hend : splitAtEnd limit name inner us = .error f) :
    f.StandsAt ts := by
  induction us generalizing inner with
  | nil => exact absurd rfl hne
  | cons t us ih =>
    obtain ⟨n, hkind, hkeep⟩ | ⟨-, hclose⟩ | ⟨cause, hcause, herror⟩ :=
      splitAtEnd_cons limit name inner t.kind
    · rw [hkeep t us rfl] at hend
      cases hrest : splitAtEnd limit name n us with
      | error e =>
        rw [hrest] at hend
        cases hend
        exact ih ((suffix_cons t us).trans hsuffix) (h.tail_ne_nil hsuffix hkind) hrest
      | ok x =>
        rw [hrest] at hend
        cases hend
    · cases (hclose t us rfl).symm.trans hend
    · cases (herror t us rfl).symm.trans hend
      exact ⟨hcause, t, hsuffix.subset mem_cons_self, rfl⟩

/-- A text is cut at tokens that stand in it one behind another. -/
theorem exists_cut {start stop : Nat} (h : TokenStream text ts)
    (hsub : List.Sublist us ts) (hstart : text.IsOffset start) (hstop : text.IsOffset stop)
    (hle : start ≤ stop) (hus : ∀ t ∈ us, start ≤ t.offset ∧ t.endOffset ≤ stop) :
    ∃ pieces, cut text stop start us = some pieces := by
  induction us generalizing start with
  | nil =>
    obtain ⟨part, hpart⟩ := exists_slice hstart hstop hle
    exact ⟨_, by rw [cut, hpart]; rfl⟩
  | cons t us ih =>
    have ht : t ∈ ts := hsub.subset mem_cons_self
    have hrest : List.Sublist us ts := (sublist_cons_self t us).trans hsub
    obtain ⟨hbefore, hend⟩ := hus t mem_cons_self
    rw [cut]
    split
    · exact ih hrest hstart hle fun u hu => hus u (mem_cons_of_mem t hu)
    · obtain ⟨code, hcode⟩ := exists_slice hstart (h.isOffset_offset ht) hbefore
      obtain ⟨pieces, hpieces⟩ := ih hrest (h.isOffset_endOffset ht) hend fun u hu =>
        ⟨rel_of_pairwise_cons (h.ordered.sublist hsub) hu, (hus u (mem_cons_of_mem t hu)).2⟩
      exact ⟨_, by rw [hcode, hpieces]; rfl⟩

/-- The code of a body starts behind its documentation, or behind the token
taken last, and is cut up to its `end`. -/
theorem Inside.exists_bodyCut {close : Token} (hr : Inside text ts p n r)
    (hlast : r.last = some last) (happend : r.ahead = tokens ++ close :: rest) :
    ∃ pieces, cut text close.offset (Body.start tokens r.last close) (tokens.drop (docLength none tokens)) =
      some pieces := by
  have hahead : r.ahead = tokens.take (docLength none tokens) ++
      (tokens.drop (docLength none tokens) ++ close :: rest) := by
    rw [← append_assoc, take_append_drop, happend]
  rw [Body.start]
  generalize tokens.take _ = doc, tokens.drop _ = code at hahead ⊢
  have hsuffix : doc ++ (code ++ close :: rest) <:+ ts := hahead ▸ hr.suffix
  obtain ⟨-, hcode, hdoc⟩ := pairwise_append.1 (hr.stream.ordered.sublist hsuffix.sublist)
  obtain ⟨before, hstart, hmem, hbefore⟩ : ∃ before, doc.getLast?.or r.last = some before ∧ before ∈ ts ∧
      ∀ u ∈ code ++ close :: rest, before.endOffset ≤ u.offset := by
    cases hend : doc.getLast? with
    | none => exact ⟨last, hlast, (hr.behind last hlast).1,
      fun u hu => (hr.behind last hlast).2 u (hahead ▸ mem_append_right doc hu)⟩
    | some t =>
      exact ⟨t, rfl, hsuffix.subset (mem_append_left _ (mem_of_getLast? hend)), hdoc t (mem_of_getLast? hend)⟩
  have hcodeSub : List.Sublist (code ++ close :: rest) ts :=
    (sublist_append_right doc _).trans hsuffix.sublist
  have hclose : close ∈ code ++ close :: rest := mem_append_right _ mem_cons_self
  rw [hstart, Option.map_some, Option.getD_some]
  refine exists_cut hr.stream ((sublist_append_left code _).trans hcodeSub)
    (hr.stream.isOffset_endOffset hmem)
    (hr.stream.isOffset_offset (hcodeSub.subset hclose)) (hbefore close hclose) fun u hu => ⟨?_, ?_⟩
  · exact hbefore u (mem_append_left _ hu)
  · exact (pairwise_append.1 hcode).2.2 u hu close mem_cons_self

theorem safe_body : Safe text ts True n n (fun _ => True) (body limit text name) := by
  refine .of_run fun r hr => ?_
  obtain ⟨last, hlast⟩ := hr.taken trivial
  rw [body_run]
  cases hsplit : splitAtEnd limit name 0 r.ahead with
  | error e => exact .inr ⟨e, rfl, splitAtEnd_standsAt hr.stream hr.suffix hr.ne_nil hsplit⟩
  | ok x =>
    obtain ⟨tokens, close, rest⟩ := x
    obtain ⟨happend, hkind, -⟩ := splitAtEnd_append hsplit
    obtain ⟨pieces, hpieces⟩ := hr.exists_bodyCut hlast happend
    have hrest : rest ≠ [] := by
      refine hr.stream.tail_ne_nil ((suffix_append tokens _).trans (happend ▸ hr.suffix)) ?_
      rw [hkind]
      rintro ⟨⟩
    simp only [bind, Except.bind, hpieces]
    exact .inl ⟨_, _, rfl, trivial, (hr.take happend hrest).weak⟩

theorem safe_functionMember :
    Safe text ts p n (n - 1) (·.position.AtToken ts) (functionMember limits text isAbstract) := by
  refine advance_taken.bind fun first => .assume fun hfirst => ?_
  have hrest :
      Safe text ts True n (n - 1) (·.position.AtToken ts) (functionRest limits text isAbstract first) := by
    refine safe_signature.bind fun s _ => safe_lastLine.bind fun _ _ =>
      safe_endHeader.bind fun _ _ => .ite (fun _ => ?_) fun _ => ?_
    · exact .pure_bind (.pure ⟨first, hfirst, rfl⟩)
    · exact safe_body.map.bind fun _ _ => .pure ⟨first, hfirst, rfl⟩
  exact hrest.mono fun _ _ hr => ⟨hr.1, { hr.2 with taken := fun _ => hr.2.taken trivial }⟩

theorem safe_prototype : Safe text ts p n (n - 1) (·.position.AtToken ts) (prototype isAbstract) :=
  safe_peek.bind fun first hfirst => safe_signature.bind fun _ _ =>
    safe_lastLine.bind fun _ _ => safe_endStatement.bind fun _ _ =>
    .pure ⟨first, hfirst, rfl⟩

/-! ## Blocks and classes -/

theorem safe_member? (n : Nat) :
    SafeRound text ts p n (·.position.AtToken ts) (member? limits text kind isAbstract) := by
  refine safe_skipLayout.bind fun _ _ => safe_peek.bind fun t ht => ?_
  split
  · exact safe_take.bind fun _ _ => SafeRound.stop
  · exact safe_functionMember.some_map
  · exact .refuse ht
  · exact safe_property.some_map
  · exact safe_event.some_map
  · exact safe_prototype.some_map
  · exact safe_prototype.some_map
  · exact .unexpected ht

end Read

/-- The attributes and the members of a block stand where tokens start. -/
structure Block.AtTokens (ts : List Token) (b : Block) : Prop where
  attributes : ∀ a ∈ b.attributes, a.position.AtToken ts
  members : ∀ m ∈ b.members, m.position.AtToken ts

structure ClassDecl.AtTokens (ts : List Token) (c : ClassDecl) : Prop where
  attributes : ∀ a ∈ c.attributes, a.position.AtToken ts
  blocks : ∀ b ∈ c.blocks, b.AtTokens ts

namespace Read

variable {limits : Limits}

theorem block_answers (ht : t.kind ≠ .eof) :
    Answers ts (fun r => Inside text ts p n r ∧ Sees t r) (block limits text kind) fun b r =>
    b.AtTokens ts ∧ Inside text ts p (n - 1) r :=
  (advance_answers ht).bind fun _ => safe_attributes.bind fun _ hattributes => safe_endHeader.bind fun _ _ =>
    (Safe.many safe_member?).bind fun _ hmembers => .pure ⟨hattributes, hmembers⟩

theorem safe_block? (n : Nat) : SafeRound text ts p n (·.AtTokens ts) (block? limits text name) := by
  refine safe_skipLayout.bind fun _ _ => peek_answers.bind fun t => .assume fun ht => ?_
  have declared {k : BlockKind} {w : Keyword} (hword : structural? t.kind = some w) :
      Answers ts (fun r => Inside text ts p n r ∧ Sees t r) (some <$> block limits text k)
        (Round (·.AtTokens ts) (Inside text ts p (n - 1)) (Inside text ts p n)) :=
    .some_map (block_answers (after_of_structural? hword).1)
  split
  · exact (safe_take.bind fun _ _ => SafeRound.stop).pre fun _ hr => hr.1
  · exact declared ‹_›
  · exact declared ‹_›
  · exact declared ‹_›
  · exact .refuse ht
  · exact .refuse ht
  · exact .refuse ht
  · exact .refuse ht
  · exact .unexpected ht

theorem safe_superclass? (n : Nat) : SafeRound text ts p n (fun _ => True) superclass? := by
  refine safe_peek.bind fun t _ => ?_
  extract_lets found
  have hfound (more : Bool) : SafeRound text ts p n (fun _ => True) (found more) :=
    .ite (fun _ => safe_skipLayout.bind fun _ _ => safe_dottedName.some_map) fun _ => SafeRound.stop
  split
  · exact safe_take.bind fun _ _ => .pure_bind (hfound _)
  · exact safe_take.bind fun _ _ => .pure_bind (hfound _)
  · refine Answers.bind (Q := fun _ r => Inside text ts p n r) (.of_ok fun r hr => ⟨r, r, rfl, hr⟩)
      fun r => ?_
    exact .pure_bind (hfound _)
  · exact .pure_bind (hfound _)

theorem safe_superclasses : Safe text ts p n n (fun _ => True) superclasses :=
  safe_sees.bind fun _ _ => .ite (fun _ => safe_take.bind fun _ _ => safe_dottedName.weak.bind fun _ _ =>
    (Safe.many safe_superclass?).bind fun _ _ => .pure trivial) fun _ => .pure trivial

theorem safe_localFunction? (n : Nat) :
    SafeRound text ts p n (fun _ => True) (localFunction? limits text) := by
  refine safe_skipLayout.bind fun _ _ => safe_peek.bind fun t ht => ?_
  split
  · exact SafeRound.stop
  · refine .ite (fun _ => ?_) fun _ => .refuse ht
    exact safe_functionMember.discard.bind fun _ _ => SafeRound.item trivial
  · exact .unexpected ht

theorem safe_classFile :
    Answers ts (Inside text ts p n) (classFile limits text) fun c _ => c.AtTokens ts := by
  refine safe_skipLayout.bind fun _ _ => safe_peek.bind fun t ht => ?_
  split
  · refine safe_take.bind fun _ _ => safe_attributes.bind fun attributes hattributes =>
      safe_expectIdentifier.bind fun name _ => ?_
    refine safe_superclasses.bind fun superclasses _ => safe_lastLine.bind fun _ _ =>
      safe_endHeader.bind fun _ _ => ?_
    refine (Safe.many safe_block?).bind fun blocks hblocks => ?_
    refine Answers.bind (Q := fun _ r => Inside text ts p (n - 1) r) (.of_ok fun r hr =>
      ⟨r, r, rfl, hr⟩) fun r => ?_
    exact (Safe.many safe_localFunction?).discard.bind fun _ _ => .of_ok fun r _ => ⟨_,
      r, rfl, hattributes, hblocks⟩
  · exact .bind_of_refused (.refuse ht)
  · exact .bind_of_refused (.refuse ht)

end Read

/-! ## Classes -/

theorem ClassDecl.position_of_accessorFault? {c : ClassDecl} {m : Member} (h : c.accessorFault? m = some f) :
    (∀ b, f.cause ≠ .broken b) ∧ f.position = m.position := by
  unfold ClassDecl.accessorFault? at h
  split at h
  · simp only at h
    split_ifs at h
    all_goals
      cases h
      exact ⟨by rintro _ ⟨⟩, rfl⟩
  · cases h

/-- A stream is read as a class, or refused at one of its tokens. -/
theorem ClassDecl.ofTokens_answers {ts : List Token} (h : TokenStream text ts) (limits : Limits) :
    (∃ c, ofTokens limits text ts = .ok c ∧ c.AtTokens ts) ∨
      ∃ f, ofTokens limits text ts = .error f ∧ f.StandsAt ts := by
  have hinside : Read.Inside text ts False ts.length ⟨ts, none, []⟩ := by
    refine ⟨h, suffix_rfl, ?_, le_rfl, by rintro _ ⟨⟩, False.elim⟩
    rintro rfl
    obtain ⟨e, ⟨⟩, -⟩ := h.last
  have hlast : ¬ts.getLast?.map (·.kind) ≠ some .eof := by
    obtain ⟨e, he, hkind, -⟩ := h.last
    simp [he, hkind]
  rw [ofTokens, if_neg hlast]
  cases hfile : Read.classFile limits text ⟨ts, none, []⟩ with
  | error f =>
    exact .inr
      ⟨f, by simp only [StateT.run, hfile, bind, Except.bind], Read.safe_classFile.standsAt hinside hfile⟩
  | ok x =>
    obtain ⟨c, r⟩ := x
    have hc : c.AtTokens ts := Read.safe_classFile.triple hinside hfile
    simp only [StateT.run, hfile, bind, Except.bind]
    cases hfault : c.members.findSome? c.accessorFault? with
    | none => exact .inl ⟨c, rfl, hc⟩
    | some f =>
      obtain ⟨m, hm, hf⟩ := exists_of_findSome?_eq_some hfault
      obtain ⟨b, hb, hm⟩ := mem_flatMap.1 hm
      obtain ⟨hcause, hposition⟩ := ClassDecl.position_of_accessorFault? hf
      exact .inr ⟨f, rfl, hcause, hposition ▸ (hc.blocks b hb).members m hm⟩

/-! ## The start of a stream -/

/-- The text before a token says whether the token leads its line. -/
theorem leadsLine_of_scan {t : Token} (h : scan text = .ok tokens) (ht : t ∈ tokens) :
    ∃ before, text.slice? 0 t.offset = some before ∧ t.leadsLine = isBlankEnd before := by
  obtain ⟨init, rest, rfl⟩ := append_of_mem ht
  obtain ⟨s, hchain, hyields⟩ := exists_yields_of_scan h
  obtain ⟨past, ahead, hcursor, rfl⟩ := (Scanner.over_start text).of_chain hchain
  rcases hyields with hdone | ⟨hitem, -⟩
  · obtain ⟨-, rfl, -⟩ := Scanner.ended_of_step hcursor hdone
    exact ⟨past ++ ahead, slice?_zero (append_nil _).symm rfl, rfl⟩
  · obtain ⟨gap, lexeme, hidden, after, rfl, htook⟩ := Scanner.took_of_step hcursor hitem
    rw [htook.token_eq]
    exact ⟨past ++ gap, slice?_zero (b := lexeme ++ hidden ++ after) (by simp only [append_assoc]) rfl, rfl⟩

theorem Body.docLength_le (previous : Option Nat) (ts : List Token) : docLength previous ts ≤ ts.length := by
  induction ts generalizing previous with
  | nil => exact Nat.le_refl 0
  | cons t ts ih =>
    rcases docLength_cons previous t ts with hzero | ⟨-, -, line, hle⟩
    · rw [hzero]
      exact Nat.zero_le _
    · exact hle.trans (Nat.succ_le_succ (ih line))

/-- Wherever what is scanned breaks off, reading it gives a class or refuses one of the tokens.
No token is looked for behind the end of file, no text is cut between offsets that do not
enclose a part of it, no bracket is closed that is not open, and no repetition goes on for ever.
The text before each token can be cut off, and the documentation of a body lies in the body. -/
theorem ClassDecl.ofTokens_take_answers {text : Text} {tokens : List Token}
    {e : Token} (h : scan text = .ok tokens) (he : tokens.getLast? = some e) (limits : Limits) (k : Nat) :
    ((∃ c, ClassDecl.ofTokens limits text (tokens.take k ++ [e]) = .ok c) ∨
      ∃ f, ClassDecl.ofTokens limits text (tokens.take k ++ [e]) = .error f ∧ (∀ b, f.cause ≠ .broken b) ∧
        ∃ t ∈ tokens.take k ++ [e], f.position = t.span.start) ∧
    (∀ t ∈ tokens.take k ++ [e], ∃ before,
      text.slice? 0 t.offset = some before ∧ t.leadsLine = Text.isBlankEnd before) ∧
    ∀ body : List Token, Body.docLength none body ≤ body.length := by
  refine ⟨?_, fun t ht => leadsLine_of_scan h ?_, docLength_le none⟩
  · obtain ⟨c, hc, -⟩ | ⟨f, hf, hcause, hposition⟩ :=
      ClassDecl.ofTokens_answers ((tokenStream_of_scan h).take he k) limits
    · exact .inl ⟨c, hc⟩
    · exact .inr ⟨f, hf, hcause, hposition⟩
  · rcases List.mem_append.1 ht with ht | ht
    · exact List.mem_of_mem_take ht
    · rw [List.mem_singleton.1 ht]
      exact List.mem_of_getLast? he

/-- A property with a size, which takes a nested bracket. -/
def sizedText : Text := "classdef A\nproperties\nx (1, (2)) double = 'é'\nend\nend\n"

/-- The size breaks off inside its brackets. -/
theorem ClassDecl.ofTokens_take_answers_sized :
    ∃ tokens e, scan sizedText = .ok tokens ∧ tokens.getLast? = some e ∧
    ClassDecl.ofTokens {} sizedText (tokens.take 11 ++ [e]) =
    .error ⟨.unexpectedEnd "closing bracket", ⟨6, 1⟩⟩ ∧
    ∃ t ∈ tokens.take 11 ++ [e], (⟨6, 1⟩ : Position) = t.span.start := by
  obtain ⟨tokens, hscan, e, he, hrun⟩ : ∃ tokens, scan sizedText = .ok tokens ∧ ∃ e,
      tokens.getLast? = some e ∧ ofTokens {} sizedText (tokens.take 11 ++ [e]) =
        .error ⟨.unexpectedEnd "closing bracket", ⟨6, 1⟩⟩ := by
    decide +kernel
  refine ⟨tokens, e, hscan, he, hrun, ?_⟩
  obtain ⟨c, hc⟩ | ⟨f, hf, -, hposition⟩ := (ClassDecl.ofTokens_take_answers hscan he {} 11).1
  · cases hrun.symm.trans hc
  · cases hrun.symm.trans hf
    exact hposition

/-- The tokens of another text are found out. -/
example : (scan sizedText).toOption.map (ofTokens {} [] ·) = some (.error ⟨.broken .slice, ⟨3, 21⟩⟩) := by
  decide +kernel

end ClassdefDoc
