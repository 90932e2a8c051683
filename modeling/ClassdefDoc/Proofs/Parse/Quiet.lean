import ClassdefDoc.Class.Parse
import ClassdefDoc.Proofs.Parse.Walk

/-!
# What headers and declarations pass over

A header or a declaration passes comments only inside brackets (`Quiet`): a comment
outside brackets ends it. `Read.Moved` says that a reader has come to its place over such
tokens and has recorded no comment, and `Read.Landed` that it also stands directly behind
the token it took last. There is one triple for each reading function that is part of a
header or a declaration, which says as well that the names it reads are identifiers.
-/

namespace ClassdefDoc

open List Name TokenKind

/-- A walk on which comments stand inside brackets. -/
abbrev Quiet : List Bracket → List Token → List Bracket → Prop := Walk isComment

/-- Continuations are passed everywhere. -/
theorem Quiet.continuations (stack : List Bracket) (ts : List Token) :
    Quiet stack (ts.takeWhile (·.kind.isContinuation)) stack := by
  refine Walk.continuations (fun k hk => ?_) stack fun t ht => by simpa using mem_takeWhile_imp ht
  cases k <;> first | rfl | cases hk

/-- A walk inside more brackets; comments are among the tokens that stand
inside brackets, unless others are open anyway. -/
theorem Walk.quiet {p : TokenKind → Bool} {inner inner' stack : List Bracket} {ts : List Token}
    (h : Walk p inner ts inner') (hcomments : stack = [] → ∀ k : TokenKind, k.isComment → p k) :
    Quiet (inner ++ stack) ts (inner' ++ stack) := by
  induction h with
  | nil => exact .nil
  | cons hp hafter _ ih =>
    refine .cons (fun hcomment hnone => ?_) (Bracket.after_append hafter stack) ih
    obtain ⟨hinner, hstack⟩ := append_eq_nil_iff.1 hnone
    exact hp (hcomments hstack _ hcomment) hinner

/-- Every segment is an identifier. -/
def DottedName.IsValid (n : DottedName) : Prop := ∀ w ∈ n.segments, isIdentifier w

structure Signature.WellFormed (s : Read.Signature) : Prop where
  name : ∃ n : DottedName, n.IsValid ∧ s.name = n.dotted
  params : ∀ p ∈ s.params, isIdentifier p ∨ p = ['~']
  returns : ∀ p ∈ s.returns, isIdentifier p
  accessor : ∀ a ∈ s.accessor, isIdentifier a.property

/-- An identifier is a dotted name of one segment. -/
theorem DottedName.exists_of_isIdentifier {w : Text} (h : isIdentifier w) :
    ∃ n : DottedName, n.IsValid ∧ w = n.dotted :=
  ⟨⟨[w]⟩, by simpa [IsValid] using h, by simp [dotted]⟩

namespace Read

variable {α : Type} {text what : Text} {stack₀ stack stack' : List Bracket} {r₀ r r' : Reader} {t : Token}
  {ts : List Token} {P : Reader → Prop} {k : TokenKind} {b : Bracket}

/-- From `r₀`, where the brackets `stack₀` are open, the reader has come to
a place of `text` over quiet tokens. -/
structure Moved (text : Text) (stack₀ : List Bracket) (r₀ : Reader) (stack : List Bracket) (r : Reader) :
    Prop where
  place : At text stack r
  exists_run : ∃ run, r₀.ahead = run ++ r.ahead ∧ Quiet stack₀ run stack
  comments : r.comments = r₀.comments

theorem Moved.refl (h : At text stack r) : Moved text stack r stack r := ⟨h, ⟨[], rfl, .nil⟩, rfl⟩

theorem Moved.trans {r₁ : Reader} (h : Moved text stack₀ r₀ stack r₁) (h' : Moved text stack r₁ stack' r) :
    Moved text stack₀ r₀ stack' r := by
  obtain ⟨run, hrun, hquiet⟩ := h.exists_run
  obtain ⟨run', hrun', hquiet'⟩ := h'.exists_run
  exact ⟨h'.place, ⟨run ++ run', by rw [hrun, hrun', append_assoc], hquiet.append hquiet'⟩,
    h'.comments.trans h.comments⟩

/-- The reader has moved and stands directly behind the token it took last. -/
structure Landed (text : Text) (stack₀ : List Bracket) (r₀ : Reader)
    (stack : List Bracket) (r : Reader) : Prop
    extends Moved text stack₀ r₀ stack r where
  after : After text stack r

/-- What is read wherever a reader has moved is read everywhere. -/
theorem after_of_landed {A : α → Prop} {x : Read α}
    (h : ∀ stack₀ r₀, Triple (Moved text stack₀ r₀ stack) x fun a r => A a ∧ Landed text stack₀ r₀ stack' r) :
    Triple (At text stack) x fun a r => A a ∧ After text stack' r := by
  intro r a r' hr hrun
  obtain ⟨ha, hlanded⟩ := h stack r (.refl hr) hrun
  exact ⟨ha, hlanded.after⟩

theorem continuations_append (ts : List Token) :
    ts.takeWhile (·.kind.isContinuation) ++ significant ts = ts :=
  takeWhile_append_dropWhile

theorem take_moved (hkind : k ≠ .eof) (hcomment : k.isComment → stack ≠ [])
    (hafter : Bracket.after stack k = some stack') :
    Triple (fun r => Moved text stack₀ r₀ stack r ∧ SeesKind k r) advance fun _ r =>
    Landed text stack₀ r₀ stack' r := by
  rintro r a r' ⟨hr, t, hsees, rfl⟩ hrun
  have hlast := advance_kind_spec hkind hafter ⟨hr.place, t, hsees, rfl⟩ hrun
  obtain ⟨rest, hrest, hahead⟩ := hr.place.sees hsees
  obtain ⟨u, us, rfl⟩ := exists_cons_of_ne_nil (hahead.tail hkind hafter).ne_nil
  rw [advance_eq hrest] at hrun
  cases hrun
  refine ⟨hr.trans ⟨hlast.at, ⟨r.ahead.takeWhile (·.kind.isContinuation) ++ [a], ?_, ?_⟩, rfl⟩, hlast⟩
  · rw [append_assoc, singleton_append, ← hrest, continuations_append]
  · exact (Quiet.continuations stack r.ahead).append (.single hcomment hafter)

section

variable (hkind : k ≠ .eof) (hcomment : k.isComment = false) (hafter : Bracket.after stack k = some stack')
include hkind hcomment hafter

theorem discard_moved
    :
    Triple (fun r => Moved text stack₀ r₀ stack r ∧ SeesKind k r) (discard advance) fun _ r =>
    Landed text stack₀ r₀ stack' r :=
  .discard (take_moved hkind (by simp [hcomment]) hafter)

/-- A token is taken if it is next. -/
theorem ifSees_moved {f : Unit → Read α} {y : Read α} {Q : α → Reader → Prop}
    (hf : ∀ u, Triple (Landed text stack₀ r₀ stack') (f u) Q) (hy : Triple (Moved text stack₀ r₀ stack) y Q) :
    Triple (Moved text stack₀ r₀ stack) (do if ← sees k then discard advance >>= f else y) Q :=
  .ifSees ((discard_moved hkind hcomment hafter).bind hf) hy

end

theorem skipLines_moved (hstack : stack ≠ []) :
    Triple (Moved text stack₀ r₀ stack) skipLines fun _ r => Moved text stack₀ r₀ stack r := by
  have hkinds (k : TokenKind) (hk : isLineLayout k) : k ≠ .eof ∧ Bracket.after stack k = some stack := by
    unfold isLineLayout at hk
    split at hk <;> simp_all [Bracket.after]
  intro r _ r' hr hrun
  cases hrun
  refine hr.trans ⟨hr.place.dropWhile hkinds,
    ⟨r.ahead.takeWhile (isLineLayout ·.kind), ?_, .of_forall fun t ht => ⟨fun _ => hstack, ?_⟩⟩, rfl⟩
  · exact takeWhile_append_dropWhile.symm
  · exact (hkinds _ (by simpa using mem_takeWhile_imp ht)).2

theorem expectIdentifier_moved : Triple (Moved text stack₀ r₀ stack) (expectIdentifier what)
    fun x r => isIdentifier x.2 ∧ Landed text stack₀ r₀ stack r := by
  refine .identifier fun t w hkind r a r' hr hrun => ?_
  obtain ⟨rest, -, hahead⟩ := hr.1.place.sees hr.2
  exact ⟨hahead.isIdentifier hkind, (take_moved (by simp) (by simp [isComment]) rfl).seen hkind hr hrun⟩

theorem expectIdentifier_spec : Triple (At text stack) (expectIdentifier what)
    fun x r => isIdentifier x.2 ∧ After text stack r :=
  after_of_landed fun _ _ => expectIdentifier_moved

theorem expect_moved (hk : k ≠ .eof) (hcomment : k.isComment = false)
    (hafter : Bracket.after stack k = some stack') :
    Triple (Moved text stack₀ r₀ stack) (expect k what) fun _ r => Landed text stack₀ r₀ stack' r :=
  peek_spec.bind fun _ => .ite (discard_moved hk hcomment hafter).seen fun _ => .unexpected

theorem segment_moved :
    Triple (Landed text stack₀ r₀ stack) (segment what)
    (Round (isIdentifier ·) (Landed text stack₀ r₀ stack) (Landed text stack₀ r₀ stack)) := by
  refine .ifSees (((discard_moved (by simp) rfl rfl).pre fun _ hr => hr.imp_left Landed.toMoved).bind
    fun _ => ?_)
    (.pure fun _ hr => .none hr)
  exact (expectIdentifier_moved.pre fun _ hr => hr.toMoved).bind fun x => .pure fun _ hr => .some hr.1 hr.2

theorem dottedName_moved : Triple (Moved text stack₀ r₀ stack) (dottedName what)
    fun n r => n.IsValid ∧ Landed text stack₀ r₀ stack r := by
  refine expectIdentifier_moved.bind fun x => .assume fun hx =>
    (Triple.many segment_moved).bind fun ws => .pure fun _ hr => ?_
  exact ⟨forall_mem_cons.2 ⟨hx, hr.1⟩, hr.2⟩

/-! ## Expressions and groups -/

/-- An expression passes comments inside brackets only, if it stops at those outside. -/
theorem takeExpression_moved {stops : TokenKind → Bool}
    (hstops : ∀ b ∈ stack.head?, stops (.delimiter (.closing b)))
    (hcomments : stack = [] → ∀ k : TokenKind, k.isComment → stops k) :
    Triple (Moved text stack₀ r₀ stack) (takeExpression stops) fun _ r => Moved text stack₀ r₀ stack r := by
  have hp (k : TokenKind) (hk : (stack.isEmpty && k.isComment)) : stops k ∧ k.isContinuation = false := by
    obtain ⟨hstack, hcomment⟩ := Bool.and_eq_true_iff.1 hk
    refine ⟨hcomments (List.isEmpty_iff.1 hstack) k hcomment, ?_⟩
    cases k <;> first | rfl | cases hcomment
  intro r a r' hr hrun
  obtain ⟨run, stop, rest, hexpression, hahead, -, hwalk, hrest⟩ := walk_expression [] hp hstops hr.place
  have hleft : (expression stops 0 r.ahead).2 = stop :: rest := congrArg Prod.snd hexpression
  cases hrun
  refine hr.trans ⟨?_, ⟨run, ?_, hwalk.quiet fun hstack k hk => by simp [hstack, hk]⟩, rfl⟩
  · rwa [At, hleft]
  · rw [hleft, hahead]

theorem skipGroup_moved :
    Triple (fun r => Moved text stack₀ r₀ stack r ∧ SeesKind (.delimiter (.opening b)) r) skipGroup
      fun _ r => Moved text stack₀ r₀ stack r := by
  rintro r _ r' ⟨hr, hsees⟩ hrun
  obtain ⟨run, hahead, hwalk, hat⟩ :=
    walk_skipGroup isComment (by rintro ⟨⟩ ⟨⟩ <;> rfl) rfl hr.place hsees hrun
  exact hr.trans ⟨hat, ⟨run, hahead, hwalk.quiet fun _ _ hk => hk⟩, comments_of_skipGroup hrun⟩

/-! ## Attribute lists -/

theorem textOf_spec {first last : Token} : Triple P (textOf text first last) fun _ r => P r := by
  unfold textOf
  split
  · exact .pure fun _ hr => hr
  · exact .refuse

theorem attributeValue_moved :
    Triple (Moved text stack₀ r₀ (.paren :: stack)) (attributeValue text)
      fun _ r => Moved text stack₀ r₀ (.paren :: stack) r := by
  refine Triple.bind (takeExpression_moved (by simp [endsAttribute]) fun h => absurd h (cons_ne_nil _ _))
    fun tokens => ?_
  refine peek_spec.bind fun next => .ite (fun _ => .refuse_bind) fun _ => ?_
  split
  · exact textOf_spec.bind fun _ => .pure fun _ hr => hr.1
  · exact .unexpected

/-- A round that keeps the place. -/
abbrev MovedRound (text : Text) (stack₀ : List Bracket) (r₀ : Reader) (stack stack' : List Bracket) :
    Option α → Reader → Prop :=
  Round (fun _ => True) (Moved text stack₀ r₀ stack) (Moved text stack₀ r₀ stack')

theorem attributeItem?_moved :
    Triple (Moved text stack₀ r₀ (.paren :: stack)) (attributeItem? text)
      (MovedRound text stack₀ r₀ (.paren :: stack) stack) := by
  have hlines : Triple (Moved text stack₀ r₀ (.paren :: stack)) skipLines
      fun _ r => Moved text stack₀ r₀ (.paren :: stack) r := skipLines_moved (cons_ne_nil _ _)
  refine hlines.bind fun _ => ifSees_moved (by simp) rfl rfl (fun _ => .pure fun _ hr => .none hr.toMoved) ?_
  refine sees_spec.bind fun negated => ?_
  extract_lets item
  have hitem (x : Unit) : Triple (Moved text stack₀ r₀ (.paren :: stack)) (item x)
      (MovedRound text stack₀ r₀ (.paren :: stack) stack) := by
    refine expectIdentifier_moved.bind fun x => (hlines.pre fun _ hr => hr.2.toMoved).bind fun _ =>
      sees_spec.bind fun assigned => ?_
    extract_lets separated
    have hseparated (v : AttributeValue) : Triple (Moved text stack₀ r₀ (.paren :: stack)) (separated v)
        (MovedRound text stack₀ r₀ (.paren :: stack) stack) := by
      refine hlines.bind fun _ => peek_spec.bind fun separator => ?_
      refine .ite (fun hkind => ?_) fun _ => .ite (fun _ => .unexpected_bind) fun _ => ?_
      · exact ((discard_moved (by simp) rfl rfl).pre fun r hr => ⟨hr.1, separator, hr.2, hkind⟩).bind
          fun _ => .pure fun _ hr => .some trivial hr.toMoved
      · exact .pure fun _ hr => .some trivial hr.1
    refine .ite (fun h => ?_) fun _ => (Triple.pure fun _ hr => hr.1).bind hseparated
    refine ((discard_moved (by simp) rfl rfl).pre fun r hr => ⟨hr.1, hr.2 (by simp_all)⟩).bind fun _ => ?_
    exact (hlines.pre fun _ hr => hr.toMoved).bind fun _ => attributeValue_moved.bind hseparated
  refine .ite (fun h => ?_) fun _ => (hitem ()).pre fun _ hr => hr.1
  exact ((discard_moved (by simp) rfl rfl).pre fun r hr => ⟨hr.1, hr.2 h⟩).bind fun x =>
    (hitem x).pre fun _ hr => hr.toMoved

theorem attributes_moved :
    Triple (Moved text stack₀ r₀ stack) (attributes text) fun _ r => Moved text stack₀ r₀ stack r :=
  ifSees_moved (by simp) rfl rfl (fun _ =>
    (Triple.many attributeItem?_moved).weaken (fun _ hr => hr.toMoved) fun _ _ hr => hr.2)
    (.pure fun _ hr => hr)

theorem attributes_spec : Triple (At text stack) (attributes text) fun _ r => At text stack r :=
  fun _ _ _ hr hrun => (attributes_moved (.refl hr) hrun).place

/-! ## Properties -/

theorem defaultValue_moved :
    Triple (Moved text stack₀ r₀ []) (defaultValue text) fun _ r => Moved text stack₀ r₀ [] r := by
  have hcomments (k : TokenKind) (hk : k.isComment) : endsValue k := by
    cases k <;> first | rfl | cases hk
  refine peek_spec.bind fun first => .ite (fun _ => .unexpected_bind) fun _ => ?_
  exact ((takeExpression_moved (by simp) fun _ => hcomments).pre fun _ hr => hr.1).bind fun tokens =>
    textOf_spec

/-- Kinds of the tokens that a property's type is made of, but for its groups. -/
def isTypePart : TokenKind → Bool
  | .identifier _ | .operator .dot | .operator .atSign => true
  | _ => false

/-- What is kept where a part of a type is taken and where a group is skipped
is kept where the type is read, and its words are such as are seen. -/
theorem propertyType_keeps {I : Reader → Prop} {V : Text → Prop}
    (hword : ∀ r w, I r → SeesKind (.identifier w) r → V w)
    (htake : ∀ k, isTypePart k → Triple (fun r => I r ∧ SeesKind k r) advance fun _ r => I r)
    (hgroup : ∀ b, Triple (fun r => I r ∧ SeesKind (.delimiter (.opening b)) r) skipGroup fun _ r => I r) :
    Triple I propertyType fun type r => (∀ n ∈ type, ∀ w ∈ n.segments, V w) ∧ I r := by
  have hpart {k : TokenKind} (hk : isTypePart k) :
      Triple (fun r => I r ∧ SeesKind k r) (discard advance) fun _ r => I r := .discard (htake k hk)
  have hname {what : Text} : Triple I (expectIdentifier what) fun x r => V x.2 ∧ I r := by
    refine .identifier fun t w hkind r a r' hr hrun => ?_
    exact ⟨hword r w hr.1 ⟨t, hr.2, hkind⟩, (htake _ rfl).seen hkind hr hrun⟩
  have hdotted {what : Text} : Triple I (dottedName what) fun n r => (∀ w ∈ n.segments, V w) ∧ I r := by
    refine hname.bind fun x => .assume fun hx => (Triple.many (A := V) (I := I) (R := I) ?_).bind
      fun _ => .pure fun _ hr => ⟨forall_mem_cons.2 ⟨hx, hr.1⟩, hr.2⟩
    refine .ifSees ((hpart rfl).bind fun _ => hname.bind fun _ => ?_) (.pure fun _ hr => .none hr)
    exact .pure fun _ hr => .some hr.1 hr.2
  refine .ifSees ?_ ?_
  · refine (hpart rfl).bind fun _ => hdotted.bind fun n => .assume fun hn => ?_
    refine Triple.bind (Q := fun _ r => I r)
      (.discard ((Triple.many (A := fun _ => True) (R := I) ?_).mono fun _ _ hr => hr.2))
      fun _ => .pure fun _ hr => ⟨fun _ h => Option.some.inj h ▸ hn, hr⟩
    refine seesIdentifier_spec.bind fun b => .ite (fun hb => .map ?_) fun _ => .pure fun _ hr => .none hr.1
    rintro r t r' ⟨hr, hsees⟩ hrun
    obtain ⟨w, hw⟩ := hsees hb
    exact .some trivial (htake _ rfl ⟨hr, hw⟩ hrun)
  · refine sees_spec.bind fun paren => ?_
    refine .when (R := I) (fun h => (hgroup _).pre fun _ hr => ⟨hr.1, hr.2 h⟩) (fun _ _ hr => hr.1) ?_
    refine seesIdentifier_spec.bind fun b => ?_
    extract_lets typed
    have htyped (type : Option DottedName) :
        Triple (fun r => (∀ n ∈ type, ∀ w ∈ n.segments, V w) ∧ I r) (typed type)
        fun type r => (∀ n ∈ type, ∀ w ∈ n.segments, V w) ∧ I r := by
      refine .assume fun htype => sees_spec.bind fun brace => ?_
      exact .when (R := I) (fun h => (hgroup _).pre fun _ hr =>
        ⟨hr.1, hr.2 h⟩) (fun _ _ hr => hr.1) (.pure fun _ hr => ⟨htype, hr⟩)
    refine .ite (fun _ => ?_) fun _ => (Triple.pure fun _ hr => ⟨(by rintro _ ⟨⟩), hr.1⟩).bind htyped
    exact Triple.bind (.map (hdotted.weaken (fun _ hr => hr.1) fun n _ hr =>
      ⟨fun _ h => Option.some.inj h ▸ hr.1, hr.2⟩)) htyped

theorem propertyType_moved : Triple (Moved text stack₀ r₀ []) propertyType
    fun type r => (∀ n ∈ type, n.IsValid) ∧ Moved text stack₀ r₀ [] r := by
  refine propertyType_keeps (fun r w hr hw => ?_) (fun k hk => ?_) fun _ => skipGroup_moved
  · obtain ⟨t, hsees, hkind⟩ := hw
    obtain ⟨rest, -, hahead⟩ := hr.place.sees hsees
    exact hahead.isIdentifier hkind
  · cases k with
    | identifier | operator =>
      exact (take_moved (by simp) (by simp [isComment]) rfl).mono fun _ _ hr => hr.toMoved
    | _ => cases hk

/-! ## Signatures -/

/-- A name between brackets. -/
def IsListed (ignored : Bool) (w : Text) : Prop := isIdentifier w ∨ (ignored ∧ w = ['~'])

theorem names_moved {ignored : Bool} :
    Triple (Moved text stack₀ r₀ (b :: stack)) (names b ignored what)
    fun ws r => (∀ w ∈ ws, IsListed ignored w) ∧ Landed text stack₀ r₀ stack r := by
  refine (Triple.many (A := fun o => ∀ w ∈ o, IsListed ignored w) (I := Moved text stack₀ r₀ (b :: stack))
    (R := Landed text stack₀ r₀ stack) ?_).bind fun found => .pure fun _ hr => ⟨?_, hr.2⟩
  · refine (skipLines_moved (cons_ne_nil _ _)).bind fun _ => peek_spec.bind fun t => ?_
    have taken {k : TokenKind} (hkind : t.kind = k) (hk : k ≠ .eof) (hcomment : k.isComment = false)
        (hafter : Bracket.after (b :: stack) k = some (b :: stack)) {o : Option Text} (ho : ∀ w ∈ o,
          IsListed ignored w) :
        Triple (fun r => Moved text stack₀ r₀ (b :: stack) r ∧ Sees t r) (do discard advance; pure (some o))
          (Round (fun o => ∀ w ∈ o, IsListed ignored w) (Moved text stack₀ r₀ (b :: stack))
            (Landed text stack₀ r₀ stack)) :=
      ((discard_moved hk hcomment hafter).seen hkind).bind fun _ => .pure fun _ hr => .some ho hr.toMoved
    split
    · exact taken ‹_› (by simp) rfl rfl (by rintro _ ⟨⟩)
    · rename_i w hkind
      intro r o r' hr hrun
      obtain ⟨rest, -, hahead⟩ := hr.1.place.sees hr.2
      exact taken hkind (by simp) rfl rfl (fun _ h =>
        Option.some.inj h ▸ .inl (hahead.isIdentifier hkind)) hr hrun
    · rename_i hkind
      refine .ite (fun hignored => ?_) fun _ => .unexpected
      exact taken hkind (by simp) rfl rfl fun _ h => .inr ⟨hignored, (Option.some.inj h).symm⟩
    · refine .ite (fun hkind => ?_) fun _ => .unexpected
      exact ((discard_moved (by simp) rfl (by simp [Bracket.after])).seen hkind).bind
        fun _ => .pure fun _ hr => .none hr
  · intro w hw
    obtain ⟨o, ho, rfl⟩ := mem_filterMap.1 hw
    exact hr.1 _ ho w rfl

/-- Behind an identifier the reader sees the token that was second. -/
theorem expectIdentifier_second {u : Token} {rest : List Token}
    {x : Token × Text} (hahead : significant r.ahead = u :: rest)
    (ht : t = (significant rest).headD u) (hkind : t.kind = .operator .assign)
    (hrun : expectIdentifier what r = .ok (x, r')) : Sees t r' := by
  have hident : ∃ w, u.kind = .identifier w := by
    rw [expectIdentifier, bind_eq (peek_eq (by rw [hahead]; rfl))] at hrun
    cases hu : u.kind with
    | identifier w => exact ⟨w, rfl⟩
    | _ =>
      simp only [hu] at hrun
      exact absurd hrun not_unexpected
  obtain ⟨w, hw⟩ := hident
  cases rest with
  | nil => simp_all [significant]
  | cons v rest =>
    rw [expectIdentifier_eq hahead hw] at hrun
    cases hrun
    cases hsig : significant (v :: rest) with
    | nil =>
      rw [hsig] at ht
      simp_all
    | cons a as =>
      rw [hsig] at ht
      rw [Sees, hsig, ht]
      rfl

theorem peekSecond_spec : Triple P peekSecond fun t r =>
    P r ∧ ∃ u rest, significant r.ahead = u :: rest ∧ t = (significant rest).headD u := by
  intro r t r' hr hrun
  obtain ⟨rfl, hsecond⟩ := of_peekSecond hrun
  exact ⟨hr, hsecond⟩

theorem returnNames_moved : Triple (Moved text stack₀ r₀ stack) returnNames
    fun ws r => (∀ w ∈ ws, isIdentifier w) ∧ Moved text stack₀ r₀ stack r := by
  refine ifSees_moved (by simp) rfl rfl (fun _ => ?_) ?_
  · refine (names_moved.pre fun _ hr => hr.toMoved).bind fun ws => .assume fun hws => ?_
    refine ((expect_moved (by simp) rfl rfl).pre fun _ hr => hr.toMoved).bind fun _ =>
      .pure fun _ hr => ⟨?_, hr.toMoved⟩
    intro w hw
    rcases hws w hw with h | ⟨h, -⟩
    · exact h
    · cases h
  · refine peekSecond_spec.bind fun t => .ite (fun hkind => ?_) fun _ => .pure fun _ hr => ⟨by simp, hr.1⟩
    refine Triple.bind (Q := fun x r => isIdentifier x.2 ∧ Moved text stack₀ r₀ stack r ∧ Sees t r) ?_
      fun x => .assume fun hx => ?_
    · rintro r x r' ⟨hr, u, rest, hahead, ht⟩ hrun
      obtain ⟨hx, hlanded⟩ := expectIdentifier_moved hr hrun
      exact ⟨hx, hlanded.toMoved, expectIdentifier_second hahead ht hkind hrun⟩
    · exact ((discard_moved (by simp) rfl rfl).seen hkind).bind fun _ =>
        .pure fun _ hr => ⟨by simpa using hx, hr.toMoved⟩

theorem property_of_accessorOf {ws : List Text} {a : Accessor} (h : accessorOf ws = some a) :
    a.property ∈ ws := by
  unfold accessorOf at h
  split at h
  · split_ifs at h <;> (cases h; simp)
  · cases h

theorem signature_moved : Triple (Moved text stack₀ r₀ []) signature
    fun s r => Signature.WellFormed s ∧ Landed text stack₀ r₀ [] r := by
  refine returnNames_moved.bind fun returns => .assume fun hreturns => ?_
  refine expectIdentifier_moved.bind fun first => .assume fun hfirst => ?_
  refine (Triple.many segment_moved).bind fun rest => .assume fun hrest => ?_
  have hall : ∀ w ∈ first.2 :: rest, isIdentifier w := forall_mem_cons.2 ⟨hfirst, hrest⟩
  have haccessor : ∀ a ∈ accessorOf (first.2 :: rest), isIdentifier a.property :=
    fun a ha => hall _ (property_of_accessorOf ha)
  have hname : ∃ n : DottedName, n.IsValid ∧ ((accessorOf (first.2 :: rest)).map (·.property)).getD
      (Text.joinWith "." (first.2 :: rest)) = n.dotted := by
    cases ha : accessorOf (first.2 :: rest) with
    | none => exact ⟨⟨first.2 :: rest⟩, hall, rfl⟩
    | some a => exact DottedName.exists_of_isIdentifier (haccessor a ha)
  refine .ifSees ?_ ?_
  · refine ((discard_moved (by simp) rfl rfl).pre fun _ hr => hr.imp_left Landed.toMoved).bind fun _ => ?_
    refine (names_moved.pre fun _ hr => hr.toMoved).bind fun params => .assume fun hparams => ?_
    refine .pure fun _ hr => ⟨⟨hname, fun p hp => ?_, hreturns, haccessor⟩, hr⟩
    exact (hparams p hp).imp_right And.right
  · refine (Triple.pure (Q := fun params r => params = [] ∧ Landed text stack₀ r₀ [] r) fun _ hr =>
      ⟨rfl, hr⟩).bind
      fun params => .assume fun hparams => .pure fun _ hr => ⟨⟨hname, ?_, hreturns, haccessor⟩, hr⟩
    simp [hparams]

theorem signature_spec : Triple (At text []) signature fun s r => Signature.WellFormed s ∧ After text [] r :=
  after_of_landed fun _ _ => signature_moved

end Read

end ClassdefDoc
