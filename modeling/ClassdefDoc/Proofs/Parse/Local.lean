import ClassdefDoc.Proofs.Parse.Course

/-!
# How far a reading looks ahead

A reading takes a run of tokens and looks no further than the first token behind them that is no layout.
So it does the same where other tokens follow that one: `Read.Local P E O x` says that a reading `x` which
succeeds goes the same way when the tokens behind its run are exchanged as `O` allows, that the tokens
ahead of it are then exchanged as `P` says, and that it takes the next token if its result has `E`. Mostly
`P` and `O` are `Resumes`: the tokens may change behind the first one that is no layout. Where a reading
ends with taking a token that is no layout, all that follows may change (`GoesOn`). The main result is
`local_classPart`: the class of a file does not depend on the tokens behind the `end` that closes it.
-/

namespace ClassdefDoc.Read

open List hiding modify

variable {s : Reader} {cause : Cause} {c : Prop} {name : Text}
  {b : Bracket} {ignored : Bool} {kind : BlockKind}

variable {α β : Type} {E : α → Prop} {O : α → List Token → List Token → Prop}
  {P : List Token → List Token → Prop} {isAbstract : Bool} {k : TokenKind} {limits : Limits}
  {p : TokenKind → Bool} {r : Reader} {t : Token} {text what : Text} {x : Read α}

/-- Two lists of tokens that start alike up to a token that is no layout, and go on behind it. -/
def Resumes (ts ts' : List Token) : Prop :=
  ∃ shared t us us', ts = shared ++ t :: us ∧ ts' = shared ++ t :: us' ∧
    isLayout t.kind = false ∧ us ≠ [] ∧ us' ≠ []

/-- Two lists of tokens that go on; a last token is the end of the file. -/
def GoesOn (ts ts' : List Token) : Prop := ts ≠ [] ∧ (∀ t, ts = [t] → t.kind = .eof) ∧ ts' ≠ []

variable {ts ts' : List Token}

theorem Resumes.append (h : Resumes ts ts') (run : List Token) : Resumes (run ++ ts) (run ++ ts') := by
  obtain ⟨shared, t, us, us', rfl, rfl, ht, hus, hus'⟩ := h
  exact ⟨run ++ shared, t, us, us', (append_assoc ..).symm, (append_assoc ..).symm, ht, hus, hus'⟩

theorem Resumes.ne_nil (h : Resumes ts ts') : ts' ≠ [] := by
  obtain ⟨shared, t, us, us', rfl, rfl, -⟩ := h
  simp

theorem Resumes.head? (h : Resumes ts ts') : ts'.head? = ts.head? := by
  obtain ⟨shared, t, us, us', rfl, rfl, -⟩ := h
  cases shared <;> rfl

/-- A single token does not go on. -/
theorem not_resumes_singleton : ¬Resumes [t] ts' := by
  rintro ⟨shared, u, us, us', h, -, -, hus, -⟩
  cases shared with
  | nil => exact hus (List.cons.inj h).2.symm
  | cons v shared => simp at h

/-- Layout in front is passed alike. -/
theorem Resumes.dropWhile (hp : ∀ k, p k → isLayout k) (h : Resumes ts ts') :
    Resumes (ts.dropWhile (p ·.kind)) (ts'.dropWhile (p ·.kind)) := by
  obtain ⟨shared, t, us, us', rfl, rfl, ht, hus, hus'⟩ := h
  have hstop : ¬p t.kind := fun h => by simp [hp _ h] at ht
  induction shared with
  | nil =>
    rw [nil_append, nil_append, dropWhile_cons, dropWhile_cons, if_neg hstop, if_neg hstop]
    exact ⟨[], t, us, us', rfl, rfl, ht, hus, hus'⟩
  | cons u shared ih =>
    rw [cons_append, cons_append, dropWhile_cons, dropWhile_cons]
    split_ifs
    · exact ih
    · exact ⟨u :: shared, t, us, us', rfl, rfl, ht, hus, hus'⟩

theorem isLayout_of_isContinuation (k : TokenKind) (h : k.isContinuation) : isLayout k := by
  cases k <;> first | rfl | cases h

theorem isLayout_of_passed (h : (k.isComment || k.isContinuation)) : isLayout k := by
  cases k <;> first | rfl | cases h

theorem isContinuation_of_not_isLayout (h : isLayout k = false) : k.isContinuation = false := by
  cases k with
  | continuation => cases h
  | _ => rfl

/-- The next token is the same in both. -/
theorem Resumes.significant (h : Resumes ts ts') : (significant ts').head? = (significant ts).head? :=
  (h.dropWhile isLayout_of_isContinuation).head?

theorem Resumes.goesOn (h : Resumes ts ts') : GoesOn ts ts' := by
  refine ⟨?_, ?_, h.ne_nil⟩
  · obtain ⟨shared, t, us, us', rfl, -⟩ := h
    simp
  · rintro t rfl
    exact absurd h not_resumes_singleton

/-- Kinds of tokens that belong to a header where they stand behind its first words. -/
def headerGoesOn (k : TokenKind) : Bool :=
  k == .operator .dot || k == .operator .assign || k == .delimiter (.opening .paren)

/-- Two lists of tokens that go on; a header goes on with the same token in both, or ends in both. -/
def Stops (ts ts' : List Token) : Prop :=
  GoesOn ts ts' ∧ ∃ t t', (significant ts).head? = some t ∧ (significant ts').head? = some t' ∧
  (t = t' ∨ headerGoesOn t.kind = false ∧ headerGoesOn t'.kind = false)

theorem Stops.goesOn (h : Stops ts ts') : GoesOn ts ts' := h.1

theorem Resumes.stops (h : Resumes ts ts') : Stops ts ts' := by
  refine ⟨h.goesOn, ?_⟩
  have hhead := h.significant
  obtain ⟨shared, t, us, us', hts, -⟩ := h.dropWhile isLayout_of_isContinuation
  have hsome : (Read.significant ts).head?.isSome := by
    rw [show Read.significant ts = shared ++ t :: us from hts]
    cases shared <;> rfl
  obtain ⟨u, hu⟩ := Option.isSome_iff_exists.1 hsome
  exact ⟨u, u, hu, hhead.trans hu, .inl rfl⟩

/-- The tokens behind the same ones are the same or stop a header as well. -/
theorem Stops.append (h : Stops ts ts') (run : List Token) :
    ∃ t t', (significant (run ++ ts)).head? = some t ∧ (significant (run ++ ts')).head? = some t' ∧
    (t = t' ∨ headerGoesOn t.kind = false ∧ headerGoesOn t'.kind = false) := by
  induction run with
  | nil => exact h.2
  | cons u run ih =>
    by_cases hu : u.kind.isContinuation
    · simpa only [significant, cons_append, dropWhile_cons, if_pos hu] using ih
    · rw [cons_append, cons_append, significant_cons (by simpa using hu),
        significant_cons (by simpa using hu)]
      exact ⟨u, u, rfl, rfl, .inl rfl⟩

/-! ## Readings -/

/-- From the reader `r` the reading takes a run of tokens, and the next
token if its result has `E`, and goes the same way if the tokens behind are
exchanged as `O` allows; all the tokens are then exchanged as `P` says. -/
def LocalAt (P : List Token → List Token → Prop) (E : α → Prop)
    (O : α → List Token → List Token → Prop) (x : Read α) (r : Reader) : Prop :=
  ∀ ⦃a s⦄, x r = .ok (a, s) → ∃ run, r.ahead = run ++ s.ahead ∧ ∀ ts, O a s.ahead ts →
    P r.ahead (run ++ ts) ∧ (E a → ∃ t ∈ run, t.kind.isContinuation = false) ∧
      x { r with ahead := run ++ ts } = .ok (a, { s with ahead := ts })

def Local (P : List Token → List Token → Prop) (E : α → Prop)
    (O : α → List Token → List Token → Prop) (x : Read α) : Prop :=
  ∀ ⦃r⦄, LocalAt P E O x r

/-- A reading that may take no token. -/
abbrev Near (x : Read α) : Prop := Local Resumes (fun _ => False) (fun _ => Resumes) x

/-- A reading that takes the next token. -/
abbrev Taking (x : Read α) : Prop := Local Resumes (fun _ => True) (fun _ => Resumes) x

/-- A round of a repetition, which takes the next token if it gives an item. -/
abbrev Turning (x : Read (Option α)) : Prop := Local Resumes (·.isSome) (fun _ => Resumes) x

namespace Local

variable {P Q : List Token → List Token → Prop} {E : α → Prop} {F : β → Prop}
  {O : α → List Token → List Token → Prop} {x : Read α} {f : α → Read β}
  {O' : β → List Token → List Token → Prop} {a : α} {step : Read (Option α)}

section

variable (h : Local P E O x)
include h

theorem conseq {E' : α → Prop} {O₁ : α → List Token → List Token → Prop} (hP : ∀ ts ts', P ts ts' → Q ts ts')
    (hE : ∀ a, E' a → E a) (hO : ∀ a ts ts', O₁ a ts ts' → O a ts ts') : Local Q E' O₁ x := by
  intro r a s hrun
  obtain ⟨run, hahead, hsame⟩ := h hrun
  refine ⟨run, hahead, fun ts hts => ?_⟩
  obtain ⟨hbefore, htakes, hgoes⟩ := hsame ts (hO a _ _ hts)
  exact ⟨hP _ _ hbefore, fun ha => htakes (hE a ha), hgoes⟩

theorem mono {E' : α → Prop} (hE : ∀ a, E' a → E a) : Local P E' O x :=
  h.conseq (fun _ _ => id) hE fun _ _ _ => id

theorem weaken {O₁ : α → List Token → List Token → Prop} (hO : ∀ a ts ts', O₁ a ts ts' → O a ts ts') :
    Local P E O₁ x :=
  h.conseq (fun _ _ => id) (fun _ => id) hO

theorem widen (hP : ∀ ts ts', P ts ts' → Q ts ts') : Local Q E O x :=
  h.conseq hP (fun _ => id) fun _ _ _ => id

theorem suffix (hrun : x r = .ok (a, s)) : s.ahead <:+ r.ahead := by
  obtain ⟨run, hahead, -⟩ := h hrun
  exact ⟨run, hahead.symm⟩

end

theorem near (h : Local Resumes E (fun _ => Resumes) x) : Near x := h.mono fun _ => False.elim

theorem pure (ha : ¬E a) : Local P E (fun _ => P) (Pure.pure a) := by
  rintro r _ s ⟨⟩
  exact ⟨[], rfl, fun ts hts => ⟨hts, fun h => absurd h ha, rfl⟩⟩

/-- The end of a round that gives an item. -/
theorem pure_some : Local P (fun _ => False) (fun o => if o.isSome then P else Q) (Pure.pure (some a)) := by
  rintro r _ s ⟨⟩
  exact ⟨[], rfl, fun ts hts => ⟨hts, False.elim, rfl⟩⟩

/-- One reading after another; the next token is taken by the first of them or by the second. -/
theorem seq {G : β → Prop} (hx : Local P E (fun _ => Q) x) (hf : ∀ a, Local Q G O' (f a))
    (hF : ∀ a b, F b → E a ∨ G b) :
    Local P F O' (x >>= f) := by
  intro r b s hrun
  obtain ⟨a, q, hrun, hrun'⟩ := bind_eq_ok_iff.1 hrun
  obtain ⟨run, hahead, hsame⟩ := hx hrun
  obtain ⟨run', hahead', hsame'⟩ := hf a hrun'
  refine ⟨run ++ run', by rw [hahead, hahead', append_assoc], fun ts hts => ?_⟩
  obtain ⟨hresumes', htakes', hgoes'⟩ := hsame' ts hts
  obtain ⟨hresumes, htakes, hgoes⟩ := hsame _ hresumes'
  rw [append_assoc]
  refine ⟨hresumes, fun hb => ?_, bind_eq_ok_iff.2 ⟨a, _, hgoes, hgoes'⟩⟩
  rcases hF a b hb with ha | hb
  · exact (htakes ha).imp fun _ ht => ⟨mem_append_left _ ht.1, ht.2⟩
  · exact (htakes' hb).imp fun _ ht => ⟨mem_append_right _ ht.1, ht.2⟩

theorem bind (hx : Local P (fun _ => False) (fun _ => Q) x) (hf : ∀ a, Local Q F O' (f a)) :
    Local P F O' (x >>= f) :=
  hx.seq hf fun _ _ => .inr

/-- A reading that takes a token first. -/
theorem first (hx : Local P (fun _ => True) (fun _ => Q) x) (hf : ∀ a, Local Q (fun _ => False) O' (f a)) :
    Local P F O' (x >>= f) :=
  hx.seq hf fun _ _ _ => .inl trivial

theorem map {g : α → β} (hx : Local P (fun a => F (g a)) (fun a => O' (g a)) x) : Local P F O' (g <$> x) := by
  intro r b s hrun
  obtain ⟨a, rfl, hstep⟩ := of_map hrun
  obtain ⟨run, hahead, hsame⟩ := hx hstep
  refine ⟨run, hahead, fun ts hts => ?_⟩
  obtain ⟨hresumes, htakes, hgoes⟩ := hsame ts hts
  exact ⟨hresumes, htakes, map_eq hgoes⟩

theorem discard {F : Unit → Prop} (hx : Local P (fun _ => F ()) (fun _ => Q) x) :
    Local P F (fun _ => Q) (Functor.discard x) :=
  map (g := Function.const α ()) hx

theorem refuse {p : Position} : Local P E O (Read.refuse cause p) := by
  rintro r a s ⟨⟩

theorem unexpected :
    Local P E O (Read.unexpected t what) := fun _ _ _ hrun => absurd hrun not_unexpected

theorem refuse_bind {p : Position} {f : β → Read α} : Local P E O (Read.refuse cause p >>= f) := by
  intro r a s hrun
  obtain ⟨b, q, ⟨⟩, -⟩ := bind_eq_ok_iff.1 hrun

theorem unexpected_bind {f : β → Read α} : Local P E O (Read.unexpected t what >>= f) := by
  unfold Read.unexpected
  split <;> exact refuse_bind

theorem ite [Decidable c] {y : Read α} (hx : Local P E O x) (hy : Local P E O y) :
    Local P E O (if c then x else y) := by
  split_ifs
  · exact hx
  · exact hy

/-- A step that is only taken under a condition. -/
theorem when [Decidable c] {y : Read Unit} {k : Unit → Read α}
    (hy : Local P (fun _ => False) (fun _ => P) y) (hk : Local P E O (k ())) :
    Local P E O (if c then y >>= k else k ()) :=
  ite (hy.bind fun _ => hk) hk

section

variable (h : Local P (·.isSome = true) (fun o => if o.isSome then P else Q) step)
include h

/-- The rounds of a second run; they are counted against the tokens that they take. -/
theorem rounds {as : List α} (hcollected : Collected (turn step) r as s) :
    ∃ run, r.ahead = run ++ s.ahead ∧ ∀ ts, Q s.ahead ts → P r.ahead (run ++ ts) ∧ as.length ≤ run.length ∧
      Collected (turn step) { r with ahead := run ++ ts } as { s with ahead := ts } := by
  induction hcollected with
  | @done r s hstep =>
    obtain ⟨run, hahead, hsame⟩ := h (stop_of_turn hstep)
    refine ⟨run, hahead, fun ts hts => ?_⟩
    obtain ⟨hresumes, -, hgoes⟩ := hsame ts hts
    exact ⟨hresumes, Nat.zero_le _, .done (by rw [turn, hgoes])⟩
  | @item r a next as s hstep _ ih =>
    obtain ⟨run', hahead', hsame'⟩ := ih
    obtain ⟨run, hahead, hsame⟩ := h (step_of_turn hstep)
    refine ⟨run ++ run', by rw [hahead, hahead', append_assoc], fun ts hts => ?_⟩
    obtain ⟨hresumes', hlength', hgoes'⟩ := hsame' ts hts
    obtain ⟨hresumes, htakes, hgoes⟩ := hsame _ hresumes'
    obtain ⟨t, ht, -⟩ := htakes rfl
    have := length_pos_of_mem ht
    rw [append_assoc]
    refine ⟨hresumes, ?_, .item (by rw [turn, hgoes]) hgoes'⟩
    simp only [length_cons, length_append]
    omega

/-- A repetition ends as its last round does. -/
theorem many : Local P (fun _ => False) (fun _ => Q) (Read.many step) := by
  intro r as s hrun
  obtain ⟨run, hahead, hsame⟩ := rounds h (turns_of_many hrun)
  refine ⟨run, hahead, fun ts hts => ?_⟩
  obtain ⟨hresumes, hlength, hagain⟩ := hsame ts hts
  -- the second run has a budget of its own
  refine ⟨hresumes, False.elim, hagain.collect_eq ?_⟩
  simp only [length_append]
  omega

end

end Local

theorem Turning.many {step : Read (Option α)} (h : Turning step) : Near (many step) :=
  Local.many fun r a s hrun => by
    obtain ⟨run, hahead, hsame⟩ := h hrun
    exact ⟨run, hahead, fun ts hts => hsame ts (by simpa using hts)⟩

/-- A round of a repetition that is closed by a token; it does not look behind that one. -/
abbrev Closing (x : Read (Option α)) : Prop :=
  Local Resumes (·.isSome = true) (fun o => if o.isSome then Resumes else GoesOn) x

theorem Closing.turning {x : Read (Option α)} (h : Closing x) : Turning x := by
  refine h.weaken fun o ts ts' hts => ?_
  split_ifs
  · exact hts
  · exact hts.goesOn

/-! ## Taking tokens -/

theorem near_peek : Near peek := by
  intro r t s hrun
  obtain ⟨rfl, hsees⟩ := of_peek hrun
  exact ⟨[], rfl, fun ts h => ⟨h, False.elim, peek_eq (h.significant.trans hsees)⟩⟩

/-- A reading that depends on the next token. -/
theorem Local.peek_bind {f : Token → Read α}
    (hf : ∀ t r, Sees t r → LocalAt Resumes E O (f t) r) : Local Resumes E O (peek >>= f) := by
  intro r b s hrun
  obtain ⟨t, q, hpeek, hrest⟩ := bind_eq_ok_iff.1 hrun
  obtain ⟨rfl, ht⟩ := of_peek hpeek
  obtain ⟨run, hahead, hsame⟩ := hf t q ht hrest
  refine ⟨run, hahead, fun ts h => ?_⟩
  obtain ⟨hresumes, htakes, hgoes⟩ := hsame ts h
  exact ⟨hresumes, htakes, bind_eq_ok_iff.2 ⟨t, _, peek_eq (hresumes.significant.trans ht), hgoes⟩⟩

/-- The tokens of a reader up to its next token. -/
theorem exists_continuations (ts : List Token) : ∃ passed, ts = passed ++ significant ts ∧
    ∀ us, (∀ t ∈ us.head?, t.kind.isContinuation = false) → significant (passed ++ us) = us := by
  refine ⟨ts.takeWhile (·.kind.isContinuation), takeWhile_append_dropWhile.symm, fun us hus => ?_⟩
  rw [significant, dropWhile_append_of_pos fun t => mem_takeWhile_imp]
  cases us with
  | nil => rfl
  | cons u us => exact significant_cons (hus u rfl) us

theorem taking_advance : Taking advance := by
  intro r t s hrun
  obtain ⟨passed, hahead, hskip⟩ := exists_continuations r.ahead
  have hcont := (advance_last hrun).1.isContinuation
  obtain ⟨hone, rfl⟩ | ⟨u, rest, hmore, rfl⟩ := of_advance hrun
  · exact ⟨passed, by rw [hahead, hone], fun ts h => absurd h not_resumes_singleton⟩
  · have hall : r.ahead = (passed ++ [t]) ++ u :: rest := by rw [hahead, hmore, append_assoc]; rfl
    refine ⟨passed ++ [t], hall, fun ts h => ⟨hall ▸ h.append _, fun _ => ⟨t, by simp, hcont⟩, ?_⟩⟩
    obtain ⟨v, vs, rfl⟩ := exists_cons_of_ne_nil h.ne_nil
    refine advance_eq ?_
    rw [append_assoc]
    exact hskip _ (by simpa using hcont)

theorem taking_take : Taking (discard advance) := taking_advance.discard

/-- A token that is no layout is taken without a look at what follows. -/
theorem localAt_take (ht : Sees t r) (hkind : isLayout t.kind = false ∧ t.kind ≠ .eof) :
    LocalAt Resumes (fun _ => True) (fun _ => GoesOn) (discard advance) r := by
  intro u s hrun
  obtain ⟨passed, hahead, hskip⟩ := exists_continuations r.ahead
  obtain ⟨rest, hrest⟩ := head?_eq_some_iff.1 ht
  rw [hrest] at hahead
  cases rest with
  | nil =>
    have htake : discard advance r = .ok ((), { r with ahead := [t], last := some t }) :=
      map_eq (a := t) (by rw [advance_run, hrest])
    rw [htake] at hrun
    cases hrun
    exact ⟨passed, hahead, fun ts h => absurd (h.2.1 t rfl) hkind.2⟩
  | cons v rest =>
    have htake : discard advance r = .ok ((), { r with ahead := v :: rest, last := some t }) :=
      map_eq (advance_eq hrest)
    rw [htake] at hrun
    cases hrun
    refine ⟨passed ++ [t], by rw [hahead, append_assoc]; rfl,
      fun ts h => ⟨?_, fun _ => ⟨t, by simp, ht.isContinuation⟩, ?_⟩⟩
    · exact ⟨passed, t, v :: rest, ts, hahead, by rw [append_assoc]; rfl, hkind.1, h.1, h.2.2⟩
    · obtain ⟨w, ws, rfl⟩ := exists_cons_of_ne_nil h.2.2
      have hagain : significant (passed ++ [t] ++ w :: ws) = t :: w :: ws := by
        rw [append_assoc]
        exact hskip _ (by simpa using ht.isContinuation)
      exact map_eq (advance_eq hagain)

/-- A reading that takes such a token and goes on without another one. -/
theorem localAt_take_pure (ht : Sees t r) (hkind : isLayout t.kind = false ∧ t.kind ≠ .eof) {a : α}
    (hO : ∀ ts ts', O a ts ts' → GoesOn ts ts') :
    LocalAt Resumes E O (do discard advance; pure a) r := by
  intro b s hrun
  obtain ⟨u, q, htake, ⟨⟩⟩ := bind_eq_ok_iff.1 hrun
  obtain ⟨run, hahead, hsame⟩ := localAt_take ht hkind htake
  refine ⟨run, hahead, fun ts hts => ?_⟩
  obtain ⟨hbefore, htakes, hgoes⟩ := hsame ts (hO _ _ hts)
  exact ⟨hbefore, fun _ => htakes trivial, bind_eq hgoes⟩

theorem near_sees : Near (sees k) := near_peek.bind fun _ => .pure id

theorem near_seesIdentifier : Near seesIdentifier := by
  refine near_peek.bind fun t => ?_
  split <;> exact .pure id

/-- A reading that depends on whether the next token is of kind `k`. -/
theorem Local.sees_bind {f : Bool → Read α}
    (hf : ∀ t r, Sees t r → LocalAt Resumes E O (f (t.kind == k)) r) : Local Resumes E O (sees k >>= f) := by
  rw [sees, bind_assoc]
  refine .peek_bind fun t r ht => ?_
  rw [pure_bind]
  exact hf t r ht

/-- Where a header stops no token is ahead with which it goes on. -/
theorem stops_sees (hk : headerGoesOn k) : Local Stops (fun _ => False) (fun _ => Stops) (sees k) := by
  intro r b s hrun
  obtain ⟨t, q, hpeek, ⟨⟩⟩ := bind_eq_ok_iff.1 hrun
  obtain ⟨rfl, ht⟩ := of_peek hpeek
  refine ⟨[], rfl, fun ts h => ⟨h, False.elim, ?_⟩⟩
  obtain ⟨u, u', hu, hu', hsame⟩ := h.2
  obtain rfl := Option.some.inj (ht.symm.trans hu)
  have hagain : peek { s with ahead := [] ++ ts } = .ok (u', { s with ahead := ts }) := peek_eq hu'
  have hkind : (u'.kind == k) = (t.kind == k) := by
    rcases hsame with rfl | ⟨hstop, hstop'⟩
    · rfl
    · have hne {u : Token} (hu : headerGoesOn u.kind = false) : (u.kind == k) = false := by
        rw [beq_eq_false_iff_ne]
        rintro rfl
        exact Bool.false_ne_true (hu.symm.trans hk)
      rw [hne hstop, hne hstop']
  rw [sees, bind_eq hagain, hkind]
  rfl

theorem near_lastLine : Near lastLine := by
  intro r n s hrun
  rw [lastLine_run] at hrun
  cases hrun
  exact ⟨[], rfl, fun ts h => ⟨h, False.elim, lastLine_run _⟩⟩

theorem local_expectIdentifier : Local Resumes (fun _ => True) (fun _ => GoesOn) (expectIdentifier what) := by
  refine .peek_bind fun t r ht => ?_
  split
  · rename_i hkind
    exact localAt_take_pure ht (by simp [hkind, isLayout]) fun _ _ => id
  · exact Local.unexpected (r := r)

theorem taking_expectIdentifier : Taking (expectIdentifier what) :=
  local_expectIdentifier.weaken fun _ _ _ => Resumes.goesOn

theorem taking_expect : Taking (expect k what) :=
  near_peek.bind fun _ => .ite taking_take .unexpected

theorem near_endStatement : Near endStatement := near_peek.bind fun _ => .ite (.pure id) .unexpected

theorem near_endHeader : Near endHeader := by
  refine near_peek.bind fun t => ?_
  split
  · exact .pure id
  · exact .pure id
  · exact .ite (.pure id) .unexpected

/-- What is passed in front of the next statement stays the same. -/
theorem takeWhile_append_dropWhile_of_resumes (h : Resumes (ts.dropWhile (p ·.kind)) ts') :
    (ts.takeWhile (p ·.kind) ++ ts').takeWhile (p ·.kind) = ts.takeWhile (p ·.kind) ∧
      (ts.takeWhile (p ·.kind) ++ ts').dropWhile (p ·.kind) = ts' := by
  have hpassed : ∀ t ∈ ts.takeWhile (p ·.kind), p t.kind := fun t => mem_takeWhile_imp
  obtain ⟨t, us, hus⟩ := exists_cons_of_ne_nil h.ne_nil
  have hstop : p t.kind = false := by
    have := head?_dropWhile_not (p ·.kind) ts
    rw [← h.head?, hus] at this
    simpa using this
  rw [hus, takeWhile_append_of_pos hpassed, dropWhile_append_of_pos hpassed,
    takeWhile_cons_of_neg (by simp [hstop]), dropWhile_cons_of_neg (by simp [hstop])]
  exact ⟨append_nil _, rfl⟩

theorem Resumes.behind (h : Resumes (ts.dropWhile (p ·.kind)) ts') :
    Resumes ts (ts.takeWhile (p ·.kind) ++ ts') := by
  have := h.append (ts.takeWhile (p ·.kind))
  rwa [takeWhile_append_dropWhile] at this

theorem near_skipLayout {record : Bool} : Near (skipLayout record) := by
  rintro r _ s ⟨⟩
  refine ⟨r.ahead.takeWhile (isLayout ·.kind), takeWhile_append_dropWhile.symm,
    fun ts h => ⟨h.behind, False.elim, ?_⟩⟩
  obtain ⟨htake, hdrop⟩ := takeWhile_append_dropWhile_of_resumes h
  simp only [skipLayout, modify, modifyGet, MonadStateOf.modifyGet, StateT.modifyGet, htake, hdrop]
  rfl

theorem near_skipLines : Near skipLines := by
  rintro r _ s ⟨⟩
  refine ⟨r.ahead.takeWhile (isLineLayout ·.kind), takeWhile_append_dropWhile.symm,
    fun ts h => ⟨h.behind, False.elim, ?_⟩⟩
  obtain ⟨-, hdrop⟩ := takeWhile_append_dropWhile_of_resumes h
  simp only [skipLines, modify, modifyGet, MonadStateOf.modifyGet, StateT.modifyGet, hdrop]
  rfl

theorem turning_segment : Turning (segment what) := by
  refine near_sees.bind fun b => .ite ?_ (.pure (by rintro ⟨⟩))
  exact taking_take.first fun _ => taking_expectIdentifier.near.bind fun _ => .pure id

theorem taking_dottedName : Taking (dottedName what) :=
  taking_expectIdentifier.first fun _ => turning_segment.many.bind fun _ => .pure id

/-! ## Expressions and groups -/

theorem near_takeExpression {stops : TokenKind → Bool} : Near (takeExpression stops) := by
  intro r a s hrun
  cases hrun
  obtain ⟨run, hahead, -, hsame⟩ := expression_append stops 0 r.ahead
  refine ⟨run, hahead, fun ts h => ⟨?_, False.elim, ?_⟩⟩
  · have := h.append run
    rwa [← hahead] at this
  · obtain ⟨t, us, rfl⟩ := exists_cons_of_ne_nil h.ne_nil
    have hexpression := hsame (t :: us) t rfl h.head?.symm
    show Except.ok ((expression stops 0 (run ++ t :: us)).1, { r with
      ahead := (expression stops 0 (run ++ t :: us)).2
      last := (expression stops 0 (run ++ t :: us)).1.getLast?.or r.last }) = _
    rw [hexpression]

theorem near_textOf {first last : Token} : Near (textOf text first last) := by
  unfold textOf
  split
  · exact .pure id
  · exact .refuse

theorem near_skipGroup : Near skipGroup := by
  intro r a s hrun
  rw [skipGroup_run] at hrun
  split at hrun
  · cases hrun
  · rename_i t rest hgroup
    cases hrun
    obtain ⟨past, hahead, -, hsame⟩ := groupEnd_append hgroup
    rw [append_cons] at hahead
    refine ⟨past ++ [t], hahead, fun ts h => ⟨?_, False.elim, ?_⟩⟩
    · rw [hahead]
      exact h.append _
    · rw [skipGroup_run, ← append_cons, hsame ts]

/-! ## Attribute lists -/

theorem near_attributeValue : Near (attributeValue text) := by
  refine near_takeExpression.bind fun tokens => near_peek.bind fun t => .ite .refuse_bind ?_
  split
  · exact near_textOf.bind fun _ => .pure id
  · exact .unexpected

theorem closing_attributeItem? : Closing (attributeItem? text) := by
  refine near_skipLines.bind fun _ => .sees_bind fun t r ht => ?_
  split
  · rename_i hclose
    exact localAt_take_pure ht (by simp [beq_iff_eq.1 hclose, isLayout]) fun _ _ => id
  · refine Local.bind near_sees (fun negated => ?_) (r := r)
    refine .when taking_take.near (taking_expectIdentifier.first fun x => ?_)
    refine near_skipLines.bind fun _ => near_sees.bind fun assigned => ?_
    extract_lets separated
    have hseparated (v : AttributeValue) :
        Local Resumes (fun _ => False) (fun o => if o.isSome then Resumes else GoesOn) (separated v) := by
      refine near_skipLines.bind fun _ => near_peek.bind fun separator => ?_
      refine .ite (taking_take.near.bind fun _ => .pure_some) (.ite .unexpected_bind .pure_some)
    refine .ite ?_ ((Local.pure id).bind hseparated)
    exact taking_take.near.bind fun _ => near_skipLines.bind fun _ => near_attributeValue.bind hseparated

theorem near_attributes : Near (attributes text) :=
  near_sees.bind fun _ => .ite (taking_take.near.bind fun _ => closing_attributeItem?.turning.many) (.pure id)

/-- The attributes of a header do not depend on what stops the header. -/
theorem stops_attributes : Local Stops (fun _ => False) (fun _ => Stops) (attributes text) := by
  refine (stops_sees (by decide)).bind fun _ => .ite ?_ (.pure id)
  refine (taking_take.near.widen fun _ _ => Resumes.stops).bind fun _ => ?_
  exact (Local.many closing_attributeItem?).weaken fun _ _ _ => Stops.goesOn

/-! ## Members -/

theorem near_body {limit : Nat} : Near (body limit text name) := by
  intro r b s hrun
  obtain ⟨tokens, close, rest, pieces, hsplit, hcut, rfl, rfl⟩ := body_eq_ok_iff.1 hrun
  obtain ⟨hahead, -, hsame⟩ := Body.splitAtEnd_append hsplit
  refine ⟨tokens ++ [close], by rw [hahead, append_assoc]; rfl, fun ts h => ⟨?_, False.elim, ?_⟩⟩
  · have := h.append (tokens ++ [close])
    rwa [append_assoc, singleton_append, ← hahead] at this
  · rw [append_assoc, singleton_append]
    exact body_eq_ok_iff.2 ⟨tokens, close, ts, pieces, hsame ts, hcut, rfl, rfl⟩

theorem near_defaultValue : Near (defaultValue text) :=
  near_peek.bind fun _ => .ite .unexpected_bind (near_takeExpression.bind fun _ => near_textOf)

theorem near_propertyType : Near propertyType := by
  refine near_sees.bind fun _ => .ite ?_ ?_
  · refine taking_take.near.bind fun _ => taking_dottedName.near.bind fun _ => ?_
    refine Local.bind (.discard (Turning.many (near_seesIdentifier.bind fun _ =>
      .ite ?_ (.pure (by rintro ⟨⟩))))) fun _ => .pure id
    exact .map (taking_advance.mono fun _ _ => trivial)
  · refine near_sees.bind fun _ => .when near_skipGroup (near_seesIdentifier.bind fun _ => ?_)
    extract_lets typed
    have htyped (type : Option DottedName) : Near (typed type) :=
      near_sees.bind fun _ => .when near_skipGroup (.pure id)
    exact .ite (Local.bind (.map taking_dottedName.near) htyped) ((Local.pure id).bind htyped)

theorem taking_property : Taking (property text) := by
  refine taking_expectIdentifier.first fun _ => near_propertyType.bind fun _ => near_sees.bind fun _ => ?_
  extract_lets ended
  have hended (v : Option Text) : Near (ended v) :=
    near_lastLine.bind fun _ => near_endStatement.bind fun _ => .pure id
  exact .ite (taking_take.near.bind fun _ => Local.bind (.map near_defaultValue) hended)
    ((Local.pure id).bind hended)

theorem taking_event : Taking event :=
  taking_expectIdentifier.first fun _ => near_lastLine.bind fun _ => near_endStatement.bind fun _ => .pure id

theorem local_names : Local Resumes (fun _ => False) (fun _ => GoesOn) (names b ignored what) := by
  refine Local.bind (Local.many (near_skipLines.bind fun _ => .peek_bind fun t r ht => ?_)) fun _ => .pure id
  have item {a : Option Text} : Closing (do discard advance; pure (some a)) :=
    taking_take.first fun _ => .pure_some
  split
  · exact item (r := r)
  · exact item (r := r)
  · exact Local.ite item .unexpected (r := r)
  · split_ifs with hclose
    · exact localAt_take_pure ht (by simp [hclose, isLayout]) fun _ _ => id
    · exact Local.unexpected (r := r)

theorem near_names : Near (names b ignored what) :=
  local_names.weaken fun _ _ _ => Resumes.goesOn

/-- A list that has a token which is no continuation has a first one. -/
theorem exists_significant {run : List Token} (h : ∃ t ∈ run, t.kind.isContinuation = false) :
    ∃ t rest, ∀ ts, significant (run ++ ts) = t :: (rest ++ ts) := by
  induction run with
  | nil =>
    obtain ⟨t, ht, -⟩ := h
    cases ht
  | cons u run ih =>
    by_cases hu : u.kind.isContinuation
    · obtain ⟨t, ht, hcont⟩ := h
      obtain ⟨v, rest, hrest⟩ :=
        ih ⟨t, (mem_cons.1 ht).resolve_left (by rintro rfl; simp [hu] at hcont), hcont⟩
      refine ⟨v, rest, fun ts => ?_⟩
      rw [cons_append, significant, dropWhile_cons, if_pos hu]
      exact hrest ts
    · exact ⟨u, run, fun ts => significant_cons (by simpa using hu) _⟩

/-- To look for `=` behind the next token changes nothing, if the next one is taken. -/
theorem stops_peekSecond_bind {x y : Read β} {f : β → Read α}
    (hx : Local Resumes (fun _ => True) (fun _ => Stops) (x >>= f))
    (hy : Local Resumes (fun _ => True) (fun _ => Stops) (y >>= f)) :
    Local Resumes (fun _ => True) (fun _ => Stops)
      (peekSecond >>= fun t => (if t.kind = .operator .assign then x else y) >>= f) := by
  have hf (t : Token) : Local Resumes (fun _ => True) (fun _ =>
      Stops) ((if t.kind = .operator .assign then x else y) >>= f) := by
    split_ifs
    · exact hx
    · exact hy
  intro r b s hrun
  obtain ⟨_, q, hpeek, hrest⟩ := bind_eq_ok_iff.1 hrun
  obtain ⟨rfl, first, rest, hfirst, rfl⟩ := of_peekSecond hpeek
  obtain ⟨run, hahead, hsame⟩ := hf _ hrest
  refine ⟨run, hahead, fun ts hts => ?_⟩
  obtain ⟨hresumes, htakes, hgoes⟩ := hsame ts hts
  obtain ⟨u, us, hus⟩ := exists_significant (htakes trivial)
  rw [hahead, hus, List.cons.injEq] at hfirst
  obtain ⟨rfl, rfl⟩ := hfirst
  obtain ⟨v, v', hv, hv', hsame⟩ := hts.append us
  have hagain : peekSecond { q with ahead := run ++ ts } = .ok (v', { q with ahead := run ++ ts }) := by
    rw [peekSecond_run, hus]
    simp only [headD_eq_head?_getD, hv', Option.getD_some]
  have hassign : v'.kind = .operator .assign ↔ v.kind = .operator .assign := by
    rcases hsame with rfl | ⟨hstop, hstop'⟩
    · rfl
    · have hne {w : Token} (h : headerGoesOn w.kind = false) : w.kind ≠ .operator .assign := by
        intro hkind
        rw [hkind] at h
        cases h
      exact iff_of_false (hne hstop') (hne hstop)
  refine ⟨hresumes, htakes, bind_eq_ok_iff.2 ⟨v', _, hagain, ?_⟩⟩
  simpa only [hassign, headD_eq_head?_getD, hv, Option.getD_some] using hgoes

theorem stops_returnNames_bind {f : List Text → Read α}
    (hf : ∀ names, Local Resumes (fun _ => True) (fun _ => Stops) (f names)) :
    Local Resumes (fun _ => True) (fun _ => Stops) (returnNames >>= f) := by
  unfold returnNames
  rw [bind_assoc]
  refine near_sees.bind fun b => ?_
  split_ifs
  · simp only [bind_assoc, pure_bind]
    exact taking_take.near.bind fun _ => near_names.bind fun _ => taking_expect.near.bind fun _ => hf _
  · rw [bind_assoc]
    refine stops_peekSecond_bind ?_ (hf [])
    simp only [bind_assoc, pure_bind]
    exact taking_expectIdentifier.near.bind fun _ => taking_take.near.bind fun _ => hf _

theorem stops_segment :
    Local Stops (·.isSome = true) (fun o => if o.isSome then Stops else Stops) (segment what) := by
  simp only [ite_self]
  refine (stops_sees (by decide)).bind fun b => .ite ?_ (.pure (by rintro ⟨⟩))
  refine (taking_take.widen fun _ _ => Resumes.stops).first fun _ => ?_
  have hname : Local Resumes (fun _ => False) (fun _ => Stops) (expectIdentifier what) :=
    (local_expectIdentifier.mono fun _ => False.elim).weaken fun _ _ _ => Stops.goesOn
  exact hname.bind fun _ => .pure id

/-- A signature does not depend on what stops its header. -/
theorem stops_signature : Local Resumes (fun _ => True) (fun _ => Stops) signature := by
  refine stops_returnNames_bind fun returns =>
    (local_expectIdentifier.weaken fun _ _ _ => Stops.goesOn).first fun _ => ?_
  refine (Local.many stops_segment).bind fun rest => (stops_sees (by decide)).bind fun _ => .ite ?_ (.pure id)
  refine (taking_take.near.widen fun _ _ => Resumes.stops).bind fun _ => ?_
  exact (local_names.weaken fun _ _ _ => Stops.goesOn).bind fun _ => .pure id

theorem taking_signature : Taking signature := stops_signature.weaken fun _ _ _ => Resumes.stops

theorem taking_functionMember : Taking (functionMember limits text isAbstract) := by
  refine taking_advance.first fun _ => taking_signature.near.bind fun _ => near_lastLine.bind fun _ => ?_
  refine near_endHeader.bind fun _ => .ite (.pure id) ?_
  exact Local.bind (.map near_body) fun _ => .pure id

theorem taking_prototype : Taking (prototype isAbstract) :=
  near_peek.bind fun _ => taking_signature.first fun _ => near_lastLine.bind fun _ =>
    near_endStatement.bind fun _ => .pure id

/-! ## Blocks and classes -/

theorem local_some (hx : Taking x) :
    Local Resumes (·.isSome = true) (fun o => if o.isSome then Resumes else P) (some <$> x) :=
  .map (hx.mono fun _ _ => trivial)

theorem turning_some (hx : Taking x) : Turning (some <$> x) := .map (hx.mono fun _ _ => trivial)

theorem isLayout_of_structural? {w : Keyword} (h : structural? k = some w) :
    isLayout k = false ∧ k ≠ .eof := by
  cases k with
  | keyword | identifier => exact ⟨rfl, by simp⟩
  | _ => cases h

/-- A member with the layout before it looks at the token behind it; the `end` of a block does not. -/
theorem closing_member? : Closing (member? limits text kind isAbstract) := by
  refine near_skipLayout.bind fun _ => .peek_bind fun t r ht => ?_
  split
  · exact localAt_take_pure ht (isLayout_of_structural? ‹_›) fun _ _ => id
  · exact local_some taking_functionMember (r := r)
  · exact Local.refuse (r := r)
  · exact local_some taking_property (r := r)
  · exact local_some taking_event (r := r)
  · exact local_some taking_prototype (r := r)
  · exact local_some taking_prototype (r := r)
  · exact Local.unexpected (r := r)

theorem taking_block : Taking (block limits text kind) :=
  taking_advance.first fun _ => near_attributes.bind fun _ => near_endHeader.bind fun _ =>
    closing_member?.turning.many.bind fun _ => .pure id

/-- What a reading learns from the tokens ahead is the same, if it only
depends on the first one that is no layout. -/
theorem get_bind {g : List Token → β} {f : β → Read α} (hg : ∀ ts ts', Resumes ts ts' → g ts' = g ts)
    (hf : ∀ b, Local Resumes E (fun _ => Resumes) (f b)) :
    Local Resumes E (fun _ => Resumes) (get >>= fun r => f (g r.ahead)) := by
  intro r a s hrun
  obtain ⟨_, _, ⟨⟩, hrun⟩ := bind_eq_ok_iff.1 hrun
  obtain ⟨run, hahead, hsame⟩ := hf _ hrun
  refine ⟨run, hahead, fun ts hts => ?_⟩
  obtain ⟨hresumes, htakes, hgoes⟩ := hsame ts hts
  refine ⟨hresumes, htakes, bind_eq_ok_iff.2 ⟨_, _, rfl, ?_⟩⟩
  rw [hg _ _ hresumes]
  exact hgoes

theorem isLayout_of_isLineLayout (k : TokenKind) (h : isLineLayout k) : isLayout k := by
  cases k <;> first | rfl | cases h

theorem wordAfterLines_of_resumes (ts ts' : List Token) (h : Resumes ts ts') :
    wordAfterLines ts' = wordAfterLines ts := by
  obtain ⟨shared, t, us, us', hts, hts', -⟩ := h.dropWhile isLayout_of_isLineLayout
  simp only [wordAfterLines, hts, hts']
  cases shared <;> rfl

theorem turning_superclass? : Turning superclass? := by
  refine near_peek.bind fun t => ?_
  extract_lets more
  have hmore (b : Bool) : Turning (more b) :=
    .ite (near_skipLayout.bind fun _ => turning_some taking_dottedName) (.pure (by rintro ⟨⟩))
  split
  · exact taking_take.near.bind fun _ => (Local.pure id).bind hmore
  · exact taking_take.near.bind fun _ => (Local.pure id).bind hmore
  · exact get_bind wordAfterLines_of_resumes hmore
  · exact (Local.pure id).bind hmore

theorem near_superclasses : Near superclasses :=
  near_sees.bind fun _ => .ite (taking_take.near.bind fun _ => taking_dottedName.near.bind fun _ =>
    turning_superclass?.many.bind fun _ => .pure id) (.pure id)

/-- A block with the layout before it looks at the token behind it; the `end` of a class does not. -/
theorem closing_block? : Closing (block? limits text name) := by
  refine near_skipLayout.bind fun _ => .peek_bind fun t r ht => ?_
  split
  · exact localAt_take_pure ht (isLayout_of_structural? ‹_›) fun _ _ => id
  · exact local_some taking_block (r := r)
  · exact local_some taking_block (r := r)
  · exact local_some taking_block (r := r)
  · exact Local.refuse (r := r)
  · exact Local.refuse (r := r)
  · exact Local.refuse (r := r)
  · exact Local.refuse (r := r)
  · exact Local.unexpected (r := r)

/-- The comments of a reader are asked for at the end of a reading. -/
theorem Local.get_comments {g : α → List LooseComment → β}
    (hx : Local Resumes (fun _ => False) (fun _ => P) x) :
    Local Resumes (fun _ => False) (fun _ => P) (x >>= fun a =>
      get >>= fun r => Pure.pure (g a r.comments)) := by
  intro r b s hrun
  obtain ⟨a, q, hx', ⟨⟩⟩ := bind_eq_ok_iff.1 hrun
  obtain ⟨run, hahead, hsame⟩ := hx hx'
  refine ⟨run, hahead, fun ts hts => ?_⟩
  obtain ⟨hresumes, -, hgoes⟩ := hsame ts hts
  exact ⟨hresumes, False.elim, bind_eq_ok_iff.2 ⟨a, _, hgoes, rfl⟩⟩

theorem near_classHead : Near (classHead text) := by
  refine near_skipLayout.bind fun _ => near_peek.bind fun t => ?_
  extract_lets head
  have hhead (x : Unit) : Near (head x) := by
    refine taking_take.near.bind fun _ => near_attributes.bind fun attributes => ?_
    refine taking_expectIdentifier.near.bind fun x => near_superclasses.bind fun superclasses => ?_
    exact near_lastLine.bind fun last => near_endHeader.bind fun _ => .pure id
  split
  · exact hhead ()
  · exact .refuse_bind
  · exact .refuse_bind

/-- The class of a file does not depend on the tokens behind the `end` that closes it. -/
theorem local_classPart : Local Resumes (fun _ => False) (fun _ => GoesOn) (classPart limits text) := by
  rw [classPart_eq_classHead]
  refine near_classHead.bind fun c => ?_
  exact (Local.many closing_block?).get_comments (g := fun bs cs =>
    { c with blocks := bs, comments := LooseComment.group cs })

end ClassdefDoc.Read
