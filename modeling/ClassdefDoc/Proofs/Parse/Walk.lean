import ClassdefDoc.Proofs.Scan.Statement

/-!
# What expressions and groups pass over

The tokens that a reader passes lead from the brackets open before them to those open behind them (`Walk`).
An expression and a group close what they open. An expression passes the tokens at which it stops inside
brackets only (`walk_expression`), and a group passes nothing outside brackets (`walk_groupEnd`).
-/

namespace ClassdefDoc

open List ClassdefDoc.Bracket TokenKind

variable {k : TokenKind}

/-- The tokens lead from a place where the brackets `stack` are open to
another one; those of a kind in `p` stand inside brackets. -/
inductive Walk (p : TokenKind → Bool) : List Bracket → List Token → List Bracket → Prop
  | nil {stack} : Walk p stack [] stack
  | cons {stack stack' stack'' t ts} : (p t.kind → stack ≠ []) → Bracket.after stack t.kind = some stack' →
    Walk p stack' ts stack'' → Walk p stack (t :: ts) stack''

theorem Bracket.after_append {stack stack' : List Bracket}
    (h : Bracket.after stack k = some stack') (outer : List Bracket) :
    Bracket.after (stack ++ outer) k = some (stack' ++ outer) := by
  cases k with
  | delimiter d =>
    cases d with
    | closing b =>
      obtain rfl := after_closing h
      simp [Bracket.after]
    | _ =>
      cases h
      rfl
  | _ =>
    cases h
    rfl

theorem Bracket.after_of_isContinuation {stack : List Bracket} (h : k.isContinuation) :
    Bracket.after stack k = some stack := by
  cases k <;> first | rfl | cases h

namespace Walk

variable {p : TokenKind → Bool} {stack stack' stack'' : List Bracket} {t : Token} {ts us : List Token}

theorem append (h : Walk p stack ts stack') (h' : Walk p stack' us stack'') :
    Walk p stack (ts ++ us) stack'' := by
  induction h with
  | nil => exact h'
  | cons hp hafter _ ih => exact .cons hp hafter (ih h')

theorem single (hp : p t.kind → stack ≠ []) (hafter : Bracket.after stack t.kind = some stack') :
    Walk p stack [t] stack' :=
  .cons hp hafter .nil

/-- Tokens that are no brackets; those of a kind in `p` need an open bracket. -/
theorem of_forall (h : ∀ t ∈ ts, (p t.kind → stack ≠ []) ∧ Bracket.after stack t.kind = some stack) :
    Walk p stack ts stack := by
  induction ts with
  | nil => exact .nil
  | cons t ts ih =>
    obtain ⟨⟨hp, hafter⟩, hts⟩ := forall_mem_cons.1 h
    exact .cons hp hafter (ih hts)

theorem continuations (hp : ∀ k, p k → k.isContinuation = false) (stack : List Bracket)
    (hts : ∀ t ∈ ts, t.kind.isContinuation) : Walk p stack ts stack :=
  of_forall fun t ht => ⟨fun h => absurd (hts t ht) (by simp [hp _ h]), after_of_isContinuation (hts t ht)⟩

theorem of_append (h : Walk p stack (ts ++ us) stack'') :
    ∃ stack', Walk p stack ts stack' ∧ Walk p stack' us stack'' := by
  induction ts generalizing stack with
  | nil => exact ⟨stack, .nil, h⟩
  | cons t ts ih =>
    cases h with
    | cons hp hafter hrest =>
      obtain ⟨stack', hts, hus⟩ := ih hrest
      exact ⟨stack', .cons hp hafter hts, hus⟩

/-- The brackets of the tokens close those that were open before. -/
theorem closes (h : Walk p stack ts []) : Closes stack (ts.filterMap (·.kind.nesting?)) := by
  generalize hend : ([] : List Bracket) = stack' at h
  induction h with
  | nil => exact hend ▸ .nil .nil
  | @cons _ _ _ t ts _ hafter _ ih =>
    rw [nesting_cons]
    exact (ih hend).of_after hafter

theorem nested (h : Walk p [] ts []) : Nested (ts.filterMap (·.kind.nesting?)) := by
  cases h.closes with
  | nil hnested => exact hnested

theorem length_eq (h : Walk p stack ts stack') : (stack'.length : Int) = stack.length + depth ts := by
  induction h with
  | nil => simp [depth]
  | cons _ hafter _ ih =>
    have := length_after hafter
    rw [depth]
    omega

/-- A token of a kind in `p` stands where brackets are open. -/
theorem depth_pos (h : Walk p [] (ts ++ t :: us) stack) (ht : p t.kind) : 0 < depth ts := by
  obtain ⟨stack', hts, hus⟩ := h.of_append
  have hlength := hts.length_eq
  cases hus with
  | cons hp _ _ =>
    have := length_pos_of_ne_nil (hp ht)
    simp only [length_nil, Int.natCast_zero] at hlength
    omega

end Walk

namespace Read

variable {text : Text} {stack : List Bracket} {t : Token} {ts rest : List Token} {p : TokenKind → Bool}
  {r s : Reader} {u : Unit}

/-- What an expression does with a token depends on the token and the depth only. -/
theorem expression_cons (stops : TokenKind → Bool) (depth : Nat) (t : Token) :
    (∃ d, t.kind ≠ .eof ∧ ∀ ts, expression stops depth (t :: ts) = expression stops d ts) ∨
      (∀ ts, expression stops depth (t :: ts) = ([], t :: ts)) ∨
      ∃ d, t.kind ≠ .eof ∧ ∀ ts, expression stops depth (t :: ts) = (t :: (expression stops d ts).1,
        (expression stops d ts).2) := by
  have take {d : Nat} {k : TokenKind} (hne : k ≠ .eof) (h : ∀ ts, expression stops depth (t :: ts) =
      if depth = 0 && stops k then ([], t :: ts) else (t :: (expression stops d ts).1,
      (expression stops d ts).2)) :
      (∀ ts, expression stops depth (t :: ts) = ([], t :: ts)) ∨
        ∃ d, k ≠ .eof ∧ ∀ ts, expression stops depth (t :: ts) = (t :: (expression stops d ts).1,
        (expression stops d ts).2) := by
    by_cases hstop : (depth = 0 && stops k)
    · exact .inl fun ts => (h ts).trans (if_pos hstop)
    · exact .inr ⟨d, hne, fun ts => (h ts).trans (if_neg hstop)⟩
  cases hkind : t.kind with
  | continuation => exact .inl ⟨depth, by rintro ⟨⟩, fun ts => by simp only [expression, hkind]⟩
  | eof => exact .inr (.inl fun ts => by simp only [expression, hkind])
  | delimiter d =>
    refine .inr ?_
    cases d with
    | opening b => exact take (d := depth + 1) (by rintro ⟨⟩) fun ts => by simp only [expression, hkind]
    | closing b => exact take (d := depth - 1) (by rintro ⟨⟩) fun ts => by simp only [expression, hkind]
    | comma | semicolon => exact take (d := depth) (by rintro ⟨⟩) fun ts => by simp only [expression, hkind]
  | _ => exact .inr (take (d := depth) (by rintro ⟨⟩) fun ts => by simp only [expression, hkind])

/-- An expression keeps some of the tokens that it passes, and looks at the token behind them only. -/
theorem expression_append (stops : TokenKind → Bool) (depth : Nat) (ts : List Token) :
    ∃ run, ts = run ++ (expression stops depth ts).2 ∧ List.Sublist (expression stops depth ts).1 run ∧
      ∀ us t, us.head? = some t →
      (expression stops depth ts).2.head? = some t → expression stops depth
      (run ++ us) = ((expression stops depth ts).1, us) := by
  induction ts generalizing depth with
  | nil => exact ⟨[], rfl, .slnil, fun us t _ h => by cases h⟩
  | cons t ts ih =>
    obtain ⟨d, -, hskip⟩ | hstop | ⟨d, -, hkeep⟩ := expression_cons stops depth t
    · obtain ⟨run, hts, hsub, hsame⟩ := ih d
      simp only [hskip]
      exact ⟨t :: run, by rw [cons_append, ← hts], hsub.cons t,
        fun us u hus hu => (hskip _).trans (hsame us u hus hu)⟩
    · simp only [hstop]
      refine ⟨[], rfl, .slnil, fun us u hus hu => ?_⟩
      obtain rfl : t = u := Option.some.inj hu
      obtain ⟨vs, rfl⟩ := head?_eq_some_iff.1 hus
      exact hstop vs
    · obtain ⟨run, hts, hsub, hsame⟩ := ih d
      simp only [hkeep]
      refine ⟨t :: run, by rw [cons_append, ← hts], hsub.cons_cons t, fun us u hus hu => ?_⟩
      rw [cons_append, hkeep, hsame us u hus hu]

/-- What the search for the end of a group does with a token depends on its kind and the depth only. -/
theorem groupEnd_cons (depth : Nat) (k : TokenKind) :
    (∃ d, k ≠ .eof ∧ (0 < depth → 0 < d) ∧ ∀ t ts, t.kind = k → groupEnd depth (t :: ts) = groupEnd d ts) ∨
      (k ≠ .eof ∧ ∀ t ts, t.kind = k → groupEnd depth (t :: ts) = .ok (t, ts)) ∨
      ∃ cause, (0 < depth → ∀ b, cause ≠ .broken b) ∧
        ∀ t ts, t.kind = k → groupEnd depth (t :: ts) = .error ⟨cause, t.span.start⟩ := by
  cases k with
  | eof =>
    exact .inr (.inr ⟨.unexpectedEnd _,
      fun _ _ => by rintro ⟨⟩, fun t ts ht => by simp only [groupEnd, ht]; rfl⟩)
  | delimiter d =>
    cases d with
    | opening b =>
      exact .inl
        ⟨depth + 1, by rintro ⟨⟩, fun _ => depth.succ_pos, fun t ts ht => by simp only [groupEnd, ht]⟩
    | closing b =>
      rcases depth with _ | _ | depth
      · exact .inr (.inr ⟨.broken .depth, fun h => absurd h (lt_irrefl 0),
          fun t ts ht => by simp only [groupEnd, ht]⟩)
      · exact .inr (.inl ⟨by rintro ⟨⟩, fun t ts ht => by simp only [groupEnd, ht]⟩)
      · exact .inl
          ⟨depth + 1, by rintro ⟨⟩, fun _ => depth.succ_pos, fun t ts ht => by simp only [groupEnd, ht]⟩
    | comma | semicolon => exact .inl ⟨depth, by rintro ⟨⟩, id, fun t ts ht => by simp only [groupEnd, ht]⟩
  | _ => exact .inl ⟨depth, by rintro ⟨⟩, id, fun t ts ht => by simp only [groupEnd, ht]⟩

/-- The end of a group does not depend on what follows. -/
theorem groupEnd_append {depth : Nat} (h : groupEnd depth ts = .ok (t, rest)) :
    ∃ past, ts = past ++ t :: rest ∧ t.kind ≠ .eof ∧ ∀ us,
      groupEnd depth (past ++ t :: us) = .ok (t, us) := by
  induction ts generalizing depth with
  | nil => cases h
  | cons u ts ih =>
    obtain ⟨d, -, -, hskip⟩ | ⟨hkind, hclose⟩ | ⟨_, -, herror⟩ := groupEnd_cons depth u.kind
    · rw [hskip u ts rfl] at h
      obtain ⟨past, rfl, hkind, hsame⟩ := ih h
      exact ⟨u :: past, rfl, hkind, fun us => (hskip u _ rfl).trans (hsame us)⟩
    · cases (hclose u ts rfl).symm.trans h
      exact ⟨[], rfl, hkind, fun us => hclose t us rfl⟩
    · cases (herror u ts rfl).symm.trans h
/-- The tokens `ts` are passed up to one at which an expression stops, or to
the end of file; `taken` are those that are no continuations. -/
def StopsAt (text : Text) (p stops : TokenKind → Bool) (inner stack : List Bracket)
    (ts : List Token) (taken : List Token × List Token) : Prop :=
  ∃ run stop rest, taken = (run.filter (!·.kind.isContinuation), stop :: rest) ∧ ts = run ++ stop :: rest ∧
    (stops stop.kind ∨ stop.kind = .eof) ∧ Walk p inner run [] ∧ Ahead text stack (stop :: rest)

/-- An expression ends outside the brackets that it opens. The tokens at which
it stops are passed inside brackets only, and continuations are dropped. -/
theorem walk_expression {stops : TokenKind → Bool} (inner : List Bracket)
    (hp : ∀ k, p k → stops k ∧ k.isContinuation = false)
    (hstops : ∀ b ∈ stack.head?, stops (.delimiter (.closing b))) (h : Ahead text (inner ++ stack) ts) :
    StopsAt text p stops inner stack ts (expression stops inner.length ts) := by
  induction ts generalizing inner with
  | nil => exact absurd rfl h.ne_nil
  | cons t ts ih =>
    have here (hinner : inner.length = 0) (hstop : stops t.kind ∨ t.kind = .eof) :
        StopsAt text p stops inner stack (t :: ts) ([], t :: ts) := by
      rw [length_eq_zero_iff.1 hinner] at h ⊢
      exact ⟨[], t, ts, rfl, rfl, hstop, .nil, h⟩
    have keep (inner' : List Bracket) (hcont : t.kind.isContinuation = false) (hkind : t.kind ≠ .eof)
        (hafter : (inner.length = 0 && stops t.kind) ≠ true → Bracket.after inner t.kind = some inner') :
        StopsAt text p stops inner stack (t :: ts) (if inner.length = 0 && stops t.kind then ([], t :: ts)
          else (t :: (expression stops inner'.length ts).1, (expression stops inner'.length ts).2)) := by
      by_cases hstop : (inner.length = 0 && stops t.kind)
      · rw [if_pos hstop]
        obtain ⟨hinner, hstop⟩ := Bool.and_eq_true_iff.1 hstop
        exact here (of_decide_eq_true hinner) (.inl hstop)
      have hafter := hafter hstop
      rw [if_neg hstop]
      obtain ⟨run, stop, rest, hrun, rfl, hend, hwalk, hahead⟩ :=
        ih inner' (h.tail hkind (after_append hafter stack))
      refine ⟨t :: run, stop, rest, ?_, rfl, hend, .cons (fun hpt hinner => hstop ?_) hafter hwalk, hahead⟩
      · rw [hrun, filter_cons_of_pos (by simp [hcont])]
      · simp [hinner, (hp _ hpt).1]
    rw [expression]
    split
    · rename_i hkind
      obtain ⟨run, stop, rest, hrun, rfl, hend, hwalk, hahead⟩ :=
        ih inner (h.tail (by simp [hkind]) (by simp [hkind, Bracket.after]))
      have hcont : t.kind.isContinuation := by rw [hkind]; rfl
      refine ⟨t :: run, stop, rest, ?_, rfl, hend,
        .cons (fun hpt => ?_) (by simp [hkind, Bracket.after]) hwalk, hahead⟩
      · rw [hrun, filter_cons_of_neg (by simp [hcont])]
      · rw [(hp _ hpt).2] at hcont
        cases hcont
    · rename_i hkind
      exact here (by simp [(append_eq_nil_iff.1 (h.eof hkind).2).1]) (.inr hkind)
    · rename_i b hkind
      exact keep (b :: inner) (by simp [hkind, isContinuation]) (by simp [hkind])
        fun _ => by simp [hkind, Bracket.after]
    · rename_i b hkind
      have hlength : inner.length - 1 = inner.tail.length := by simp
      rw [hlength]
      refine keep inner.tail (by simp [hkind, isContinuation]) (by simp [hkind]) fun hstop => ?_
      -- the bracket closes one that the expression opened
      obtain ⟨rest, hstack, -⟩ := h.closing hkind
      cases inner with
      | nil =>
        have := hstops b (by rw [show stack = b :: rest from hstack]; rfl)
        simp [hkind, this] at hstop
      | cons c inner =>
        rw [cons_append, List.cons.injEq] at hstack
        simp [hkind, Bracket.after, hstack.1]
    · rename_i hcont heof hopen hclose
      refine keep inner ?_ heof fun _ => after_of_other hopen hclose
      unfold isContinuation
      split
      · exact (hcont _ ‹_›).elim
      · rfl

/-- Inside a group a bracket is open. -/
theorem walk_groupEnd (inner : List Bracket) (hinner : inner ≠ [])
    (h : Ahead text (inner ++ stack) ts) (hend : groupEnd inner.length ts = .ok (t, rest)) :
    ∃ run, ts = run ++ rest ∧ Walk p inner run [] ∧ Ahead text stack rest := by
  induction ts generalizing inner with
  | nil => cases hend
  | cons u ts ih =>
    have keep (inner' : List Bracket) (hinner' : inner' ≠ [])
        (hkind : u.kind ≠ .eof) (hafter : Bracket.after inner u.kind = some inner')
        (hend : groupEnd inner'.length ts = .ok (t, rest)) : ∃ run, u :: ts = run ++ rest ∧
          Walk p inner run [] ∧ Ahead text stack rest := by
      obtain ⟨run, hrun, hwalk, hahead⟩ := ih inner' hinner' (h.tail hkind (after_append hafter stack)) hend
      exact ⟨u :: run, by rw [cons_append, ← hrun], .cons (fun _ => hinner) hafter hwalk, hahead⟩
    rw [groupEnd.eq_def] at hend
    simp only at hend
    split at hend
    · cases hend
    · rename_i b hkind
      exact keep (b :: inner) (cons_ne_nil b inner) (by simp [hkind]) (by simp [hkind, Bracket.after]) hend
    · rename_i b hkind
      obtain ⟨tail, hstack, htail⟩ := h.closing hkind
      rcases inner with _ | ⟨c, _ | ⟨d, inner⟩⟩
      · exact absurd rfl hinner
      · cases hend
        cases hstack
        exact ⟨[t], rfl, .single (fun _ => hinner) (by simp [hkind, Bracket.after]), htail⟩
      · cases hstack
        exact keep (d :: inner) (cons_ne_nil d inner) (by simp [hkind]) (by simp [hkind, Bracket.after]) hend
    · rename_i heof hopen hclose
      exact keep inner hinner heof (after_of_other hopen hclose) hend

/-- Continuations before a group are passed. -/
theorem groupEnd_significant (ts : List Token) : groupEnd 0 (significant ts) = groupEnd 0 ts := by
  induction ts with
  | nil => rfl
  | cons t ts ih =>
    rw [significant, dropWhile_cons]
    split_ifs with ht
    · rw [← significant, ih, groupEnd.eq_def 0 (t :: ts)]
      cases hk : t.kind <;> simp_all [isContinuation]
    · rfl

theorem skipGroup_run (r : Reader) : skipGroup r = match groupEnd 0 r.ahead with
    | .error e => .error e
    | .ok (t, rest) => .ok ((), { r with ahead := rest, last := some t }) := by
  show ((liftM (groupEnd 0 r.ahead) : Read (Token × List Token)) >>= fun x =>
    set { r with ahead := x.2, last := some x.1 }) r = _
  cases groupEnd 0 r.ahead <;> rfl

theorem comments_of_skipGroup (h : skipGroup r = .ok (u, s)) :
    s.comments = r.comments := by
  rw [skipGroup_run] at h
  split at h <;> cases h
  rfl

/-- A group that is skipped, with the continuations before it. -/
theorem walk_skipGroup {b : Bracket} (p : TokenKind → Bool) (hp : ∀ k, p k → k.isContinuation = false)
    (hopen : p (.delimiter (.opening b)) = false) (hr : At text stack r)
    (hsees : SeesKind (.delimiter (.opening b)) r) (hrun : skipGroup r = .ok (u, s)) :
    ∃ run, r.ahead = run ++ s.ahead ∧ Walk p [] run [] ∧ At text stack s := by
  obtain ⟨t, hsees, hkind⟩ := hsees
  obtain ⟨rest, hrest, hahead⟩ := hr.sees hsees
  have hafter : Bracket.after [] t.kind = some [b] := by simp [hkind, Bracket.after]
  have hgroup : groupEnd 0 r.ahead = groupEnd [b].length rest := by
    rw [← groupEnd_significant, hrest, groupEnd.eq_def]
    simp [hkind]
  rw [skipGroup_run, hgroup] at hrun
  split at hrun
  · cases hrun
  · rename_i last rest' hend
    cases hrun
    obtain ⟨run, rfl, hwalk, hat⟩ :=
      walk_groupEnd [b] (cons_ne_nil b []) (hahead.tail (by simp [hkind]) (after_append hafter stack)) hend
    refine ⟨r.ahead.takeWhile (·.kind.isContinuation) ++ t :: run, ?_, ?_, hat⟩
    · rw [append_assoc, cons_append, ← hrest]
      exact takeWhile_append_dropWhile.symm
    · refine (Walk.continuations hp [] fun _ hu => by simpa using mem_takeWhile_imp hu).append
        (.cons (fun h => ?_) hafter hwalk)
      rw [hkind, hopen] at h
      cases h

end Read

end ClassdefDoc
