import ClassdefDoc.Proofs.Parse.Fork

/-!
# The words that lead a line

Behind the header of a block the line after it starts with a member, or with
words that close the block and the class. If these words are not `end`, `end`
and `function`, the line may be joined to the header (`steady_of_members`).
-/

namespace ClassdefDoc

variable {what : Text} {fs : List Unit} {bs : List Block} {ms : List Member}

/-- Whether the line starts with these keywords. -/
def leads : List Keyword → List Token → Bool
  | [], _ => true
  | k :: ks, ts => match ts.dropWhile fun t => t.kind.isComment || t.kind.isContinuation with
    | t :: rest => t.kind == .keyword k && leads ks rest
    | [] => false

namespace Read

variable {α : Type} {limits : Limits} {text name : Text} {kind : BlockKind}
  {isAbstract : Bool} {n : Nat} {ts : List Token} {r s : Reader}

/-- It is enough to look at the first token that is no layout. -/
theorem steady_of_next (h : ∀ u us,
    (ts.dropWhile fun t => t.kind.isComment || t.kind.isContinuation) = u :: us →
    ts.dropWhile (isLayout ·.kind) = u :: us → isLayout u.kind = false →
    Steady n (u :: us)) : Steady n ts := by
  induction ts with
  | nil => trivial
  | cons t ts ih =>
    by_cases ht : (t.kind.isComment || t.kind.isContinuation)
    · have hsteady : Steady n ts := ih fun u us hpassed hdrop =>
        h u us (by simpa [ht] using hpassed) (by simpa [isLayout_of_passed ht] using hdrop)
      cases hk : t.kind <;> simp [hk, TokenKind.isComment,
        TokenKind.isContinuation] at ht <;> simpa only [Steady, hk] using hsteady
    · by_cases hlayout : isLayout t.kind
      · cases hk : t.kind with
        | newline => simp only [Steady, hk]
        | delimiter d => simp only [Steady, hk]
        | comment | blockComment | continuation =>
          simp [hk, TokenKind.isComment, TokenKind.isContinuation] at ht
        | _ => simp [hk, isLayout] at hlayout
      · exact h t ts (List.dropWhile_cons_of_neg ht) (List.dropWhile_cons_of_neg hlayout)
          (by simpa using hlayout)

/-! ## No header goes on with a literal -/

section

variable {t : Token} {v : Text} (ht : t.kind = .literal .single v)

include ht

theorem not_seesKind {k : TokenKind} (hk : k ≠ .literal .single v) (hr : Sees t r) : ¬ SeesKind k r := by
  rintro ⟨u, hu, rfl⟩
  obtain rfl := Option.some.inj (hu.symm.trans hr)
  exact hk ht

theorem expectIdentifier_literal : Triple (Sees t) (expectIdentifier what) fun _ _ => False :=
  .identifier fun u _ hkind _ _ _ hr _ => not_seesKind ht (by simp) hr.1 ⟨u, hr.2, hkind⟩

theorem signature_literal : Triple (Sees t) signature fun _ _ => False := by
  have kept : Triple (Sees t) returnNames fun _ r => Sees t r := by
    have hsecond : Triple (Sees t) peekSecond fun _ r => Sees t r := by
      intro r u s hr hrun
      obtain ⟨rfl, -⟩ := of_peekSecond hrun
      exact hr
    refine .ifSees (fun _ _ _ hr _ => absurd hr.2 (not_seesKind ht (by simp) hr.1))
      (hsecond.bind fun u => .ite (fun _ => ?_) fun _ => .pure fun _ hr => hr)
    exact (expectIdentifier_literal ht).bind fun _ r _ _ hr _ => hr.elim
  exact kept.bind fun _ => (expectIdentifier_literal ht).bind fun _ r _ _ hr _ => hr.elim

theorem endHeader_literal : Triple (Sees t) endHeader fun _ _ => False := by
  refine peek_spec.bind fun u => ?_
  have other {x : Read Unit} {k : TokenKind} (hu : u.kind = k) (hk : k ≠ .literal .single v) :
      Triple (fun r => Sees t r ∧ Sees u r) x fun _ _ => False :=
    fun r _ _ hr _ => not_seesKind ht hk hr.1 ⟨u, hr.2, hu⟩
  split
  · exact other ‹_› (by simp)
  · exact other ‹_› (by simp)
  · refine .ite (fun hends => ?_) fun _ => .unexpected
    intro r _ _ hr _
    obtain rfl := Option.some.inj (hr.1.symm.trans hr.2)
    rw [ht] at hends
    cases hends

/-- A block does not start with a literal behind its word. -/
theorem attributes_literal : Triple (Sees t) (do discard (attributes text); endHeader) fun _ _ => False := by
  have kept : Triple (Sees t) (attributes text) fun _ r => Sees t r :=
    .ifSees (fun _ _ _ hr _ => absurd hr.2 (not_seesKind ht (by simp) hr.1)) (.pure fun _ hr => hr)
  exact kept.discard.bind fun _ => endHeader_literal ht

end

/-! ## What the line starts with -/

section

variable {u : Token} {us tokens : List Token} {q : Reader}

/-- Where the layout is skipped the next token is seen. -/
theorem peek_of_skipped {record : Bool} (hq : Shift.Skipped record r q)
    (hr : r.ahead.dropWhile (isLayout ·.kind) = u :: us) (hu : isLayout u.kind = false) :
    peek q = .ok (u, q) :=
  peek_eq (sees_of_ahead (hq.ahead.trans hr) (isContinuation_of_not_isLayout hu))

/-- A word of a text that is no layout is not its last token. -/
theorem ne_nil_of_keyword {k : Keyword} (hscan : scan text = .ok tokens) (hr : r.ahead <:+ tokens)
    (hdrop : r.ahead.dropWhile (isLayout ·.kind) = u :: us) (hk : u.kind = .keyword k) : us ≠ [] := by
  rintro rfl
  have hsuffix : [u] <:+ tokens := hdrop ▸ (List.dropWhile_suffix _).trans hr
  rw [Shift.eof_of_suffix hscan hsuffix] at hk
  cases hk

/-- What is asked of the rounds of a block or a class: an `end` is the last one,
a word is not followed by a literal, and no round starts with a literal. -/
structure Rounds (next : Unit → Read (Option α)) : Prop where
  close : ∀ {u q q₁}, peek q = .ok (u, q) → advance q = .ok (u, q₁) →
    u.kind = .keyword .close → next () q = .ok (none, q₁)
  word : ∀ {u k q q₁ o p v value}, peek q = .ok (u, q) → advance q = .ok (u, q₁) →
    u.kind = .keyword k → k ≠ .close →
    next () q = .ok (o, p) → Sees v q₁ → v.kind ≠ .literal .single value
  literal : ∀ {u q o p value}, peek q = .ok (u, q) → u.kind = .literal .single value → next () q ≠ .ok (o, p)

section

variable (hr : r.ahead.dropWhile (isLayout ·.kind) = ts.dropWhile (isLayout ·.kind))
include hr

theorem steady_of_functions (hrun : Collected (turn (localFunction? limits text)) r fs s)
    (hnot : leads [.function] ts = false) : Steady 0 ts := by
  refine steady_of_next fun u us hpassed hdrop hu => ?_
  obtain ⟨q, hq⟩ := Shift.exists_skipped false r
  obtain ⟨p, hround, -⟩ := exists_round hrun
  rw [localFunction?, hq.run, bind_eq hq.skip, bind_eq (peek_of_skipped hq (hr.trans hdrop) hu)] at hround
  cases hk : u.kind with
  | keyword k =>
    cases k with
    | function => simp [leads, hpassed, hk] at hnot
    | _ =>
      rw [hk] at hround
      exact absurd hround not_unexpected
  | literal =>
    rw [hk] at hround
    exact absurd hround not_unexpected
  | comment | blockComment | continuation =>
    rw [hk] at hu
    cases hu
  | _ => simp only [Steady, hk]

variable (hscan : scan text = .ok tokens) (hsuffix : r.ahead <:+ tokens)
include hscan hsuffix

section

variable (hclose : ∀ u, (ts.dropWhile fun t => t.kind.isComment || t.kind.isContinuation) =
  u :: s.ahead → u.kind = .keyword .close →
  Steady n s.ahead)
include hclose

/-- Behind an `end` it is up to what follows whether the line may be joined. -/
theorem Rounds.steady {next : Unit → Read (Option α)} {as : List α} (h : Rounds next)
    (hrun : Collected (turn (skipLayout true >>= next)) r as s) : Steady (n + 1) ts := by
  refine steady_of_next fun u us hpassed hdrop hu => ?_
  obtain ⟨q, hq⟩ := Shift.exists_skipped true r
  have hpeek := peek_of_skipped hq (hr.trans hdrop) hu
  obtain ⟨p, hround, hdone⟩ := exists_round hrun
  rw [hq.run, bind_eq hq.skip] at hround
  cases hk : u.kind with
  | keyword k =>
    have hadvance : advance q = .ok (u, { q with ahead := us, last := some u }) :=
      advance_of_ahead (hq.ahead.trans (hr.trans hdrop)) (by rw [hk]; rfl)
        (ne_nil_of_keyword hscan hsuffix (hr.trans hdrop) hk)
    by_cases hkclose : k = .close
    · subst hkclose
      obtain ⟨hnone, rfl⟩ := Prod.mk.inj (Except.ok.inj ((h.close hpeek hadvance hk).symm.trans hround))
      obtain rfl := hdone (List.head?_eq_none_iff.1 hnone.symm)
      simp only [Steady, hk]
      exact ⟨n, rfl, hclose u hpassed hk⟩
    · have hnext : ∀ v ∈ us.head?, ∀ value, v.kind ≠ .literal .single value := by
        intro v hv value hvalue
        obtain ⟨rest, rfl⟩ := List.head?_eq_some_iff.1 hv
        exact h.word hpeek hadvance hk hkclose hround (sees_of_ahead rfl (by rw [hvalue]; rfl)) hvalue
      cases k <;> first | exact absurd rfl hkclose | simpa [Steady, hk] using hnext
  | literal quote value =>
    cases quote with
    | single => exact absurd hround (h.literal hpeek hk)
    | double => simp only [Steady, hk]
  | comment | blockComment | continuation =>
    rw [hk] at hu
    cases hu
  | _ => simp only [Steady, hk]

theorem steady_of_blocks (hrun : Collected (turn (block? limits text name)) r bs s) : Steady (n + 1) ts := by
  refine Rounds.steady hr hscan hsuffix hclose ⟨?_, ?_, ?_⟩ hrun
  · intro u q q₁ hpeek hadvance hk
    rw [bind_eq hpeek, hk]
    exact bind_eq (map_eq hadvance)
  · intro u k q q₁ o p v value hpeek hadvance hk hkclose hround hv hvalue
    rw [bind_eq hpeek, hk] at hround
    have hblock : ∃ kind b, block limits text kind q = .ok (b, p) := by
      cases k with
      | properties | methods | events =>
        obtain ⟨b, -, hblock⟩ := of_map hround
        exact ⟨_, b, hblock⟩
      | close => exact absurd rfl hkclose
      | _ => cases hround
    obtain ⟨kind, b, hblock⟩ := hblock
    obtain ⟨-, q₂, q₃, hfirst, hattributes, hheader, -⟩ := block_run (of_peek hpeek).2 rfl hblock
    cases hadvance.symm.trans hfirst
    exact attributes_literal hvalue hv ((bind_eq (map_eq hattributes)).trans hheader)
  · intro u q o p value hpeek hk hround
    rw [bind_eq hpeek, hk] at hround
    exact not_unexpected hround

theorem steady_of_members (hrun : Collected (turn (member? limits text kind isAbstract)) r ms s) :
    Steady (n + 1) ts := by
  refine Rounds.steady hr hscan hsuffix hclose ⟨?_, ?_, ?_⟩ hrun
  · intro u q q₁ hpeek hadvance hk
    rw [bind_eq hpeek, hk]
    exact bind_eq (map_eq hadvance)
  · intro u k q q₁ o p v value hpeek hadvance hk hkclose hround hv hvalue
    rw [bind_eq hpeek, hk] at hround
    have hfunction : ∃ m, functionMember limits text isAbstract q = .ok (m, p) := by
      cases k <;> cases kind <;> first | exact absurd rfl hkclose | exact absurd hround not_unexpected |
        (obtain ⟨m, -, hm⟩ := of_map hround; exact ⟨m, hm⟩)
    obtain ⟨m, hm⟩ := hfunction
    obtain ⟨q₂, q₃, htake, signature', -, -, hsignature, -⟩ := functionMember_run (of_peek hpeek).2 hm
    cases hadvance.symm.trans htake
    exact signature_literal hvalue hv hsignature
  · intro u q o p value hpeek hk hround
    rw [bind_eq hpeek, hk] at hround
    cases kind <;> exact not_unexpected hround

end

/-- Where the rest of a block, of the class and of the file is read, the line may be
joined to the one before unless it leads out of the class and on to a function. -/
theorem steady_of_file {r₁ r₂ : Reader}
    (hms : Collected (turn (member? limits text kind isAbstract)) r ms r₁)
    (hbs : Collected (turn (block? limits text name)) r₁ bs r₂)
    (hfs : Collected (turn (localFunction? limits text)) r₂ fs s)
    (hleads : leads [.close, .close, .function] ts = false) : Steady 2 ts := by
  have hsuffix₁ : r₁.ahead <:+ tokens := by
    obtain ⟨q, hchain, hdone⟩ := hms.chain
    exact (closing_member?.suffix (stop_of_turn hdone)).trans
      ((Fork.suffix_of_chain closing_member?.turning hchain).trans hsuffix)
  refine steady_of_members hr hscan hsuffix (fun u hu huclose =>
    steady_of_blocks rfl hscan hsuffix₁ (fun v hv hvclose => ?_) hbs) hms
  refine steady_of_functions rfl hfs ?_
  simpa [leads, hu, huclose, hv, hvclose] using hleads

end

end

end Read

end ClassdefDoc
