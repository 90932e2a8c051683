import ClassdefDoc.Proofs.Parse.Header
import ClassdefDoc.Proofs.Parse.Resync
import ClassdefDoc.Proofs.Parse.SharedStart

/-!
# Reading up to a fork

Two texts that start alike and then differ make a `Fork`. A reading that stays before the fork goes the
same way in both (`Fork.Before`): the tokens behind the fork are exchanged for the end of the file, the
reading goes over to the other text, whose start is the same, and the tokens behind the fork come back.
-/

namespace ClassdefDoc

open List Likeness Shift

namespace Text

variable {lead past past' rest : Text} {i j n : Nat}

/-- Texts that go on alike behind `past` and `past'` have the same parts there. -/
theorem slice?_behind (h : bytes past + n = bytes past') (hi : bytes past ≤ i) :
    (past' ++ rest).slice? (i + n) (j + n) = (past ++ rest).slice? i j := by
  refine Option.ext fun m => ?_
  rw [slice?_eq_some_iff, slice?_eq_some_iff]
  constructor
  · rintro ⟨a, c, hcut, ha, hm⟩
    obtain ⟨k, rfl, rfl⟩ := exists_append_of_bytes_le (hcut.trans (append_assoc ..)) (by omega)
    simp only [bytes_append] at ha hm
    exact ⟨past ++ k, c, by simp, by rw [bytes_append]; omega, by simp only [bytes_append]; omega⟩
  · rintro ⟨a, c, hcut, ha, hm⟩
    obtain ⟨k, rfl, rfl⟩ := exists_append_of_bytes_le (hcut.trans (append_assoc ..)) (by omega)
    simp only [bytes_append] at ha hm
    exact ⟨past' ++ k, c, by simp, by rw [bytes_append]; omega, by simp only [bytes_append]; omega⟩

/-- Texts that start with `lead` have the same parts there. -/
theorem slice?_of_le (hj : j ≤ bytes lead) (rest rest' : Text) :
    (lead ++ rest').slice? i j = (lead ++ rest).slice? i j := by
  have cut {m rest rest' : Text} : (lead ++ rest).slice? i j = some m →
      (lead ++ rest').slice? i j = some m := by
    rw [slice?_eq_some_iff, slice?_eq_some_iff]
    rintro ⟨a, c, h, ha, hm⟩
    obtain ⟨k, rfl, rfl⟩ := exists_append_of_bytes_le h.symm (hm ▸ hj)
    exact ⟨a, k ++ rest', by rw [append_assoc], ha, hm⟩
  exact Option.ext fun m => ⟨cut, cut⟩

/-- Parts that start in a common `lead` and end there are parts of both. -/
theorem isSome_slice?_across (hlead : lead <+: past) (hlead' : lead <+: past')
    (h : bytes past + n = bytes past') (hi : i ≤ bytes lead) (hj : bytes past ≤ j)
    (hsome : ((past ++ rest).slice? i j).isSome) : ((past' ++ rest).slice? i (j + n)).isSome := by
  obtain ⟨x, rfl⟩ := hlead
  obtain ⟨y, rfl⟩ := hlead'
  obtain ⟨m, hm⟩ := Option.isSome_iff_exists.1 hsome
  obtain ⟨a, c, hcut, rfl, rfl⟩ := slice?_eq_some_iff.1 hm
  obtain ⟨k, hk, rfl⟩ := exists_append_of_bytes_le hcut hj
  rw [append_assoc] at hk
  obtain ⟨z, rfl, rfl⟩ := exists_append_of_bytes_le hk hi
  simp only [bytes_append] at h
  exact Option.isSome_iff_exists.2 ⟨z ++ (y ++ k), slice?_of_eq (c := c) (by simp) rfl
    (by simp only [bytes_append]; omega)⟩

end Text

/-- Two texts with a common start `lead`, the tokens `before` of this start,
the tokens that follow in both, and the token that would end the start. -/
structure Fork extends Shift where
  lead : Text
  before : List Token
  tail : List Token
  tail' : List Token
  last : Token
  lead_text : lead <+: text
  lead_text' : lead <+: text'
  scan_eq : scan text = .ok tokens
  scan_eq' : scan text' = .ok tokens'
  tokens_eq : tokens = before ++ tail
  tokens_eq' : tokens' = before ++ tail'
  tail_ne : tail ≠ []
  tail_ne' : tail' ≠ []
  laid : Laid none [] (before ++ [last]) lead
  last_kind : last.kind = .eof
  opens_self : ∀ {i}, i ≤ Text.bytes lead → opens i i

section

variable {lead past past' rest : Text} {tokens tokens' before tail tail' : List Token} {e t t' : Token}
  (hlead : lead <+: past) (hlead' : lead <+: past') (hle : Text.bytes past ≤ Text.bytes past')

/-- Texts that start alike and go on alike behind `past` and `past'`. Where these have the same width,
the offsets in `lead` correspond too. -/
def Shift.between (rest : Text) (tokens tokens' : List Token) : Shift where
  text := past ++ rest
  text' := past' ++ rest
  tokens := tokens
  tokens' := tokens'
  start := Text.bytes past
  lines := (Text.Distance.between past past').lines
  lines' := (Text.Distance.between past past').lines'
  offset i i' := i + (Text.bytes past' - Text.bytes past) = i' ∧
    (Text.bytes past ≤ i ∨ Text.bytes past' = Text.bytes past ∧ i ≤ Text.bytes lead)
  opens i i' := (i ≤ Text.bytes lead ∧ i' = i) ∨
    (Text.bytes past ≤ i ∧ i + (Text.bytes past' - Text.bytes past) = i')
  opens_of_offset := by
    rintro i i' ⟨rfl, hi | ⟨heq, hi⟩⟩
    · exact .inr ⟨hi, rfl⟩
    · exact .inl ⟨hi, by omega⟩
  isSome_slice? := by
    rintro i i' j j' (⟨hi, rfl⟩ | ⟨hi, rfl⟩) ⟨rfl, hj⟩ hsome
    · obtain hj | ⟨heq, hj⟩ := hj
      · exact Text.isSome_slice?_across hlead hlead' (Nat.add_sub_cancel' hle) hi hj hsome
      · obtain ⟨x, rfl⟩ := hlead
        obtain ⟨y, rfl⟩ := hlead'
        rw [append_assoc] at hsome ⊢
        rwa [heq, Nat.sub_self, Nat.add_zero, Text.slice?_of_le hj]
    · rwa [Text.slice?_behind (Nat.add_sub_cancel' hle) hi]
  slice?_eq := by
    rintro i i' j j' hi ⟨rfl, -⟩ ⟨rfl, -⟩
    exact Text.slice?_behind (Nat.add_sub_cancel' hle) hi

theorem Shift.sameToken_of_kept (h : t.Kept (.between past past') t') :
    (Shift.between hlead hlead' hle rest tokens tokens').SameToken t t' :=
  ⟨h.kind, ⟨h.offset, .inl h.start_le⟩, ⟨h.endOffset, .inl (h.start_le.trans (Nat.le_add_right _ _))⟩,
    h.start_le, h.line⟩

theorem Shift.sameExtent_of_raised (h : t.Raised (.between past past') t') :
    (Shift.between hlead hlead' hle rest tokens tokens').SameExtent t t' :=
  ⟨.inr ⟨h.start_le, h.offset⟩, .inr ⟨h.start_le.trans (Nat.le_add_right _ _), h.endOffset⟩⟩

/-- The fork of two such texts. -/
def Fork.between (hscan : scan (past ++ rest) = .ok (before ++ tail))
    (hscan' : scan (past' ++ rest) = .ok (before ++ tail')) (hne : tail ≠ []) (hne' : tail' ≠ [])
    (he : e.kind = .eof) (hlaid : Laid none [] (before ++ [e]) lead) : Fork :=
  { Shift.between hlead hlead' hle rest (before ++ tail) (before ++ tail') with
    lead := lead
    before := before
    tail := tail
    tail' := tail'
    last := e
    lead_text := hlead.trans (prefix_append _ _)
    lead_text' := hlead'.trans (prefix_append _ _)
    scan_eq := hscan
    scan_eq' := hscan'
    tokens_eq := rfl
    tokens_eq' := rfl
    tail_ne := hne
    tail_ne' := hne'
    laid := hlaid
    last_kind := he
    opens_self := fun h => .inl ⟨h, rfl⟩ }

end

namespace Read.WordRun

variable {record : Bool} {t : Token} {r q q₁ : Reader} {text : Text} {tokens : List Token}

/-- The word is not the last token. -/
theorem ahead_eq (h : WordRun record t r q q₁) (hscan : scan text = .ok tokens) (hr : r.ahead <:+ tokens) :
    q.ahead = t :: q₁.ahead := by
  obtain ⟨rest, hrest⟩ := h.ahead
  have hne : rest ≠ [] := by
    rintro rfl
    exact h.kind.2 (eof_of_suffix hscan (hrest ▸ (h.suffix hr).1))
  cases (advance_of_ahead hrest (isContinuation_of_not_isLayout h.kind.1) hne).symm.trans h.take
  exact hrest

theorem cons_suffix (h : WordRun record t r q q₁) (hscan : scan text = .ok tokens) (hr : r.ahead <:+ tokens) :
    t :: q₁.ahead <:+ r.ahead :=
  h.ahead_eq hscan hr ▸ near_skipLayout.suffix h.skip

end Read.WordRun

namespace Fork

open Read

variable (F : Fork)

theorem scanned : F.toShift.Scanned := ⟨F.scan_eq, F.scan_eq'⟩

/-- The texts start alike. -/
def likeness : Likeness := .shared F.lead_text F.lead_text'

/-- Readers of the two texts with the same tokens `c` ahead up to the fork. -/
structure Before (c : List Token) (r r' : Reader) : Prop where
  ahead : r.ahead = c ++ F.tail
  ahead' : r'.ahead = c ++ F.tail'
  like : F.likeness.LikeReader ⟨c ++ [F.last], r.last, r.comments⟩ ⟨c ++ [F.last], r'.last, r'.comments⟩

/-- The readers at the start of the two texts. -/
theorem before_start : F.Before F.before ⟨F.tokens, none, []⟩ ⟨F.tokens', none, []⟩ :=
  ⟨F.tokens_eq, F.tokens_eq', ⟨_, _, likeStream_shared F.laid rfl, .none⟩, .nil⟩

variable {F} {α : Type} {c d : List Token} {r r' s q q₁ : Reader} {t : Token} {b : Block} {name : Text}

/-- A reading that stays before the fork goes the same way in both texts. -/
theorem Before.carry {P P' O : List Token → List Token → Prop}
    {E E' : α → Prop} {x x' : Read α} {A : α → α → Prop} {v : α}
    (h : F.Before c r r') (hx : LocalAt P E (fun _ => O) x r)
    (hx' : LocalAt P' E' (fun _ => O) x' ⟨c ++ [F.last], r'.last, r'.comments⟩)
    (htwin : F.likeness.Twin x x' A) (hrun : x r = .ok (v, s))
    (hs : s.ahead = d ++ F.tail) (hO : O (d ++ F.tail) (d ++ [F.last]))
    (hO' : O (d ++ [F.last]) (d ++ F.tail')) : ∃ v' s', x' r' = .ok (v', s') ∧ A v v' ∧ F.Before d s s' := by
  obtain ⟨run, hahead, hsame⟩ := hx hrun
  obtain ⟨-, -, hcut⟩ := hsame (d ++ [F.last]) (hs ▸ hO)
  obtain rfl : c = run ++ d := by
    rw [h.ahead, hs, ← append_assoc] at hahead
    exact append_cancel_right hahead
  rw [← append_assoc] at hcut
  have hagree := htwin h.like
  rw [hcut] at hagree
  -- the same reading of the second text, cut off at the fork
  generalize hcut' : x' ⟨run ++ d ++ [F.last], r'.last, r'.comments⟩ = result at hagree
  cases hagree with
  | @ok _ result hlike =>
    obtain ⟨v', ts, last, comments⟩ := result
    obtain ⟨hv, hs'⟩ := hlike
    obtain ⟨run', hahead', hsame'⟩ := hx' hcut'
    obtain ⟨rfl, rfl⟩ : run = run' ∧ ts = d ++ [F.last] := by
      obtain ⟨n, n', hstream, -⟩ := hs'.ahead
      have happend : run' ++ ts = run ++ (d ++ [F.last]) := hahead'.symm.trans (append_assoc ..)
      obtain ⟨hrun, hts⟩ := append_inj' happend hstream.length_eq.symm
      exact ⟨hrun.symm, hts⟩
    obtain ⟨-, -, hback⟩ := hsame' (d ++ F.tail') hO'
    refine ⟨v', ⟨d ++ F.tail', last, comments⟩, ?_, hv, hs, rfl, hs'⟩
    rw [← hback, ← append_assoc, ← h.ahead']

/-! ## What may stand behind a reading -/

theorem resumes (hd : ∃ t ∈ d, isLayout t.kind = false) :
    Resumes (d ++ F.tail) (d ++ [F.last]) ∧ Resumes (d ++ [F.last]) (d ++ F.tail') := by
  obtain ⟨t, ht, hlayout⟩ := hd
  obtain ⟨shared, us, rfl⟩ := append_of_mem ht
  constructor
  · exact ⟨shared, t, us ++ F.tail, us ++ [F.last], by simp, by simp, hlayout, by simp [F.tail_ne], by simp⟩
  · exact ⟨shared, t, us ++ [F.last], us ++ F.tail', by simp, by simp, hlayout, by simp, by simp [F.tail_ne']⟩

theorem goesOn (hd : d ++ F.tail <:+ F.tokens) :
    GoesOn (d ++ F.tail) (d ++ [F.last]) ∧ GoesOn (d ++ [F.last]) (d ++ F.tail') := by
  refine ⟨⟨by simp [F.tail_ne], fun t ht => eof_of_suffix F.scan_eq (ht ▸ hd), by simp⟩,
    ⟨by simp, fun t ht => ?_, by simp [F.tail_ne']⟩⟩
  cases d with
  | nil =>
    obtain rfl : F.last = t := by simpa using ht
    exact F.last_kind
  | cons u d => simp at ht

/-! ## Steps before the fork -/

section

variable {h : Token} {z : List Token} {step : Read (Option α)}

/-- A reading that stays before a token `h` which is no layout. -/
theorem Before.near {x x' : Read α} {A : α → α → Prop} {v : α}
    (hbefore : F.Before c r r') (hx : Near x) (hx' : Near x') (htwin : F.likeness.Twin x x' A)
    (hrun : x r = .ok (v, s)) (hh : isLayout h.kind = false) (hs : h :: z ++ F.tail <:+ s.ahead) :
    ∃ d v' s', x' r' = .ok (v', s') ∧ A v v' ∧ F.Before d s s' := by
  obtain ⟨y, hy⟩ := hs
  have hahead : s.ahead = (y ++ h :: z) ++ F.tail := by rw [← hy, append_assoc]
  obtain ⟨hO, hO'⟩ := resumes (F := F) (d := y ++ h :: z) ⟨h, by simp, hh⟩
  obtain ⟨v', s', hrun', hv, hs'⟩ :=
    hbefore.carry (fun _ _ => @hx r _ _) (fun _ _ => @hx' _ _ _) htwin hrun hahead hO hO'
  exact ⟨_, v', s', hrun', hv, hs'⟩

theorem suffix_of_chain (hstep : Turning step) {as : List α} (hchain : Chain (turn step) r as s) :
    s.ahead <:+ r.ahead := by
  induction hchain with
  | nil => exact suffix_rfl
  | cons hturn _ ih => exact ih.trans (hstep.suffix (step_of_turn hturn))

/-- Rounds that stay before the token `h`. -/
theorem Before.chain {step' : Read (Option α)} {A : α → α → Prop}
    {as : List α} (hstep : Turning step) (hstep' : Turning step')
    (htwin : F.likeness.Twin step step' (Option.Rel A)) (hh : isLayout h.kind = false)
    (hchain : Chain (turn step) r as s) (hs : h :: z ++ F.tail <:+ s.ahead) (hbefore : F.Before c r r') :
    ∃ d as' s', Chain (turn step') r' as' s' ∧ Forall₂ A as as' ∧ F.Before d s s' := by
  induction hchain generalizing c r' with
  | nil r => exact ⟨c, [], r', .nil r', .nil, hbefore⟩
  | @cons r a next as s hturn hchain ih =>
    have hnext : h :: z ++ F.tail <:+ next.ahead := hs.trans (suffix_of_chain hstep hchain)
    obtain ⟨d, o', q', hround', ho, hq⟩ :=
      hbefore.near hstep.near hstep'.near htwin (step_of_turn hturn) hh hnext
    cases ho with
    | @some _ a' ha =>
      obtain ⟨d', as', s', hchain', has, hs'⟩ := ih hs hq
      exact ⟨d', a' :: as', s', .cons (by rw [turn, hround']) hchain', .cons ha has, hs'⟩

/-- The next token is taken in both texts. -/
theorem Before.advance (hbefore : F.Before (h :: c) r r') (hh : h.kind.isContinuation = false) :
    ∃ s s', Read.advance r = .ok (h, s) ∧ Read.advance r' = .ok (h, s') ∧ F.Before c s s' := by
  have htail : c ++ F.tail ≠ [] := by simp [F.tail_ne]
  have htail' : c ++ F.tail' ≠ [] := by simp [F.tail_ne']
  refine ⟨_, _, advance_of_ahead hbefore.ahead hh htail, advance_of_ahead hbefore.ahead' hh htail',
    rfl, rfl, ?_⟩
  have hagree := twin_advance hbefore.like
  have hlast : c ++ [F.last] ≠ [] := by simp
  rw [advance_of_ahead rfl hh hlast, advance_of_ahead rfl hh hlast] at hagree
  cases hagree with
  | ok hlike => exact hlike.2

theorem Before.suffix' (h : F.Before c r r') (hr : r.ahead <:+ F.tokens) : r'.ahead <:+ F.tokens' := by
  obtain ⟨past, hpast⟩ := hr
  rw [h.ahead, F.tokens_eq, ← append_assoc] at hpast
  exact ⟨past, by rw [h.ahead', F.tokens_eq', ← append_assoc, append_cancel_right hpast]⟩

theorem Before.last (h : F.Before c r r') : Option.Rel F.SameExtent r.last r'.last := by
  obtain ⟨_, _, -, hlast⟩ := h.like.ahead
  generalize r.last = o, r'.last = o' at hlast ⊢
  have corresponds {i i' : Nat} (h : F.likeness.offset i i') : F.opens i i' := by
    obtain ⟨rfl, x, y, hxy, rfl⟩ := h
    exact F.opens_self (by rw [hxy, Text.bytes_append]; exact Nat.le_add_right _ _)
  cases hlast with
  | none => exact .none
  | some ht => exact .some ⟨corresponds ht.1.offset, corresponds ht.1.endOffset⟩

/-- The first word of a header before the fork is found and taken in both texts. -/
theorem Before.word {record : Bool}
    (hbefore : F.Before c r r') (hr : r.ahead <:+ F.tokens) (hword : WordRun record t r q q₁)
    (hq₁ : d ++ F.tail <:+ q₁.ahead) : ∃ z q' q₁', WordRun record t r' q' q₁' ∧ F.Before z q₁ q₁' := by
  obtain ⟨y, hy⟩ := hq₁
  obtain ⟨z, hq⟩ : ∃ z, q.ahead = t :: z ++ F.tail :=
    ⟨y ++ d, by rw [hword.ahead_eq F.scan_eq hr, ← hy, cons_append, append_assoc]⟩
  obtain ⟨_, _, q', hskip', -, hq'⟩ :=
    hbefore.near near_skipLayout near_skipLayout twin_skipLayout hword.skip hword.kind.1 (by rw [hq])
  obtain rfl : _ = t :: z := append_cancel_right (hq'.ahead.symm.trans hq)
  obtain ⟨q₂, q₁', htake', hadvance', hq₁'⟩ := hq'.advance (isContinuation_of_not_isLayout hword.kind.1)
  cases hword.take.symm.trans htake'
  exact ⟨_, q', q₁', ⟨hskip', ⟨_, hq'.ahead'⟩, hword.kind, hadvance'⟩, hq₁'⟩

end

/-! ## Members and blocks before the fork -/

theorem near_function : Near (do discard Read.advance; signature : Read Signature) :=
  taking_take.near.bind fun _ => taking_signature.near

variable {limits : Limits} {kind : BlockKind} {isAbstract : Bool} {m : Member}

/-- Tokens before the fork correspond to themselves. -/
theorem opens_of_mem (ht : t ∈ F.before) : F.opens t.offset t.offset := by
  have bounded {k : Option TokenKind} {past ahead : Text} {ts : List Token}
      (h : Laid k past ts ahead) (ht : t ∈ ts) :
      t.offset ≤ Text.bytes (past ++ ahead) := by
    induction h with
    | @eof k past gap e _ _ _ hstands =>
      obtain rfl := mem_singleton.1 ht
      rw [hstands.offset]
    | @cons k past gap u ts rest _ _ _ hstands _ ih =>
      obtain rfl | ht := mem_cons.1 ht
      · rw [hstands.offset]
        simp only [Text.bytes_append]
        omega
      · have := ih ht
        simp only [Text.bytes_append] at this ⊢
        omega
  exact F.opens_self (bounded F.laid (mem_append_left _ ht))

/-- The body of a member that is read before the fork ends at the same `end` in both texts. -/
theorem bodyEnd?_before (hrun : member? limits F.text kind isAbstract r = .ok (some m, s))
    (hr : r.ahead <:+ F.tokens) (hs : s.ahead = d ++ F.tail) :
    Option.Rel F.opens (m.bodyEnd? limits F.tokens) (m.bodyEnd? limits F.tokens') := by
  cases hbody : m.body? with
  | none =>
    rw [Member.bodyEnd?, Member.bodyEnd?, hbody]
    exact .none
  | some b =>
    obtain ⟨q, t, rest, hfunction⟩ := member?_function hrun (by rw [hbody]; rfl)
    have hq : q.ahead <:+ F.tokens := (near_skipLayout.suffix hfunction.skip).trans hr
    obtain ⟨inner, close, htokens, -, -, -, signature', q₁, -,
        -, -, -, -, hsplit, hposition, q₂, hheader, hahead⟩ :=
      bodyTokens?_of_functionMember F.scan_eq hq hfunction.ahead hfunction.word hfunction.run
    obtain ⟨hinner, hclose, hend⟩ := Body.splitAtEnd_append hsplit
    rw [hs] at hinner
    -- the tokens of the function stand before the fork
    obtain ⟨run, hrest, hsame⟩ := near_function hheader
    rw [hahead, hinner] at hrest hsame
    obtain ⟨-, -, hheader'⟩ := hsame (inner ++ close :: (d ++ F.tail'))
      ⟨inner, close, _, _, rfl, rfl, by rw [hclose]; rfl, by simp [F.tail_ne], by simp [F.tail_ne']⟩
    have hlist (ts : List Token) : run ++ (inner ++ close :: (d ++ ts)) =
        run ++ (inner ++ close :: d) ++ ts := by simp
    have hcons : t :: rest = run ++ (inner ++ close :: d) ++ F.tail :=
      (show t :: rest = _ from hrest).trans (hlist _)
    obtain ⟨w, hw⟩ : ∃ w, run ++ (inner ++ close :: d) = t :: w := by
      cases hrun : run ++ (inner ++ close :: d) with
      | nil => simp at hrun
      | cons u w =>
        rw [hrun] at hcons
        rw [(List.cons.inj hcons).1]
        exact ⟨w, rfl⟩
    obtain ⟨past, hpast⟩ := hq
    obtain rfl : rest = w ++ F.tail := by
      rw [hw] at hcons
      exact (List.cons.inj hcons).2
    have hbefore : F.before = past ++ t :: w := by
      rw [hfunction.ahead, ← cons_append, ← append_assoc, F.tokens_eq] at hpast
      exact (append_cancel_right hpast).symm
    have htext' : F.tokens' = past ++ t :: (w ++ F.tail') := by
      rw [F.tokens_eq', hbefore, append_assoc, cons_append]
    have hdrop := dropWhile_start_of_scan (htext' ▸ F.scan_eq') (after_of_structural? hfunction.word).1
    rw [← htext', ← hposition, ← cons_append, ← hw, ← hlist] at hdrop
    have htokens' : bodyTokens? limits F.tokens' m.position = some (inner, close) := by
      simp only [bodyTokens?, hdrop, hheader', Except.toOption, Option.bind_eq_bind, Option.bind_some,
        hend, Option.pure_def]
    rw [Member.bodyEnd?, Member.bodyEnd?, hbody, htokens, htokens']
    exact .some (opens_of_mem (by rw [hbefore, ← hw]; simp))

/-- What some rounds give is read between their start and their end. -/
theorem exists_round_of_mem {step : Read (Option α)} (hstep : Turning step)
    {as : List α} {a : α} (h : Chain (turn step) r as s) (ha : a ∈ as) :
    ∃ q q', step q = .ok (some a, q') ∧ q.ahead <:+ r.ahead ∧ s.ahead <:+ q'.ahead := by
  obtain ⟨past, post, rfl⟩ := append_of_mem ha
  obtain ⟨q, hpast, hrest⟩ := h.of_append
  cases hrest with
  | cons hturn hpost =>
    exact ⟨q, _, step_of_turn hturn, suffix_of_chain hstep hpast, suffix_of_chain hstep hpost⟩

/-- Members that are read before the fork are the same in both texts. -/
theorem sameMembers_before {ms : List Member} (hr : r.ahead <:+ F.tokens)
    (h : Chain (turn (member? limits F.text kind isAbstract)) r ms s) (hs : d ++ F.tail <:+ s.ahead) :
    Forall₂ (F.SameMember limits) ms ms := by
  refine forall₂_same.2 fun m hm => ⟨rfl, ?_⟩
  obtain ⟨p, p', hround, hp, hp'⟩ := exists_round_of_mem closing_member?.turning h hm
  obtain ⟨y, hy⟩ := hs.trans hp'
  exact bodyEnd?_before hround (hp.trans hr) (d := y ++ d) (by rw [← hy, append_assoc])

theorem sameBlock_before (hrun : block? limits F.text name r = .ok (some b, s))
    (hr : r.ahead <:+ F.tokens) (hs : d ++ F.tail <:+ s.ahead) : F.SameBlock limits b b := by
  obtain ⟨t, q, q₁, q₂, hblock⟩ := block?_run hrun
  obtain ⟨p, hchain, hdone⟩ := (collected_of_collect hblock.members).chain
  have hp : s.ahead <:+ p.ahead := closing_member?.suffix (stop_of_turn hdone)
  exact ⟨rfl, sameMembers_before (hblock.suffix hr) hchain (hs.trans hp)⟩

theorem eq_of_likeAttributes {as as' : List Attribute} (h : Forall₂ F.likeness.LikeAttribute as as') :
    as = as' :=
  eq_of_forall₂ LikeAttribute.eq_of_shared h

/-- A block with a member at the fork, behind which the readings go on side by side. -/
theorem Before.memberBlock {u : Token} {q₂ : Reader}
    {z : List Token} {before behind : List Member} {p p₁ : Reader}
    (hbefore : F.Before c r r') (hr : r.ahead <:+ F.tokens)
    (hrun : BlockRun limits F.text b t r q q₁ q₂ s) (hmembers : b.members = before ++ m :: behind)
    (hpast : Chain (turn (member? limits F.text b.kind b.isAbstract)) q₂ before p)
    (hbehind : Collected (turn (member? limits F.text b.kind b.isAbstract)) p₁ behind s)
    (hu : isLayout u.kind = false) (hp : u :: z ++ F.tail <:+ p.ahead) (hfork : ∀ {c p'},
      F.Before c p p' → ∃ m' p₁', member? limits F.text' b.kind b.isAbstract p' = .ok (some m', p₁') ∧
      F.SameMember limits m m' ∧ F.Resync 2 p₁ p₁') :
    ∃ b' s', block? limits F.text' name r' = .ok (some b', s') ∧
      F.SameBlock limits b b' ∧ F.Resync 1 s s' := by
  have hq₂ : u :: z ++ F.tail <:+ q₂.ahead := hp.trans (suffix_of_chain closing_member?.turning hpast)
  have hq₁ : u :: z ++ F.tail <:+ q₁.ahead := hq₂.trans (near_attributes.suffix hrun.attributes)
  obtain ⟨_, q', q₁', hword', hq₁'⟩ := hbefore.word hr hrun.wordRun hq₁
  obtain ⟨_, as, q₂', hattributes', has, hq₂'⟩ :=
    hq₁'.near near_attributes near_attributes twin_attributes hrun.attributes hu hq₂
  obtain rfl := eq_of_likeAttributes has
  obtain ⟨_, _, q₃', hheader', -, hq₃'⟩ :=
    hq₂'.near near_endHeader near_endHeader twin_endHeader hrun.header hu hq₂
  obtain rfl : q₃' = q₂' := endHeader_spec (P := (· = q₂')) rfl hheader'
  obtain ⟨_, before', p', hpast', hbefore', hp'⟩ :=
    hq₂'.chain closing_member?.turning closing_member?.turning twin_member? hu hpast hp
  obtain rfl : before = before' := eq_of_forall₂ LikeMember.eq_of_shared hbefore'
  obtain ⟨m', p₁', hround', hm, hp₁⟩ := hfork hp'
  obtain ⟨behind', s', hbehind', hrest, hs⟩ : ∃ behind' s',
      Collected (turn (member? limits F.text' b.kind b.isAbstract)) p₁' behind' s' ∧
        Forall₂ (F.SameMember limits) behind behind' ∧ F.Resync 1 s s' :=
    collected_of_steps (fun hr hround => Resync.member? F.scanned hr hround) hbehind hp₁
  have hcollected :
      Collected (turn (member? limits F.text' b.kind b.isAbstract)) q₃' (before ++ m' :: behind') s' :=
    Chain.append_collected hpast' (.item (by rw [turn, hround']) hbehind')
  have hmany := many_of_closing closing_member? (ne_nil_of_meeting fun _ =>
    member?_meeting) F.scan_eq' hs.suffix' hcollected
  refine ⟨⟨b.kind, b.attributes, before ++ m' :: behind', t.span.start⟩,
    s', BlockRun.block? (q := q') ⟨hword'.skip, hword'.ahead,
    hrun.word, hword'.take, hattributes', hheader', hmany, rfl⟩, ?_, hs⟩
  have hsame : Forall₂ (F.SameMember limits) b.members (before ++ m' :: behind') := by
    rw [hmembers]
    exact rel_append (sameMembers_before (hrun.suffix hr) hpast hp) (.cons hm hrest)
  exact sameBlock_of_members rfl hsame

end Fork

end ClassdefDoc
