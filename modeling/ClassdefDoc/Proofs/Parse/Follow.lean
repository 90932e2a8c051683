import ClassdefDoc.Proofs.Parse.Local
import ClassdefDoc.Proofs.Print.Form

/-!
# Readings that follow one another

Two texts may have the same tokens from some place on, though the lines and columns of the tokens differ
(`Shift`). `D.Follows x x' A` says that the reading `x'` follows the reading `x`: in readers with those
tokens ahead it succeeds if `x` does, with results that are related by `A`. There is one rule for each
way to put readings together and one lemma for each reading function. What is read is the same but for
its places: `ClassDecl.bare` forgets them, together with the comments and with what bodies hold.
-/

namespace ClassdefDoc

open List
open Body (splitAtEnd docLength pieceOf cut)

variable {s : Reader} {cause : Cause} {p : Position} {limit : Nat}
  {tokens : List Token} {close close' : Token}

/-! ## Bare declarations -/

def Detail.bare : Detail → Detail
  | .method m => .method { m with body := m.body.map fun _ => ⟨none, []⟩ }
  | d => d

def Member.bare (m : Member) : Member := { m.unplaced with detail := m.detail.bare }

def Block.bare (b : Block) : Block := { b.unplaced with members := b.members.map (·.bare) }

/-- The class without places, comments and what its bodies hold. -/
def ClassDecl.bare (c : ClassDecl) :
    ClassDecl := { c.unplaced with blocks := c.blocks.map (·.bare), comments := [] }

theorem Attribute.anyAsserted_unplaced {as as' : List Attribute}
    (h : as.map (·.unplaced) = as'.map (·.unplaced)) (name : Text) :
    anyAsserted as name = anyAsserted as' name := by
  rw [← anyAsserted_map_unplaced, h, anyAsserted_map_unplaced]

theorem Member.isSome_body?_bare (m : Member) : m.bare.body?.isSome = m.body?.isSome := by
  cases hdetail : m.detail <;> simp [Member.bare, Member.unplaced,
    Member.body?, Member.method?, Detail.bare, hdetail]

/-- The rounds of two repetitions that keep step: each item leads to readers
related by `R` again, and the end to readers related by `S`. -/
theorem Read.collected_of_steps {α : Type} {step step' : Read (Option α)} {A : α → α → Prop}
    {R S : Reader → Reader → Prop} (h : ∀ {r r' o s}, R r r' → step r = .ok (o, s) →
      ∃ o' s', step' r' = .ok (o', s') ∧ Option.Rel A o o' ∧ (if o.isSome then R else S) s s') {r r' : Reader}
    {as : List α} (hcollected : Collected (Read.turn step) r as s) (hr : R r r') :
    ∃ as' s', Collected (Read.turn step') r' as' s' ∧ Forall₂ A as as' ∧ S s s' := by
  induction hcollected generalizing r' with
  | @done r s hstep =>
    obtain ⟨o, s', hround', ho, hs⟩ := h hr (Read.stop_of_turn hstep)
    cases ho
    exact ⟨[], s', .done (by rw [Read.turn, hround']), .nil, hs⟩
  | @item r a next as s hstep _ ih =>
    obtain ⟨o, next', hround', ho, hnext⟩ := h hr (Read.step_of_turn hstep)
    cases ho with
    | @some _ a' ha =>
      obtain ⟨as', s', hcollected', has, hs⟩ := ih hnext
      exact ⟨a' :: as', s', .item (by rw [Read.turn, hround']) hcollected', .cons ha has, hs⟩

/-! ## Texts with the same tokens -/

/-- Two texts with tokens, which have the same content from the offset `start`
on, where their lines differ by `lines` and `lines'`. `offset` relates the
places of the same tokens and `opens` the places from which code may be cut. -/
structure Shift where
  text : Text
  text' : Text
  tokens : List Token
  tokens' : List Token
  start : Nat
  lines : Nat
  lines' : Nat
  offset : Nat → Nat → Prop
  opens : Nat → Nat → Prop
  opens_of_offset : ∀ {i i'}, offset i i' → opens i i'
  isSome_slice? : ∀ {i i' j j'}, opens i i' → offset j j' → (text.slice? i j).isSome →
    (text'.slice? i' j').isSome
  slice?_eq : ∀ {i i' j j'}, start ≤ i → offset i i' → offset j j' → text'.slice? i' j' = text.slice? i j

namespace Shift

variable (D : Shift) {comments comments' : List LooseComment} {isAbstract : Bool} {name what : Text}
  {o o' : Option Token} {rest : List Token}

/-- Tokens between the same places of both texts. -/
structure SameExtent (t t' : Token) : Prop where
  offset : D.opens t.offset t'.offset
  endOffset : D.opens t.endOffset t'.endOffset

/-- The same token in both texts. -/
structure SameToken (t t' : Token) : Prop where
  kind : t.kind = t'.kind
  offset : D.offset t.offset t'.offset
  endOffset : D.offset t.endOffset t'.endOffset
  start_le : D.start ≤ t.offset
  line : t.line + D.lines' = t'.line + D.lines

/-- Readers of the two texts with the same tokens ahead. -/
structure Readers (r r' : Reader) : Prop where
  ahead : Forall₂ D.SameToken r.ahead r'.ahead
  suffix : r.ahead <:+ D.tokens
  suffix' : r'.ahead <:+ D.tokens'
  last : Option.Rel D.SameExtent r.last r'.last

variable {D} {α β : Type} {t t' : Token} {ts ts' : List Token} {r r' : Reader}

theorem SameToken.sameExtent (h : D.SameToken t t') : D.SameExtent t t' :=
  ⟨D.opens_of_offset h.offset, D.opens_of_offset h.endOffset⟩

/-- Readers that pass the same tokens. -/
theorem Readers.pass (h : D.Readers r r') {last last' : Option Token}
    (hts : Forall₂ D.SameToken ts ts') (hsuffix : ts <:+ r.ahead) (hsuffix' : ts' <:+ r'.ahead)
    (hlast : Option.Rel D.SameExtent last last') : D.Readers ⟨ts, last, comments⟩ ⟨ts', last', comments'⟩ :=
  ⟨hts, hsuffix.trans h.suffix, hsuffix'.trans h.suffix', hlast⟩

/-- Tokens of some kinds are passed in both. -/
theorem forall₂_dropWhile {R : Token → Token → Prop} (hR : ∀ {t t'}, R t t' → t.kind = t'.kind)
    {p : TokenKind → Bool} (h : Forall₂ R ts ts') :
    Forall₂ R (ts.dropWhile (p ·.kind)) (ts'.dropWhile (p ·.kind)) := by
  induction h with
  | nil => exact .nil
  | @cons t t' ts ts' ht hts ih =>
    rw [dropWhile_cons, dropWhile_cons, ← hR ht]
    split_ifs
    · exact ih
    · exact .cons ht hts

theorem Readers.dropWhile (h : D.Readers r r') (p : TokenKind → Bool) :
    D.Readers ⟨r.ahead.dropWhile (p ·.kind), r.last, comments⟩ ⟨r'.ahead.dropWhile (p ·.kind),
      r'.last, comments'⟩ :=
  h.pass (forall₂_dropWhile SameToken.kind h.ahead) (dropWhile_suffix _) (dropWhile_suffix _) h.last

/-! ## Readings in step -/

/-- In readers with the same tokens ahead the second reading succeeds if the first does. -/
def Follows (D : Shift) (x x' : Read α) (A : α → α → Prop) : Prop :=
  ∀ ⦃r r' a s⦄, D.Readers r r' → x r = .ok (a, s) → ∃ a' s', x' r' = .ok (a', s') ∧ A a a' ∧ D.Readers s s'

namespace Follows

variable {x x' y y' : Read α} {A : α → α → Prop} {B : β → β → Prop} {f : α → Read β}
  {step step' : Read (Option α)}

theorem pure {a a' : α} (h : A a a') : D.Follows (Pure.pure a) (Pure.pure a') A := by
  rintro r r' _ s hr ⟨⟩
  exact ⟨a', r', rfl, h, hr⟩

theorem bind {f' : α → Read β} (hx : D.Follows x x' A) (hf : ∀ a a', A a a' → D.Follows (f a) (f' a') B) :
    D.Follows (x >>= f) (x' >>= f') B := by
  intro r r' b s hr hrun
  obtain ⟨a, q, hx', hrun⟩ := Read.bind_eq_ok_iff.1 hrun
  obtain ⟨a', q', hq', ha, hq⟩ := hx hr hx'
  obtain ⟨b', s', hs', hb, hs⟩ := hf a a' ha hq hrun
  exact ⟨b', s', Read.bind_eq_ok_iff.2 ⟨a', q', hq', hs'⟩, hb, hs⟩

theorem refuse : D.Follows (Read.refuse cause p) x' A := by
  rintro r r' a s - ⟨⟩

theorem unexpected : D.Follows (Read.unexpected t what) x' A := by
  unfold Read.unexpected
  split <;> exact refuse

theorem refuse_bind {z : Read β} : D.Follows (Read.refuse cause p >>= f) z B := by
  intro r r' a s _ hrun
  obtain ⟨b, q, ⟨⟩, -⟩ := Read.bind_eq_ok_iff.1 hrun

theorem unexpected_bind {z : Read β} : D.Follows (Read.unexpected t what >>= f) z B := by
  unfold Read.unexpected
  split <;> exact refuse_bind

theorem ite {c : Prop} [Decidable c] (hx : D.Follows x x' A) (hy : D.Follows y y' A) :
    D.Follows (if c then x else y) (if c then x' else y') A := by
  split_ifs
  · exact hx
  · exact hy

/-- The rounds of two repetitions. -/
theorem collected (h : D.Follows step step' (Option.Rel A)) {as : List α}
    (hcollected : Collected (Read.turn step) r as s) (hr : D.Readers r r') :
    ∃ as' s', Collected (Read.turn step') r' as' s' ∧ Forall₂ A as as' ∧ D.Readers s s' :=
  Read.collected_of_steps (R := D.Readers) (S := D.Readers)
    (fun hr hrun => by simpa only [ite_self] using h hr hrun) hcollected hr

/-- Repetition keeps in step what each round keeps in step; both have as many tokens ahead. -/
theorem many (h : D.Follows step step' (Option.Rel A)) :
    D.Follows (Read.many step) (Read.many step') (Forall₂ A) := by
  intro r r' as s hr hrun
  obtain ⟨hcollected, hlength⟩ := of_collect hrun
  obtain ⟨as', s', hcollected, has, hs⟩ := collected h hcollected hr
  refine ⟨as', s', hcollected.collect_eq ?_, has, hs⟩
  rwa [← has.length_eq, ← hr.ahead.length_eq]

end Follows

/-! ## Taking tokens -/

open Read

theorem Readers.significant (h : D.Readers r r') :
    Forall₂ D.SameToken (Read.significant r.ahead) (Read.significant r'.ahead) :=
  forall₂_dropWhile SameToken.kind h.ahead

theorem follows_peek : D.Follows peek peek D.SameToken := by
  intro r r' t s hr
  rw [peek_run, peek_run]
  refine hr.significant.casesOn (by rintro ⟨⟩) fun ht _ => ?_
  rintro ⟨⟩
  exact ⟨_, r', rfl, ht, hr⟩

theorem follows_peekSecond : D.Follows peekSecond peekSecond D.SameToken := by
  intro r r' t s hr
  rw [peekSecond_run, peekSecond_run]
  refine hr.significant.casesOn (by rintro ⟨⟩) fun {t t' ts ts'} ht hts => ?_
  rintro ⟨⟩
  have hsecond : Forall₂ D.SameToken (significant ts) (significant ts') :=
    forall₂_dropWhile SameToken.kind hts
  exact ⟨_, r', rfl, hsecond.casesOn ht fun hu _ => hu, hr⟩

theorem follows_advance : D.Follows advance advance D.SameToken := by
  intro r r' t s hr hrun
  have hts := hr.significant
  have hsuffix : significant r.ahead <:+ r.ahead := dropWhile_suffix _
  have hsuffix' : significant r'.ahead <:+ r'.ahead := dropWhile_suffix _
  rw [advance_run] at hrun ⊢
  generalize significant r.ahead = ts at hts hsuffix hrun
  generalize significant r'.ahead = ts' at hts hsuffix' ⊢
  cases hts with
  | nil => cases hrun
  | @cons t t' ts ts' ht hts =>
    have hlast : Option.Rel D.SameExtent (some t) (some t') := .some ht.sameExtent
    cases hts with
    | nil =>
      cases hrun
      exact ⟨t', _, rfl, ht, hr.pass (.cons ht .nil) hsuffix hsuffix' hlast⟩
    | cons hu hts =>
      cases hrun
      exact ⟨t', _, rfl, ht,
        hr.pass (.cons hu hts) ((suffix_cons _ _).trans hsuffix) ((suffix_cons _ _).trans hsuffix') hlast⟩

theorem follows_lastLine : D.Follows lastLine lastLine fun _ _ => True := by
  intro r r' n s hr hrun
  rw [lastLine_run] at hrun
  cases hrun
  exact ⟨_, r', lastLine_run r', trivial, hr⟩

theorem follows_skipLayout {record : Bool} : D.Follows (skipLayout record) (skipLayout record) Eq := by
  rintro r r' a s hr ⟨⟩
  exact ⟨(), _, rfl, rfl, hr.dropWhile isLayout⟩

theorem follows_skipLines : D.Follows skipLines skipLines Eq := by
  rintro r r' a s hr ⟨⟩
  exact ⟨(), _, rfl, rfl, hr.dropWhile isLineLayout⟩

/-! ## Expressions and groups -/

theorem forall₂_expression (stops : TokenKind → Bool) (h : Forall₂ D.SameToken ts ts') (depth : Nat) :
    Forall₂ D.SameToken (expression stops depth ts).1 (expression stops depth ts').1 ∧
      Forall₂ D.SameToken (expression stops depth ts).2 (expression stops depth ts').2 := by
  induction h generalizing depth with
  | nil => exact ⟨.nil, .nil⟩
  | @cons t t' ts ts' ht hts ih =>
    rw [expression, expression, ← ht.kind]
    have stop : Forall₂ D.SameToken (t :: ts) (t' :: ts') := .cons ht hts
    split
    · exact ih depth
    · exact ⟨.nil, stop⟩
    all_goals
      dsimp only
      split_ifs
      · exact ⟨.nil, stop⟩
      · exact ⟨.cons ht (ih _).1, (ih _).2⟩

theorem rel_getLast? (h : Forall₂ D.SameToken ts ts') : Option.Rel D.SameToken ts.getLast? ts'.getLast? := by
  induction h with
  | nil => exact .none
  | cons ht hts ih =>
    cases hts with
    | nil => exact .some ht
    | cons => exact ih

theorem rel_sameExtent (h : Option.Rel D.SameToken o o') : Option.Rel D.SameExtent o o' := by
  cases h with
  | none => exact .none
  | some ht => exact .some ht.sameExtent

theorem follows_takeExpression {stops : TokenKind → Bool} :
    D.Follows (takeExpression stops) (takeExpression stops) (Forall₂ D.SameToken) := by
  rintro r r' a s hr ⟨⟩
  obtain ⟨htaken, hrest⟩ := forall₂_expression stops hr.ahead 0
  have hsuffix (ts : List Token) : (expression stops 0 ts).2 <:+ ts := by
    obtain ⟨run, hrun, -⟩ := expression_append stops 0 ts
    exact ⟨run, hrun.symm⟩
  exact ⟨_, _, rfl, htaken,
    hr.pass hrest (hsuffix _) (hsuffix _) (rel_or (rel_sameExtent (rel_getLast? htaken)) hr.last)⟩

theorem follows_textOf {first first' last last' : Token} (hfirst : D.SameToken first first')
    (hlast : D.SameToken last last') :
    D.Follows (textOf D.text first last) (textOf D.text' first' last') Eq := by
  unfold textOf
  rw [D.slice?_eq hfirst.start_le hfirst.offset hlast.endOffset]
  split
  · exact .pure rfl
  · exact .refuse

theorem forall₂_groupEnd (h : Forall₂ D.SameToken ts ts') {depth : Nat}
    (hend : groupEnd depth ts = .ok (t, rest)) :
    ∃ t' rest', groupEnd depth ts' = .ok (t', rest') ∧ D.SameToken t t' ∧ Forall₂ D.SameToken rest rest' := by
  induction h generalizing depth with
  | nil => cases hend
  | @cons u u' ts ts' hu hts ih =>
    obtain ⟨d, -, -, hskip⟩ | ⟨-, hclose⟩ | ⟨_, -, herror⟩ := groupEnd_cons depth u.kind
    · rw [hskip u ts rfl] at hend
      rw [hskip u' ts' hu.kind.symm]
      exact ih hend
    · cases (hclose u ts rfl).symm.trans hend
      exact ⟨u', ts', hclose u' ts' hu.kind.symm, hu, hts⟩
    · cases (herror u ts rfl).symm.trans hend

theorem follows_skipGroup : D.Follows skipGroup skipGroup Eq := by
  intro r r' a s hr hrun
  rw [skipGroup_run] at hrun ⊢
  split at hrun
  · cases hrun
  · rename_i t rest hend
    cases hrun
    obtain ⟨t', rest', hend', ht, hrest⟩ := forall₂_groupEnd hr.ahead hend
    have hsuffix {ts : List Token} {t : Token} {rest : List Token}
        (h : groupEnd 0 ts = .ok (t, rest)) : rest <:+ ts := by
      obtain ⟨past, rfl, -⟩ := groupEnd_append h
      exact (suffix_cons t rest).trans (suffix_append past _)
    rw [hend']
    exact ⟨(), _, rfl, rfl, hr.pass hrest (hsuffix hend) (hsuffix hend') (.some ht.sameExtent)⟩

/-! ## Attribute lists -/

theorem ofTokens_eq (h : Forall₂ D.SameToken ts ts') (raw : Text) :
    AttributeValue.ofTokens ts raw = AttributeValue.ofTokens ts' raw := by
  cases h with
  | nil => rfl
  | cons ht hts =>
    cases hts with
    | nil => simp only [AttributeValue.ofTokens, ht.kind]
    | cons => rfl

theorem follows_attributeValue : D.Follows (attributeValue D.text) (attributeValue D.text') Eq := by
  refine follows_takeExpression.bind fun ts ts' hts => follows_peek.bind fun t t' ht => ?_
  rw [← ht.kind]
  refine .ite .refuse_bind ?_
  have hlast := rel_getLast? hts
  cases hts with
  | nil => exact .unexpected
  | @cons u u' us us' hu hus =>
    rw [head?_cons, head?_cons]
    refine hlast.casesOn (fun hlast => (follows_textOf hu hlast).bind ?_) .unexpected
    rintro raw _ rfl
    exact .pure (ofTokens_eq (.cons hu hus) raw)

/-! ## Bodies -/

theorem forall₂_splitAtEnd {inner : Nat} (h : Forall₂ D.SameToken ts ts')
     (hend : splitAtEnd limit name inner ts = .ok (tokens, close, rest)) :
    ∃ tokens' close' rest', splitAtEnd limit name inner ts' = .ok (tokens', close', rest') ∧
      Forall₂ D.SameToken tokens tokens' ∧ D.SameToken close close' ∧ Forall₂ D.SameToken rest rest' := by
  induction h generalizing inner tokens with
  | nil => cases hend
  | @cons t t' ts ts' ht hts ih =>
    obtain ⟨n, -, hkeep⟩ | ⟨-, hclose⟩ | ⟨_, -, herror⟩ := Body.splitAtEnd_cons limit name inner t.kind
    · rw [hkeep t ts rfl] at hend
      rw [hkeep t' ts' ht.kind.symm]
      cases hrest : splitAtEnd limit name n ts with
      | error e => simp [hrest, Except.map] at hend
      | ok x =>
        obtain ⟨tokens₁, close₁, rest₁⟩ := x
        rw [hrest] at hend
        cases hend
        obtain ⟨tokens', close', rest', hend', htokens, hclose, hrest'⟩ := ih hrest
        exact ⟨t' :: tokens', close', rest', by rw [hend']; rfl, .cons ht htokens, hclose, hrest'⟩
    · cases (hclose t ts rfl).symm.trans hend
      exact ⟨[], t', ts', hclose t' ts' ht.kind.symm, .nil, ht, hts⟩
    · cases (herror t ts rfl).symm.trans hend

/-- The comment that opens a body has as many tokens. -/
theorem docLength_eq (h : Forall₂ D.SameToken ts ts') {previous previous' : Option Nat}
    (hprevious : Option.Rel (fun l l' => l + D.lines' = l' + D.lines) previous previous') :
    docLength previous ts = docLength previous' ts' := by
  induction h generalizing previous previous' with
  | nil => rfl
  | @cons t t' ts ts' ht _ ih =>
    have hline := ht.line
    have hbelow : (previous.all fun l => t.line == l + 1) = previous'.all fun l => t'.line == l + 1 := by
      cases hprevious with
      | none => rfl
      | some hl =>
        rw [Bool.eq_iff_iff]
        simp only [Option.all_some, beq_iff_eq]
        omega
    have hnone : previous.isNone = previous'.isNone := by cases hprevious <;> rfl
    rw [Body.docLength.eq_def, Body.docLength.eq_def]
    dsimp only
    rw [← ht.kind, hbelow, ih (.some ht.line), ih hprevious, hnone]

/-- Tokens with the same part in a body; where they are code, their places do not matter. -/
structure SamePiece (D : Shift) (t t' : Token) : Prop where
  piece : pieceOf t = pieceOf t'
  extent : pieceOf t = none ∨ D.offset t.offset t'.offset ∧ D.opens t.endOffset t'.endOffset

theorem SameToken.samePiece (ht : D.SameToken t t') : D.SamePiece t t' :=
  ⟨by simp only [pieceOf, ht.kind], .inr ⟨ht.offset, ht.sameExtent.endOffset⟩⟩

/-- The text can be cut at the same places. -/
theorem isSome_cut (h : Forall₂ D.SamePiece ts ts') {stop stop' start start' : Nat}
    (hstop : D.offset stop stop') (hstart : D.opens start start') (hcut : (cut D.text stop start ts).isSome) :
    (cut D.text' stop' start' ts').isSome := by
  induction h generalizing start start' with
  | nil =>
    simp only [cut, Option.bind_eq_bind, Option.pure_def, Option.isSome_bind,
      Option.any_eq_true, Option.isSome_some, and_true] at hcut ⊢
    obtain ⟨code, hcode⟩ := hcut
    obtain ⟨code', hcode'⟩ := Option.isSome_iff_exists.1 (D.isSome_slice? hstart hstop (by rw [hcode]; rfl))
    exact ⟨code', hcode'⟩
  | @cons t t' ts ts' ht _ ih =>
    rw [cut] at hcut ⊢
    rw [← ht.piece]
    split at hcut
    · exact ih hstart hcut
    rename_i hpiece
    obtain hnone | ⟨hoffset, hend⟩ := ht.extent
    · rw [hnone] at hpiece
      cases hpiece
    · simp only [Option.bind_eq_bind, Option.pure_def, Option.isSome_bind,
        Option.any_eq_true, Option.isSome_some, and_true] at hcut ⊢
      obtain ⟨code, hcode, more, hmore⟩ := hcut
      obtain ⟨code', hcode'⟩ :=
        Option.isSome_iff_exists.1 (D.isSome_slice? hstart hoffset (by rw [hcode]; rfl))
      obtain ⟨more', hmore'⟩ := Option.isSome_iff_exists.1 (ih hend (by rw [hmore]; rfl))
      exact ⟨code', hcode', more', hmore'⟩

/-- A body starts behind the token taken last. -/
theorem opens_start (hclose : D.SameToken close close') (h : Option.Rel D.SameExtent o o') :
    D.opens ((o.map Token.endOffset).getD close.offset) ((o'.map Token.endOffset).getD close'.offset) := by
  cases h with
  | none => exact hclose.sameExtent.offset
  | some ht => exact ht.endOffset

/-- Bodies that end at the same `end` are read if their code can be cut out. -/
theorem exists_body {tokens' rest' : List Token} (hsuffix : r.ahead <:+ D.tokens)
    (hsuffix' : r'.ahead <:+ D.tokens') (hsplit : splitAtEnd limit name 0 r.ahead = .ok (tokens, close, rest))
    (hsplit' : splitAtEnd limit name 0 r'.ahead = .ok (tokens', close', rest'))
    (hclose : D.SameToken close close') (hrest : Forall₂ D.SameToken rest rest')
    (hcut : (cut D.text' close'.offset (Body.start tokens' r'.last close')
      (tokens'.drop (docLength none tokens'))).isSome) :
    ∃ b' s', body limit D.text' name r' = .ok (b', s') ∧
      D.Readers { r with ahead := rest, last := some close } s' := by
  obtain ⟨pieces', hpieces'⟩ := Option.isSome_iff_exists.1 hcut
  exact ⟨_, _, body_eq_ok_iff.2 ⟨_, _, _, pieces', hsplit', hpieces', rfl, rfl⟩,
    hrest, (Body.suffix_of_splitAtEnd hsplit).trans hsuffix,
    (Body.suffix_of_splitAtEnd hsplit').trans hsuffix', .some hclose.sameExtent⟩

theorem follows_body :
    D.Follows (body limit D.text name) (body limit D.text' name) fun _ _ => True := by
  intro r r' b s hr hrun
  obtain ⟨tokens, close, rest, pieces, hsplit, hcut, -, rfl⟩ := body_eq_ok_iff.1 hrun
  obtain ⟨tokens', close', rest', hsplit', htokens, hclose, hrest⟩ := forall₂_splitAtEnd hr.ahead hsplit
  have hdoc : docLength none tokens = docLength none tokens' := docLength_eq htokens .none
  have hstart : D.opens (Body.start tokens r.last close) (Body.start tokens' r'.last close') := by
    rw [Body.start, Body.start, ← hdoc]
    exact opens_start hclose (rel_or (rel_sameExtent (rel_getLast? (forall₂_take _ htokens))) hr.last)
  obtain ⟨b', s', hrun', hs⟩ := exists_body hr.suffix hr.suffix' hsplit hsplit' hclose hrest <| by
    rw [← hdoc]
    exact isSome_cut ((forall₂_drop _ htokens).imp fun _ _ =>
      SameToken.samePiece) hclose.offset hstart (by rw [hcut]; rfl)
  exact ⟨b', s', hrun', trivial, hs⟩

/-! ## Members -/

theorem follows_defaultValue : D.Follows (defaultValue D.text) (defaultValue D.text') Eq := by
  refine follows_peek.bind fun t t' ht => ?_
  rw [← ht.kind]
  refine .ite .unexpected_bind (follows_takeExpression.bind fun ts ts' hts => follows_textOf ht ?_)
  exact (rel_getLast? hts).casesOn id ht

theorem bare_methodOf {s : Signature} {b b' : Option Body} (h : b.isSome = b'.isSome) (isAbstract : Bool)
    (header header' : LineRange) (first first' : Token) :
    (methodOf s b isAbstract header first).bare = (methodOf s b' isAbstract header' first').bare := by
  cases b <;> cases b' <;> first | rfl | cases h

theorem wordAfterLines_eq (h : Forall₂ D.SameToken ts ts') :
    wordAfterLines ts = wordAfterLines ts' := by
  unfold wordAfterLines
  refine (forall₂_dropWhile (p := isLineLayout) SameToken.kind h).casesOn rfl fun ht _ => ?_
  dsimp only
  rw [ht.kind]

/-- Readings in step. -/
def parallel (D : Shift) : Parallel where
  text := D.text
  text' := D.text'
  Rel := D.Follows
  token := D.SameToken
  reader := D.Readers
  line _ _ := True
  value := Eq
  item a a' := a.unplaced = a'.unplaced
  part := Eq
  body _ _ := True
  member m m' := m.bare = m'.bare
  rel_pure := .pure
  rel_bind := .bind
  rel_many := .many
  rel_refuse _ _ := .refuse
  kind ht := ht.kind ▸ .same _
  wordAfterLines hr := wordAfterLines_eq hr.ahead
  get := by
    rintro r r' _ s hr ⟨⟩
    exact ⟨r', r', rfl, hr, hr⟩
  peek := follows_peek
  peekSecond := follows_peekSecond
  advance := follows_advance
  skipLines := follows_skipLines
  skipLayout _ := follows_skipLayout
  lastLine := follows_lastLine
  skipGroup := follows_skipGroup
  attributeValue := follows_attributeValue
  defaultValue := follows_defaultValue
  bodies _ _ := follows_body
  flag := AttributeValue.flag_rfl
  item_mk _ hv := by
    rw [hv]
    rfl
  name_eq h := congrArg (·.name) h
  asserted_eq h := congrArg (·.asserted) h
  property_mk _ hv _ := by
    cases hv with
    | none => rfl
    | some h =>
      rw [h]
      rfl
  event_mk _ _ := rfl
  method_mk _ hb _ := bare_methodOf (by cases hb <;> rfl) _ _ _ _ _

theorem follows_endHeader : D.Follows endHeader endHeader Eq := D.parallel.endHeader

theorem follows_attributeItem? : D.Follows (attributeItem? D.text) (attributeItem? D.text')
    (Option.Rel fun a a' => a.unplaced = a'.unplaced) :=
  D.parallel.attributeItem?

theorem follows_attributes : D.Follows (attributes D.text) (attributes D.text')
    fun as as' => as.map (·.unplaced) = as'.map (·.unplaced) := by
  intro r r' as s hr hrun
  obtain ⟨as', s', hrun', has, hs⟩ := D.parallel.attributes hr hrun
  exact ⟨as', s', hrun', map_eq_of_forall₂ has fun _ _ h => h, hs⟩

theorem follows_signature : D.Follows signature signature Eq := D.parallel.signature

end Shift

end ClassdefDoc
