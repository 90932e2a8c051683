import ClassdefDoc.Proofs.Parse.BodyEnd
import ClassdefDoc.Proofs.Print.Written
import ClassdefDoc.Proofs.Scan.Join
import ClassdefDoc.Proofs.Scan.Lossless
import Mathlib.Data.List.DropRight

/-!
# Reading behind a joint

Behind the place where a line is joined to the one before, the readings of the two texts
follow one another, though some words are keywords in one text and names in the other
(`Relaxed`). Members, blocks and functions start with layout that is skipped, so it is enough
that the tokens from the next statement on are related (`Shift.Resync`). The classes that are
read are the same but for their places, and their bodies end at the same `end` (`SameBlock`).
-/

namespace ClassdefDoc

open List
open Body (splitAtEnd pieceOf cut docLength)
open TokenKind (isComment isContinuation isJoined)

namespace Shift

open Read

variable {α : Type} {E R : Token → Token → Prop} {P : Reader → Prop} {name text : Text} {q : Reader}
  {t t' : Token} {tokens ts ts' : List Token}

/-- Members that are the same but for their places, with bodies that end at the same `end`. -/
structure SameMember (D : Shift) (limits : Limits) (m m' : Member) : Prop where
  bare : m.bare = m'.bare
  bodyEnd : Option.Rel D.opens (m.bodyEnd? limits D.tokens) (m'.bodyEnd? limits D.tokens')

structure SameBlock (D : Shift) (limits : Limits) (b b' : Block) : Prop where
  bare : b.bare = b'.bare
  members : Forall₂ (D.SameMember limits) b.members b'.members

/-- The tokens are those of the texts. -/
structure Scanned (D : Shift) : Prop where
  scan_eq : scan D.text = .ok D.tokens
  scan_eq' : scan D.text' = .ok D.tokens'

/-- In addition, the same offsets correspond. -/
structure Joined (D : Shift) : Prop extends D.Scanned where
  offset_self : ∀ i, D.offset i i

variable {D : Shift} {limits : Limits} {n limit : Nat} {r r' s s' q' : Reader}
  {kind : BlockKind} {isAbstract record : Bool} {ms : List Member} {step : Read (Option α)} {us : List Unit}

/-- Bodies end at the token that is taken last. -/
theorem sameMember_of_member? {m m' : Member} (hD : D.Scanned)
    (hr : r.ahead <:+ D.tokens) (hr' : r'.ahead <:+ D.tokens')
    (hrun : member? limits D.text kind isAbstract r = .ok (some m, s))
    (hrun' : member? limits D.text' kind isAbstract r' = .ok (some m', s')) (hbare : m.bare = m'.bare)
    (hlast : Option.Rel D.SameExtent s.last s'.last) : D.SameMember limits m m' := by
  refine ⟨hbare, ?_⟩
  have hsome : m'.body?.isSome = m.body?.isSome := by
    rw [← m'.isSome_body?_bare, ← hbare, m.isSome_body?_bare]
  cases hbody : m.body?.isSome with
  | true =>
    rw [bodyEnd?_of_member? hD.scan_eq hr hrun hbody,
      bodyEnd?_of_member? hD.scan_eq' hr' hrun' (hsome.trans hbody)]
    generalize s.last = o, s'.last = o' at hlast
    cases hlast with
    | none => exact .none
    | some ht => exact .some ht.offset
  | false =>
    rw [hbody] at hsome
    have hnone : m.body? = none := by simpa using hbody
    have hnone' : m'.body? = none := by simpa using hsome
    rw [Member.bodyEnd?, Member.bodyEnd?, hnone, hnone']
    exact .none

/-! ## The same tokens -/

theorem follows_member? (hD : D.Scanned) :
    D.Follows (member? limits D.text kind isAbstract) (member? limits D.text' kind isAbstract)
    (Option.Rel (D.SameMember limits)) := by
  intro r r' o s hr hrun
  obtain ⟨o', s', hrun', ho, hs⟩ := D.parallel.member? hr hrun
  refine ⟨o', s', hrun', ?_, hs⟩
  cases ho with
  | none => exact .none
  | some hm => exact .some (sameMember_of_member? hD hr.suffix hr.suffix' hrun hrun' hm hs.last)

theorem sameBlock_of_members {as as' : List Attribute} {ms' : List Member} {p p' : Position}
    (has : as.map (·.unplaced) = as'.map (·.unplaced)) (hms : Forall₂ (D.SameMember limits) ms ms') :
    D.SameBlock limits ⟨kind, as, ms, p⟩ ⟨kind, as', ms', p'⟩ := by
  refine ⟨?_, hms⟩
  have hbare : ms.map (·.bare) = ms'.map (·.bare) := map_eq_of_forall₂ hms fun _ _ h => h.bare
  simp only [Block.bare, Block.unplaced, has, hbare]

theorem follows_blockRest (hD : D.Scanned) (keyword keyword' : Token) :
    D.Follows (blockRest limits D.text kind keyword) (blockRest limits D.text' kind keyword')
    (D.SameBlock limits) :=
  D.parallel.blockRest (fun _ _ => follows_member? hD) fun _ _ _ _ has hms =>
    sameBlock_of_members (map_eq_of_forall₂ has fun _ _ h => h) hms

theorem follows_block? (hD : D.Scanned) :
    D.Follows (block? limits D.text name) (block? limits D.text' name) (Option.Rel (D.SameBlock limits)) :=
  D.parallel.block? (fun _ _ => follows_member? hD) fun _ _ _ _ _ _ _ _ has hms =>
    sameBlock_of_members (map_eq_of_forall₂ has fun _ _ h => h) hms

theorem follows_localFunction? :
    D.Follows (localFunction? limits D.text) (localFunction? limits D.text') (Option.Rel Eq) :=
  D.parallel.localFunction?

/-! ## Words that are keywords in one text only -/

/-- Readers of the two texts behind the joint, where `n` times an `end` may follow on the line. -/
structure Resync (D : Shift) (n : Nat) (r r' : Reader) : Prop where
  ahead : Relaxed D.SameExtent D.SameToken n (r.ahead.dropWhile (isLayout ·.kind))
    (r'.ahead.dropWhile (isLayout ·.kind))
  suffix : r.ahead <:+ D.tokens
  suffix' : r'.ahead <:+ D.tokens'
  last : Option.Rel D.SameExtent r.last r'.last

theorem Readers.resync (h : D.Readers r r') (n : Nat) : D.Resync n r r' :=
  ⟨.same (forall₂_dropWhile SameToken.kind h.ahead), h.suffix, h.suffix', h.last⟩

/-- The reader `q` stands where `r` comes when it skips layout. A reading
that skips layout first does the same from both. -/
structure Skipped (record : Bool) (r q : Reader) : Prop where
  ahead : q.ahead = r.ahead.dropWhile (isLayout ·.kind)
  last : q.last = r.last
  skip : skipLayout record q = .ok ((), q)
  run : ∀ {α : Type} (f : Unit → Read α), (skipLayout record >>= f) r = (skipLayout record >>= f) q

theorem exists_skipped (record : Bool) (r : Reader) : ∃ q, Skipped record r q := by
  obtain ⟨q, hq⟩ : ∃ q, skipLayout record r = .ok ((), q) := ⟨_, rfl⟩
  have hahead : q.ahead = r.ahead.dropWhile (isLayout ·.kind) := by cases hq; rfl
  have hlast : q.last = r.last := by cases hq; rfl
  have hagain : skipLayout record q = .ok ((), q) := by
    have hdrop : q.ahead.dropWhile (isLayout ·.kind) = q.ahead := by rw [hahead, dropWhile_idempotent]
    have htake : q.ahead.takeWhile (isLayout ·.kind) = [] := by
      have := takeWhile_append_dropWhile (p := fun t : Token => isLayout t.kind) (l := q.ahead)
      rw [hdrop] at this
      simpa using this
    show Except.ok ((), ({ q with ahead := _, comments := _ } : Reader)) = _
    simp only [hdrop, htake, filterMap_nil, ite_self, append_nil]
  exact ⟨q, hahead, hlast, hagain, fun f => by rw [bind_eq hq, bind_eq hagain]⟩

theorem dropLayout (hR : ∀ {t t'}, R t t' → t.kind = t'.kind)
    (h : Relaxed E R n ts ts') :
    Relaxed E R n (ts.dropWhile (isLayout ·.kind)) (ts'.dropWhile (isLayout ·.kind)) := by
  induction h with
  | same h => exact .same (forall₂_dropWhile hR h)
  | @passed n t t' ts ts' hkind hpassed _ ih =>
    simpa [isLayout_of_passed hpassed, ← hkind] using ih
  | word ht hk hk' hclose hfunction hne h =>
    simpa [hk, hk', isLayout] using Relaxed.word ht hk hk' hclose hfunction hne h
  | close ht hk hk' hne h _ =>
    simpa [hk, hk', isLayout] using Relaxed.close ht hk hk' hne h

theorem ne_nil_of_relaxed (h : Relaxed E R n ts ts') (hne : ts ≠ []) : ts' ≠ [] := by
  cases h with
  | same h =>
    cases h with
    | nil => exact absurd rfl hne
    | cons => exact cons_ne_nil _ _
  | _ => exact cons_ne_nil _ _

/-- At the next statement the tokens are the same, or its first word is a
keyword in the first text and a name in the second. -/
def Meets (D : Shift) (n : Nat) (q q' : Reader) : Prop :=
  q.ahead <:+ D.tokens ∧ q'.ahead <:+ D.tokens' ∧ (D.Readers q q' ∨
  ∃ k t t' q₁ q₁', peek q = .ok (t, q) ∧ peek q' = .ok (t', q') ∧
    advance q = .ok (t, q₁) ∧ advance q' = .ok (t', q₁') ∧
    t.kind = .keyword k ∧ t'.kind = .identifier k.word ∧
    (k ≠ .close ∧ (n = 0 → k ≠ .function) ∧ D.Readers q₁ q₁' ∨ k = .close ∧ ∃ m,
      n = m + 1 ∧ D.Resync m q₁ q₁'))

theorem Resync.meets (h : D.Resync n r r')
    (hq : Skipped record r q) (hq' : Skipped record r' q') :
    D.Meets n q q' := by
  have taken {q : Reader} {t : Token} {ts : List Token} (hq : q.ahead = t :: ts)
      (ht : t.kind.isContinuation = false) (hne : ts ≠ []) :
      peek q = .ok (t, q) ∧ advance q = .ok (t, { q with ahead := ts, last := some t }) :=
    ⟨peek_eq (sees_of_ahead hq ht), advance_of_ahead hq ht hne⟩
  have hahead := h.ahead
  have hsuffix : q.ahead <:+ D.tokens := hq.ahead ▸ (dropWhile_suffix _).trans h.suffix
  have hsuffix' : q'.ahead <:+ D.tokens' := hq'.ahead ▸ (dropWhile_suffix _).trans h.suffix'
  refine ⟨hsuffix, hsuffix', ?_⟩
  rw [← hq.ahead, ← hq'.ahead] at hahead
  generalize hts : q.ahead = ts at hahead
  generalize hts' : q'.ahead = ts' at hahead
  have shorter {q : Reader} {t : Token} {ts : List Token} {all : List Token}
      (hq : q.ahead = t :: ts) (hsuffix : q.ahead <:+ all) :
      ts <:+ all := (suffix_cons t ts).trans (hq ▸ hsuffix)
  cases hahead with
  | same hsame => exact .inl ⟨hts ▸ hts' ▸ hsame, hsuffix, hsuffix', hq.last ▸ hq'.last ▸ h.last⟩
  | @passed _ t _ _ _ _ hpassed =>
    have hlayout := head?_dropWhile_not (fun t : Token => isLayout t.kind) r.ahead
    rw [← hq.ahead, hts] at hlayout
    simp [isLayout_of_passed hpassed] at hlayout
  | @word _ t t' k us us' ht hk hk' hclose hfunction hne hsame =>
    obtain ⟨hpeek, hadvance⟩ := taken hts (by rw [hk]; rfl) hne
    obtain ⟨hpeek', hadvance'⟩ :=
      taken hts' (by rw [hk']; rfl) (ne_nil_of_relaxed (E := D.SameExtent) (.same (n := n) hsame) hne)
    exact .inr ⟨k, t, t', _, _, hpeek, hpeek', hadvance, hadvance',
      hk, hk', .inl ⟨hclose, hfunction, hsame, shorter hts hsuffix, shorter hts' hsuffix', .some ht⟩⟩
  | @close m t t' us us' ht hk hk' hne hrest =>
    obtain ⟨hpeek, hadvance⟩ := taken hts (by rw [hk]; rfl) hne
    obtain ⟨hpeek', hadvance'⟩ := taken hts' (by rw [hk']; rfl) (ne_nil_of_relaxed hrest hne)
    exact .inr ⟨.close, t, t', _, _, hpeek, hpeek', hadvance,
      hadvance', hk, hk', .inr ⟨rfl, m, rfl, dropLayout SameToken.kind hrest,
      shorter hts hsuffix, shorter hts' hsuffix', .some ht⟩⟩

/-- It is enough to look at readers at the next statement. -/
theorem Resync.exists_run {f f' : Unit → Read α}
    {a : α} {G : α → Reader → Prop} (h : D.Resync n r r') (hrun : (skipLayout record >>= f) r = .ok (a, s))
    (hG : ∀ q q', skipLayout record q = .ok ((), q) → skipLayout record q' = .ok ((), q') →
      (skipLayout record >>= f) q = .ok (a, s) → D.Meets n q q' →
      ∃ a' s', (skipLayout record >>= f') q' = .ok (a', s') ∧ G a' s') :
    ∃ a' s', (skipLayout record >>= f') r' = .ok (a', s') ∧ G a' s' := by
  obtain ⟨q, hq⟩ := exists_skipped record r
  obtain ⟨q', hq'⟩ := exists_skipped record r'
  rw [hq'.run]
  exact hG q q' hq.skip hq'.skip (hq.run f ▸ hrun) (h.meets hq hq')

/-- Behind a word that is taken in both texts the readings follow one another. -/
theorem exists_taken {f f' : Token → Read α} {A : α → α → Prop} {q₁ q₁' : Reader} {a : α}
    (hadvance : advance q = .ok (t, q₁)) (hadvance' : advance q' = .ok (t', q₁'))
    (hreaders : D.Readers q₁ q₁') (hf : D.Follows (f t) (f' t') A) (hrun : (advance >>= f) q = .ok (a, s)) :
    ∃ a' s', (advance >>= f') q' = .ok (a', s') ∧ A a a' ∧ D.Readers s s' := by
  rw [bind_eq hadvance] at hrun
  rw [bind_eq hadvance']
  exact hf hreaders hrun

theorem structural?_word {k : Keyword}
    (hk : k ∈ [.properties, .methods, .events, .enumeration, .function, .close]) :
    structural? (.identifier k.word) = some k := by
  revert hk
  cases k <;> decide +kernel

section

variable {q₁ : Reader} (hskip : skipLayout true q = .ok ((), q)) (hpeek : peek q = .ok (t, q))
include hskip hpeek

theorem member?_of_function (ht : structural? t.kind = some .function) :
    member? limits text .methods isAbstract q = (some <$> functionMember limits text isAbstract) q := by
  rw [member?, bind_eq hskip, bind_eq hpeek, ht]

theorem member?_of_close (hadvance : advance q = .ok (t, q₁))
    (ht : structural? t.kind = some .close) : member? limits text kind isAbstract q = .ok (none, q₁) := by
  rw [member?, bind_eq hskip, bind_eq hpeek, ht]
  exact bind_eq (map_eq hadvance)

theorem block?_of_keyword (ht : structural? t.kind = some kind.keyword) :
    block? limits text name q = (some <$> block limits text kind) q := by
  rw [block?, bind_eq hskip, bind_eq hpeek, ht]
  cases kind <;> rfl

theorem block?_of_close (hadvance : advance q = .ok (t, q₁))
    (ht : structural? t.kind = some .close) : block? limits text name q = .ok (none, q₁) := by
  rw [block?, bind_eq hskip, bind_eq hpeek, ht]
  exact bind_eq (map_eq hadvance)

end

theorem Resync.member? (hD : D.Scanned) {o : Option Member} (h : D.Resync (n + 1) r r')
    (hrun : Read.member? limits D.text kind isAbstract r = .ok (o, s)) :
    ∃ o' s', Read.member? limits D.text' kind isAbstract r' = .ok (o', s') ∧
      Option.Rel (D.SameMember limits) o o' ∧
      (if o.isSome then D.Resync (n + 1) else D.Resync n) s s' := by
  refine h.exists_run hrun fun q q' hskip hskip' hrun hmeets => ?_
  obtain ⟨hq, hq', hreaders | ⟨k, t, t', q₁, q₁', hpeek, hpeek', hadvance, hadvance', hk, hk', hrest⟩⟩ :=
    hmeets
  · obtain ⟨o', s', hrun', ho, hs⟩ := follows_member? hD hreaders hrun
    exact ⟨o', s', hrun', ho, by split_ifs <;> exact hs.resync _⟩
  obtain ⟨hclose, -, hreaders⟩ | ⟨rfl, m, hm, hresync⟩ := hrest
  · obtain ⟨rfl, rfl⟩ : k = .function ∧ kind = .methods := by
      rw [bind_eq hskip, bind_eq hpeek, hk] at hrun
      cases k <;> cases kind <;>
        first | exact ⟨rfl, rfl⟩ | exact absurd rfl hclose |
          exact absurd hrun not_unexpected
    obtain ⟨m, rfl, hmember⟩ := of_map ((member?_of_function hskip hpeek (by rw [hk]; rfl)).symm.trans hrun)
    obtain ⟨m', s', hmember', hbare, hs⟩ :=
      exists_taken hadvance hadvance' hreaders (D.parallel.functionRest fun _ _ _ _ _ hb _ =>
      bare_methodOf (by cases hb <;> rfl) _ _ _ _ _) hmember
    have hrun' := (member?_of_function hskip' hpeek' (by rw [hk']; exact structural?_word (by decide))).trans
      (map_eq hmember')
    exact ⟨some m', s', hrun', .some (sameMember_of_member? hD hq hq' hrun hrun' hbare hs.last), hs.resync _⟩
  · cases (member?_of_close hskip hpeek hadvance (by rw [hk]; rfl)).symm.trans hrun
    cases hm
    exact ⟨none, q₁', member?_of_close hskip' hpeek' hadvance'
      (by rw [hk']; exact structural?_word (by decide)), .none, hresync⟩

theorem Resync.block? (hD : D.Scanned) {o : Option Block} (h : D.Resync (n + 1) r r')
    (hrun : Read.block? limits D.text name r = .ok (o, s)) :
    ∃ o' s', Read.block? limits D.text' name r' = .ok (o', s') ∧ Option.Rel (D.SameBlock limits) o o' ∧
      (if o.isSome then D.Resync (n + 1) else D.Resync n) s s' := by
  refine h.exists_run hrun fun q q' hskip hskip' hrun hmeets => ?_
  obtain ⟨-, -, hreaders | ⟨k, t, t', q₁, q₁', hpeek, hpeek', hadvance, hadvance', hk, hk', hrest⟩⟩ := hmeets
  · obtain ⟨o', s', hrun', ho, hs⟩ := follows_block? hD hreaders hrun
    exact ⟨o', s', hrun', ho, by split_ifs <;> exact hs.resync _⟩
  obtain ⟨hclose, -, hreaders⟩ | ⟨rfl, m, hm, hresync⟩ := hrest
  · obtain ⟨kind, rfl⟩ : ∃ kind : BlockKind, k = kind.keyword := by
      rw [bind_eq hskip, bind_eq hpeek, hk] at hrun
      cases k <;> first
        | exact ⟨.properties, rfl⟩ | exact ⟨.methods, rfl⟩ | exact ⟨.events,
          rfl⟩ | exact absurd rfl hclose | cases hrun
    obtain ⟨b, rfl, hblock⟩ := of_map ((block?_of_keyword hskip hpeek (by rw [hk]; rfl)).symm.trans hrun)
    obtain ⟨b', s', hblock', hsame, hs⟩ :=
      exists_taken hadvance hadvance' hreaders (follows_blockRest hD t t') hblock
    have hword : structural? t'.kind = some kind.keyword := by
      rw [hk']
      exact structural?_word (by cases kind <;> decide)
    exact ⟨some b', s', (block?_of_keyword hskip' hpeek' hword).trans (map_eq hblock'),
      .some hsame, hs.resync _⟩
  · cases (block?_of_close hskip hpeek hadvance (by rw [hk]; rfl)).symm.trans hrun
    cases hm
    exact ⟨none, q₁', block?_of_close hskip' hpeek' hadvance'
      (by rw [hk']; exact structural?_word (by decide)), .none, hresync⟩

/-- Behind the class no word is read as a keyword any more. -/
theorem Resync.localFunction? {o : Option Unit} (h : D.Resync 0 r r')
    (hrun : Read.localFunction? limits D.text r = .ok (o, s)) :
    ∃ o' s', Read.localFunction? limits D.text' r' = .ok (o', s') ∧ Option.Rel Eq o o' ∧ D.Readers s s' := by
  refine h.exists_run hrun fun q q' hskip hskip' hrun hmeets => ?_
  obtain ⟨-, -, hreaders | ⟨k, t, t', q₁, q₁', hpeek, hpeek', hadvance, hadvance', hk, hk', hrest⟩⟩ := hmeets
  · exact follows_localFunction? hreaders hrun
  obtain ⟨-, hfunction, -⟩ | ⟨-, m, hm, -⟩ := hrest
  · rw [bind_eq hskip, bind_eq hpeek, hk] at hrun
    cases k <;> first | exact absurd rfl (hfunction rfl) |
      exact absurd hrun not_unexpected
  · cases hm

/-! ## A body behind the joint -/

/-- Kinds that neither open nor close a construct in a body. -/
def isFlat : TokenKind → Bool
  | .eof => false
  | .keyword k => k != .close && !k.opensConstruct
  | _ => true

theorem splitAtEnd_flat {inner : Nat} {rest : List Token} (h : ∀ t ∈ ts, isFlat t.kind) :
    splitAtEnd limit name inner (ts ++ rest) = (splitAtEnd limit name inner rest).map fun r =>
    (ts ++ r.1, r.2) := by
  induction ts with
  | nil =>
    rw [nil_append]
    cases splitAtEnd limit name inner rest <;> rfl
  | cons t ts ih =>
    have hkeep : splitAtEnd limit name inner (t :: (ts ++ rest)) =
        (splitAtEnd limit name inner (ts ++ rest)).map fun r => (t :: r.1, r.2) := by
      have ht := h t mem_cons_self
      rw [Body.splitAtEnd.eq_def]
      dsimp only
      cases hk : t.kind with
      | eof => simp [hk, isFlat] at ht
      | keyword k =>
        simp only [hk, isFlat, Bool.and_eq_true, bne_iff_ne, Bool.not_eq_true'] at ht
        cases k <;> first | exact absurd rfl ht.1 | exact absurd rfl (Bool.not_eq_true _ ▸ ht.2) | rfl
      | _ => rfl
    rw [cons_append, hkeep, ih fun u hu => h u (mem_cons_of_mem t hu)]
    cases splitAtEnd limit name inner rest <;> rfl

/-- Tokens that are code do not matter where a body is cut. -/
theorem cut_append_cons (ht : pieceOf t = none) (stop start : Nat) (ts rest : List Token) :
    cut text stop start (ts ++ t :: rest) = cut text stop start (ts ++ rest) := by
  induction ts generalizing start with
  | nil => rw [nil_append, cut, ht]; rfl
  | cons u ts ih => simp only [cons_append, cut, ih]

/-- No comment opens a body that starts with a word, `[` or a continuation. -/
theorem docLength_cons (ht : (t.kind.isContinuation || t.kind.isJoined)) (rest : List Token) :
    docLength none (t :: rest) = 0 := by
  rw [Body.docLength.eq_def]
  dsimp only
  split <;> simp_all [isContinuation, isJoined]

theorem pieceOf_joined (ht : t.kind.isJoined) : pieceOf t = none := by
  unfold pieceOf
  split <;> simp_all [isJoined]

/-- The words or brackets with which a body starts behind the joint. -/
structure Flush (D : Shift) (t t' : Token) : Prop extends D.SamePiece t t' where
  joined : t.kind.isJoined
  joined' : t'.kind.isJoined
  flat : isFlat t.kind
  flat' : isFlat t'.kind

/-- The words in front of a body may be joined if they neither open nor close a construct. -/
theorem Flush.of_relaxed (h : Relaxed D.SameExtent D.SameToken 0 (t :: ts) (t' :: ts'))
    (ht : t.kind.isJoined) (hflat : isFlat t.kind) : D.Flush t t' ∧ Forall₂ D.SameToken ts ts' := by
  cases h with
  | same h =>
    cases h with
    | cons htoken hrest => exact ⟨⟨htoken.samePiece, ht, htoken.kind ▸ ht, hflat, htoken.kind ▸ hflat⟩, hrest⟩
  | passed _ hpassed =>
    obtain ⟨w, hw⟩ | ⟨w, hw⟩ | hw := TokenKind.cases_of_isJoined ht <;> (rw [hw] at hpassed; cases hpassed)
  | word _ hk hk' _ _ _ hrest =>
    have ht' : t'.kind.isJoined := by rw [hk']; rfl
    have hpiece : D.SamePiece t t' :=
      ⟨by rw [pieceOf_joined ht, pieceOf_joined ht'], .inl (pieceOf_joined ht)⟩
    exact ⟨⟨hpiece, ht, ht', hflat, by rw [hk']; rfl⟩, hrest⟩

/-- A body whose first line is joined to the header ends at the same `end`. -/
theorem exists_body_joint (hD : D.Joined) {b : Body}
    {d post post' : List Token} {newline : Token} (hd : ∀ u ∈ d, u.kind.isContinuation)
    (hr : r.ahead = d ++ newline :: t :: post) (hr' : r'.ahead = d ++ t' :: post')
    (hnewline : newline.kind = .newline) (hfirst : D.Flush t t')
    (hpost : Forall₂ D.SameToken post post') (hsuffix : r.ahead <:+ D.tokens)
    (hsuffix' : r'.ahead <:+ D.tokens') (hlast : Option.Rel D.SameExtent r.last r'.last)
    (hrun : body limit D.text name r = .ok (b, s)) :
    ∃ b' s', body limit D.text' name r' = .ok (b', s') ∧ D.Readers s s' := by
  have flat : ∀ u ∈ d, isFlat u.kind := by
    intro u hu
    have := hd u hu
    cases hk : u.kind <;> simp [hk, isContinuation, isFlat] at this ⊢
  have hahead : r.ahead = (d ++ [newline, t]) ++ post := by rw [hr, append_assoc]; rfl
  have hahead' : r'.ahead = (d ++ [t']) ++ post' := by rw [hr', append_assoc]; rfl
  have hsplit : splitAtEnd limit name 0 r.ahead = (splitAtEnd limit name 0 post).map fun x =>
      (d ++ [newline, t] ++ x.1, x.2) := by
    rw [hahead]
    refine splitAtEnd_flat fun u hu => ?_
    simp only [mem_append, mem_cons, not_mem_nil, or_false] at hu
    obtain hu | rfl | rfl := hu
    · exact flat u hu
    · rw [hnewline]
      rfl
    · exact hfirst.flat
  have hsplit' : splitAtEnd limit name 0 r'.ahead = (splitAtEnd limit name 0 post').map fun x =>
      (d ++ [t'] ++ x.1, x.2) := by
    rw [hahead']
    refine splitAtEnd_flat fun u hu => ?_
    simp only [mem_append, mem_singleton] at hu
    obtain hu | rfl := hu
    · exact flat u hu
    · exact hfirst.flat'
  obtain ⟨_, _, _, pieces, hends, hcut, -, rfl⟩ := body_eq_ok_iff.1 hrun
  cases hinner : splitAtEnd limit name 0 post with
  | error f =>
    rw [hsplit, hinner] at hends
    cases hends
  | ok x =>
    obtain ⟨inner, close, rest⟩ := x
    obtain ⟨inner', close', rest', hinner', hinner₂, hclose, hrest⟩ := forall₂_splitAtEnd hpost hinner
    rw [hinner] at hsplit
    rw [hinner'] at hsplit'
    obtain ⟨⟩ := hsplit.symm.trans hends
    have hdoc : docLength none (d ++ [newline, t] ++ inner) = 0 := by
      cases d with
      | nil =>
        rw [nil_append, cons_append, Body.docLength.eq_def]
        simp only [hnewline, cons_append, docLength_cons (t := t) (by simp [hfirst.joined])]
      | cons u d => exact docLength_cons (by simp [hd u mem_cons_self]) _
    have hdoc' : docLength none (d ++ [t'] ++ inner') = 0 := by
      cases d with
      | nil => exact docLength_cons (by simp [hfirst.joined']) _
      | cons u d => exact docLength_cons (by simp [hd u mem_cons_self]) _
    have hpieces : Forall₂ D.SamePiece (d ++ t :: inner) (d ++ t' :: inner') :=
      rel_append (forall₂_same.2 fun u _ => ⟨rfl,
        .inr ⟨hD.offset_self _, D.opens_of_offset (hD.offset_self _)⟩⟩)
        (.cons hfirst.toSamePiece (hinner₂.imp fun _ _ => SameToken.samePiece))
    refine exists_body hsuffix hsuffix' hends hsplit' hclose hrest ?_
    simp only [Body.start, hdoc, hdoc', take_zero, getLast?_nil, Option.none_or, drop_zero] at hcut ⊢
    rw [append_assoc] at hcut ⊢
    refine isSome_cut hpieces hclose.offset (opens_start hclose hlast) ?_
    rw [← cut_append_cons (t := newline) (by simp only [pieceOf, hnewline])]
    rw [show d ++ newline :: t :: inner = d ++ ([newline, t] ++ inner) from rfl, hcut]
    rfl

/-! ## Repetitions -/

theorem eof_of_suffix (hscan : scan text = .ok tokens) (h : [t] <:+ tokens) :
    t.kind = .eof := by
  obtain ⟨init, e, rfl, hkind, -⟩ := (laid_of_scan hscan).exists_init
  obtain ⟨past, h⟩ := h
  obtain rfl : t = e := by simpa using (append_inj_right' h rfl)
  exact hkind

/-- The last token is never passed. -/
theorem take_ne_nil : Triple P (discard advance) fun _ s => s.ahead ≠ [] := by
  refine .map fun r t s _ hrun => ?_
  obtain ⟨-, rfl⟩ | ⟨u, rest, -, rfl⟩ := of_advance hrun
  · exact cons_ne_nil _ _
  · exact cons_ne_nil _ _

theorem ne_nil_of_meeting {D : Token → Read α → Prop}
    (h : ∀ r, Triple (· = r) step (Meeting D r)) :
    Triple (fun _ => True) step fun o s => o = none → s.ahead ≠ [] := by
  rintro r _ s - hrun rfl
  cases h r rfl hrun with
  | close _ _ htake => exact take_ne_nil (P := fun _ => True) trivial htake

/-- A repetition that ends with taking a token has room for all its rounds. -/
theorem many_of_closing {as : List α} (h : Closing step)
    (hstop : Triple (fun _ => True) step fun o s => o = none → s.ahead ≠ []) (hscan : scan text = .ok tokens)
    (hsuffix : s.ahead <:+ tokens) (hcollected : Collected (turn step) r as s) :
    many step r = .ok (as, s) := by
  have hne : s.ahead ≠ [] := by
    obtain ⟨q, -, hdone⟩ := hcollected.chain
    exact hstop trivial (stop_of_turn hdone) rfl
  have hgoes : GoesOn s.ahead s.ahead := ⟨hne, fun t ht => eof_of_suffix hscan (ht ▸ hsuffix), hne⟩
  obtain ⟨run, hahead, hsame⟩ := Local.rounds h hcollected
  obtain ⟨-, hlength, -⟩ := hsame _ hgoes
  refine hcollected.collect_eq ?_
  rw [hahead, length_append]
  omega

theorem Resync.members (hD : D.Scanned) (h : D.Resync (n + 1) r r')
    (hrun : many (Read.member? limits D.text kind isAbstract) r = .ok (ms, s)) :
    ∃ ms' s', many (Read.member? limits D.text' kind isAbstract) r' = .ok (ms', s') ∧
      Forall₂ (D.SameMember limits) ms ms' ∧
      D.Resync n s s' := by
  obtain ⟨ms', s', hcollected, hms, hs⟩ :=
    collected_of_steps (fun hr hround => Resync.member? hD hr hround) (collected_of_collect hrun) h
  exact ⟨ms', s', many_of_closing closing_member? (ne_nil_of_meeting fun _ =>
    member?_meeting) hD.scan_eq' hs.suffix' hcollected, hms, hs⟩

/-- A function behind the class takes its `end` at least. -/
theorem localFunction?_shrinks : Triple (·.ahead <:+ r.ahead) (Read.localFunction? limits text)
    fun o s => o = some () → s.ahead.length < r.ahead.length := by
  have kept {α : Type} {x : Read α} (hx : Near x) :
      Triple (·.ahead <:+ r.ahead) x fun _ q => q.ahead <:+ r.ahead :=
    fun q a s hq hrun => (hx.suffix hrun).trans hq
  refine (kept near_skipLayout).bind fun _ => (kept near_peek).bind fun t => ?_
  split
  · exact .pure (by rintro _ - ⟨⟩)
  · split_ifs
    · refine Triple.bind (Q := fun _ s => s.ahead.length <
        r.ahead.length) (.map fun q m s hq hrun => ?_) fun _ => .pure fun _ hs _ => hs
      obtain ⟨first, q₁, signature', q₂, b, hfirst, hsignature, hbody, -, -⟩ := of_functionMember hrun
      obtain ⟨inner, close, hsplit, -⟩ := of_body hbody
      have hlength := congrArg List.length (Body.splitAtEnd_append hsplit).1
      have hle :=
        ((taking_signature.suffix hsignature).trans ((taking_advance.suffix hfirst).trans hq)).length_le
      simp only [length_append, length_cons] at hlength
      omega
    · exact .refuse
  · exact .unexpected

theorem many_localFunctions (h : Collected (turn (Read.localFunction? limits text)) r us s) :
    many (Read.localFunction? limits text) r = .ok (us, s) := by
  refine h.collect_eq
    (Nat.lt_succ_of_le (h.length_le (fun r => r.ahead.length) (P := fun _ => True) trivial ?_))
  intro r u q _ hround
  exact ⟨trivial, localFunction?_shrinks suffix_rfl (step_of_turn hround) rfl⟩

theorem Resync.localFunctions (h : D.Resync 0 r r')
    (hrun : many (Read.localFunction? limits D.text) r = .ok (us, s)) :
    ∃ us' s', many (Read.localFunction? limits D.text') r' = .ok (us', s') := by
  obtain ⟨us', s', hcollected, -⟩ :=
    collected_of_steps (R := D.Resync 0) (S := D.Readers) (A := Eq) (fun hr hround => by
    obtain ⟨o', s', hround', ho, hs⟩ := Resync.localFunction? hr hround
    exact ⟨o', s', hround', ho, by split_ifs <;> first | exact hs | exact hs.resync _⟩)
    (collected_of_collect hrun) h
  exact ⟨us', s', many_localFunctions hcollected⟩

end Shift

end ClassdefDoc
