import ClassdefDoc.Proofs.Parse.Parallel

/-!
# Two files that are alike

A `Likeness` says how two texts correspond: which lines of comments, which parts, which positions and which
offsets go together, so that parts between corresponding offsets correspond. From it follows what it means
that the tokens of the two texts are alike, and the classes that are read from them. Tokens are alike in
order: a `LikeStream` also says that no token starts before the one in front of it ends, in both texts.

`Agree` compares two results: both succeed with values that are alike, or
both fail with faults of one kind on one line.
-/

namespace ClassdefDoc

open List
open LooseComment (ofToken? groupFrom joins group)

/-- Two faults of one kind on one line. -/
structure Fault.Alike (f f' : Fault) : Prop where
  kind : f.cause.kind = f'.cause.kind
  line : f.position.line = f'.position.line

/-- Two results that both succeed, with values related by `A`, or both fail in the same way. -/
inductive Agree {α β : Type} (A : α → β → Prop) : Except Fault α → Except Fault β → Prop
  | ok {a b} : A a b → Agree A (.ok a) (.ok b)
  | error {f f'} : f.Alike f' → Agree A (.error f) (.error f')

namespace Agree

variable {α β γ δ : Type} {A : α → β → Prop} {B : γ → δ → Prop} {x : Except Fault α} {y : Except Fault β}

theorem bind {f : α → Except Fault γ} {g : β → Except Fault δ}
    (h : Agree A x y) (hf : ∀ a b, A a b → Agree B (f a) (g b)) :
    Agree B (x >>= f) (y >>= g) := by
  cases h with
  | ok hab => exact hf _ _ hab
  | error he => exact .error he

theorem bind_eq {x y : Except Fault α} {f : α → Except Fault γ} {g : α → Except Fault δ} (h : Agree Eq x y)
    (hf : ∀ a, Agree B (f a) (g a)) : Agree B (x >>= f) (y >>= g) :=
  h.bind fun a _ hab => hab ▸ hf a

theorem map {f : α → γ} {g : β → δ} (h : Agree A x y) (hf : ∀ a b, A a b → B (f a) (g b)) :
    Agree B (x.map f) (y.map g) := by
  cases h with
  | ok hab => exact .ok (hf _ _ hab)
  | error he => exact .error he

end Agree

/-- The name of an identifier or the value of a literal. -/
def TokenKind.word? : TokenKind → Option Text
  | identifier w | literal _ w => some w
  | _ => none

/-- How two texts correspond. -/
structure Likeness where
  text : Text
  text' : Text
  /-- Lines of comments that correspond. -/
  line : Text → Text → Prop
  /-- Parts of the texts that correspond. -/
  part : Text → Text → Prop
  /-- Names and values of literals, which are the same in both. -/
  word : Text → Prop
  place : Position → Position → Prop
  offset : Nat → Nat → Prop
  line_eq_of_place : ∀ {p p'}, place p p' → p.line = p'.line
  isBlank_of_line : ∀ {l l'}, line l l' → Text.isBlank l = Text.isBlank l'
  part_dots : part "...".toList "...".toList
  part_slice? : ∀ {a a' b b'}, offset a a' → offset b b' → (a ≤ b ↔ a' ≤ b') →
    Option.Rel part (text.slice? a b) (text'.slice? a' b')

namespace Likeness

variable (K : Likeness)

/-! ## Tokens -/

/-- Kinds that differ at most in the text of a comment. -/
inductive LikeKind : TokenKind → TokenKind → Prop
  | comment {l l'} : K.line l l' → LikeKind (.comment l) (.comment l')
  | blockComment {ls ls'} : Forall₂ K.line ls ls' → LikeKind (.blockComment ls) (.blockComment ls')
  | continuation {l l'} : K.line l l' → LikeKind (.continuation l) (.continuation l')
  | same {k} : k.isComment = false → k.isContinuation = false →
    (∀ w, k.word? = some w → K.word w) → LikeKind k k

structure LikeToken (t t' : Token) : Prop where
  kind : K.LikeKind t.kind t'.kind
  start : K.place t.span.start t'.span.start
  stop : t.span.stop.line = t'.span.stop.line
  leadsLine : t.leadsLine = t'.leadsLine
  offset : K.offset t.offset t'.offset
  endOffset : K.offset t.endOffset t'.endOffset
  wide : t.kind ≠ .eof → t.offset < t.endOffset ∧ t'.offset < t'.endOffset
  empty : t.kind = .eof → t.endOffset = t.offset ∧ t'.endOffset = t'.offset

/-- Tokens in order, from the offsets `n` and `n'` on and up to the offsets `m` and `m'`. -/
inductive LikeRun (m m' : Nat) : Nat → Nat → List Token → List Token → Prop
  | nil {n n'} : n ≤ m → n' ≤ m' → LikeRun m m' n n' [] []
  | cons {n n' t t' ts ts'} : K.LikeToken t t' → t.kind ≠ .eof → n ≤ t.offset → n' ≤ t'.offset →
    LikeRun m m' t.endOffset t'.endOffset ts ts' → LikeRun m m' n n' (t :: ts) (t' :: ts')

/-- Tokens in order, from the offsets `n` and `n'` on and up to the end of the texts. -/
inductive LikeStream : Nat → Nat → List Token → List Token → Prop
  | eof {n n' t t'} : K.LikeToken t t' → t.kind = .eof → n ≤ t.offset →
    n' ≤ t'.offset → LikeStream n n' [t] [t']
  | cons {n n' t t' ts ts'} : K.LikeToken t t' → t.kind ≠ .eof → n ≤ t.offset → n' ≤ t'.offset →
    LikeStream t.endOffset t'.endOffset ts ts' → LikeStream n n' (t :: ts) (t' :: ts')

variable {K} {k k' : TokenKind} {t t' : Token} {ts ts' : List Token}
  {n n' m m' n₀ n₀' : Nat} {cs cs' : List LooseComment}

section

variable (h : K.LikeKind k k')
include h

theorem LikeKind.isContinuation : k.isContinuation = k'.isContinuation := by cases h <;> rfl

theorem LikeKind.isLayout : Read.isLayout k = Read.isLayout k' := by cases h <;> rfl

theorem LikeKind.isLineLayout : Read.isLineLayout k = Read.isLineLayout k' := by cases h <;> rfl

theorem LikeKind.endsAttribute : Read.endsAttribute k = Read.endsAttribute k' := by
  cases h <;> rfl

theorem LikeKind.endsValue : Read.endsValue k = Read.endsValue k' := by cases h <;> rfl

theorem LikeKind.alike : k.Alike k' := by cases h <;> constructor

theorem LikeKind.eof_iff : k = .eof ↔ k' = .eof := h.alike.eq_iff rfl rfl

end

theorem LikeToken.line (h : K.LikeToken t t') : t.line = t'.line := K.line_eq_of_place h.start

theorem LikeRun.mono (h : K.LikeRun m m' n n' ts ts') (hn : n₀ ≤ n) (hn' : n₀' ≤ n') :
    K.LikeRun m m' n₀ n₀' ts ts' := by
  cases h with
  | nil h h' => exact .nil (hn.trans h) (hn'.trans h')
  | cons ht heof h h' hts => exact .cons ht heof (hn.trans h) (hn'.trans h') hts

theorem LikeStream.mono (h : K.LikeStream n n' ts ts') (hn : n₀ ≤ n) (hn' : n₀' ≤ n') :
    K.LikeStream n₀ n₀' ts ts' := by
  cases h with
  | eof ht heof h h' => exact .eof ht heof (hn.trans h) (hn'.trans h')
  | cons ht heof h h' hts => exact .cons ht heof (hn.trans h) (hn'.trans h') hts

theorem offset_le_endOffset (t : Token) : t.offset ≤ t.endOffset := Nat.le_add_right _ _

theorem LikeRun.le (h : K.LikeRun m m' n n' ts ts') : n ≤ m ∧ n' ≤ m' := by
  induction h with
  | nil h h' => exact ⟨h, h'⟩
  | @cons _ _ t t' _ _ _ _ h h' _ ih =>
    exact ⟨h.trans ((offset_le_endOffset t).trans ih.1), h'.trans ((offset_le_endOffset t').trans ih.2)⟩

section

variable (h : K.LikeStream n n' ts ts')
include h

theorem LikeStream.length_eq : ts.length = ts'.length := by
  induction h with
  | eof => rfl
  | cons _ _ _ _ _ ih => simp only [length_cons, ih]

/-- The first tokens of two streams. -/
theorem LikeStream.head : ∃ t us t' us', ts = t :: us ∧ ts' = t' :: us' ∧ K.LikeToken t t' := by
  cases h with
  | eof ht | cons ht => exact ⟨_, _, _, _, rfl, rfl, ht⟩

/-- Tokens that are passed at the start are alike, and so are the others. -/
theorem LikeStream.dropWhile {p : TokenKind → Bool}
    (hp : ∀ {k k'}, K.LikeKind k k' → p k = p k') (heof : p .eof = false) :
    K.LikeStream n n' (ts.dropWhile (p ·.kind)) (ts'.dropWhile (p ·.kind)) ∧
      Forall₂ K.LikeToken (ts.takeWhile (p ·.kind)) (ts'.takeWhile (p ·.kind)) := by
  induction h with
  | @eof n n' t t' ht hkind hn hn' =>
    have ht' : p t'.kind = false := by rw [← hp ht.kind, hkind, heof]
    simp only [dropWhile_cons, takeWhile_cons, hkind, heof, ht', Bool.false_eq_true, if_false]
    exact ⟨.eof ht hkind hn hn', .nil⟩
  | @cons n n' t t' ts ts' ht hkind hn hn' hts ih =>
    simp only [dropWhile_cons, takeWhile_cons, ← hp ht.kind]
    split_ifs
    · exact ⟨ih.1.mono (hn.trans (offset_le_endOffset t)) (hn'.trans (offset_le_endOffset t')), .cons ht ih.2⟩
    · exact ⟨.cons ht hkind hn hn' hts, .nil⟩

end

/-! ## Classes -/

variable (K)

structure LikeComment (b b' : CommentBlock) : Prop where
  lines : Forall₂ K.line b.lines b'.lines
  firstLine : b.firstLine = b'.firstLine
  lastLine : b.lastLine = b'.lastLine
  ownLine : b.ownLine = b'.ownLine
  position : K.place b.position b'.position

structure LikeLoose (c c' : LooseComment) : Prop where
  block : K.LikeComment c.block c'.block
  delimited : c.delimited = c'.delimited

inductive LikeValue : AttributeValue → AttributeValue → Prop
  | flag {b} : LikeValue (.flag b) (.flag b)
  | word {w} : K.word w → LikeValue (.word w) (.word w)
  | raw {p p' : Text} : K.part p p' → LikeValue (.raw p) (.raw p')

structure LikeAttribute (a a' : Attribute) : Prop where
  name : a.name = a'.name
  value : K.LikeValue a.value a'.value
  position : K.place a.position a'.position

inductive LikePiece : BodyPiece → BodyPiece → Prop
  | code {p p' : Text} : K.part p p' → LikePiece (.code p) (.code p')
  | comment {ls ls'} : Forall₂ K.line ls ls' → LikePiece (.comment ls) (.comment ls')
  | literal {v} : LikePiece (.literal v) (.literal v)

/-- Bodies are alike before their code is joined: an empty piece of code may
correspond to one that is not empty. -/
structure LikeBody (b b' : Body) : Prop where
  doc : Option.Rel K.LikeComment b.doc b'.doc
  pieces : ∃ ps ps', b.pieces = Body.joinCode ps ∧ b'.pieces = Body.joinCode ps' ∧ Forall₂ K.LikePiece ps ps'

structure LikeMethod (m m' : Method) : Prop where
  params : m.params = m'.params
  returns : m.returns = m'.returns
  body : Option.Rel K.LikeBody m.body m'.body
  isAbstract : m.isAbstract = m'.isAbstract
  accessor : m.accessor = m'.accessor

inductive LikeDetail : Detail → Detail → Prop
  | property {type value value'} : Option.Rel K.part value value' →
    LikeDetail (.property type value) (.property type value')
  | method {d d' : Method} : K.LikeMethod d d' → LikeDetail (.method d) (.method d')
  | event : LikeDetail .event .event

structure LikeMember (m m' : Member) : Prop where
  name : m.name = m'.name
  detail : K.LikeDetail m.detail m'.detail
  header : m.header = m'.header
  position : K.place m.position m'.position

structure LikeBlock (b b' : Block) : Prop where
  kind : b.kind = b'.kind
  attributes : Forall₂ K.LikeAttribute b.attributes b'.attributes
  members : Forall₂ K.LikeMember b.members b'.members
  position : K.place b.position b'.position

structure LikeClass (c c' : ClassDecl) : Prop where
  name : c.name = c'.name
  superclasses : c.superclasses = c'.superclasses
  attributes : Forall₂ K.LikeAttribute c.attributes c'.attributes
  blocks : Forall₂ K.LikeBlock c.blocks c'.blocks
  comments : Forall₂ K.LikeComment c.comments c'.comments
  header : c.header = c'.header
  position : K.place c.position c'.position

variable {K}

theorem rel_ofToken? (h : K.LikeToken t t') : Option.Rel K.LikeLoose (ofToken? t) (ofToken? t') := by
  have hblock {ls ls' : List Text} (hls : Forall₂ K.line ls ls') :
      K.LikeComment ⟨ls, t.span.start.line, t.span.stop.line, t.leadsLine, t.span.start⟩
        ⟨ls', t'.span.start.line, t'.span.stop.line, t'.leadsLine, t'.span.start⟩ :=
    ⟨hls, h.line, h.stop, h.leadsLine, h.start⟩
  unfold ofToken?
  refine h.kind.casesOn (fun hl => ?_) (fun hls => ?_) (fun _ => .none) fun {k} hcomment _ _ => ?_
  · exact .some ⟨hblock (.cons hl .nil), rfl⟩
  · exact .some ⟨hblock hls, rfl⟩
  · cases k <;> first | exact .none | cases hcomment

/-- The comments among tokens that are alike. -/
theorem forall₂_ofToken? (h : Forall₂ K.LikeToken ts ts') :
    Forall₂ K.LikeLoose (ts.filterMap ofToken?) (ts'.filterMap ofToken?) := by
  induction h with
  | nil => exact .nil
  | cons ht _ ih =>
    rw [filterMap_cons, filterMap_cons]
    exact (rel_ofToken? ht).casesOn (fun hc => .cons hc ih) ih

theorem forall₂_groupFrom (h : Forall₂ K.LikeLoose cs cs') {b b' : CommentBlock}
    (hb : K.LikeComment b b') (delimited : Bool) :
    Forall₂ K.LikeComment (groupFrom b delimited cs) (groupFrom b' delimited cs') := by
  induction h generalizing b b' delimited with
  | nil => exact .cons hb .nil
  | @cons c c' cs cs' hc _ ih =>
    have hjoins : joins b delimited c = joins b' delimited c' := by
      simp only [joins, hc.delimited, hc.block.ownLine, hb.lastLine, hc.block.firstLine]
    simp only [groupFrom, hjoins, hc.delimited]
    split_ifs
    · have hjoined : K.LikeComment { b with lines := b.lines ++ c.block.lines, lastLine := c.block.lastLine }
          { b' with lines := b'.lines ++ c'.block.lines, lastLine := c'.block.lastLine } :=
        ⟨rel_append hb.lines hc.block.lines, hb.firstLine, hc.block.lastLine, hb.ownLine, hb.position⟩
      exact ih hjoined _
    · exact .cons hb (ih hc.block _)

theorem forall₂_group (h : Forall₂ K.LikeLoose cs cs') : Forall₂ K.LikeComment (group cs) (group cs') := by
  cases h with
  | nil => exact .nil
  | @cons c c' cs cs' hc hcs =>
    rw [group, group, ← hc.delimited]
    exact forall₂_groupFrom hcs hc.block _

end Likeness

end ClassdefDoc
