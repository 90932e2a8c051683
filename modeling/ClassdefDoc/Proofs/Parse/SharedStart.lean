import ClassdefDoc.Proofs.Parse.Twin
import ClassdefDoc.Proofs.Scan.Lossless

/-!
# Texts with the same start

Two texts that start alike correspond at the places of the tokens in that start (`Likeness.shared`):
what is read from these tokens is not only alike but the same (`LikeClass.eq_of_shared`).
-/

namespace ClassdefDoc.Likeness

open List Text

/-- Two texts that start with `before`: all that corresponds is the same,
and offsets are those of `before`. -/
def shared {before text text' : Text} (h : before <+: text) (h' : before <+: text') : Likeness where
  text := text
  text' := text'
  line := Eq
  part := Eq
  word _ := True
  place := Eq
  offset a a' := a = a' ∧ ∃ x y, before = x ++ y ∧ bytes x = a
  line_eq_of_place h := congrArg _ h
  isBlank_of_line h := congrArg _ h
  part_dots := rfl
  part_slice? := by
    rintro a _ b _ ⟨rfl, x, y, hx, rfl⟩ ⟨rfl, x', y', hx', rfl⟩ -
    have hslice {t : Text} (ht : before <+: t) :
        t.slice? (bytes x) (bytes x') = before.slice? (bytes x) (bytes x') := by
      obtain ⟨after, rfl⟩ := ht
      by_cases hle : bytes x ≤ bytes x'
      · obtain ⟨m, rfl, -⟩ := exists_append_of_bytes_le (hx.symm.trans hx') hle
        rw [slice?_of_eq hx' rfl rfl, slice?_of_eq (c := y' ++ after) (by rw [hx', append_assoc]) rfl rfl]
      · rw [slice?, slice?, if_neg hle, if_neg hle]
    rw [hslice h, hslice h']
    cases before.slice? (bytes x) (bytes x') with
    | none => exact .none
    | some t => exact .some rfl

variable {before text text' : Text} {h₁ : before <+: text} {h₂ : before <+: text'} {α : Type}

theorem eq_of_forall₂ {R : α → α → Prop} (hR : ∀ {a a'}, R a a' → a = a') {as as' : List α}
    (h : Forall₂ R as as') : as = as' :=
  forall₂_eq_eq_eq ▸ h.imp fun _ _ => hR

theorem eq_of_rel {R : α → α → Prop} (hR : ∀ {a a'}, R a a' → a = a')
    {o o' : Option α} (h : Option.Rel R o o') :
    o = o' := by
  cases h with
  | none => rfl
  | some h => rw [hR h]

theorem LikeComment.eq_of_shared {b b' : CommentBlock} (h : (shared h₁ h₂).LikeComment b b') : b = b' := by
  cases b
  cases b'
  exact (CommentBlock.mk.injEq ..).mpr ⟨eq_of_forall₂ id h.lines,
    h.firstLine, h.lastLine, h.ownLine, h.position⟩

theorem LikeValue.eq_of_shared {v v' : AttributeValue} (h : (shared h₁ h₂).LikeValue v v') : v = v' := by
  cases h with
  | flag => rfl
  | word => rfl
  | raw hp => exact congrArg _ hp

theorem LikeAttribute.eq_of_shared {a a' : Attribute} (h : (shared h₁ h₂).LikeAttribute a a') : a = a' := by
  cases a
  cases a'
  exact (Attribute.mk.injEq ..).mpr ⟨h.name, h.value.eq_of_shared, h.position⟩

theorem LikePiece.eq_of_shared {p p' : BodyPiece} (h : (shared h₁ h₂).LikePiece p p') : p = p' := by
  cases h with
  | code hp => exact congrArg _ hp
  | comment hls => exact congrArg _ (eq_of_forall₂ id hls)
  | literal => rfl

theorem LikeBody.eq_of_shared {b b' : Body} (h : (shared h₁ h₂).LikeBody b b') : b = b' := by
  cases b
  cases b'
  obtain ⟨ps, ps', hps, hps', hpieces⟩ := h.pieces
  rw [← eq_of_forall₂ LikePiece.eq_of_shared hpieces] at hps'
  exact (Body.mk.injEq ..).mpr ⟨eq_of_rel LikeComment.eq_of_shared h.doc, hps.trans hps'.symm⟩

theorem LikeMethod.eq_of_shared {m m' : Method} (h : (shared h₁ h₂).LikeMethod m m') : m = m' := by
  cases m
  cases m'
  exact (Method.mk.injEq ..).mpr ⟨h.params, h.returns, eq_of_rel LikeBody.eq_of_shared h.body,
    h.isAbstract, h.accessor⟩

theorem LikeDetail.eq_of_shared {d d' : Detail} (h : (shared h₁ h₂).LikeDetail d d') : d = d' := by
  cases h with
  | property hvalue => exact congrArg _ (eq_of_rel id hvalue)
  | method hm => exact congrArg _ hm.eq_of_shared
  | event => rfl

theorem LikeMember.eq_of_shared {m m' : Member} (h : (shared h₁ h₂).LikeMember m m') : m = m' := by
  cases m
  cases m'
  exact (Member.mk.injEq ..).mpr ⟨h.name, h.detail.eq_of_shared, h.header, h.position⟩

theorem LikeBlock.eq_of_shared {b b' : Block} (h : (shared h₁ h₂).LikeBlock b b') : b = b' := by
  cases b
  cases b'
  exact (Block.mk.injEq ..).mpr ⟨h.kind, eq_of_forall₂ LikeAttribute.eq_of_shared h.attributes,
    eq_of_forall₂ LikeMember.eq_of_shared h.members, h.position⟩

/-- Classes that are alike are the same. -/
theorem LikeClass.eq_of_shared {c c' : ClassDecl} (h : (shared h₁ h₂).LikeClass c c') : c = c' := by
  cases c
  cases c'
  exact (ClassDecl.mk.injEq ..).mpr ⟨h.name, h.superclasses,
    eq_of_forall₂ LikeAttribute.eq_of_shared h.attributes, eq_of_forall₂ LikeBlock.eq_of_shared h.blocks,
    eq_of_forall₂ LikeComment.eq_of_shared h.comments, h.header, h.position⟩

theorem likeKind_shared (k : TokenKind) : (shared h₁ h₂).LikeKind k k := by
  cases k with
  | comment l => exact .comment rfl
  | blockComment ls => exact .blockComment (forall₂_same.2 fun _ _ => rfl)
  | continuation l => exact .continuation rfl
  | _ => exact .same rfl rfl fun _ _ => trivial

theorem likeToken_shared {t : Token} {a b : Text} (h : t.Stands a) (hbefore : before = a ++ t.lexeme ++ b)
    (hempty : t.kind = .eof ↔ t.lexeme = []) : (shared h₁ h₂).LikeToken t t where
  kind := likeKind_shared _
  start := rfl
  stop := rfl
  leadsLine := rfl
  offset := ⟨rfl, a, t.lexeme ++ b, by rw [hbefore, append_assoc], h.offset.symm⟩
  endOffset := ⟨rfl, a ++ t.lexeme, b, hbefore, h.endOffset.symm⟩
  wide hkind := by
    have hpos := bytes_pos (mt hempty.2 hkind)
    have : t.offset < t.endOffset := by
      rw [Token.endOffset]
      omega
    exact ⟨this, this⟩
  empty hkind := by
    have : t.endOffset = t.offset := by
      rw [Token.endOffset, hempty.1 hkind]
      rfl
    exact ⟨this, this⟩

/-- The tokens of the start are alike in both texts. -/
theorem likeStream_shared {ts : List Token} {k : Option TokenKind}
    {past ahead : Text} (h : Laid k past ts ahead) (hbefore : before = past ++ ahead) :
    (shared h₁ h₂).LikeStream (bytes past) (bytes past) ts ts := by
  induction h with
  | @eof k past gap e _ hkind hlexeme hstands =>
    have hle : bytes past ≤ e.offset := by
      rw [hstands.offset, bytes_append]
      exact Nat.le_add_right _ _
    refine .eof (likeToken_shared (b := []) hstands ?_ (iff_of_true hkind hlexeme)) hkind hle hle
    rw [hbefore, hlexeme, append_nil, append_nil]
  | @cons k past gap t ts rest _ hkind hlexeme hstands _ ih =>
    have hle : bytes past ≤ t.offset := by
      rw [hstands.offset, bytes_append]
      exact Nat.le_add_right _ _
    have hcut : before = past ++ gap ++ t.lexeme ++ rest := by
      rw [hbefore]
      simp only [append_assoc]
    have hrest := ih hcut
    rw [← hstands.endOffset] at hrest
    exact .cons (likeToken_shared hstands hcut (iff_of_false hkind hlexeme)) hkind hle hle hrest

end ClassdefDoc.Likeness
