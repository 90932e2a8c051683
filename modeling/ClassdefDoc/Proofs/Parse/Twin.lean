import ClassdefDoc.Proofs.Parse.Likeness
import ClassdefDoc.Proofs.Parse.Quiet

/-!
# Reading two files in step

`K.Twin m m' A` says that the readings `m` and `m'`, started in readers that are alike,
agree: both succeed with values related by `A` and again with readers that are alike, or
both fail with faults of one kind on one line. There is one rule for each way to put
readings together and one lemma for each reading function. In the end, `agree_ofTokens`
says that two files with tokens that are alike give classes that are alike, or both none.
-/

namespace ClassdefDoc.Likeness

open List
open Body (splitAtEnd docLength pieceOf cut docOf)

variable {o : Option Token} {r : Reader} {limit : Nat} {us : List Token}

variable {K : Likeness} {α β : Type} {t t' : Token} {ts ts' : List Token} {n n' m m' : Nat} {c c' : ClassDecl}
  {d d' : Member} {isAbstract : Bool} {limits : Limits} {name what : Text} {o' : Option Token}
  {stops : TokenKind → Bool}

/-- Tokens, if any, that end at the offsets `n` and `n'` or before. -/
abbrev LikeLast (K : Likeness) (n n' : Nat) : Option Token → Option Token → Prop :=
  Option.Rel fun t t' => K.LikeToken t t' ∧ t.endOffset ≤ n ∧ t'.endOffset ≤ n'

theorem LikeLast.mono (h : K.LikeLast n n' o o') (hn : n ≤ m) (hn' : n' ≤ m') : K.LikeLast m m' o o' := by
  cases h with
  | none => exact .none
  | some ht => exact .some ⟨ht.1, ht.2.1.trans hn, ht.2.2.trans hn'⟩

/-- Readers with tokens that are alike ahead, behind the tokens that they took last. -/
structure LikeReader (K : Likeness) (r r' : Reader) : Prop where
  ahead : ∃ n n', K.LikeStream n n' r.ahead r'.ahead ∧ K.LikeLast n n' r.last r'.last
  comments : Forall₂ K.LikeLoose r.comments r'.comments

/-- Two readings that agree in readers that are alike. -/
def Twin (K : Likeness) (x x' : Read α) (A : α → α → Prop) : Prop :=
  ∀ ⦃r r'⦄, K.LikeReader r r' → Agree (fun a a' => A a.1 a'.1 ∧ K.LikeReader a.2 a'.2) (x r) (x' r')

namespace Twin

variable {x x' : Read α} {A : α → α → Prop} {B : β → β → Prop}

theorem pure {a a' : α} (h : A a a') : K.Twin (Pure.pure a) (Pure.pure a') A := fun _ _ hr => .ok ⟨h, hr⟩

theorem bind {f f' : α → Read β} (hx : K.Twin x x' A) (hf : ∀ a a', A a a' → K.Twin (f a) (f' a') B) :
    K.Twin (x >>= f) (x' >>= f') B :=
  fun _ _ hr => (hx hr).bind fun a a' ha => hf a.1 a'.1 ha.1 ha.2

theorem refuse {cause cause' : Cause} {p p' : Position} (hkind : cause.kind = cause'.kind)
    (hp : K.place p p') :
    K.Twin (Read.refuse cause p : Read α) (Read.refuse cause' p') A :=
  fun _ _ _ => .error ⟨hkind, K.line_eq_of_place hp⟩

theorem ite {c c' : Prop} [Decidable c] [Decidable c'] {y y' : Read α} (hc : c ↔ c') (hx : K.Twin x x' A)
    (hy : K.Twin y y' A) : K.Twin (if c then x else y) (if c' then x' else y') A := by
  by_cases h : c
  · rw [if_pos h, if_pos (hc.1 h)]
    exact hx
  · rw [if_neg h, if_neg (mt hc.2 h)]
    exact hy

/-- Repetition keeps in step what each round keeps in step. -/
theorem many {step step' : Read (Option α)} (h : K.Twin step step' (Option.Rel A)) :
    K.Twin (Read.many step) (Read.many step') (Forall₂ A) := by
  intro r r' hr
  -- both readers have the same number of tokens ahead, and so the same budget
  obtain ⟨n, n', hstream, -⟩ := id hr.ahead
  unfold Read.many
  rw [← hstream.length_eq]
  clear hstream
  generalize r.ahead.length + 1 = budget
  induction budget generalizing r r' with
  | zero => exact .error ⟨rfl, rfl⟩
  | succ budget ih =>
    have hstep := h hr
    simp only [collect]
    generalize step r = x, step' r' = x' at hstep ⊢
    cases hstep with
    | error hf => exact .error hf
    | @ok a a' ha =>
      obtain ⟨o, s⟩ := a
      obtain ⟨o', s'⟩ := a'
      obtain ⟨ho, hs⟩ := ha
      cases ho with
      | none => exact .ok ⟨.nil, hs⟩
      | some ha =>
        dsimp only
        exact (ih hs).casesOn (fun hitems => .ok ⟨.cons ha hitems.1, hitems.2⟩) .error

end Twin

/-! ## Taking tokens -/

open Read

/-- The streams ahead, from the first tokens that are no continuations. -/
theorem LikeReader.significant {r' : Reader} (hr : K.LikeReader r r') :
    ∃ n n', K.LikeStream n n' (Read.significant r.ahead) (Read.significant r'.ahead) := by
  obtain ⟨n, n', hstream, -⟩ := hr.ahead
  exact ⟨n, n', (hstream.dropWhile LikeKind.isContinuation rfl).1⟩

theorem twin_peek : K.Twin peek peek K.LikeToken := by
  intro r r' hr
  obtain ⟨n, n', hstream⟩ := hr.significant
  obtain ⟨t, us, t', us', hts, hts', ht⟩ := hstream.head
  rw [peek_run, peek_run, hts, hts']
  exact .ok ⟨ht, hr⟩

theorem twin_peekSecond : K.Twin peekSecond peekSecond K.LikeToken := by
  intro r r' hr
  obtain ⟨n, n', hstream⟩ := hr.significant
  rw [peekSecond_run, peekSecond_run]
  generalize significant r.ahead = ts, significant r'.ahead = ts' at hstream ⊢
  cases hstream with
  | eof ht => exact .ok ⟨ht, hr⟩
  | cons _ _ _ _ hts =>
    obtain ⟨u, us, u', us', hus, hus', hu⟩ := (hts.dropWhile LikeKind.isContinuation rfl).1.head
    simp only [significant, hus, hus', headD_cons]
    exact .ok ⟨hu, hr⟩

theorem twin_advance : K.Twin advance advance K.LikeToken := by
  intro r r' hr
  obtain ⟨n, n', hstream⟩ := hr.significant
  rw [advance_run, advance_run]
  generalize significant r.ahead = ts, significant r'.ahead = ts' at hstream ⊢
  cases hstream with
  | @eof _ _ t t' ht heof =>
    exact .ok ⟨ht, ⟨⟨t.endOffset, t'.endOffset, .eof ht heof (ht.empty heof).1.le (ht.empty heof).2.le,
      .some ⟨ht, le_rfl, le_rfl⟩⟩, hr.comments⟩⟩
  | @cons _ _ t t' ts ts' ht heof hn hn' hts =>
    obtain ⟨u, us, u', us', rfl, rfl, -⟩ := hts.head
    exact .ok ⟨ht, ⟨⟨t.endOffset, t'.endOffset, hts, .some ⟨ht, le_rfl, le_rfl⟩⟩, hr.comments⟩⟩

theorem twin_lastLine : K.Twin lastLine lastLine Eq := by
  intro r r' hr
  obtain ⟨n, n', -, hlast⟩ := hr.ahead
  rw [lastLine_run, lastLine_run]
  refine .ok ⟨?_, hr⟩
  refine hlast.casesOn (fun ht => ?_) rfl
  simp only [Option.map_some, Option.getD_some, ht.1.stop, K.line_eq_of_place ht.1.start]

theorem twin_unexpected {A : α → α → Prop} (ht : K.LikeToken t t') :
    K.Twin (unexpected t what : Read α) (unexpected t' what) A := by
  have refused {cause cause' : Cause} (h : cause.kind = cause'.kind) :
      K.Twin (refuse cause t.span.start : Read α) (refuse cause' t'.span.start) A := .refuse h ht.start
  unfold unexpected
  refine ht.kind.alike.elim (fun k => ?_) (fun _ _ => refused rfl) (fun _ _ => refused rfl) fun _ _ =>
    refused rfl
  cases k <;> exact refused rfl

theorem twin_skipLayout {record : Bool} : K.Twin (skipLayout record) (skipLayout record) Eq := by
  intro r r' hr
  obtain ⟨n, n', hstream, hlast⟩ := hr.ahead
  obtain ⟨hdrop, htake⟩ := hstream.dropWhile LikeKind.isLayout rfl
  refine .ok ⟨rfl, ⟨⟨n, n', hdrop, hlast⟩, rel_append hr.comments ?_⟩⟩
  cases record with
  | false => exact .nil
  | true => exact forall₂_ofToken? htake

theorem twin_skipLines : K.Twin skipLines skipLines Eq := by
  intro r r' hr
  obtain ⟨n, n', hstream, hlast⟩ := hr.ahead
  exact .ok ⟨rfl, ⟨⟨n, n', (hstream.dropWhile LikeKind.isLineLayout rfl).1, hlast⟩, hr.comments⟩⟩

/-! ## Expressions and groups -/

/-- Two expressions that stop at the same kinds are alike, and so is what follows them. -/
theorem like_expression (hstops : ∀ {k k'}, K.LikeKind k k' → stops k = stops k')
    (h : K.LikeStream n n' ts ts') (depth : Nat) :
    ∃ m m', K.LikeRun m m' n n' (expression stops depth ts).1 (expression stops depth ts').1 ∧
      K.LikeStream m m' (expression stops depth ts).2 (expression stops depth ts').2 := by
  induction h generalizing depth with
  | @eof n n' t t' ht heof hn hn' =>
    have heof' := ht.kind.eof_iff.1 heof
    simp only [expression, heof, heof']
    exact ⟨n, n', .nil le_rfl le_rfl, .eof ht heof hn hn'⟩
  | @cons n n' t t' ts ts' ht hne hn hn' hts ih =>
    have keep (d : Nat) : ∃ m m', K.LikeRun m m' n n' (t :: (expression stops d ts).1)
        (t' :: (expression stops d ts').1) ∧
        K.LikeStream m m' (expression stops d ts).2 (expression stops d ts').2 := by
      obtain ⟨m, m', hrun, hrest⟩ := ih d
      exact ⟨m, m', .cons ht hne hn hn' hrun, hrest⟩
    have stop : ∃ m m', K.LikeRun m m' n n' [] [] ∧ K.LikeStream m m' (t :: ts) (t' :: ts') :=
      ⟨n, n', .nil le_rfl le_rfl, .cons ht hne hn hn' hts⟩
    have hkind := ht.kind
    rw [expression, expression]
    generalize t.kind = k at hkind hne ⊢
    generalize t'.kind = k' at hkind ⊢
    cases hkind with
    | comment hl =>
      simp only [hstops (.comment hl)]
      split_ifs
      · exact stop
      · exact keep depth
    | blockComment hls =>
      simp only [hstops (.blockComment hls)]
      split_ifs
      · exact stop
      · exact keep depth
    | continuation =>
      obtain ⟨m, m', hrun, hrest⟩ := ih depth
      exact ⟨m, m', hrun.mono (hn.trans (offset_le_endOffset t)) (hn'.trans (offset_le_endOffset t')), hrest⟩
    | same =>
      split
      · obtain ⟨m, m', hrun, hrest⟩ := ih depth
        exact ⟨m, m', hrun.mono (hn.trans (offset_le_endOffset t)) (hn'.trans (offset_le_endOffset t')),
          hrest⟩
      · exact absurd rfl hne
      all_goals
        dsimp only
        split_ifs
        · exact stop
        · exact keep _

section

variable (h : K.LikeRun m m' n n' ts ts')
include h

theorem LikeRun.forall₂ : Forall₂ K.LikeToken ts ts' := by
  induction h with
  | nil => exact .nil
  | cons ht _ _ _ _ ih => exact .cons ht ih

/-- The last tokens of two runs. -/
theorem LikeRun.getLast? : K.LikeLast m m' ts.getLast? ts'.getLast? := by
  induction h with
  | nil => exact .none
  | cons ht _ _ _ hts ih =>
    cases hts with
    | nil hm hm' => exact .some ⟨ht, hm, hm'⟩
    | cons => exact ih

/-- A token stands before the last one of those that follow it, or is the last one itself. -/
theorem LikeRun.getLast?_getD (ht : K.LikeToken t t') (hn : t.offset ≤ n) (hn' : t'.offset ≤ n') :
    K.LikeToken (ts.getLast?.getD t) (ts'.getLast?.getD t') ∧ t.offset ≤ (ts.getLast?.getD t).endOffset ∧
      t'.offset ≤ (ts'.getLast?.getD t').endOffset := by
  induction h with
  | nil => exact ⟨ht, offset_le_endOffset t, offset_le_endOffset t'⟩
  | @cons n n' u u' ts ts' hu _ hnu hnu' hts ih =>
    have htu := hn.trans (hnu.trans (offset_le_endOffset u))
    have htu' := hn'.trans (hnu'.trans (offset_le_endOffset u'))
    cases hts with
    | nil => exact ⟨hu, htu, htu'⟩
    | cons => exact ih htu htu'

end

/-- Runs of tokens, between some offsets. -/
def LikeTokens (K : Likeness) (ts ts' : List Token) : Prop := ∃ m m' n n', K.LikeRun m m' n n' ts ts'

theorem twin_takeExpression (hstops : ∀ {k k'}, K.LikeKind k k' → stops k = stops k') :
    K.Twin (takeExpression stops) (takeExpression stops) K.LikeTokens := by
  intro r r' hr
  obtain ⟨n, n', hstream, hlast⟩ := hr.ahead
  obtain ⟨m, m', hrun, hrest⟩ := like_expression hstops hstream 0
  have hbehind := rel_or hrun.getLast? (hlast.mono hrun.le.1 hrun.le.2)
  exact .ok ⟨⟨m, m', n, n', hrun⟩, ⟨⟨m, m', hrest, hbehind⟩, hr.comments⟩⟩

theorem twin_textOf {first first' last last' : Token} (hfirst : K.LikeToken first first')
    (hlast : K.LikeToken last last') (hle : first.offset ≤ last.endOffset)
    (hle' : first'.offset ≤ last'.endOffset) :
    K.Twin (textOf K.text first last) (textOf K.text' first' last') K.part := by
  unfold textOf
  refine (K.part_slice? hfirst.offset hlast.endOffset (iff_of_true hle hle')).casesOn (fun ht => ?_) ?_
  · exact .pure ht
  · exact .refuse rfl hfirst.start

theorem agree_groupEnd (h : K.LikeStream n n' ts ts') (depth : Nat) :
    Agree (fun x x' => K.LikeToken x.1 x'.1 ∧ K.LikeStream x.1.endOffset x'.1.endOffset x.2 x'.2)
      (groupEnd depth ts) (groupEnd depth ts') := by
  induction h generalizing depth with
  | @eof n n' t t' ht heof =>
    simp only [groupEnd, heof, ht.kind.eof_iff.1 heof]
    exact .error ⟨rfl, ht.line⟩
  | @cons n n' t t' ts ts' ht hne _ _ hts ih =>
    have hkind := ht.kind
    rw [groupEnd.eq_def, groupEnd.eq_def]
    dsimp only
    generalize t.kind = k at hkind hne ⊢
    generalize t'.kind = k' at hkind ⊢
    cases hkind with
    | comment | blockComment | continuation => exact ih depth
    | same =>
      split
      · exact absurd rfl hne
      · exact ih _
      · split
        · exact .error ⟨rfl, ht.line⟩
        · exact .ok ⟨ht, hts⟩
        · exact ih _
      · exact ih depth

theorem twin_skipGroup : K.Twin skipGroup skipGroup Eq := by
  intro r r' hr
  obtain ⟨n, n', hstream, -⟩ := hr.ahead
  rw [skipGroup_run, skipGroup_run]
  refine (agree_groupEnd hstream 0).casesOn (fun hx => ?_) .error
  exact .ok ⟨rfl, ⟨⟨_, _, hx.2, .some ⟨hx.1, le_rfl, le_rfl⟩⟩, hr.comments⟩⟩

/-! ## Attribute lists -/

theorem likeValue_ofTokens (h : Forall₂ K.LikeToken ts ts') {p p' : Text} (hp : K.part p p') :
    K.LikeValue (.ofTokens ts p) (.ofTokens ts' p') := by
  cases h with
  | nil => exact .raw hp
  | @cons t t' ts ts' ht hts =>
    cases hts with
    | cons => exact .raw hp
    | nil =>
      unfold AttributeValue.ofTokens
      dsimp only
      refine ht.kind.casesOn (fun _ => .raw hp) (fun _ => .raw hp) (fun _ => .raw hp) fun _ _ hword => ?_
      split
      · split_ifs
        · exact .flag
        · exact .flag
        · exact .word (hword _ rfl)
      · exact .word (hword _ rfl)
      · exact .raw hp

theorem twin_attributeValue : K.Twin (attributeValue K.text) (attributeValue K.text') K.LikeValue := by
  refine (twin_takeExpression LikeKind.endsAttribute).bind fun ts ts' hts => twin_peek.bind fun t t' ht => ?_
  refine .ite ht.kind.eof_iff ((Twin.refuse (A := fun _ _ => False) rfl ht.start).bind (by rintro _ _ ⟨⟩)) ?_
  obtain ⟨m, m', n, n', hrun⟩ := hts
  cases hrun with
  | nil => exact twin_unexpected ht
  | @cons _ _ first first' ts ts' hfirst hne hn hn' hrun =>
    obtain ⟨hlast, hle, hle'⟩ := hrun.getLast?_getD hfirst (offset_le_endOffset _) (offset_le_endOffset _)
    simp only [head?_cons, getLast?_cons]
    exact (twin_textOf hfirst hlast hle hle').bind fun p p' hp =>
      .pure (likeValue_ofTokens (.cons hfirst hrun.forall₂) hp)

/-! ## Bodies -/

theorem agree_splitAtEnd (h : K.LikeStream n n' ts ts') (inner : Nat) :
    Agree (fun x x' => K.LikeRun x.2.1.offset x'.2.1.offset n n' x.1 x'.1 ∧ K.LikeToken x.2.1 x'.2.1 ∧
        K.LikeStream x.2.1.endOffset x'.2.1.endOffset x.2.2 x'.2.2)
      (splitAtEnd limit name inner ts) (splitAtEnd limit name inner ts') := by
  induction h generalizing inner with
  | @eof n n' t t' ht heof =>
    simp only [splitAtEnd, heof, ht.kind.eof_iff.1 heof]
    exact .error ⟨rfl, ht.line⟩
  | @cons n n' t t' ts ts' ht hne hn hn' hts ih =>
    have keep (inner : Nat) := (ih inner).map (f := fun x => (t :: x.1, x.2)) (g := fun x => (t' :: x.1, x.2))
      (B := fun x x' => K.LikeRun x.2.1.offset x'.2.1.offset n n' x.1 x'.1 ∧ K.LikeToken x.2.1 x'.2.1 ∧
        K.LikeStream x.2.1.endOffset x'.2.1.endOffset x.2.2 x'.2.2)
      fun x x' hx => ⟨.cons ht hne hn hn' hx.1, hx.2⟩
    have hkind := ht.kind
    rw [Body.splitAtEnd.eq_def, Body.splitAtEnd.eq_def]
    dsimp only
    generalize t.kind = k at hkind hne ⊢
    generalize t'.kind = k' at hkind ⊢
    cases hkind with
    | comment | blockComment | continuation => exact keep inner
    | same =>
      split
      · exact absurd rfl hne
      · split
        · exact .ok ⟨.nil hn hn', ht, hts⟩
        · exact keep _
      · split_ifs
        · exact .error ⟨rfl, ht.line⟩
        · exact keep _
        · exact keep inner
      · exact keep inner

theorem docLength_eq (h : Forall₂ K.LikeToken ts ts') (previous : Option Nat) :
    docLength previous ts = docLength previous ts' := by
  induction h generalizing previous with
  | nil => rfl
  | @cons t t' ts ts' ht _ ih =>
    rw [docLength, docLength, ht.line]
    refine ht.kind.casesOn (fun _ => ?_) (fun _ => rfl) (fun _ => rfl) fun _ _ _ => ?_ <;> simp only [ih]

theorem rel_pieceOf (ht : K.LikeToken t t') : Option.Rel (Forall₂ K.LikePiece) (pieceOf t) (pieceOf t') := by
  unfold pieceOf
  refine ht.kind.casesOn (fun hl => ?_) (fun hls => ?_) (fun hl => ?_) fun {k} hcomment hcontinuation _ => ?_
  · exact .some (.cons (.comment (.cons hl .nil)) .nil)
  · exact .some (.cons (.comment hls) .nil)
  · refine .some (.cons (.code K.part_dots) ?_)
    rw [K.isBlank_of_line hl]
    split_ifs
    · exact .nil
    · exact .cons (.comment (.cons hl .nil)) .nil
  · cases k with
    | comment | blockComment => cases hcomment
    | continuation => cases hcontinuation
    | literal => exact .some (.cons .literal .nil)
    | _ => exact .none

/-- Bodies are cut into pieces that are alike, if they start before their
tokens. A body that starts at its own end is only cut if it has no pieces. -/
theorem rel_cut (h : K.LikeRun m m' n n' ts ts') (hm : K.offset m m')
    {start start' : Nat} (hstart : K.offset start start')
    (hle : (start ≤ n ∧ start' ≤ n') ∨ (start = m ∧ start' = m')) :
    Option.Rel (Forall₂ K.LikePiece) (cut K.text m start ts) (cut K.text' m' start' ts') := by
  induction h generalizing start start' with
  | nil hn hn' =>
    simp only [cut]
    refine (K.part_slice? hstart hm (iff_of_true (by omega) (by omega))).casesOn (fun hp => ?_) .none
    exact .some (.cons (.code hp) .nil)
  | @cons n n' t t' ts ts' ht hne hn hn' hts ih =>
    have hwide := ht.wide hne
    have hend := hts.le
    rw [cut, cut]
    refine (rel_pieceOf ht).casesOn (fun hps => ?_) (ih hstart (by omega))
    refine (K.part_slice? hstart ht.offset (by omega)).casesOn (fun hp => ?_) .none
    refine (ih ht.endOffset (.inl ⟨le_rfl, le_rfl⟩)).casesOn (fun hqs => ?_) .none
    exact .some (rel_append (.cons (.code hp) hps) hqs)

theorem LikeRun.splitAt (h : K.LikeRun m m' n n' ts ts') (k : Nat) : ∃ i i',
    K.LikeRun i i' n n' (ts.take k) (ts'.take k) ∧ K.LikeRun m m' i i' (ts.drop k) (ts'.drop k) := by
  induction h generalizing k with
  | @nil n n' hn hn' =>
    rw [take_nil, drop_nil]
    exact ⟨n, n', .nil le_rfl le_rfl, .nil hn hn'⟩
  | @cons n n' t t' ts ts' ht hne hn hn' hts ih =>
    cases k with
    | zero => exact ⟨n, n', .nil le_rfl le_rfl, .cons ht hne hn hn' hts⟩
    | succ k =>
      obtain ⟨i, i', htake, hdrop⟩ := ih k
      exact ⟨i, i', .cons ht hne hn hn' htake, hdrop⟩

theorem rel_docOf (h : Forall₂ K.LikeToken ts ts') : Option.Rel K.LikeComment (docOf ts) (docOf ts') := by
  unfold docOf
  exact (forall₂_group (forall₂_ofToken? h)).casesOn .none fun hb _ => .some hb

/-- Tokens are cut out from the end of the token before them, or from the end of the body if there is none. -/
theorem rel_cut_behind {close close' : Token} (ho : K.LikeLast n n' o o')
    (hclose : K.LikeToken close close') (h : K.LikeRun close.offset close'.offset n n' ts ts') :
    Option.Rel (Forall₂ K.LikePiece)
      (cut K.text close.offset ((o.map Token.endOffset).getD close.offset) ts)
      (cut K.text' close'.offset ((o'.map Token.endOffset).getD close'.offset) ts') := by
  cases ho with
  | none => exact rel_cut h hclose.offset hclose.offset (.inr ⟨rfl, rfl⟩)
  | some ht => exact rel_cut h hclose.offset ht.1.endOffset (.inl ht.2)

theorem twin_body : K.Twin (body limit K.text name) (body limit K.text' name) K.LikeBody := by
  intro r r' hr
  obtain ⟨n, n', hstream, hlast⟩ := hr.ahead
  rw [body_run, body_run]
  refine (agree_splitAtEnd hstream 0).bind ?_
  rintro ⟨ts, close, rest⟩ ⟨ts', close', rest'⟩ ⟨hrun, hclose, hrest⟩
  obtain ⟨i, i', hdoc, hcut⟩ := hrun.splitAt (docLength none ts)
  have hcut := rel_cut_behind (rel_or hdoc.getLast? (hlast.mono hdoc.le.1 hdoc.le.2)) hclose hcut
  simp only [Body.start, ← docLength_eq hrun.forall₂]
  refine hcut.casesOn (fun hps => ?_) (.error ⟨rfl, hclose.line⟩)
  exact .ok ⟨⟨rel_docOf hdoc.forall₂, _, _, rfl, rfl, hps⟩,
    ⟨_, _, hrest, .some ⟨hclose, le_rfl, le_rfl⟩⟩, hr.comments⟩

/-! ## Members -/

/-- An expression that does not stop at once starts with the next token. -/
theorem exists_expression_eq_cons (h : significant ts = t :: us)
    (heof : t.kind ≠ .eof) (hstop : stops t.kind = false) : ∃ us, (expression stops 0 ts).1 = t :: us := by
  induction ts with
  | nil => cases h
  | cons u ts ih =>
    rw [significant, dropWhile_cons] at h
    rw [expression]
    split_ifs at h with hu
    · obtain ⟨body, hbody⟩ : ∃ body, u.kind = .continuation body := by
        cases hkind : u.kind <;> simp_all [TokenKind.isContinuation]
      simp only [hbody]
      exact ih h
    · obtain ⟨rfl, rfl⟩ := List.cons.inj h
      split
      · rename_i hkind
        simp [hkind, TokenKind.isContinuation] at hu
      · exact absurd ‹_› heof
      all_goals
        simp only [hstop, Bool.and_false, Bool.false_eq_true, if_false]
        exact ⟨_, rfl⟩

theorem exists_takeExpression_eq
    (h : significant r.ahead = t :: us) (heof : t.kind ≠ .eof) (hstop : stops t.kind = false) :
    ∃ us s, takeExpression stops r = .ok (t :: us, s) := by
  obtain ⟨us, hus⟩ := exists_expression_eq_cons h heof hstop
  exact ⟨us, _, by rw [← hus]; rfl⟩

theorem twin_defaultValue : K.Twin (defaultValue K.text) (defaultValue K.text') K.part := by
  intro r r' hr
  obtain ⟨n, n', hstream⟩ := hr.significant
  obtain ⟨t, us, t', us', hts, hts', ht⟩ := hstream.head
  rw [defaultValue, defaultValue, bind_eq (peek_eq (by rw [hts]; rfl)),
    bind_eq (peek_eq (by rw [hts']; rfl)), ← ht.kind.alike.endsStatement]
  by_cases hends : endsStatement t.kind
  · rw [if_pos hends, if_pos hends]
    exact (twin_unexpected (A := fun _ _ => False) ht).bind (by rintro _ _ ⟨⟩) hr
  rw [if_neg hends, if_neg hends]
  -- the next token opens the expression, since it ends no statement
  have hopens {t : Token} (hends : ¬endsStatement t.kind) : t.kind ≠ .eof ∧ endsValue t.kind = false := by
    constructor
    · intro heof
      exact hends (by rw [heof]; rfl)
    · cases hkind : t.kind with
      | delimiter d => cases d <;> simp_all [endsStatement, TokenKind.endsStatement, endsValue]
      | _ => simp_all [endsStatement, TokenKind.endsStatement, endsValue]
  obtain ⟨ts, s, hrun⟩ := exists_takeExpression_eq hts (hopens hends).1 (hopens hends).2
  have hends' : ¬endsStatement t'.kind := ht.kind.alike.endsStatement ▸ hends
  obtain ⟨ts', s', hrun'⟩ := exists_takeExpression_eq hts' (hopens hends').1 (hopens hends').2
  have htake := twin_takeExpression LikeKind.endsValue hr
  dsimp only
  rw [bind_eq hrun, bind_eq hrun']
  rw [hrun, hrun'] at htake
  obtain ⟨⟨m, m', n, n', hlike⟩, hs⟩ : K.LikeTokens (t :: ts) (t' :: ts') ∧ K.LikeReader s s' := by
    cases htake with
    | ok h => exact h
  cases hlike with
  | cons _ _ _ _ hlike =>
    obtain ⟨hlast, hle, hle'⟩ := hlike.getLast?_getD ht (offset_le_endOffset _) (offset_le_endOffset _)
    rw [getLast?_cons, getLast?_cons]
    exact twin_textOf ht hlast hle hle' hs

theorem wordAfterLines_eq (h : K.LikeStream n n' ts ts') : wordAfterLines ts = wordAfterLines ts' := by
  obtain ⟨t, us, t', us', hts, hts', ht⟩ := (h.dropWhile LikeKind.isLineLayout rfl).1.head
  simp only [wordAfterLines, hts, hts']
  exact ht.kind.alike.elim (fun _ => rfl) (fun _ _ => rfl) (fun _ _ => rfl) fun _ _ => rfl

theorem LikeAttribute.asserted {a a' : Attribute} (h : K.LikeAttribute a a') : a.asserted = a'.asserted := by
  unfold Attribute.asserted
  exact h.value.casesOn rfl (fun _ => rfl) fun _ => rfl

/-- Readings that agree in readers that are alike. -/
def parallel (K : Likeness) : Parallel where
  text := K.text
  text' := K.text'
  Rel := K.Twin
  token := K.LikeToken
  reader := K.LikeReader
  line := Eq
  value := K.LikeValue
  item := K.LikeAttribute
  part := K.part
  body := K.LikeBody
  member := K.LikeMember
  rel_pure := .pure
  rel_bind := .bind
  rel_many := .many
  rel_refuse ht hcause := .refuse hcause ht.start
  kind ht := ht.kind.alike
  wordAfterLines hr := by
    obtain ⟨n, n', hstream, -⟩ := hr.ahead
    exact wordAfterLines_eq hstream
  get _ _ hr := .ok ⟨hr, hr⟩
  peek := twin_peek
  peekSecond := twin_peekSecond
  advance := twin_advance
  skipLines := twin_skipLines
  skipLayout _ := twin_skipLayout
  lastLine := twin_lastLine
  skipGroup := twin_skipGroup
  attributeValue := twin_attributeValue
  defaultValue := twin_defaultValue
  bodies _ _ := twin_body
  flag _ := .flag
  item_mk ht hv := ⟨rfl, hv, ht.start⟩
  name_eq h := h.name
  asserted_eq h := h.asserted
  property_mk ht hv hl := ⟨rfl, .property hv, congrArg₂ LineRange.mk ht.line hl, ht.start⟩
  event_mk ht hl := ⟨rfl, .event, congrArg₂ LineRange.mk ht.line hl, ht.start⟩
  method_mk ht hb hl := ⟨rfl, .method ⟨rfl, rfl, hb, rfl, rfl⟩, congrArg₂ LineRange.mk ht.line hl, ht.start⟩

/-! ## Classes -/

theorem twin_endHeader : K.Twin endHeader endHeader Eq := K.parallel.endHeader

theorem twin_attributes : K.Twin (attributes K.text) (attributes K.text') (Forall₂ K.LikeAttribute) :=
  K.parallel.attributes

theorem twin_signature : K.Twin signature signature Eq := K.parallel.signature

theorem twin_member? {kind : BlockKind} : K.Twin (member? limits K.text kind isAbstract)
    (member? limits K.text' kind isAbstract) (Option.Rel K.LikeMember) :=
  K.parallel.member?

theorem twin_block? :
    K.Twin (block? limits K.text name) (block? limits K.text' name) (Option.Rel K.LikeBlock) :=
  K.parallel.block? (fun _ _ => K.parallel.member?) fun _ _ _ _ _ _ _ ht has hms => ⟨rfl, has, hms, ht.start⟩

theorem twin_localFunction? :
    K.Twin (localFunction? limits K.text) (localFunction? limits K.text') (Option.Rel Eq) :=
  K.parallel.localFunction?

theorem twin_classHead : K.Twin (classHead K.text) (classHead K.text') K.LikeClass :=
  K.parallel.classHead fun _ _ _ _ _ _ _ _ _ _ hu has hline ht =>
    ⟨rfl, rfl, has, .nil, .nil, congrArg₂ LineRange.mk hu.line hline, ht.start⟩

theorem twin_classFile : K.Twin (classFile limits K.text) (classFile limits K.text') K.LikeClass := by
  rw [classFile_eq_classPart, classFile_eq_classPart, classPart_eq_classHead, classPart_eq_classHead]
  refine Twin.bind (twin_classHead.bind fun c c' hc => ?_) fun c c' hc =>
    K.parallel.rel_bind (Parallel.Rel.discard (K.parallel.rel_many K.parallel.localFunction?))
      fun _ _ _ => .pure hc
  rw [hc.name]
  refine (Twin.many twin_block?).bind fun bs bs' hbs =>
    K.parallel.rel_bind K.parallel.get fun r r' hr => .pure ?_
  exact ⟨rfl, hc.superclasses, hc.attributes, hbs, forall₂_group hr.comments, hc.header, hc.position⟩

/-! ## Accessors -/

theorem forall₂_members (h : K.LikeClass c c') : Forall₂ K.LikeMember c.members c'.members :=
  rel_flatMap h.blocks fun _ _ hb => hb.members

section

variable (h : K.LikeMember d d')
include h

theorem LikeMember.kind : d.kind = d'.kind := by
  unfold Member.kind
  exact h.detail.casesOn (fun _ => rfl) (fun _ => rfl) rfl

theorem LikeMember.method? : Option.Rel K.LikeMethod d.method? d'.method? := by
  unfold Member.method?
  exact h.detail.casesOn (fun _ => .none) .some .none

theorem LikeMember.accessor? : d.accessor? = d'.accessor? := by
  unfold Member.accessor?
  exact h.method?.casesOn (fun hm => hm.accessor) rfl

theorem LikeMember.sourceName : d.sourceName = d'.sourceName := by
  simp only [Member.sourceName, h.accessor?, h.name]

end

theorem hasProperty_eq (h : K.LikeClass c c') (name : Text) : c.hasProperty name = c'.hasProperty name := by
  have hmembers := forall₂_members h
  unfold ClassDecl.hasProperty
  generalize c.members = ms, c'.members = ms' at hmembers ⊢
  induction hmembers with
  | nil => rfl
  | cons hm _ ih => simp only [any_cons, hm.kind, hm.name, ih]

theorem rel_accessorFault? (h : K.LikeClass c c') (hd : K.LikeMember d d') :
    Option.Rel Fault.Alike (c.accessorFault? d) (c'.accessorFault? d') := by
  have hposition := K.line_eq_of_place hd.position
  unfold ClassDecl.accessorFault?
  refine hd.detail.casesOn (fun _ => .none) (fun {x x'} hm => ?_) .none
  obtain ⟨params, returns, body, isAbstract, accessor⟩ := x
  obtain ⟨_, returns', body', isAbstract', _⟩ := x'
  obtain ⟨rfl, -, -, -, rfl⟩ := hm
  cases accessor with
  | none => exact .none
  | some accessor =>
    dsimp only
    rw [hasProperty_eq h, hd.sourceName]
    split_ifs
    · exact .some ⟨rfl, hposition⟩
    · exact .some ⟨rfl, hposition⟩
    · exact .none

theorem LikeStream.getLast?_kind (h : K.LikeStream n n' ts ts') :
    ts.getLast?.map (·.kind) = some .eof ∧ ts'.getLast?.map (·.kind) = some .eof := by
  induction h with
  | eof ht heof => exact ⟨congrArg some heof, congrArg some (ht.kind.eof_iff.1 heof)⟩
  | cons _ _ _ _ hts ih =>
    obtain ⟨u, us, u', us', rfl, rfl, -⟩ := hts.head
    exact ih

/-- Two files with tokens that are alike give classes that are alike, or are refused for the same reason. -/
theorem agree_ofTokens (h : K.LikeStream n n' ts ts') :
    Agree K.LikeClass (ClassDecl.ofTokens limits K.text ts) (ClassDecl.ofTokens limits K.text' ts') := by
  have hr : K.LikeReader ⟨ts, none, []⟩ ⟨ts', none, []⟩ := ⟨⟨n, n', h, .none⟩, .nil⟩
  rw [ClassDecl.ofTokens, ClassDecl.ofTokens, if_neg (not_not_intro h.getLast?_kind.1),
    if_neg (not_not_intro h.getLast?_kind.2)]
  refine (twin_classFile hr).bind ?_
  rintro ⟨c, r⟩ ⟨c', r'⟩ ⟨hc, -⟩
  have hfault : Option.Rel Fault.Alike (c.members.findSome? c.accessorFault?)
      (c'.members.findSome? c'.accessorFault?) := by
    have hmembers := forall₂_members hc
    generalize c.members = ms, c'.members = ms' at hmembers ⊢
    induction hmembers with
    | nil => exact .none
    | cons hd _ ih =>
      rw [findSome?_cons, findSome?_cons]
      exact (rel_accessorFault? hc hd).casesOn .some ih
  dsimp only
  exact hfault.casesOn .error (.ok hc)

end ClassdefDoc.Likeness
