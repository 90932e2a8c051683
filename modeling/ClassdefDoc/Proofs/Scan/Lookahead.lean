import ClassdefDoc.Proofs.Scan.Lexeme

/-!
# How far a lexeme looks ahead

A lexeme that is neither a comment nor a continuation is decided by its own characters and at most three
behind it. Where its line breaks off behind it or a blank or a comment follows, it is never longer than
where its line goes on. `Text.Shows after after'` says that in place of `after` a text `after'` shows
nothing new to the lexeme in front, and `Lexeme.read_of_shows` that the lexeme is then the same.
-/

namespace ClassdefDoc

open List Text

namespace Text

/-- Characters with which a lexeme that could end before them does not go on. -/
def breaks : List Char := ['\n', '\r', ' ', '%', ';']

theorem forall_breaks {P : Char → Prop} :
    (∀ c ∈ breaks, P c) ↔ P '\n' ∧ P '\r' ∧ P ' ' ∧ P '%' ∧ P ';' := by simp [breaks]

/-- The text is empty, or starts with a line end, a carriage return, a blank, a comment or a semicolon. -/
def AtBreak (t : Text) : Prop := ∀ c, t.head? = some c → c ∈ breaks

/-- The texts look the same for `n` characters. -/
inductive SameAhead : Nat → Text → Text → Prop
  | zero {t t'} : SameAhead 0 t t'
  | atBreak {n t t'} : AtBreak t → AtBreak t' → SameAhead n t t'
  | cons {n c t t'} : SameAhead n t t' → SameAhead (n + 1) (c :: t) (c :: t')

/-- Whether a point before this text does not belong to a number in front of it. -/
def stopsPoint (t : Text) : Bool :=
  "..".toList.isPrefixOf t || t.head?.any (fun d => "*/\\^'".toList.contains d)

/-- Behind a lexeme, the second text shows nothing that the first one does not show: it looks the same, or
it breaks off where the first one goes on, but not behind a point that what follows takes from a number. -/
inductive Shows : Text → Text → Prop
  | same {after after'} : SameAhead 3 after after' → Shows after after'
  | cut {kept rest tail} : AtBreak tail → (∀ k, kept = '.' :: k → stopsPoint (k ++ rest) → stopsPoint k) →
    Shows (kept ++ rest) (kept ++ tail)

variable {f : Char → Bool} {p t t' rest after after' : Text} {n : Nat} {c : Char}

theorem atBreak_nil : AtBreak [] := by rintro _ ⟨⟩

theorem AtLineEnd.atBreak (h : AtLineEnd t) : AtBreak t := fun c hc => h c hc ▸ mem_cons_self

theorem AtBreak.any_head? (h : AtBreak t) (hbreak : ∀ c ∈ breaks, f c = false) :
    t.head?.any f = false := by
  cases t with
  | nil => rfl
  | cons c t => exact hbreak c (h c rfl)

/-- A test of the next character that is false at a break. -/
theorem SameAhead.any_head? (h : SameAhead (n + 1) t t')
    (hbreak : ∀ c ∈ breaks, f c = false) : t'.head?.any f = t.head?.any f := by
  cases h with
  | atBreak ht ht' => rw [ht.any_head? hbreak, ht'.any_head? hbreak]
  | cons => rfl

/-- What is shown passes a test of the next character only if it passed it before. -/
theorem Shows.any_head? (h : Shows after after')
    (hbreak : ∀ c ∈ breaks, f c = false) (hf : after'.head?.any f) : after.head?.any f := by
  cases h with
  | same h => rwa [← h.any_head? hbreak]
  | @cut kept rest tail h _ =>
    cases kept with
    | nil =>
      rw [nil_append, h.any_head? hbreak] at hf
      cases hf
    | cons => exact hf

theorem SameAhead.isPrefixOf (h : SameAhead n t t') (hn : p.length ≤ n)
    (hp : ∀ c ∈ breaks, c ∉ p) : p.isPrefixOf t' = p.isPrefixOf t := by
  induction h generalizing p with
  | zero =>
    rw [length_eq_zero_iff.1 (Nat.le_zero.1 hn)]
    rfl
  | @atBreak n t t' ht ht' =>
    cases p with
    | nil => rfl
    | cons a p =>
      have hno {t : Text} (ht : AtBreak t) : (a :: p).isPrefixOf t = false := by
        cases t with
        | nil => rfl
        | cons c t =>
          have : ¬a = c := by
            rintro rfl
            exact hp a (ht a rfl) mem_cons_self
          simp [List.isPrefixOf, this]
      rw [hno ht, hno ht']
  | cons _ ih =>
    cases p with
    | nil => rfl
    | cons a p =>
      simp only [List.isPrefixOf]
      rw [ih (Nat.le_of_succ_le_succ hn) fun c hc hmem => hp c hc (mem_cons_of_mem _ hmem)]

theorem SameAhead.append (h : SameAhead n t t') (x : Text) : SameAhead (x.length + n) (x ++ t) (x ++ t') := by
  induction x with
  | nil => rwa [length_nil, Nat.zero_add]
  | cons c x ih =>
    rw [length_cons, Nat.succ_add]
    exact .cons ih

/-- A break is no part of the points, so they end before it. -/
theorem isPrefixOf_of_atBreak {tail : Text} (h : AtBreak tail) (hp : ∀ c ∈ breaks, c ∉ p) (x rest : Text)
    (hpre : p.isPrefixOf (x ++ tail)) : p.isPrefixOf (x ++ rest) := by
  induction x generalizing p with
  | nil =>
    cases p with
    | nil => rfl
    | cons a p =>
      cases tail with
      | nil => cases hpre
      | cons c tail =>
        simp only [nil_append, List.isPrefixOf, Bool.and_eq_true, beq_iff_eq] at hpre
        obtain ⟨rfl, -⟩ := hpre
        exact absurd mem_cons_self (hp a (h a rfl))
  | cons c x ih =>
    cases p with
    | nil => rfl
    | cons a p =>
      simp only [cons_append, List.isPrefixOf, Bool.and_eq_true] at hpre ⊢
      exact ⟨hpre.1, ih (fun c hc hmem => hp c hc (mem_cons_of_mem _ hmem)) hpre.2⟩

/-- Points that a lexeme with what is shown behind it starts with, it starts with as it was. -/
theorem Shows.isPrefixOf (h : Shows after after') (x : Text) (hlength : p.length ≤ 3)
    (hp : ∀ c ∈ breaks, c ∉ p) (hpre : p.isPrefixOf (x ++ after')) : p.isPrefixOf (x ++ after) := by
  cases h with
  | same h => rwa [← (h.append x).isPrefixOf (by omega) hp]
  | @cut kept rest tail h _ =>
    rw [← append_assoc] at hpre ⊢
    exact isPrefixOf_of_atBreak h hp (x ++ kept) rest hpre

theorem stopsPoint_append {k : Text} (h : stopsPoint k) (t : Text) : stopsPoint (k ++ t) := by
  rcases Bool.or_eq_true_iff.1 h with h | h
  · have hstart := isPrefixOf_iff_prefix.1 h
    rw [stopsPoint, isPrefixOf_iff_prefix.2 (hstart.trans (prefix_append k t)), Bool.true_or]
  · cases k with
    | nil => cases h
    | cons d k => rw [stopsPoint, cons_append, head?_cons, ← head?_cons (l := k), h, Bool.or_true]

theorem firstLine_append {l : Text} (hl : '\n' ∉ l) (hafter : AtLineEnd after) :
    firstLine (l ++ after) = l := by
  refine takeWhile_append_stop (fun c hc => ?_) fun c hc => ?_
  · rw [bne_iff_ne]
    rintro rfl
    exact hl hc
  · rw [hafter c hc]
    rfl

theorem exists_firstLine (t : Text) : ∃ line rest, t = line ++ rest ∧ '\n' ∉ line ∧ AtLineEnd rest :=
  ⟨firstLine t, t.drop (firstLine t).length,
    (take_append_drop _ t).symm.trans (congrArg (· ++ _) (take_firstLine_length t)),
    newline_notMem_firstLine t, atLineEnd_drop_firstLine t⟩

theorem AtLineEnd.append (ls : List Text) (h : AtLineEnd t) : AtLineEnd (onLines ls ++ t) := by
  cases ls with
  | nil => exact h
  | cons l ls => exact fun c hc => (Option.some.inj hc).symm

theorem firstLine_append_congr (x : Text)
    (h : AtLineEnd after) (h' : AtLineEnd after') :
    firstLine (x ++ after) = firstLine (x ++ after') := by
  obtain ⟨first, ls, rfl, hlines⟩ := exists_lines x
  have hfirst := hlines first mem_cons_self
  rw [append_assoc, append_assoc, firstLine_append hfirst (h.append ls),
    firstLine_append hfirst (h'.append ls)]

theorem exists_onLines (h : AtLineEnd t) : ∃ ls, t = onLines ls ∧ ∀ l ∈ ls, '\n' ∉ l := by
  obtain ⟨first, ls, rfl, hlines⟩ := exists_lines t
  cases first with
  | nil => exact ⟨ls, rfl, (forall_mem_cons.1 hlines).2⟩
  | cons c first =>
    refine absurd ?_ (hlines (c :: first) mem_cons_self)
    rw [h c rfl]
    exact mem_cons_self

end Text

namespace Lexeme

open Text (AtBreak SameAhead Shows)

variable {l : Lexeme} {previous q c : Char} {x t rest rest' text : Text} {n : Nat}

/-- The two see the same but for the line before them, which matters to comments only. -/
structure SameState (s s' : Surroundings) : Prop where
  startsStatement : s'.startsStatement = s.startsStatement
  innermost : s'.innermost = s.innermost
  transposes : transposes s' = transposes s

/-- The two see the same of what stands before them. -/
structure SameSight (s s' : Surroundings) : Prop extends SameState s s' where
  leadsLine : s'.leadsLine = s.leadsLine

theorem SameSight.refl (s : Surroundings) : SameSight s s := ⟨⟨rfl, rfl, rfl⟩, rfl⟩

variable {s s' : Surroundings} {after after' : Text}

/-! ## Numbers -/

theorem numberGoesOn_of_imp (h : numberGoesOn previous c rest)
    (hdots : "..".toList.isPrefixOf rest' → "..".toList.isPrefixOf rest)
    (hany : rest'.head?.any (fun d => "*/\\^'".toList.contains d) →
      rest.head?.any (fun d => "*/\\^'".toList.contains d)) : numberGoesOn previous c rest' := by
  unfold numberGoesOn at h ⊢
  by_cases hword : (c.isAlphanum || c == '_')
  · rw [if_pos hword]
  rw [if_neg hword] at h ⊢
  by_cases hdot : (c == '.')
  · rw [if_pos hdot, Bool.and_eq_true, Bool.not_eq_true', Bool.not_eq_true',
      Bool.eq_false_iff, Bool.eq_false_iff] at h ⊢
    exact ⟨mt hdots h.1, mt hany h.2⟩
  · rw [if_neg hdot] at h ⊢
    exact h

theorem numberGoesOn_of_sameAhead (h : SameAhead 2 rest rest') (previous c : Char) :
    numberGoesOn previous c rest' = numberGoesOn previous c rest := by
  have hdots := h.isPrefixOf (p := "..".toList) (by decide) (forall_breaks.2 (by decide))
  have hany := h.any_head? (f := fun d => "*/\\^'".toList.contains d) (forall_breaks.2 (by decide))
  simp only [numberGoesOn, hdots, hany]

theorem numberLength_of_atBreak (h : AtBreak t) : numberLength previous t = 0 := by
  cases t with
  | nil => rfl
  | cons c t =>
    have hstops : numberGoesOn previous c t = false := by
      have hc := h c rfl
      simp only [Text.breaks, mem_cons, not_mem_nil, or_false] at hc
      rcases hc with rfl | rfl | rfl | rfl | rfl <;> rfl
    simp [numberLength, hstops]

theorem numberGoesOn_point (previous : Char) (rest : Text) :
    numberGoesOn previous '.' rest = !Text.stopsPoint rest := by
  rw [Text.stopsPoint, Bool.not_or]
  rfl

/-- Only of a point does it depend on what follows whether it belongs to a number. -/
theorem numberGoesOn_congr (hc : c ≠ '.') (rest rest' : Text) :
    numberGoesOn previous c rest = numberGoesOn previous c rest' := by
  simp only [numberGoesOn, beq_false_of_ne hc, Bool.false_eq_true, if_false]

/-- A number ends where what follows shows nothing new. -/
theorem numberLength_of_shows (h : Shows after after')
    (hx : numberLength previous (x ++ after) = x.length) :
    numberLength previous (x ++ after') = x.length := by
  induction x generalizing previous with
  | nil =>
    cases h with
    | same h =>
      cases h with
      | atBreak _ h => exact numberLength_of_atBreak h
      | cons h =>
        simp only [nil_append, numberLength, length_nil] at hx ⊢
        split_ifs at hx with hstops
        rw [if_neg]
        rwa [numberGoesOn_of_sameAhead h]
    | @cut kept rest tail h hpoint =>
      cases kept with
      | nil => exact numberLength_of_atBreak h
      | cons c k =>
        simp only [nil_append, cons_append, numberLength, length_nil] at hx ⊢
        split_ifs at hx with hstops
        rw [if_neg]
        by_cases hc : c = '.'
        · subst hc
          rw [numberGoesOn_point, Bool.not_eq_true', Bool.not_eq_false] at hstops ⊢
          exact stopsPoint_append (hpoint k rfl hstops) tail
        · rwa [numberGoesOn_congr hc (k ++ tail) (k ++ rest)]
  | cons c x ih =>
    simp only [cons_append, numberLength, length_cons] at hx ⊢
    split_ifs at hx with hgoes
    have hgoes' : numberGoesOn previous c (x ++ after') := by
      refine numberGoesOn_of_imp hgoes (h.isPrefixOf x (by decide) (forall_breaks.2 (by decide)))
        fun hany => ?_
      cases x with
      | nil => exact h.any_head? (forall_breaks.2 (by decide)) hany
      | cons d x => exact hany
    rw [if_pos hgoes', ih (Nat.succ.inj hx)]

/-! ## Literals -/

theorem readLiteral_of_shows (h : Shows after after') {q : Quote}
    (hx : readLiteral q (q.char :: (x ++ after)) = .ok l) (hlength : l.length = x.length + 1) :
    readLiteral q (q.char :: (x ++ after')) = .ok l := by
  obtain ⟨value, hline, rfl, hafter, hkind⟩ := (readLiteral_cut_iff hlength).1 hx
  refine (readLiteral_cut_iff hlength).2 ⟨value, hline, rfl, fun hq => hafter ?_, hkind⟩
  have hshown := h.any_head? (f := (· == q.char)) (forall_breaks.2 (by cases q <;> decide)) (by simp [hq])
  obtain ⟨d, hd, heq⟩ := (Option.any_eq_true ..).1 hshown
  rwa [beq_iff_eq.1 heq] at hd

/-! ## Words and operators -/

theorem takeWhile_of_shows (h : Shows after after') {f : Char → Bool}
    (hbreak : ∀ c ∈ Text.breaks, f c = false) (hx : (x ++ after).takeWhile f = x) :
    (x ++ after').takeWhile f = x := by
  have hnil (t : Text) : t.takeWhile f = [] ↔ ¬t.head?.any f := by cases t <;> simp [takeWhile_cons]
  induction x with
  | nil => exact (hnil after').2 (mt (h.any_head? hbreak) ((hnil after).1 hx))
  | cons c x ih =>
    rw [cons_append, takeWhile_cons] at hx ⊢
    split_ifs at hx with hc
    rw [if_pos hc, ih (List.cons.inj hx).2]

/-- Whether an operator `c` goes on with `d`. -/
def operatorGoesOn (c d : Char) : Bool := longOperators.contains [c, d] || (c = '.' && d = '\'')

theorem readOperator_length_one_iff (hlength : l.length = 1) :
    readOperator c t = l ↔ l = ⟨.operator (singleOperator c), 1⟩ ∧
    t.head?.any (operatorGoesOn c) = false := by
  cases t with
  | nil => simp [readOperator, eq_comm]
  | cons d t =>
    simp only [readOperator, head?_cons, Option.any_some, operatorGoesOn]
    split_ifs with hlong hdot
    · have hne : (⟨.operator (.other [c, d]), 2⟩ : Lexeme) ≠ l := by
        rintro rfl
        cases hlength
      rw [hlong]
      simp [hne]
    · have hne : (⟨.operator .transpose, 2⟩ : Lexeme) ≠ l := by
        rintro rfl
        cases hlength
      simp [hdot, hne]
    · rw [Bool.not_eq_true] at hlong hdot
      rw [hlong, hdot]
      simp [eq_comm]

theorem readOperator_of_shows (h : Shows after after')
    (hlength : (readOperator c (x ++ after)).length = x.length + 1) :
    readOperator c (x ++ after') = readOperator c (x ++ after) := by
  cases x with
  | nil =>
    obtain ⟨hsingle, hnone⟩ := (readOperator_length_one_iff hlength).1 rfl
    refine (readOperator_length_one_iff hlength).2 ⟨hsingle, ?_⟩
    rw [Bool.eq_false_iff] at hnone ⊢
    refine mt (h.any_head? fun d hd => ?_) hnone
    have hno : ∀ d ∈ Text.breaks, d ∉ ['=', '&', '|', '*', '/', '\\', '^'] ∧ d ≠ '\'' :=
      forall_breaks.2 (by decide)
    rw [operatorGoesOn, Bool.eq_false_iff.2 (mt mem_of_longOperators (hno d hd).1)]
    simp [(hno d hd).2]
  | cons d x => rfl

/-! ## All lexemes -/

/-- Two points or a digit behind a point make it a number, so a number that starts with a point is longer. -/
theorem isDigit_test_of_shows (h : Shows after after')
    (hlong : x = [] → c = '.' → after.head?.any Char.isDigit = false) :
    (c.isDigit || (c == '.' && (x ++ after').head?.any Char.isDigit)) =
      (c.isDigit || (c == '.' && (x ++ after).head?.any Char.isDigit)) := by
  cases x with
  | cons d x => rfl
  | nil =>
    by_cases hdot : c = '.'
    · have hnone := hlong rfl hdot
      have hnone' : after'.head?.any Char.isDigit = false := by
        rw [Bool.eq_false_iff] at hnone ⊢
        exact mt (h.any_head? (forall_breaks.2 (by decide))) hnone
      rw [nil_append, nil_append, hnone, hnone']
    · rw [beq_false_of_ne hdot, Bool.false_and, Bool.false_and]

theorem numberLength_point_digit (h : t.head?.any Char.isDigit) : 2 ≤ numberLength '\x00' ('.' :: t) := by
  have hgoes : numberGoesOn '\x00' '.' t := numberGoesOn_first (by simp [h])
  cases t with
  | nil => cases h
  | cons d t =>
    have hd : numberGoesOn '.' d t := by
      have hdigit : d.isDigit := by simpa using h
      simp [numberGoesOn, Char.isAlphanum, hdigit]
    simp only [numberLength, if_pos hgoes, if_pos hd]
    omega

theorem readWord_length (s : Surroundings) (text : Text) :
    (readWord s text).length = (text.takeWhile Name.isContinue).length := by
  unfold readWord
  dsimp only
  split <;> rfl

/-- The lexeme `l` that is read from `c :: x` before `after` is `c :: x`. -/
structure Cut (s : Surroundings) (c : Char) (x after : Text) (l : Lexeme) : Prop where
  read : Lexeme.read s c (x ++ after) = .ok l
  length : l.length = x.length + 1

/-- A lexeme that is neither a comment nor a continuation stays the same
where nothing new is shown behind it. -/
theorem cut_of_shows (hs : SameState s s') (h : Shows after after')
    (hcut : Cut s c x after l) (hcomment : l.kind.isComment = false)
    (hcontinuation : l.kind.isContinuation = false) : Cut s' c x after' l := by
  refine ⟨?_, hcut.length⟩
  obtain ⟨hread, hlength⟩ := hcut
  rw [read] at hread ⊢
  by_cases hline : c = '\n'
  · rwa [if_pos hline] at hread ⊢
  rw [if_neg hline] at hread ⊢
  by_cases hpercent : c = '%'
  · rw [if_pos hpercent] at hread
    split at hread
    · rw [hpercent] at hread
      obtain ⟨first, lines, closing, more, -, -, -, rfl⟩ := readBlockComment_eq_ok_iff.1 hread
      cases hcomment
    · cases hread
      cases hcomment
  rw [if_neg hpercent] at hread ⊢
  by_cases hdots : "...".toList.isPrefixOf (c :: (x ++ after))
  · rw [if_pos hdots] at hread
    cases hread
    cases hcontinuation
  have hdots' : ¬"...".toList.isPrefixOf (c :: (x ++ after')) :=
    mt (h.isPrefixOf (c :: x) (by decide) (forall_breaks.2 (by decide))) hdots
  rw [if_neg hdots] at hread
  rw [if_neg hdots']
  by_cases hsingle : c = '\''
  · rw [if_pos hsingle] at hread ⊢
    rw [hs.transposes]
    split_ifs at hread ⊢
    · exact hread
    · subst hsingle
      exact readLiteral_of_shows h (q := .single) hread hlength
  rw [if_neg hsingle] at hread ⊢
  by_cases hdouble : c = '"'
  · rw [if_pos hdouble] at hread ⊢
    subst hdouble
    exact readLiteral_of_shows h (q := .double) hread hlength
  rw [if_neg hdouble] at hread ⊢
  have hlong : x = [] → c = '.' → after.head?.any Char.isDigit = false := by
    rintro rfl rfl
    rw [Bool.eq_false_iff]
    intro hdigit
    rw [nil_append, if_pos (by simp [hdigit])] at hread
    cases hread
    have := numberLength_point_digit hdigit
    simp only [readNumber, length_nil] at hlength
    omega
  rw [isDigit_test_of_shows h hlong]
  by_cases hdigit : (c.isDigit || (c == '.' && (x ++ after).head?.any Char.isDigit))
  · rw [if_pos hdigit] at hread ⊢
    cases hread
    have hn : numberLength '\x00' ((c :: x) ++ after) = (c :: x).length := hlength
    have hn' : numberLength '\x00' ((c :: x) ++ after') = (c :: x).length := numberLength_of_shows h hn
    simp only [← cons_append, readNumber]
    rw [hn, hn', take_left, take_left]
  rw [if_neg hdigit] at hread ⊢
  by_cases hword : Name.isStart c
  · rw [if_pos hword] at hread ⊢
    have hlengthWord : ((c :: x ++ after).takeWhile Name.isContinue).length = (c :: x).length := by
      cases hread
      rw [← readWord_length]
      exact hlength
    have htake : (c :: x ++ after).takeWhile Name.isContinue = c :: x := by
      rw [← Text.take_takeWhile_length, hlengthWord, take_left]
    have htake' : (c :: x ++ after').takeWhile Name.isContinue = c :: x :=
      takeWhile_of_shows h (Text.forall_breaks.2 (by decide)) htake
    rw [← cons_append] at hread ⊢
    rw [readWord, htake] at hread
    rwa [readWord, htake', hs.startsStatement, hs.innermost]
  rw [if_neg hword] at hread ⊢
  split at hread
  · exact hread
  · exact hread
  · split_ifs at hread ⊢
    · exact hread
    · exact hread
    · cases hread
      rw [readOperator_of_shows h hlength]

/-! ## Lexemes that reach up to the end of their line -/

theorem readComment_line {l : Text} (hl : '\n' ∉ l) (hafter : Text.AtLineEnd after) :
    readComment (l ++ after) = ⟨.comment (l.dropWhile (· == '%')), l.length⟩ := by
  obtain ⟨signs, body, rfl, hsigns, hbody⟩ : ∃ signs body, l = signs ++ body ∧ (∀ c ∈ signs, (c == '%')) ∧
      ∀ c, body.head? = some c → (c == '%') = false :=
    ⟨l.takeWhile (· == '%'), l.dropWhile (· == '%'), takeWhile_append_dropWhile.symm,
      fun _ => mem_takeWhile_imp, fun _ => Text.not_of_head?_dropWhile⟩
  have hstops : ∀ c, (body ++ after).head? = some c → (c == '%') = false := by
    intro c hc
    cases body with
    | cons d body => exact hbody c hc
    | nil =>
      rw [hafter c hc]
      rfl
  have hline : '\n' ∉ body := fun h => hl (mem_append_right _ h)
  simp only [readComment, append_assoc, Text.takeWhile_append_stop hsigns hstops, drop_left,
    Text.dropWhile_append_stop hsigns hbody, Text.firstLine_append hline hafter, length_append]

theorem readContinuation_line {l : Text} (hl : '\n' ∉ l) (hlength : 3 ≤ l.length)
    (hafter : Text.AtLineEnd after) :
    readContinuation (l ++ after) = ⟨.continuation (l.drop 3), l.length⟩ := by
  have hline : '\n' ∉ l.drop 3 := fun h => hl (mem_of_mem_drop h)
  simp only [readContinuation, drop_append_of_le_length hlength,
    Text.firstLine_append hline hafter, length_drop]
  congr 1
  omega

theorem readBlockComment_of_atLineEnd (hread : readBlockComment (x ++ after) = .ok l)
    (hlength : l.length = x.length) (hafter : Text.AtLineEnd after') :
    readBlockComment (x ++ after') = .ok l := by
  obtain ⟨first, lines, closing, more, htext, hlines, hcloses, rfl⟩ := readBlockComment_eq_ok_iff.1 hread
  obtain ⟨rfl, -⟩ : x = first ++ Text.onLines (lines ++ [closing]) ∧ after = Text.onLines more := by
    refine append_inj ?_ hlength.symm
    rw [htext]
    simp
  obtain ⟨more', rfl, hmore⟩ := Text.exists_onLines hafter
  refine readBlockComment_eq_ok_iff.2 ⟨first, lines, closing, more', by simp, ?_, hcloses, rfl⟩
  intro t ht
  simp only [mem_cons, mem_append] at ht
  rcases ht with ht | ht | ht | ht
  · exact hlines t (by simp [ht])
  · exact hlines t (by simp [ht])
  · exact hlines t (by simp [ht])
  · exact hmore t ht

theorem read_percent (s : Surroundings) (rest : Text) :
    read s '%' rest =
    if s.leadsLine && opensBlock (Text.firstLine ('%' :: rest)) then readBlockComment ('%' :: rest)
      else .ok (readComment ('%' :: rest)) := rfl

theorem read_points (s : Surroundings) (rest : Text) :
    read s '.' ('.' :: '.' :: rest) = .ok (readContinuation ("...".toList ++ rest)) := rfl

/-- The form of a lexeme that is cut off its text. -/
theorem reads_of_cut (h : Cut s c x after l) : Reads s l.kind (c :: x) after := by
  have hreads := reads_of_read h.read
  rwa [h.length, take_succ_cons, take_left, drop_succ_cons, drop_left] at hreads

theorem read_quote (s : Surroundings) (q : Quote) (rest : Text) :
    read s q.char rest = if q = .single ∧ transposes s = true then .ok ⟨.operator .transpose, 1⟩
      else readLiteral q (q.char :: rest) := by
  cases q with
  | single =>
    show (if transposes s = true then _ else _) = _
    simp only [true_and]
  | double => rfl

/-- A literal that is read is a written form. -/
theorem written_of_cut {q : Quote} {value : Text} (h : Cut s c x after l)
    (hkind : l.kind = .literal q value) :
    c :: x = q.written value ∧ '\n' ∉ value := by
  have hreads := reads_of_cut h
  rw [hkind] at hreads
  cases hreads with
  | literal hq =>
    obtain rfl := Option.some.inj hq
    obtain ⟨hread, hlength⟩ := h
    rw [read_quote] at hread
    split_ifs at hread
    · cases hread
      cases hkind
    · obtain ⟨value', hline, rfl, -, hkind'⟩ := (readLiteral_cut_iff hlength).1 hread
      cases hkind.symm.trans hkind'
      exact ⟨rfl, hline⟩

/-- Comments and continuations reach up to the end of a line. -/
theorem atLineEnd_of_cut (h : Cut s c x after l) (hkind : l.kind.isComment ∨ l.kind.isContinuation) :
    Text.AtLineEnd after := by
  have hreads := reads_of_cut h
  generalize l.kind = k at hkind hreads
  generalize c :: x = lexeme at hreads
  cases hreads with
  | comment _ _ _ hend | blockComment _ _ hend | continuation _ hend => exact hend
  | _ => exact absurd hkind (by simp [TokenKind.isComment, TokenKind.isContinuation])

theorem read_comment (hopens : ¬(s.leadsLine && opensBlock (Text.firstLine ('%' :: (x ++ after)))) = true)
    (hline : '\n' ∉ '%' :: x) (hafter : Text.AtLineEnd after) :
    read s '%' (x ++ after) = .ok ⟨.comment (('%' :: x).dropWhile (· == '%')), x.length + 1⟩ := by
  rw [read_percent, if_neg hopens, ← cons_append, readComment_line hline hafter, length_cons]

theorem read_continuation {body : Text} (hbody : '\n' ∉ body) (hafter : Text.AtLineEnd after) :
    read s '.' ('.' :: '.' :: body ++ after) = .ok ⟨.continuation body, body.length + 3⟩ := by
  have hpoints : '\n' ∉ "...".toList ++ body := by simpa using hbody
  exact (read_points s (body ++ after)).trans (congrArg _ (readContinuation_line hpoints (by simp) hafter))

/-- How a comment or a continuation is read: from a percent sign or from three points. -/
inductive LineForm (s : Surroundings) (after : Text) (l : Lexeme) : Char → Text → Prop
  | block {y} : (s.leadsLine && opensBlock (Text.firstLine ('%' :: (y ++ after)))) = true →
    readBlockComment ('%' :: (y ++ after)) = .ok l → LineForm s after l '%' y
  | comment {y} : ¬(s.leadsLine && opensBlock (Text.firstLine ('%' :: (y ++ after)))) = true →
    '\n' ∉ '%' :: y →
    l = ⟨.comment (('%' :: y).dropWhile (· == '%')), y.length + 1⟩ → LineForm s after l '%' y
  | continuation {body} : '\n' ∉ body → l = ⟨.continuation body, body.length + 3⟩ →
    LineForm s after l '.' ('.' :: '.' :: body)

theorem lineForm_of_cut (h : Cut s c x after l) (hkind : l.kind.isComment ∨ l.kind.isContinuation) :
    LineForm s after l c x := by
  have hafter := atLineEnd_of_cut h hkind
  have hreads := reads_of_cut h
  have percent (hc : c = '%') : LineForm s after l c x := by
    subst hc
    have hread := h.read
    rw [read_percent] at hread
    split_ifs at hread with hopens
    · exact .block hopens hread
    · have hline : '\n' ∉ '%' :: x := by
        obtain ⟨line, rest, htext, hline, hrest⟩ := Text.exists_firstLine ('%' :: x ++ after)
        rw [← cons_append, htext, readComment_line hline hrest] at hread
        cases hread
        rwa [(append_inj htext h.length.symm).1]
      exact .comment hopens hline (Except.ok.inj (h.read.symm.trans (read_comment hopens hline hafter)))
  generalize hk : l.kind = k at hkind hreads
  generalize hlexeme : c :: x = lexeme at hreads
  cases hreads with
  | comment hne hsigns =>
    obtain ⟨d, signs, rfl⟩ := exists_cons_of_ne_nil hne
    exact percent ((List.cons.inj hlexeme).1.trans (hsigns d mem_cons_self))
  | blockComment _ hpercent =>
    rw [← hlexeme] at hpercent
    exact percent (Option.some.inj hpercent)
  | continuation hbody =>
    obtain ⟨rfl, rfl⟩ := List.cons.inj hlexeme
    exact .continuation hbody (Except.ok.inj (h.read.symm.trans (read_continuation hbody hafter)))
  | _ => exact absurd hkind (by simp [TokenKind.isComment, TokenKind.isContinuation])

/-- A comment or a continuation stays the same where a line ends behind it. -/
theorem cut_of_atLineEnd (hs : SameSight s s') (hafter' : Text.AtLineEnd after') (h : Cut s c x after l)
    (hkind : l.kind.isComment ∨ l.kind.isContinuation) : Cut s' c x after' l := by
  refine ⟨?_, h.length⟩
  have hafter := atLineEnd_of_cut h hkind
  have hfirst : Text.firstLine ('%' :: (x ++ after')) = Text.firstLine ('%' :: (x ++ after)) :=
    Text.firstLine_append_congr ('%' :: x) hafter' hafter
  cases lineForm_of_cut h hkind with
  | block hopens hblock =>
    rw [read_percent, hs.leadsLine, hfirst, if_pos hopens]
    exact readBlockComment_of_atLineEnd (x := '%' :: x) hblock h.length hafter'
  | comment hopens hline hl =>
    rw [hl]
    exact read_comment (by rwa [hs.leadsLine, hfirst]) hline hafter'
  | continuation hbody hl =>
    rw [hl]
    exact read_continuation hbody hafter'

/-! ## Refused lexemes -/

/-- Only a block comment without an end and a literal without a closing quote are refused. -/
theorem read_error_cases {e : Cause} (h : read s c rest = .error e) :
    (c = '%' ∧ (s.leadsLine && opensBlock (Text.firstLine ('%' :: rest))) ∧
      readBlockComment ('%' :: rest) = .error e) ∨
      ∃ q : Quote, c = q.char ∧ ¬(q = .single ∧ transposes s) ∧
        readLiteral q (q.char :: rest) = .error e := by
  cases branch_of_read h with
  | block hc hopens h =>
    subst hc
    exact .inl ⟨rfl, hopens, h⟩
  | literal q hc hq h =>
    subst hc
    exact .inr ⟨q, rfl, hq, h⟩
  | newline _ h | comment _ h | continuation _ h | transpose _ h | number _ h | word _ h | opening _ _ h
  | closing _ _ h | comma _ h | semicolon _ h | operator _ _ _ h => cases h

/-! ## Lengths -/

theorem numberLength_le (previous : Char) (t : Text) : numberLength previous t ≤ t.length := by
  induction t generalizing previous with
  | nil => exact Nat.le_refl 0
  | cons c t ih =>
    rw [numberLength]
    split_ifs
    · exact Nat.succ_le_succ (ih c)
    · exact Nat.zero_le _

theorem readLiteral_length_le {q : Quote} (h : readLiteral q (c :: rest) = .ok l) :
    l.length ≤ rest.length + 1 := by
  obtain ⟨value, more, -, rfl, -, rfl⟩ := readLiteral_eq_ok_iff.1 h
  simp

theorem readBlockComment_length_le (h : readBlockComment text = .ok l) :
    l.length ≤ text.length := by
  obtain ⟨first, lines, closing, more, rfl, -, -, rfl⟩ := readBlockComment_eq_ok_iff.1 h
  have hcut : first ++ Text.onLines (lines ++ closing :: more) =
      first ++ Text.onLines (lines ++ [closing]) ++ Text.onLines more := by simp
  rw [hcut]
  exact (prefix_append _ _).length_le

theorem readComment_length_le (text : Text) : (readComment text).length ≤ text.length := by
  obtain ⟨line, rest, rfl, hline, hrest⟩ := Text.exists_firstLine text
  rw [readComment_line hline hrest]
  exact (prefix_append _ _).length_le

theorem readContinuation_length_le (h : "...".toList.isPrefixOf text) :
    (readContinuation text).length ≤ text.length := by
  obtain ⟨more, rfl⟩ := isPrefixOf_iff_prefix.1 h
  obtain ⟨line, rest, rfl, hline, hrest⟩ := Text.exists_firstLine more
  have hpoints : '\n' ∉ "...".toList ++ line := by simpa using hline
  rw [← append_assoc, readContinuation_line hpoints (by simp) hrest]
  exact (prefix_append _ _).length_le

/-- A lexeme is a part of its text. -/
theorem read_length_le (h : read s c rest = .ok l) : l.length ≤ rest.length + 1 := by
  cases branch_of_read h with
  | newline _ h | transpose _ h | opening _ _ h | closing _ _ h | comma _ h | semicolon _ h =>
    cases h
    exact Nat.succ_le_succ (Nat.zero_le _)
  | block _ _ h => exact readBlockComment_length_le h
  | comment _ h =>
    cases h
    exact readComment_length_le _
  | continuation hdots h =>
    cases h
    exact readContinuation_length_le hdots
  | literal _ _ _ h => exact readLiteral_length_le h
  | number _ h =>
    cases h
    exact numberLength_le _ (c :: rest)
  | word _ h =>
    cases h
    rw [readWord_length]
    exact List.Sublist.length_le (takeWhile_sublist _)
  | operator _ _ _ h =>
    cases h
    exact length_readOperator_le c rest

/-- A lexeme that is read cuts the text in two. -/
theorem exists_cut_of_read (h : read s c rest = .ok l) :
    ∃ x after, rest = x ++ after ∧ Cut s c x after l := by
  have hle := read_length_le h
  cases hlength : l.length with
  | zero => exact absurd (by rw [hlength]; rfl) (reads_of_read h).ne_nil
  | succ n =>
    refine ⟨rest.take n, rest.drop n, (take_append_drop n rest).symm, by rwa [take_append_drop], ?_⟩
    rw [length_take]
    omega

end Lexeme

end ClassdefDoc
