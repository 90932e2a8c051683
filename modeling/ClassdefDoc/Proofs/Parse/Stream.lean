import ClassdefDoc.Proofs.Parse.DefaultValue
import ClassdefDoc.Proofs.Parse.Twin

/-!
# Readings of a token stream

A `TokenStream` is a list of tokens that lie in a text one behind another and end
at the end of file. Its brackets need not be balanced and tokens may be missing,
so that the start of a stream, closed by an end of file, is a stream again.

`Read.Triple` speaks of readings that succeed. `Read.Answers ts P m Q` speaks also of those that fail: they
refuse a token of `ts`, and never because the tokens and the text do not fit each other. `Read.Inside text ts
p n` is what readings keep: at most `n` tokens are ahead, at least one is, and the token taken last, which
there is if `p`, does not reach into them. A `Read.Safe` reading keeps that. If it takes a token it comes
from `n` to `n - 1`, and a repetition stays within its budget if each of its rounds does (`Safe.many`).
-/

namespace ClassdefDoc

open List

variable {text : Text}

/-! ## Offsets -/

/-- The offset `n` lies between two characters of `text`, or at one of its ends. -/
def Text.IsOffset (text : Text) (n : Nat) : Prop :=
  ∃ before after, text = before ++ after ∧ n = Text.bytes before

theorem Text.exists_slice {m n : Nat} (hm : text.IsOffset m) (hn : text.IsOffset n) (h : m ≤ n) :
    ∃ part, text.slice? m n = some part := by
  obtain ⟨a, b, rfl, rfl⟩ := hm
  obtain ⟨a', b', htext, rfl⟩ := hn
  obtain ⟨part, rfl, rfl⟩ := Text.exists_append_of_bytes_le htext h
  exact ⟨part, Text.slice?_of_eq (by rw [append_assoc]) rfl rfl⟩

theorem Token.offset_le_endOffset (t : Token) : t.offset ≤ t.endOffset := Nat.le_add_right _ _

/-! ## Token streams -/

/-- The tokens lie in `text` one behind another, and the last one is an end of file. -/
structure TokenStream (text : Text) (ts : List Token) : Prop where
  cut : ∀ t ∈ ts, ∃ before after, text = before ++ t.lexeme ++ after ∧ t.Stands before
  ordered : ts.Pairwise fun a b => a.endOffset ≤ b.offset
  last : ∃ e, ts.getLast? = some e ∧ e.kind = .eof ∧ e.lexeme = []

namespace TokenStream

variable {text : Text} {ts us rest : List Token} {t : Token}

section

variable (h : TokenStream text ts)
include h

theorem isOffset_offset (ht : t ∈ ts) : text.IsOffset t.offset := by
  obtain ⟨before, after, htext, hstands⟩ := h.cut t ht
  exact ⟨before, t.lexeme ++ after, by rw [htext, append_assoc], hstands.offset⟩

theorem isOffset_endOffset (ht : t ∈ ts) : text.IsOffset t.endOffset := by
  obtain ⟨before, after, htext, hstands⟩ := h.cut t ht
  exact ⟨before ++ t.lexeme, after, htext, hstands.endOffset⟩

/-- Something follows every token but the end of file. -/
theorem tail_ne_nil (hsuffix : t :: rest <:+ ts) (ht : t.kind ≠ .eof) : rest ≠ [] := by
  rintro rfl
  obtain ⟨past, rfl⟩ := hsuffix
  obtain ⟨e, he, hkind, -⟩ := h.last
  rw [getLast?_concat] at he
  exact ht (Option.some.inj he ▸ hkind)

theorem dropWhile_ne_nil {p : TokenKind → Bool} (hp : p .eof = false) (hsuffix : us <:+ ts) (hne : us ≠ []) :
    us.dropWhile (p ·.kind) ≠ [] := by
  induction us with
  | nil => exact hne
  | cons t us ih =>
    rw [dropWhile_cons]
    split_ifs with ht
    · have hkind : t.kind ≠ .eof := by
        intro heof
        rw [heof, hp] at ht
        cases ht
      exact ih ((suffix_cons t us).trans hsuffix) (h.tail_ne_nil hsuffix hkind)
    · exact hne

/-- The text from the first of some tokens to the end of any of them. -/
theorem exists_slice {first : Token} (hsub : List.Sublist (first :: rest) ts) (ht : t ∈ first :: rest) :
    ∃ part, text.slice? first.offset t.endOffset = some part := by
  refine Text.exists_slice (h.isOffset_offset (hsub.subset mem_cons_self))
    (h.isOffset_endOffset (hsub.subset ht)) ?_
  rcases mem_cons.1 ht with rfl | ht
  · exact t.offset_le_endOffset
  · calc first.offset ≤ first.endOffset := first.offset_le_endOffset
      _ ≤ t.offset := rel_of_pairwise_cons (h.ordered.sublist hsub) ht
      _ ≤ t.endOffset := t.offset_le_endOffset

/-- A stream that is cut off anywhere and closed by its end of file is a stream. -/
theorem take {e : Token} (he : ts.getLast? = some e) (k : Nat) : TokenStream text (ts.take k ++ [e]) := by
  obtain ⟨e', he', hkind, hlexeme⟩ := h.last
  obtain rfl := Option.some.inj (he'.symm.trans he)
  have hmem : ∀ t ∈ ts.take k ++ [e'], t ∈ ts := by
    intro t ht
    rcases mem_append.1 ht with ht | ht
    · exact mem_of_mem_take ht
    · rw [mem_singleton.1 ht]
      exact mem_of_getLast? he
  refine ⟨fun t ht => h.cut t (hmem t ht),
    pairwise_append.2 ⟨?_, pairwise_singleton _ _, fun t ht u hu => ?_⟩, e', getLast?_concat, hkind, hlexeme⟩
  · exact h.ordered.sublist (take_sublist k ts)
  · rw [mem_singleton.1 hu]
    obtain ⟨init, rfl⟩ := getLast?_eq_some_iff.1 he
    rcases mem_append.1 (mem_of_mem_take ht) with ht | ht
    · exact (pairwise_append.1 h.ordered).2.2 t ht e' (mem_singleton_self e')
    · -- the end of file is left in and stands behind itself
      rw [mem_singleton.1 ht, Token.endOffset, hlexeme]
      exact Nat.le_refl _

end

end TokenStream

theorem tokenStream_of_scan {tokens : List Token} (h : scan text = .ok tokens) :
    TokenStream text tokens where
  cut t ht := by
    obtain ⟨before, after, htext, hstands, -⟩ := (laid_of_scan h).exists_cut rfl t ht
    exact ⟨before, after, htext, hstands⟩
  ordered := (laid_of_scan h).pairwise.imp And.right
  last := by
    obtain ⟨init, e, rfl, hkind, hlexeme, -⟩ := (laid_of_scan h).exists_init
    exact ⟨e, getLast?_concat, hkind, hlexeme⟩

/-- The position is the start of a token. -/
def Position.AtToken (ts : List Token) (p : Position) : Prop := ∃ t ∈ ts, p = t.span.start

/-- A fault that stands at a token and is not one of the tokens themselves. -/
structure Fault.StandsAt (ts : List Token) (f : Fault) : Prop where
  cause : ∀ b, f.cause ≠ .broken b
  position : f.position.AtToken ts

namespace Read

variable {α β : Type} {text : Text} {ts us rest past : List Token}
  {t : Token} {p q : Prop} {n m : Nat} {r : Reader}

/-! ## Readers inside a stream -/

/-- The reader stands in a stream of `text`, with at most `n` tokens ahead. -/
structure Inside (text : Text) (ts : List Token) (p : Prop) (n : Nat) (r : Reader) : Prop where
  stream : TokenStream text ts
  suffix : r.ahead <:+ ts
  ne_nil : r.ahead ≠ []
  length : r.ahead.length ≤ n
  behind : ∀ t, r.last = some t → t ∈ ts ∧ ∀ u ∈ r.ahead, t.endOffset ≤ u.offset
  taken : p → ∃ t, r.last = some t

namespace Inside

theorem le (h : Inside text ts p m r) (hle : m ≤ n) :
    Inside text ts p n r := { h with length := h.length.trans hle }

theorem weak (h : Inside text ts p (n - 1) r) : Inside text ts p n r := h.le (Nat.sub_le n 1)

section

variable (h : Inside text ts p n r)
include h

/-- Some tokens are passed and none is taken. -/
theorem skip (hsuffix : us <:+ r.ahead) (hne : us ≠ []) (comments : List LooseComment) :
    Inside text ts p n ⟨us, r.last, comments⟩ where
  stream := h.stream
  suffix := hsuffix.trans h.suffix
  ne_nil := hne
  length := hsuffix.length_le.trans h.length
  behind t ht := ⟨(h.behind t ht).1, fun u hu => (h.behind t ht).2 u (hsuffix.subset hu)⟩
  taken := h.taken

theorem dropWhile {q : TokenKind → Bool} (hq : q .eof = false) (comments : List LooseComment) :
    Inside text ts p n ⟨r.ahead.dropWhile (q ·.kind), r.last, comments⟩ :=
  h.skip (dropWhile_suffix _) (h.stream.dropWhile_ne_nil hq h.suffix h.ne_nil) comments

/-- The token `t` is taken. -/
theorem take (hahead : r.ahead = past ++ t :: rest) (hrest : rest ≠ []) :
    Inside text ts q (n - 1) { r with ahead := rest, last := some t } := by
  have hsuffix : t :: rest <:+ ts := (suffix_append past _).trans (hahead ▸ h.suffix)
  refine ⟨h.stream, (suffix_cons t rest).trans hsuffix, hrest, ?_, ?_, fun _ => ⟨t, rfl⟩⟩
  · have hlength := h.length
    rw [hahead, length_append, length_cons] at hlength
    show rest.length ≤ n - 1
    omega
  · rintro _ ⟨⟩
    exact ⟨hsuffix.subset mem_cons_self,
      fun u hu => rel_of_pairwise_cons (h.stream.ordered.sublist hsuffix.sublist) hu⟩

/-- There is a next token, and it is one of the stream. -/
theorem exists_sees : ∃ t rest, significant r.ahead = t :: rest ∧ t :: rest <:+ ts := by
  obtain ⟨t, rest, hrest⟩ := exists_cons_of_ne_nil
    (h.stream.dropWhile_ne_nil (p := TokenKind.isContinuation) rfl h.suffix h.ne_nil)
  exact ⟨t, rest, hrest, hrest ▸ (dropWhile_suffix _).trans h.suffix⟩

end

end Inside

/-! ## Readings that answer -/

variable {P P' : Reader → Prop} {Q Q' : α → Reader → Prop} {x : Read α} {f : α → Read β}

/-- A reading that starts with `P` ends with `Q`, or it fails with a fault that stands at a token of `ts`. -/
structure Answers (ts : List Token) (P : Reader → Prop) (x : Read α) (Q : α → Reader → Prop) : Prop where
  triple : Triple P x Q
  standsAt : ∀ ⦃r f⦄, P r → x r = .error f → f.StandsAt ts

namespace Answers

variable {R : β → Reader → Prop}

theorem of_run (h : ∀ r, P r → (∃ a r', x r = .ok (a, r') ∧ Q a r') ∨ ∃ f, x r = .error f ∧ f.StandsAt ts) :
    Answers ts P x Q := by
  refine ⟨fun r a r' hr hrun => ?_, fun r f hr hrun => ?_⟩
  · obtain ⟨b, s, hok, hQ⟩ | ⟨e, herror, -⟩ := h r hr
    · cases hok.symm.trans hrun
      exact hQ
    · cases herror.symm.trans hrun
  · obtain ⟨b, s, hok, -⟩ | ⟨e, herror, he⟩ := h r hr
    · cases hok.symm.trans hrun
    · cases herror.symm.trans hrun
      exact he

theorem of_ok (h : ∀ r, P r → ∃ a r', x r = .ok (a, r') ∧ Q a r') :
    Answers ts P x Q := of_run fun r hr => .inl (h r hr)

theorem pure {A : α → Prop} {a : α} (h : A a) :
    Answers ts P (Pure.pure a) fun a r => A a ∧ P r := of_ok fun r hr => ⟨a, r, rfl, h, hr⟩

theorem bind (hx : Answers ts P x Q) (hf : ∀ a, Answers ts (Q a) (f a) R) : Answers ts P (x >>= f) R := by
  refine ⟨hx.triple.bind fun a => (hf a).triple, fun r e hr hrun => ?_⟩
  change (x r >>= fun y => f y.1 y.2) = _ at hrun
  cases hstep : x r with
  | error e' =>
    rw [hstep] at hrun
    cases hrun
    exact hx.standsAt hr hstep
  | ok y =>
    rw [hstep] at hrun
    exact (hf y.1).standsAt (hx.triple hr hstep) hrun

theorem refuse {cause : Cause} (ht : t ∈ ts) (hcause : ∀ b, cause ≠ .broken b := by rintro _ ⟨⟩) :
    Answers ts P (Read.refuse cause t.span.start) Q :=
  ⟨.refuse, by rintro r f - ⟨⟩; exact ⟨hcause, t, ht, rfl⟩⟩

theorem unexpected {what : Text} (ht : t ∈ ts) : Answers ts P (Read.unexpected t what) Q := by
  unfold Read.unexpected
  split <;> exact refuse ht

theorem pure_bind {a : α} (hf : Answers ts P (f a) R) : Answers ts P (Pure.pure a >>= f) R := by
  rwa [LawfulMonad.pure_bind]

/-- What follows a refusal is never read. -/
theorem bind_of_refused (hx : Answers ts P x fun _ _ => False) : Answers ts P (x >>= f) R :=
  hx.bind fun _ => ⟨fun _ _ _ hr => hr.elim, fun _ _ hr => hr.elim⟩

theorem ite {c : Prop} [Decidable c] {y : Read α} (hx : c → Answers ts P x Q) (hy : ¬c → Answers ts P y Q) :
    Answers ts P (if c then x else y) Q := by
  split_ifs with h
  · exact hx h
  · exact hy h

theorem weaken (h : Answers ts P x Q) (hP : ∀ r, P' r → P r) (hQ : ∀ a r, Q a r → Q' a r) :
    Answers ts P' x Q' :=
  ⟨h.triple.weaken hP hQ, fun _ _ hr hrun => h.standsAt (hP _ hr) hrun⟩

theorem mono (h : Answers ts P x Q) (hQ : ∀ a r, Q a r → Q' a r) :
    Answers ts P x Q' := h.weaken (fun _ hr => hr) hQ

theorem pre (h : Answers ts P x Q) (hP : ∀ r, P' r → P r) : Answers ts P' x Q := h.weaken hP fun _ _ hQ => hQ

theorem map {g : α → β} (hx : Answers ts P x Q) (hR : ∀ a r, Q a r → R (g a) r) :
    Answers ts P (g <$> x) R := by
  rw [map_eq_pure_bind]
  exact hx.bind fun a => .of_ok fun r hr => ⟨_, r, rfl, hR a r hr⟩

theorem assume (h : q → Answers ts P x Q) : Answers ts (fun r => q ∧ P r) x Q :=
  ⟨.assume fun hq => (h hq).triple, fun _ _ hr hrun => (h hr.1).standsAt hr.2 hrun⟩

end Answers

/-! ## Readings that keep inside -/

variable {A : α → Prop}

/-- A reading inside a stream that leaves at most `m` of `n` tokens ahead and gives a value with `A`. -/
abbrev Safe (text : Text) (ts : List Token) (p : Prop) (n m : Nat) (A : α → Prop) (x : Read α) : Prop :=
  Answers ts (Inside text ts p n) x fun a r => A a ∧ Inside text ts p m r

/-- A round of a repetition, which takes a token if it gives an item. -/
abbrev SafeRound (text : Text) (ts : List Token) (p : Prop) (n : Nat)
    (A : α → Prop) (x : Read (Option α)) : Prop :=
  Answers ts (Inside text ts p n) x (Round A (Inside text ts p (n - 1)) (Inside text ts p n))

theorem Answers.some_map (hx : Answers ts P x fun a r => A a ∧ Inside text ts p (n - 1) r) :
    Answers ts P (some <$> x) (Round A (Inside text ts p (n - 1)) (Inside text ts p n)) :=
  hx.map fun _ _ h => .some h.1 h.2

namespace Safe

section

variable (hx : Safe text ts p n m A x)
include hx

theorem bind {R : β → Reader → Prop} (hf : ∀ a, A a → Answers ts (Inside text ts p m) (f a) R) :
    Answers ts (Inside text ts p n) (x >>= f) R :=
  Answers.bind hx fun a => .assume (hf a)

theorem map {g : α → β} : Safe text ts p n m (fun _ => True) (g <$> x) :=
  Answers.map hx fun _ _ h => ⟨trivial, h.2⟩

theorem discard : Safe text ts p n m (fun _ => True) (Functor.discard x) :=
  hx.map

end

theorem weak (hx : Safe text ts p n (m - 1) A x) :
    Safe text ts p n m A x := hx.mono fun _ _ hr => ⟨hr.1, hr.2.weak⟩

/-- A repetition comes to its end: each round takes a token, so that the budget is not used up. -/
theorem many {step : Read (Option α)} (h : ∀ n, SafeRound text ts p n A step) :
    Safe text ts p n n (∀ a ∈ ·, A a) (many step) := by
  constructor
  · refine Triple.many ((h n).triple.mono fun o r hround => ⟨fun a ha => ?_, hround.stop⟩)
    exact ⟨(hround.item a ha).1, (hround.item a ha).2.weak⟩
  · intro r f hr hrun
    rw [Read.many] at hrun
    generalize hbudget : r.ahead.length + 1 = budget at hrun
    replace hbudget : r.ahead.length < budget := by omega
    induction budget generalizing r with
    | zero => omega
    | succ budget ih =>
      -- the bound on the tokens ahead is taken as sharp as it can be
      have hsharp : Inside text ts p r.ahead.length r := { hr with length := le_rfl }
      rw [collect] at hrun
      cases hstep : step r with
      | error e =>
        simp only [hstep] at hrun
        cases hrun
        exact (h _).standsAt hr hstep
      | ok y =>
        obtain ⟨_ | a, next⟩ := y
        · simp [hstep] at hrun
        · simp only [hstep] at hrun
          have hnext := (((h _).triple hsharp hstep).item a rfl).2
          have hlength := length_pos_of_ne_nil hr.ne_nil
          split at hrun
          · rename_i hrest
            cases hrun
            exact ih (hnext.le (by have := hr.length; omega)) hrest (by have := hnext.length; omega)
          · cases hrun

end Safe

theorem SafeRound.item {a : α} (h : A a) : Answers ts (Inside text ts p (n - 1)) (Pure.pure (some a))
    (Round A (Inside text ts p (n - 1)) (Inside text ts p n)) :=
  .of_ok fun r hr => ⟨_, r, rfl, .some h hr⟩

theorem SafeRound.stop : SafeRound text ts p n A (Pure.pure none) := .of_ok fun r hr => ⟨_, r, rfl, .none hr⟩

end Read

end ClassdefDoc
