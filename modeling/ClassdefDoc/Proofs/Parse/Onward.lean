import ClassdefDoc.Proofs.Parse.Parallel
import ClassdefDoc.Proofs.Parse.WellFormed
import ClassdefDoc.Proofs.Scan.Order

/-!
# Readings go on

A reading skips tokens and takes tokens, one behind another, and puts none back
(`Passes`); there is one lemma for each reading function that is part of a class
(`Read.Onward`). The lines of tokens rise (`rising_of_ahead`), so they rise from
the token taken last to those ahead wherever a reader comes (`Passes.rising`).
-/

namespace ClassdefDoc

open List
open Position (line_le_advance advance_append)

variable {ts : List Token}

/-! ## Tokens that are passed -/

/-- From the tokens `ts₀`, with `last₀` taken before, a reader comes to others: it skips
and takes tokens in their order, and looks at the last one as often as it likes. -/
inductive Passes (ts₀ : List Token) (last₀ : Option Token) : List Token → Option Token → Prop
  | start : Passes ts₀ last₀ ts₀ last₀
  | skip {t ts last} : Passes ts₀ last₀ (t :: ts) last → Passes ts₀ last₀ ts last
  | take {t ts last} : Passes ts₀ last₀ (t :: ts) last → Passes ts₀ last₀ ts (some t)
  | stay {t last} : Passes ts₀ last₀ [t] last → Passes ts₀ last₀ [t] (some t)

namespace Passes

variable {ts₀ ts us : List Token} {last₀ last last' : Option Token} {t : Token}

theorem trans (h : Passes ts₀ last₀ ts last) (h' : Passes ts last us last') : Passes ts₀ last₀ us last' := by
  induction h' with
  | start => exact h
  | skip _ ih => exact .skip ih
  | take _ ih => exact .take ih
  | stay _ ih => exact .stay ih

theorem skips (run : List Token) (h : Passes ts₀ last₀ (run ++ ts) last) : Passes ts₀ last₀ ts last := by
  induction run with
  | nil => exact h
  | cons t run ih => exact ih (.skip h)

theorem dropWhile (p : Token → Bool) (h : Passes ts₀ last₀ ts last) :
    Passes ts₀ last₀ (ts.dropWhile p) last :=
  skips (ts.takeWhile p) (by rwa [takeWhile_append_dropWhile])

/-- An expression is passed token by token. -/
theorem expression (stops : TokenKind → Bool) (depth : Nat) (ts : List Token) (last : Option Token) :
    Passes ts last (Read.expression stops depth ts).2
    ((Read.expression stops depth ts).1.getLast?.or last) := by
  induction ts generalizing depth last with
  | nil => exact .start
  | cons t ts ih =>
    obtain ⟨d, -, hskip⟩ | hstop | ⟨d, -, hkeep⟩ := Read.expression_cons stops depth t
    · rw [hskip]
      exact (Passes.skip .start).trans (ih d last)
    · rw [hstop]
      exact .start
    · have hlast : (t :: (Read.expression stops d ts).1).getLast?.or last =
          (Read.expression stops d ts).1.getLast?.or (some t) := by
        rw [getLast?_cons]
        cases (Read.expression stops d ts).1.getLast? <;> rfl
      rw [hkeep, hlast]
      exact (Passes.take .start).trans (ih d (some t))

/-- A group is passed up to the bracket that closes it. -/
theorem groupEnd {depth : Nat} {rest : List Token} (h : Read.groupEnd depth ts = .ok (t, rest)) :
    Passes ts last rest (some t) := by
  obtain ⟨past, rfl, -, -⟩ := Read.groupEnd_append h
  exact .take (skips past .start)

end Passes

/-! ## Readings that pass tokens -/

namespace Read

variable {α β : Type}

/-- A reading passes tokens and does nothing else to them. -/
def Onward (m : Read α) : Prop := ∀ ⦃r a r'⦄, m r = .ok (a, r') → Passes r.ahead r.last r'.ahead r'.last

namespace Onward

variable {m : Read α} {text what : Text} {step : Read (Option α)}

theorem pure {a : α} : Onward (Pure.pure a) := by
  rintro r _ r' ⟨⟩
  exact .start

theorem refuse {cause : Cause} {p : Position} : Onward (Read.refuse cause p : Read α) := by
  rintro r a r' ⟨⟩

theorem unexpected {t : Token} : Onward (Read.unexpected t what : Read α) :=
  fun _ _ _ hrun => absurd hrun not_unexpected

theorem bind {f : α → Read β} (hm : Onward m) (hf : ∀ a, Onward (f a)) : Onward (m >>= f) := by
  intro r b r'' hrun
  obtain ⟨a, q, hstep, hrest⟩ := bind_eq_ok_iff.1 hrun
  exact (hm hstep).trans (hf a hrest)

theorem map {f : α → β} (h : Onward m) : Onward (f <$> m) := by
  rw [map_eq_pure_bind]
  exact h.bind fun _ => pure

theorem discard (h : Onward m) : Onward (Functor.discard m) := h.map

theorem ite {c : Prop} [Decidable c] {n : Read α} (hm : Onward m) (hn : Onward n) :
    Onward (if c then m else n) := by
  split_ifs
  · exact hm
  · exact hn

theorem rounds {A : α → Prop}
    (h : ∀ ⦃r o s⦄, step r = .ok (o, s) → (∀ a, o = some a → A a) ∧ Passes r.ahead r.last s.ahead s.last)
    {r s : Reader} {as : List α} (hrun : Read.many step r = .ok (as, s)) :
    (∀ a ∈ as, A a) ∧ Passes r.ahead r.last s.ahead s.last := by
  have hround : Triple (fun q => Passes r.ahead r.last q.ahead q.last) step
      (Round A (fun q => Passes r.ahead r.last q.ahead q.last) fun q =>
        Passes r.ahead r.last q.ahead q.last) := fun q o s hq hround =>
    ⟨fun a ha => ⟨(h hround).1 a ha, hq.trans (h hround).2⟩, fun _ => hq.trans (h hround).2⟩
  exact Triple.many hround .start hrun

theorem many (h : Onward step) : Onward (many step) :=
  fun _ _ _ hrun => (rounds (A := fun _ => True) (fun _ _ _ hround => ⟨fun _ _ => trivial, h hround⟩) hrun).2

/-! ### Tokens -/

theorem peek : Onward peek := by
  intro r t r' hrun
  obtain ⟨rfl, -⟩ := of_peek hrun
  exact .start

theorem peekSecond : Onward peekSecond := by
  intro r t r' hrun
  obtain ⟨rfl, -⟩ := of_peekSecond hrun
  exact .start

theorem advance : Onward advance := by
  intro r t r' hrun
  have hsig : Passes r.ahead r.last (significant r.ahead) r.last := .dropWhile _ .start
  obtain ⟨hone, rfl⟩ | ⟨u, rest, hmore, rfl⟩ := of_advance hrun
  · rw [hone] at hsig
    exact .stay hsig
  · rw [hmore] at hsig
    exact .take hsig

theorem sees {k : TokenKind} : Onward (sees k) := peek.bind fun _ => pure

theorem lastLine : Onward lastLine := by
  intro r n r' hrun
  rw [lastLine_run] at hrun
  cases hrun
  exact .start

theorem skipLayout {record : Bool} : Onward (skipLayout record) := by
  rintro r _ r' ⟨⟩
  exact .dropWhile _ .start

theorem skipLines : Onward skipLines := by
  rintro r _ r' ⟨⟩
  exact .dropWhile _ .start

/-! ### Expressions, values and bodies -/

theorem takeExpression {stops : TokenKind → Bool} : Onward (takeExpression stops) := by
  rintro r _ r' ⟨⟩
  exact .expression stops 0 r.ahead r.last

theorem textOf {first last : Token} : Onward (textOf text first last) := by
  unfold Read.textOf
  split
  · exact pure
  · exact refuse

theorem skipGroup : Onward skipGroup := by
  intro r _ r' hrun
  rw [skipGroup_run] at hrun
  split at hrun
  · cases hrun
  · rename_i hend
    cases hrun
    exact .groupEnd hend

theorem attributeValue : Onward (attributeValue text) := by
  refine takeExpression.bind fun tokens => peek.bind fun next => ite (refuse.bind fun _ => ?_) ?_
  all_goals
    split
    · exact textOf.bind fun _ => pure
    · exact unexpected

theorem defaultValue : Onward (defaultValue text) := by
  refine peek.bind fun first => ite (unexpected.bind fun _ => ?_) ?_
  all_goals exact takeExpression.bind fun tokens => textOf

theorem body {limit : Nat} {name : Text} : Onward (body limit text name) := by
  intro r b r' hrun
  obtain ⟨tokens, close, rest, pieces, hsplit, -, -, rfl⟩ := body_eq_ok_iff.1 hrun
  have hskip : Passes r.ahead r.last (close :: rest) r.last := by
    rw [(Body.splitAtEnd_append hsplit).1]
    exact .skips tokens .start
  exact .take hskip

/-! ### Other readings -/

/-- A reading that is put in parallel with any other one passes tokens. -/
def parallel (text : Text) : Parallel where
  text := text
  text' := text
  Rel x _ A := ∀ ⦃r a s⦄, x r = .ok (a, s) → (∃ a', A a a') ∧ Passes r.ahead r.last s.ahead s.last
  token := Eq
  reader := Eq
  line _ _ := True
  value := Eq
  item := Eq
  part _ _ := True
  body _ _ := True
  member _ _ := True
  rel_pure h := by
    rintro r _ s ⟨⟩
    exact ⟨⟨_, h⟩, .start⟩
  rel_bind hx hf r b s hrun := by
    obtain ⟨a, q, hstep, hrest⟩ := bind_eq_ok_iff.1 hrun
    obtain ⟨⟨a', ha⟩, hpasses⟩ := hx hstep
    exact (hf a a' ha hrest).imp_right hpasses.trans
  rel_many {_ A _ _} h r as s hrun := by
    refine (rounds (A := fun a => ∃ a', A a a') (fun r o s hround => ⟨?_, (h hround).2⟩) hrun).imp_left
      fun has => ?_
    · rintro a rfl
      obtain ⟨⟨_, ⟨ha⟩⟩, -⟩ := h hround
      exact ⟨_, ha⟩
    · clear hrun
      induction as with
      | nil => exact ⟨[], .nil⟩
      | cons a as ih =>
        obtain ⟨⟨a', ha⟩, has⟩ := forall_mem_cons.1 has
        obtain ⟨as', has'⟩ := ih has
        exact ⟨a' :: as', .cons ha has'⟩
  rel_refuse _ _ := by rintro r a s ⟨⟩
  kind h := h ▸ .same _
  wordAfterLines h := h ▸ rfl
  get := by
    rintro r _ s ⟨⟩
    exact ⟨⟨_, rfl⟩, .start⟩
  peek _ _ _ hrun := ⟨⟨_, rfl⟩, peek hrun⟩
  peekSecond _ _ _ hrun := ⟨⟨_, rfl⟩, peekSecond hrun⟩
  advance _ _ _ hrun := ⟨⟨_, rfl⟩, advance hrun⟩
  skipLines _ _ _ hrun := ⟨⟨_, rfl⟩, skipLines hrun⟩
  skipLayout _ _ _ _ hrun := ⟨⟨_, rfl⟩, skipLayout hrun⟩
  lastLine _ _ _ hrun := ⟨⟨0, trivial⟩, lastLine hrun⟩
  skipGroup _ _ _ hrun := ⟨⟨_, rfl⟩, skipGroup hrun⟩
  attributeValue _ _ _ hrun := ⟨⟨_, rfl⟩, attributeValue hrun⟩
  defaultValue _ _ _ hrun := ⟨⟨[], trivial⟩, defaultValue hrun⟩
  bodies _ _ _ b _ hrun := ⟨⟨b, trivial⟩, body hrun⟩
  flag := AttributeValue.flag_rfl
  item_mk ht hv := ht ▸ hv ▸ rfl
  name_eq h := h ▸ rfl
  asserted_eq h := h ▸ rfl
  property_mk _ _ _ := trivial
  event_mk _ _ := trivial
  method_mk _ _ _ := trivial

theorem of_parallel {x x' : Read α} {A : α → α → Prop} (h : (parallel text).Rel x x' A) : Onward x :=
  fun _ _ _ hrun => (h hrun).2

theorem endStatement : Onward endStatement := of_parallel (parallel []).endStatement

theorem endHeader : Onward endHeader := of_parallel (parallel []).endHeader

theorem segment : Onward (Read.segment what) := of_parallel (parallel []).segment

theorem names {b : Bracket} {ignored : Bool} :
    Onward (names b ignored what) := of_parallel (parallel []).names

theorem returnNames : Onward returnNames := of_parallel (parallel []).returnNames

theorem attributeItem? : Onward (attributeItem? text) := of_parallel (parallel text).attributeItem?

theorem attributes : Onward (attributes text) := of_parallel (parallel text).attributes

theorem propertyType : Onward propertyType := of_parallel (parallel []).propertyType

theorem classHead : Onward (classHead text) :=
  of_parallel ((parallel text).classHead (C := fun _ _ => True) fun _ _ _ _ _ _ _ _ _ _ _ _ _ _ => trivial)

end Onward

end Read

/-! ## Lines -/

/-- The line on which a token ends. -/
def Token.lastLine (t : Token) : Nat := max t.span.stop.line t.span.start.line

/-- Each token starts on the line on which one before it ends, or below; the last token stays on its line. -/
structure Rising (ts : List Token) (last : Option Token) : Prop where
  pairwise : (last.toList ++ ts).Pairwise fun a b => a.lastLine ≤ b.line
  stop : ∀ e, ts.getLast? = some e → e.lastLine ≤ e.line

namespace Passes

variable {ts₀ ts : List Token} {last₀ last : Option Token}

section

variable (h : Passes ts₀ last₀ ts last) {n : Nat}
include h

theorem suffix : ts <:+ ts₀ := by
  induction h with
  | start => exact suffix_rfl
  | skip _ ih | take _ ih => exact (suffix_cons _ _).trans ih
  | stay _ ih => exact ih

/-- What is ahead stays below a line. -/
theorem above (hn : ∀ t ∈ ts₀, n ≤ t.line) : ∀ t ∈ ts, n ≤ t.line :=
  fun t ht => hn t (h.suffix.subset ht)

theorem rising (hrising : Rising ts₀ last₀) : Rising ts last := by
  have hstop : ∀ e, ts.getLast? = some e → e.lastLine ≤ e.line := by
    intro e he
    obtain ⟨run, rfl⟩ := h.suffix
    refine hrising.stop e ?_
    rw [getLast?_append, he]
    rfl
  refine ⟨?_, hstop⟩
  clear hstop
  induction h with
  | start => exact hrising.pairwise
  | @skip t ts last _ ih => exact ih.sublist ((sublist_cons_self t ts).append_left last.toList)
  | @take t ts last _ ih => exact ih.sublist (sublist_append_right last.toList (t :: ts))
  | @stay t last h _ =>
    obtain ⟨run, rfl⟩ := h.suffix
    have hline := hrising.stop t (by simp)
    simpa using hline

/-- Behind a token that ends on the line `n` or below, so does the token taken last. -/
theorem reached (hn : ∀ t ∈ ts₀, n ≤ t.line)
    (hlast : ∃ t, last₀ = some t ∧ n ≤ t.lastLine) : ∃ t, last = some t ∧ n ≤ t.lastLine := by
  have below {t : Token} {ts : List Token} {last : Option Token} (h : Passes ts₀ last₀ (t :: ts) last) :
      n ≤ t.lastLine :=
    (h.above hn t mem_cons_self).trans (le_max_right _ _)
  induction h with
  | start => exact hlast
  | skip _ ih => exact ih
  | take h _ => exact ⟨_, rfl, below h⟩
  | stay h _ => exact ⟨_, rfl, below h⟩

end

end Passes

/-- The tokens of a scanner start at its place or below, and rise. -/
theorem Scanner.Yields.rising {s : Scanner} (h : s.Yields ts) {past ahead : Text}
    (hs : s.cursor = .between past ahead) :
    (∀ t ∈ ts, (Position.start.advance past).line ≤ t.line) ∧ Rising ts none := by
  induction h generalizing past ahead with
  | done hdone =>
    obtain ⟨-, rfl, -⟩ := ended_of_step hs hdone
    have hline := line_le_advance (Position.start.advance past) ahead
    rw [← advance_append] at hline
    refine ⟨by simpa [Token.line, tokenAt] using hline, by simp, ?_⟩
    simp [Token.lastLine, Token.line, tokenAt]
  | @item s t s' ts hstep hrest ih =>
    obtain ⟨gap, lexeme, hidden, rest, rfl, htook⟩ := took_of_step hs hstep
    obtain ⟨hbelow, hrising⟩ := ih htook.cursor_eq
    simp only [advance_append] at hbelow
    have hgap := line_le_advance (Position.start.advance past) gap
    have hlexeme := line_le_advance ((Position.start.advance past).advance gap) lexeme
    have hhidden := line_le_advance (((Position.start.advance past).advance gap).advance lexeme) hidden
    have hfirst : t.line = ((Position.start.advance past).advance gap).line := by
      rw [Token.line, htook.token_eq, tokenAt, advance_append]
    have hlast : t.lastLine = (((Position.start.advance past).advance gap).advance lexeme).line := by
      rw [Token.lastLine, htook.token_eq, tokenAt]
      simp only [advance_append]
      omega
    refine ⟨forall_mem_cons.2 ⟨by omega, fun u hu => ?_⟩, .cons (fun u hu => ?_) hrising.pairwise,
      fun e he => ?_⟩
    · have := hbelow u hu
      omega
    · have := hbelow u hu
      omega
    · cases hrest with
      | done => exact hrising.stop e he
      | item => exact hrising.stop e he

theorem rising_of_ahead {text : Text} {stack : List Bracket} (h : Ahead text stack ts) : Rising ts none := by
  obtain ⟨n, past, s, hpast, -, -, hyields⟩ := h
  obtain ⟨before, ahead, hcursor, -⟩ := (Scanner.over_start text).of_chain hpast
  exact (hyields.rising hcursor).2

end ClassdefDoc
