import ClassdefDoc.Class.Body
import ClassdefDoc.Proofs.Collect

/-!
# Triples of readings

`peek_run` and `advance_run` say what the basic readings do. `Read.Triple P m Q` says that a reading `m` which
starts in a reader with `P` and succeeds gives a value and a reader with `Q`. There is one rule for each way
to put readings together; `Triple.many` is the rule for repetition, where the precondition is the invariant.
-/

namespace ClassdefDoc

open Body

variable {r' s : Reader} {u : Token} {what : Text} {cause : Cause} {p : Position} {c : Prop}

/-- Where the code of a body starts: behind its documentation, or else behind the token taken last. -/
def Body.start (tokens : List Token) (last : Option Token) (close : Token) : Nat :=
  (((tokens.take (docLength none tokens)).getLast?.or last).map Token.endOffset).getD close.offset

namespace Read

variable {α β : Type} {I R : Reader → Prop} {a : α} {r : Reader} {rest : List Token} {t : Token}

/-- One more segment of a dotted name, or nothing. -/
abbrev segment (what : Text) : Read (Option Text) := do
  if ← sees (.operator .dot) then
    discard advance
    let (_, segment) ← expectIdentifier what
    pure (some segment)
  else pure none

theorem significant_cons (ht : t.kind.isContinuation = false) (ts : List Token) :
    significant (t :: ts) = t :: ts :=
  List.dropWhile_cons_of_neg (by simp [ht])

theorem significant_append {c : List Token} (hc : ∀ u ∈ c, u.kind.isContinuation)
    (ht : t.kind.isContinuation = false) : significant (c ++ t :: ts) = t :: ts := by
  rw [significant, List.dropWhile_append_of_pos hc]
  exact significant_cons ht ts

theorem peek_run (r : Reader) : peek r = match significant r.ahead with
    | t :: _ => .ok (t, r)
    | [] => .error ⟨.broken .tokens, .start⟩ := by
  show (match significant r.ahead with
    | t :: _ => Pure.pure t
    | [] => refuse (.broken .tokens) .start : Read Token) r = _
  cases significant r.ahead <;> rfl

theorem peekSecond_run (r : Reader) : peekSecond r = match significant r.ahead with
    | t :: rest => .ok ((significant rest).headD t, r)
    | [] => .error ⟨.broken .tokens, .start⟩ := by
  show (match significant r.ahead with
    | t :: rest => Pure.pure ((significant rest).headD t)
    | [] => refuse (.broken .tokens) .start : Read Token) r = _
  cases significant r.ahead <;> rfl

theorem advance_run (r : Reader) : advance r = match significant r.ahead with
    | [] => .error ⟨.broken .tokens, .start⟩
    | [t] => .ok (t, { r with ahead := [t], last := some t })
    | t :: rest => .ok (t, { r with ahead := rest, last := some t }) := by
  show (match significant r.ahead with
    | [] => refuse (.broken .tokens) .start
    | [t] => (do set { r with ahead := [t], last := some t }; Pure.pure t)
    | t :: rest => (do set { r with ahead := rest, last := some t }; Pure.pure t) : Read Token) r = _
  rcases significant r.ahead with _ | ⟨t, _ | ⟨u, rest⟩⟩ <;> rfl

theorem bind_eq {m : Read α} {f : α → Read β} (h : m r = .ok (a, r')) : (m >>= f) r = f a r' := by
  show (m r >>= fun x => f x.1 x.2) = _
  rw [h]
  rfl

theorem bind_eq_ok_iff {x : Read α} {f : α → Read β} {b : β} :
    (x >>= f) r = .ok (b, s) ↔ ∃ a q, x r = .ok (a, q) ∧ f a q = .ok (b, s) := by
  show (x r >>= fun y => f y.1 y.2) = _ ↔ _
  cases x r with
  | error e =>
    constructor
    · rintro ⟨⟩
    · rintro ⟨a, q, ⟨⟩, -⟩
  | ok y =>
    constructor
    · exact fun h => ⟨y.1, y.2, rfl, h⟩
    · rintro ⟨a, q, ⟨⟩, h⟩
      exact h

theorem map_eq {m : Read α} {f : α → β} (h : m r = .ok (a, r')) : (f <$> m) r = .ok (f a, r') := by
  rw [map_eq_pure_bind, bind_eq h]
  rfl

theorem of_map {m : Read α} {f : α → β} {b : β} (h : (f <$> m) r = .ok (b, s)) :
    ∃ a, b = f a ∧ m r = .ok (a, s) := by
  rw [map_eq_pure_bind] at h
  obtain ⟨a, q, hm, ⟨⟩⟩ := bind_eq_ok_iff.1 h
  exact ⟨a, rfl, hm⟩

theorem of_discard {m : Read α} {u : Unit} (h : discard m r = .ok (u, s)) : ∃ a, m r = .ok (a, s) := by
  obtain ⟨a, -, hm⟩ := of_map (f := Function.const α ()) h
  exact ⟨a, hm⟩

/-- The next token of the reader is `t`. -/
def Sees (t : Token) (r : Reader) : Prop := (significant r.ahead).head? = some t

theorem sees_of_ahead (h : r.ahead = t :: rest) (ht : t.kind.isContinuation = false) : Sees t r := by
  rw [Sees, h, significant_cons ht]
  rfl

theorem peek_eq (h : (significant r.ahead).head? = some t) : peek r = .ok (t, r) := by
  obtain ⟨rest, hrest⟩ := List.head?_eq_some_iff.1 h
  rw [peek_run, hrest]

theorem of_peek (h : peek r = .ok (t, s)) : s = r ∧ Sees t r := by
  rw [peek_run] at h
  split at h
  · rename_i hahead
    cases h
    exact ⟨rfl, by rw [Sees, hahead]; rfl⟩
  · cases h

theorem of_peekSecond (h : peekSecond r = .ok (t, s)) :
    s = r ∧ ∃ u rest, significant r.ahead = u :: rest ∧ t = (significant rest).headD u := by
  rw [peekSecond_run] at h
  split at h
  · cases h
    exact ⟨rfl, _, _, ‹_›, rfl⟩
  · cases h

/-- A token is taken, or the last one is looked at. -/
theorem of_advance (h : advance r = .ok (t, s)) :
    (significant r.ahead = [t] ∧ s = { r with ahead := [t], last := some t }) ∨
      ∃ u rest, significant r.ahead = t :: u :: rest ∧ s = { r with ahead := u :: rest, last := some t } := by
  rw [advance_run] at h
  rcases hahead : significant r.ahead with _ | ⟨v, _ | ⟨u, rest⟩⟩ <;> rw [hahead] at h <;> cases h
  · exact .inl ⟨rfl, rfl⟩
  · exact .inr ⟨u, rest, rfl, rfl⟩

theorem advance_eq (h : significant r.ahead = t :: u :: rest) :
    advance r = .ok (t, { r with ahead := u :: rest, last := some t }) := by
  rw [advance_run, h]

/-- The next token is taken if others follow it. -/
theorem advance_of_ahead (h : r.ahead = t :: rest) (ht : t.kind.isContinuation = false) (hrest : rest ≠ []) :
    advance r = .ok (t, { r with ahead := rest, last := some t }) := by
  obtain ⟨u, us, rfl⟩ := List.exists_cons_of_ne_nil hrest
  exact advance_eq (by rw [h, significant_cons ht])

/-- The token that is taken is the next one. -/
theorem advance_last (h : advance r = .ok (t, s)) : Sees t r ∧ s.last = some t := by
  obtain ⟨hone, rfl⟩ | ⟨u, rest, hmore, rfl⟩ := of_advance h
  · exact ⟨by rw [Sees, hone]; rfl, rfl⟩
  · exact ⟨by rw [Sees, hmore]; rfl, rfl⟩

theorem lastLine_run (r : Reader) : lastLine r =
    .ok ((r.last.map fun t => max t.span.stop.line t.span.start.line).getD 1, r) := by
  obtain ⟨ahead, last, comments⟩ := r
  cases last <;> rfl

theorem body_run (limit : Nat) (text name : Text) (r : Reader) : body limit text name r =
    splitAtEnd limit name 0 r.ahead >>= fun x =>
      match cut text x.2.1.offset (start x.1 r.last x.2.1) (x.1.drop (Body.docLength none x.1)) with
      | none => .error ⟨.broken .slice, x.2.1.span.start⟩
      | some pieces => .ok (⟨docOf (x.1.take (Body.docLength none x.1)), joinCode pieces⟩,
          { r with ahead := x.2.2, last := some x.2.1 }) := by
  have hget : (get : Read Reader) r = .ok (r, r) := rfl
  rw [body, bind_eq hget]
  cases splitAtEnd limit name 0 r.ahead with
  | error f => rfl
  | ok x =>
    have hlift : (liftM (Except.ok x : Except Fault _) : Read _) r = .ok (x, r) := rfl
    rw [bind_eq hlift]
    simp only [bind, Except.bind, List.length_take, ← List.drop_eq_drop_min, start]
    generalize cut _ _ _ _ = o
    cases o <;> rfl

theorem body_eq_ok_iff {limit : Nat} {text name : Text} {b : Body} : body limit text name r = .ok (b, s) ↔
    ∃ tokens close rest pieces, splitAtEnd limit name 0 r.ahead = .ok (tokens, close, rest) ∧
      cut text close.offset (start tokens r.last close) (tokens.drop (Body.docLength none tokens)) =
      some pieces ∧
      b = ⟨docOf (tokens.take (Body.docLength none tokens)), joinCode pieces⟩ ∧
      s = { r with ahead := rest, last := some close } := by
  rw [body_run]
  constructor
  · intro h
    obtain ⟨⟨tokens, close, rest⟩, hsplit, h⟩ := of_bind_eq_ok h
    split at h
    · cases h
    · cases h
      exact ⟨tokens, close, rest, _, hsplit, ‹_›, rfl, rfl⟩
  · rintro ⟨tokens, close, rest, pieces, hsplit, hcut, rfl, rfl⟩
    simp only [hsplit, bind, Except.bind, hcut]

theorem expectIdentifier_eq {w : Text}
    (h : significant r.ahead = t :: u :: rest) (hkind : t.kind = .identifier w) :
    expectIdentifier what r = .ok ((t, w), { r with ahead := u :: rest, last := some t }) := by
  rw [expectIdentifier, bind_eq (peek_eq (by rw [h]; rfl))]
  simp only [hkind]
  exact bind_eq (map_eq (advance_eq h))

/-! ## Triples -/

variable {P P' : Reader → Prop} {Q Q' : α → Reader → Prop} {step : Read (Option α)}

/-- A reading that starts with `P` and succeeds ends with `Q`. -/
def Triple (P : Reader → Prop) (m : Read α) (Q : α → Reader → Prop) : Prop :=
  ∀ ⦃r a r'⦄, P r → m r = .ok (a, r') → Q a r'

/-- One round of a repetition: an item with `A` leaves the reader with `I`, and the end with `R`. -/
structure Round (A : α → Prop) (I R : Reader → Prop) (o : Option α) (r : Reader) : Prop where
  item : ∀ a, o = some a → A a ∧ I r
  stop : o = none → R r

theorem Round.some {A : α → Prop} (ha : A a) (hr : I r) : Round A I R (some a) r :=
  ⟨fun _ h => Option.some.inj h ▸ ⟨ha, hr⟩, (by rintro ⟨⟩)⟩

theorem Round.none {A : α → Prop} (hr : R r) : Round A I R none r :=
  ⟨(by rintro _ ⟨⟩), fun _ => hr⟩

/-- One round of `Read.many`, as a turn. -/
def turn (step : Read (Option α)) (r : Reader) : Except Fault (Turn Reader α Reader) :=
  match step r with
  | .error e => .error e
  | .ok (some a, next) => .ok (.item a next)
  | .ok (none, next) => .ok (.done next)

theorem step_of_turn (h : turn step r = .ok (.item a s)) : step r = .ok (some a, s) := by
  unfold turn at h
  split at h
  · cases h
  · rename_i hround
    cases h
    exact hround
  · cases h

theorem stop_of_turn (h : turn step r = .ok (.done s)) : step r = .ok (none, s) := by
  unfold turn at h
  split at h
  · cases h
  · cases h
  · rename_i hround
    cases h
    exact hround

theorem turns_of_many {as : List α} (h : many step r = .ok (as, s)) : Collected (turn step) r as s :=
  collected_of_collect h

/-- A repetition makes its first round. -/
theorem exists_round {as : List α} (h : Collected (turn step) r as s) :
    ∃ q, step r = .ok (as.head?, q) ∧ (as = [] → q = s) := by
  cases h with
  | done hturn => exact ⟨s, stop_of_turn hturn, fun _ => rfl⟩
  | item hturn _ => exact ⟨_, step_of_turn hturn, by rintro ⟨⟩⟩

theorem not_unexpected {a : α} : unexpected t what r ≠ .ok (a, s) := by
  rw [unexpected]
  cases t.kind <;> rintro ⟨⟩

namespace Triple

variable {R : β → Reader → Prop} {m : Read α} {step : Read (Option α)}

theorem pure {a : α} (h : ∀ r, P r → Q a r) : Triple P (Pure.pure a) Q := by
  rintro r _ _ hr hrun
  cases hrun
  exact h r hr

theorem bind {f : α → Read β} (hm : Triple P m Q) (hf : ∀ a, Triple (Q a) (f a) R) :
    Triple P (m >>= f) R := by
  intro r b r'' hr hrun
  obtain ⟨a, q, hstep, hrest⟩ := bind_eq_ok_iff.1 hrun
  exact hf a (hm hr hstep) hrest

/-- Nothing is said about the first of two readings. -/
theorem skip {f : α → Read β} (hf : ∀ a, Triple (fun _ => True) (f a) R) : Triple P (m >>= f) R :=
  bind (fun _ _ _ _ _ => trivial) hf

theorem map {f : α → β} (h : Triple P m fun a => R (f a)) : Triple P (f <$> m) R := by
  rw [map_eq_pure_bind]
  exact h.bind fun a => pure fun _ hr => hr

theorem discard {R : Unit → Reader → Prop} (h : Triple P m fun _ => R ()) : Triple P (Functor.discard m) R :=
  map (f := Function.const α ()) h

theorem refuse : Triple P (Read.refuse cause p : Read α) Q := by
  intro r a r' _ hrun
  cases hrun

theorem unexpected : Triple P (Read.unexpected t what : Read α) Q :=
  fun _ _ _ _ hrun => absurd hrun not_unexpected

/-- What follows a refusal is never read. -/
theorem refuse_bind {f : β → Read α} : Triple P (Read.refuse cause p >>= f) Q :=
  bind (Q := fun _ _ => False) refuse fun _ _ _ _ hr => hr.elim

theorem unexpected_bind {f : β → Read α} : Triple P (Read.unexpected t what >>= f) Q :=
  bind (Q := fun _ _ => False) unexpected fun _ _ _ _ hr => hr.elim

theorem get {Q : Reader → Reader → Prop} (h : ∀ r, P r → Q r r) : Triple P get Q := by
  intro r a r' hr hrun
  cases hrun
  exact h r hr

theorem modify {f : Reader → Reader} {Q : Unit → Reader → Prop} (h : ∀ r, P r → Q () (f r)) :
    Triple P (modify f) Q := by
  intro r a r' hr hrun
  cases hrun
  exact h r hr

theorem ite [Decidable c] {n : Read α} (hm : c → Triple P m Q) (hn : ¬c → Triple P n Q) :
    Triple P (if c then m else n) Q := by
  split_ifs with h
  · exact hm h
  · exact hn h

/-- A step that is only taken under a condition. -/
theorem when [Decidable c] {m : Read Unit} {k : Unit → Read α} {R : Reader → Prop}
    (hm : c → Triple P m fun _ => R) (hn : ¬c → ∀ r, P r → R r) (hk : Triple R (k ()) Q) :
    Triple P (if c then m >>= k else k ()) Q :=
  ite (fun h => (hm h).bind fun _ => hk) fun h _ _ _ hr hrun => hk (hn h _ hr) hrun

theorem weaken (h : Triple P m Q) (hP : ∀ r, P' r → P r) (hQ : ∀ a r, Q a r → Q' a r) : Triple P' m Q' :=
  fun _ _ _ hr hrun => hQ _ _ (h (hP _ hr) hrun)

theorem mono (h : Triple P m Q) (hQ : ∀ a r, Q a r → Q' a r) : Triple P m Q' :=
  h.weaken (fun _ hr => hr) hQ

theorem pre (h : Triple P m Q) (hP : ∀ r, P' r → P r) : Triple P' m Q :=
  h.weaken hP fun _ _ hQ => hQ

/-- A part of the precondition that does not speak of the reader is assumed. -/
theorem assume {p : Prop} (h : p → Triple P m Q) : Triple (fun r => p ∧ P r) m Q :=
  fun _ _ _ hr hrun => h hr.1 hr.2 hrun

/-- A precondition that does not speak of the reader at all. -/
theorem given {p : Prop} (h : p → Triple (fun _ => True) m Q) : Triple (fun _ => p) m Q :=
  fun _ _ _ hp hrun => h hp trivial hrun

/-- A precondition that speaks of some value is used for each value. -/
theorem exists_pre {γ : Type} {P : γ → Reader → Prop} (h : ∀ x, Triple (P x) m Q) :
    Triple (fun r => ∃ x, P x r) m Q :=
  fun _ _ _ ⟨x, hr⟩ hrun => h x hr hrun

theorem both (h : Triple P m Q) (h' : Triple P m Q') : Triple P m fun a r => Q a r ∧ Q' a r :=
  fun _ _ _ hr hrun => ⟨h hr hrun, h' hr hrun⟩

/-- Repetition keeps what each round keeps; the items and the end have what a round gives them. -/
theorem many {A : α → Prop} {R : Reader → Prop} (h : Triple I step (Round A I R)) :
    Triple I (many step) fun as r => (∀ a ∈ as, A a) ∧ R r := by
  intro r as r' hr hrun
  have hcollected := turns_of_many hrun
  clear hrun
  induction hcollected with
  | done hstep => exact ⟨by simp, (h hr (stop_of_turn hstep)).stop rfl⟩
  | item hstep _ ih =>
    obtain ⟨ha, hnext⟩ := (h hr (step_of_turn hstep)).item _ rfl
    obtain ⟨has, hend⟩ := ih hnext
    exact ⟨List.forall_mem_cons.2 ⟨ha, has⟩, hend⟩

/-- Repetition where the invariant speaks of the items so far. -/
theorem manyFrom {I R : List α → Reader → Prop}
    (h : ∀ as, Triple (I as) step fun o r => match o with | some a => I (as ++ [a]) r | none => R as r) :
    Triple (I []) (Read.many step) R := by
  suffices hfrom : ∀ before, Triple (I before) (Read.many step) fun as => R (before ++ as) from hfrom []
  intro before r as r' hr hrun
  have hcollected := turns_of_many hrun
  clear hrun
  induction hcollected generalizing before with
  | done hstep =>
    rw [List.append_nil]
    exact h before hr (stop_of_turn hstep)
  | @item r a next as r' hstep _ ih =>
    rw [List.append_cons]
    exact ih (before ++ [a]) (h before hr (step_of_turn hstep))

end Triple

end Read

end ClassdefDoc
