import ClassdefDoc.Proofs.Parse.Triple
import ClassdefDoc.Token.Scan
import Mathlib.Order.Bounds.Basic

/-!
# The `end` that closes a body

The search for the end of a body stops at the first token that ends the file, closes the function or
opens one construct too many. These places are told by counting keywords from the first token of the
body on (`EofAt`, `ClosesAt`, `ExceedsAt`). Before the first of them every token is passed, and the
constructs open inside the function are the ones opened less the ones closed (`splitAtEnd_past`).
-/

namespace ClassdefDoc

open List

/-- Keywords that open a construct of a body. -/
def TokenKind.opensConstruct : TokenKind → Bool
  | .keyword k => k.opensConstruct
  | _ => false

namespace Body

variable {limit start i j n inner : Nat} {name : Text} {tokens ts : List Token} {t : Token}

/-- The tokens from index `start` up to and without index `i`. -/
def between (tokens : List Token) (start i : Nat) : List Token := (tokens.take i).drop start

def openers (tokens : List Token) (start i : Nat) : Nat :=
  (between tokens start i).countP (·.kind.opensConstruct)

def closers (tokens : List Token) (start i : Nat) : Nat :=
  (between tokens start i).countP (·.kind = .keyword .close)

/-- From `start` on, the file ends at index `i`. -/
structure EofAt (tokens : List Token) (start i : Nat) : Prop where
  le : start ≤ i
  token : ∃ t, tokens[i]? = some t ∧ t.kind = .eof

/-- The `end` at index `i` closes the function whose body starts at `start`: what is opened
in between is closed there, and no part of it from `start` on closes more than it opens. -/
structure ClosesAt (tokens : List Token) (start i : Nat) : Prop where
  le : start ≤ i
  token : ∃ t, tokens[i]? = some t ∧ t.kind = .keyword .close
  balanced : openers tokens start i = closers tokens start i
  opened : ∀ j ≤ i, closers tokens start j ≤ openers tokens start j

/-- With the keyword at index `i` more than `limit` constructs are open, the function included. -/
structure ExceedsAt (limit : Nat) (tokens : List Token) (start i : Nat) : Prop where
  le : start ≤ i
  token : ∃ t, tokens[i]? = some t ∧ t.kind.opensConstruct
  above : limit + closers tokens start (i + 1) < openers tokens start (i + 1) + 1

/-- The search for the end of a body does not go past index `i`. -/
def StopsAt (limit : Nat) (tokens : List Token) (start i : Nat) : Prop :=
  EofAt tokens start i ∨ ClosesAt tokens start i ∨ ExceedsAt limit tokens start i

theorem between_self : between tokens start start = [] := drop_eq_nil_of_le (length_take_le _ _)

theorem between_succ (hle : start ≤ n) (ht : tokens[n]? = some t) :
    between tokens start (n + 1) = between tokens start n ++ [t] := by
  obtain ⟨hlt, -⟩ := List.getElem?_eq_some_iff.1 ht
  have hlength : start ≤ (tokens.take n).length := by
    rw [length_take]
    omega
  rw [between, take_add_one, ht, Option.toList_some, drop_append_of_le_length hlength, between]

theorem drop_of_getElem? (ht : tokens[n]? = some t) : tokens.drop n = t :: tokens.drop (n + 1) := by
  rw [drop_eq_getElem?_toList_append, ht]
  rfl

theorem openers_succ (hle : start ≤ n) (ht : tokens[n]? = some t) :
    openers tokens start (n + 1) = openers tokens start n + if t.kind.opensConstruct then 1 else 0 := by
  rw [openers, between_succ hle ht, countP_append, countP_singleton, openers]

theorem closers_succ (hle : start ≤ n) (ht : tokens[n]? = some t) :
    closers tokens start (n + 1) = closers tokens start n + if t.kind = .keyword .close then 1 else 0 := by
  rw [closers, between_succ hle ht, countP_append, countP_singleton, closers]
  simp only [decide_eq_true_eq]

theorem opensConstruct_close : TokenKind.opensConstruct (.keyword .close) = false := rfl

theorem ne_close_of_opens (h : t.kind.opensConstruct) : t.kind ≠ .keyword .close := by
  intro hkind
  rw [hkind, opensConstruct_close] at h
  cases h

/-! ## One token -/

theorem splitAtEnd_cons_of_exceeds
    (h : t.kind.opensConstruct) (hlimit : limit < inner + 2) :
    splitAtEnd limit name inner (t :: ts) =
    .error ⟨.unsupported "nesting deeper than the configured limit", t.span.start⟩ := by
  cases hkind : t.kind with
  | keyword w =>
    rw [hkind] at h
    have hclose : w ≠ .close := by
      rintro rfl
      cases h
    have hopens : w.opensConstruct = true := h
    simp only [splitAtEnd, hkind, hopens, hlimit, if_true]
  | _ =>
    rw [hkind] at h
    cases h

/-- A token that is no stop is passed. The constructs that are open behind it are counted in `inner'`. -/
theorem splitAtEnd_cons_of_pass {inner' : Nat} (heof : t.kind ≠ .eof)
    (hlimit : t.kind.opensConstruct → inner + 2 ≤ limit)
    (hcount : inner' + (if t.kind = .keyword .close then 1 else 0) =
      inner + if t.kind.opensConstruct then 1 else 0) :
    splitAtEnd limit name inner (t :: ts) = (splitAtEnd limit name inner' ts).map fun r =>
    (t :: r.1, r.2) := by
  cases hkind : t.kind with
  | eof => exact absurd hkind heof
  | keyword w =>
    rw [hkind] at hcount hlimit
    by_cases hw : w = .close
    · subst hw
      obtain rfl : inner = inner' + 1 := hcount.symm
      simp only [splitAtEnd, hkind]
    · have hne : TokenKind.keyword w ≠ .keyword .close := fun h => hw (TokenKind.keyword.inj h)
      by_cases hopens : w.opensConstruct = true
      · have hle : ¬ limit < inner + 2 := Nat.not_lt.2 (hlimit hopens)
        rw [if_neg hne, if_pos (show TokenKind.opensConstruct (.keyword w) = true from hopens)] at hcount
        obtain rfl : inner' = inner + 1 := hcount
        simp only [splitAtEnd, hkind, hopens, hle, if_true, if_false]
      · rw [if_neg hne, if_neg (show ¬ TokenKind.opensConstruct (.keyword w) = true from hopens)] at hcount
        obtain rfl : inner' = inner := hcount
        simp only [splitAtEnd, hkind, hopens, Bool.false_eq_true, if_false]
  | _ =>
    rw [hkind] at hcount
    obtain rfl : inner' = inner := hcount
    simp only [splitAtEnd, hkind]

/-! ## Up to the first stop -/

/-- The tokens before the first stop are passed. -/
theorem splitAtEnd_past (name : Text) (hle : start ≤ n) (hn : n ≤ tokens.length)
    (h : ∀ k < n, ¬ StopsAt limit tokens start k) :
    ∃ inner, openers tokens start n = closers tokens start n + inner ∧
      splitAtEnd limit name 0 (tokens.drop start) =
      (splitAtEnd limit name inner (tokens.drop n)).map fun r => (between tokens start n ++ r.1, r.2) := by
  induction n using Nat.strong_induction_on with
  | _ n ih =>
    obtain rfl | hlt := hle.eq_or_lt
    · refine ⟨0, by rw [openers, closers, between_self]; rfl, ?_⟩
      rw [between_self]
      cases splitAtEnd limit name 0 (tokens.drop start) <;> rfl
    obtain ⟨n, rfl⟩ : ∃ m, n = m + 1 := ⟨n - 1, by omega⟩
    have hle : start ≤ n := Nat.le_of_lt_succ hlt
    -- What no stop at `n` says needs the count of every part before it.
    have hopened : ∀ j ≤ n, closers tokens start j ≤ openers tokens start j := by
      intro j hj
      obtain hj' | hj' := Nat.le_total start j
      · obtain ⟨inner, hinner, -⟩ := ih j (by omega) hj' (by omega) fun k hk => h k (by omega)
        omega
      · rw [closers, between, drop_eq_nil_of_le ((length_take_le _ _).trans hj')]
        exact Nat.zero_le _
    obtain ⟨inner, hinner, hrun⟩ := ih n (Nat.lt_succ_self n) hle (by omega) fun k hk => h k (by omega)
    have hstop := h n (Nat.lt_succ_self n)
    obtain ⟨t, ht⟩ : ∃ t, tokens[n]? = some t := ⟨_, List.getElem?_eq_getElem hn⟩
    have heof : t.kind ≠ .eof := fun hkind => hstop (.inl ⟨hle, t, ht, hkind⟩)
    have hcloses := closers_succ hle ht
    have hopens := openers_succ hle ht
    have hclose : t.kind = .keyword .close → 0 < inner := by
      intro hkind
      refine Nat.pos_of_ne_zero fun hzero => hstop (.inr (.inl ⟨hle, ⟨t, ht, hkind⟩, ?_, hopened⟩))
      rw [hinner, hzero, Nat.add_zero]
    have hlimit : t.kind.opensConstruct → inner + 2 ≤ limit := by
      intro hkind
      by_contra habove
      refine hstop (.inr (.inr ⟨hle, ⟨t, ht, hkind⟩, ?_⟩))
      rw [hcloses, hopens, if_pos hkind, if_neg (ne_close_of_opens hkind)]
      omega
    have hcount : ∃ inner', inner' + (if t.kind = .keyword .close then 1 else 0) =
        inner + if t.kind.opensConstruct then 1 else 0 := by
      refine ⟨_, Nat.sub_add_cancel ?_⟩
      split
      · exact (hclose ‹_›).trans_le (Nat.le_add_right _ _)
      · exact Nat.zero_le _
    obtain ⟨inner', hcount⟩ := hcount
    refine ⟨inner', by omega, ?_⟩
    rw [hrun, drop_of_getElem? ht, splitAtEnd_cons_of_pass heof hlimit hcount, between_succ hle ht]
    cases splitAtEnd limit name inner' (tokens.drop (n + 1)) with
    | error => rfl
    | ok r => simp only [Except.map, append_assoc, singleton_append]

/-- At most one `end` closes a function. -/
theorem ClosesAt.le_of_closesAt (hi : ClosesAt tokens start i) (hj : ClosesAt tokens start j) : i ≤ j := by
  by_contra hlt
  obtain ⟨t, ht, hkind⟩ := hj.token
  have hopened := hi.opened (j + 1) (by omega)
  rw [openers_succ hj.le ht, closers_succ hj.le ht, if_pos hkind,
    hkind, opensConstruct_close, hj.balanced] at hopened
  simp at hopened

theorem ClosesAt.isLeast (h : ClosesAt tokens start i) :
    IsLeast {i | ClosesAt tokens start i} i := ⟨h, fun _ => h.le_of_closesAt⟩

section

variable (name) (hpast : ∀ k < n, ¬ StopsAt limit tokens start k)

include hpast

theorem splitAtEnd_at (hle : start ≤ n) (ht : tokens[n]? = some t) :
    ∃ inner, openers tokens start n = closers tokens start n + inner ∧
    splitAtEnd limit name 0 (tokens.drop start) =
      (splitAtEnd limit name inner (t :: tokens.drop (n + 1))).map fun r =>
      (between tokens start n ++ r.1, r.2) := by
  obtain ⟨hlt, -⟩ := List.getElem?_eq_some_iff.1 ht
  obtain ⟨inner, hinner, hrun⟩ := splitAtEnd_past name hle hlt.le hpast
  rw [drop_of_getElem? ht] at hrun
  exact ⟨inner, hinner, hrun⟩

theorem splitAtEnd_of_eofAt (h : EofAt tokens start n) :
    ∃ t, tokens[n]? = some t ∧ splitAtEnd limit name 0 (tokens.drop start) =
    .error ⟨.unexpectedEnd (Text.join ["'end' closing function '", name, "'"]), t.span.start⟩ := by
  obtain ⟨t, ht, hkind⟩ := h.token
  obtain ⟨inner, -, hrun⟩ := splitAtEnd_at name hpast h.le ht
  refine ⟨t, ht, hrun.trans ?_⟩
  simp only [splitAtEnd, hkind, Except.map]

theorem splitAtEnd_of_closesAt (h : ClosesAt tokens start n) :
    ∃ t, tokens[n]? = some t ∧ splitAtEnd limit name 0 (tokens.drop start) = .ok (between tokens start n,
      t, tokens.drop (n + 1)) := by
  obtain ⟨t, ht, hkind⟩ := h.token
  obtain ⟨inner, hinner, hrun⟩ := splitAtEnd_at name hpast h.le ht
  have hbalanced := h.balanced
  obtain rfl : inner = 0 := by omega
  refine ⟨t, ht, hrun.trans ?_⟩
  simp only [splitAtEnd, hkind, Except.map, append_nil]

theorem splitAtEnd_of_exceedsAt (h : ExceedsAt limit tokens start n) : ∃ t, tokens[n]? = some t ∧
    splitAtEnd limit name 0 (tokens.drop start) =
    .error ⟨.unsupported "nesting deeper than the configured limit", t.span.start⟩ := by
  obtain ⟨t, ht, hkind⟩ := h.token
  obtain ⟨inner, hinner, hrun⟩ := splitAtEnd_at name hpast h.le ht
  have habove := h.above
  rw [openers_succ h.le ht, closers_succ h.le ht, if_pos hkind, if_neg (ne_close_of_opens hkind)] at habove
  refine ⟨t, ht, hrun.trans ?_⟩
  rw [splitAtEnd_cons_of_exceeds hkind (by omega), Except.map]

end

/-- The search stops, at the latest where the file ends. -/
theorem exists_first_stop (limit : Nat) (heof : tokens.getLast?.map (·.kind) = some .eof)
    (hstart : start < tokens.length) :
    ∃ n, StopsAt limit tokens start n ∧ ∀ k < n, ¬ StopsAt limit tokens start k := by
  classical
  obtain ⟨t, ht, hkind⟩ := Option.map_eq_some_iff.1 heof
  have hstop : ∃ n, StopsAt limit tokens start n :=
    ⟨tokens.length - 1, .inl ⟨by omega, t, by rw [← getLast?_eq_getElem?, ht], hkind⟩⟩
  exact ⟨_, Nat.find_spec hstop, fun k => Nat.find_min hstop⟩

end Body

namespace Read

open Body

variable {limit start n : Nat} {text name : Text} {tokens : List Token} {r : Reader} {b : Body} {s : Reader}

theorem body_of_splitAtEnd_error {f : Fault} (h : splitAtEnd limit name 0 r.ahead = .error f) :
    body limit text name r = .error f := by
  rw [body_run, h]
  rfl

section

variable (hr : r.ahead = tokens.drop start)

include hr

/-- Where the function is closed its body is read, unless the tokens do not fit the text. -/
theorem body_of_closesAt (hpast : ∀ k < n, ¬ StopsAt limit tokens start k) (h : ClosesAt tokens start n) :
    (∃ b, body limit text name r = .ok (b, { r with ahead := tokens.drop (n + 1), last := tokens[n]? })) ∨
      ∃ p, body limit text name r = .error ⟨.broken .slice, p⟩ := by
  obtain ⟨t, ht, hsplit⟩ := splitAtEnd_of_closesAt name hpast h
  rw [body_run, hr, hsplit, ht]
  simp only [bind, Except.bind]
  split
  · exact .inr ⟨_, rfl⟩
  · exact .inl ⟨_, rfl⟩

variable (heof : tokens.getLast?.map (·.kind) = some .eof) (hstart : start < tokens.length)

include heof hstart

/-- What comes of a body is decided by the first place where the search for its end stops. -/
theorem body_cases (limit : Nat) (text name : Text) : ∃ n, (∀ k < n, ¬ StopsAt limit tokens start k) ∧
    ((EofAt tokens start n ∧ ∃ t, tokens[n]? = some t ∧ body limit text name r =
        .error ⟨.unexpectedEnd (Text.join ["'end' closing function '", name, "'"]), t.span.start⟩) ∨
      (ClosesAt tokens start n ∧
        ((∃ b, body limit text name r =
          .ok (b, { r with ahead := tokens.drop (n + 1), last := tokens[n]? })) ∨
        ∃ p, body limit text name r = .error ⟨.broken .slice, p⟩)) ∨
      (ExceedsAt limit tokens start n ∧ ∃ t, tokens[n]? = some t ∧ body limit text name r =
        .error ⟨.unsupported "nesting deeper than the configured limit", t.span.start⟩)) := by
  obtain ⟨n, h | h | h, hpast⟩ := exists_first_stop limit heof hstart
  · obtain ⟨t, ht, hsplit⟩ := splitAtEnd_of_eofAt name hpast h
    exact ⟨n, hpast, .inl ⟨h, t, ht, body_of_splitAtEnd_error (hr ▸ hsplit)⟩⟩
  · exact ⟨n, hpast, .inr (.inl ⟨h, body_of_closesAt hr hpast h⟩)⟩
  · obtain ⟨t, ht, hsplit⟩ := splitAtEnd_of_exceedsAt name hpast h
    exact ⟨n, hpast, .inr (.inr ⟨h, t, ht, body_of_splitAtEnd_error (hr ▸ hsplit)⟩)⟩

/-- A body that is read is closed at the first stop. -/
theorem closesAt_of_body (h : body limit text name r = .ok (b, s)) :
    ∃ i, (∀ k < i, ¬ StopsAt limit tokens start k) ∧
    ClosesAt tokens start i ∧ s = { r with ahead := tokens.drop (i + 1), last := tokens[i]? } := by
  obtain ⟨i, hpast, ⟨-, _, -, hrun⟩ | ⟨hclose, ⟨b', hrun⟩ | ⟨_, hrun⟩⟩ | ⟨-, _, -, hrun⟩⟩ :=
    body_cases hr heof hstart limit text name
  all_goals cases hrun.symm.trans h
  exact ⟨i, hpast, hclose, rfl⟩

/-- A body that is read is read in the same way under a larger limit: fewer places stop the search. -/
theorem body_mono {limit' : Nat} (hle : limit ≤ limit') (h : body limit text name r = .ok (b, s)) :
    body limit' text name r = .ok (b, s) := by
  obtain ⟨i, hpast, hclose, -⟩ := closesAt_of_body hr heof hstart h
  have hpast' : ∀ k < i, ¬ StopsAt limit' tokens start k :=
    fun k hk hstop => hpast k hk <| hstop.imp_right <| .imp_right fun h =>
    ⟨h.le, h.token, (Nat.add_le_add_right hle _).trans_lt h.above⟩
  obtain ⟨t, ht, hsplit⟩ := splitAtEnd_of_closesAt name hpast hclose
  obtain ⟨t', ht', hsplit'⟩ := splitAtEnd_of_closesAt name hpast' hclose
  obtain rfl := Option.some.inj (ht.symm.trans ht')
  rw [body_run, hr, hsplit] at h
  rwa [body_run, hr, hsplit']

end

/-- A body is read up to the `end` that matches its function, and no further. For tokens that end with
the end of file, any place in them and any limit: * a body that is read ends at the first `end` up to
which openers and closers balance and no part from the start on closes more than it opens; * where there
is such an `end` before the end of file and before the limit is exceeded, the body is read, unless the
tokens do not fit the text; * the end of file is reported exactly if there is no such `end` before it
and the limit is not exceeded before it; * too deep nesting is reported exactly at the first keyword
that brings the open constructs, the function included, above the limit, where neither the function nor
the file has ended before; * what is read under one limit is read under every larger one. -/
theorem body_ends_at_matching_end (limit : Nat) (text name : Text)
    {tokens : List Token} {start : Nat} {r : Reader} (heof : tokens.getLast?.map (·.kind) = some .eof)
    (hstart : start < tokens.length) (hr : r.ahead = tokens.drop start) :
    (∀ b s, body limit text name r = .ok (b, s) → ∃ i,
      IsLeast {i | ClosesAt tokens start i} i ∧ s.ahead = tokens.drop (i + 1) ∧
      s.last = tokens[i]? ∧ ∀ k < i, ¬ EofAt tokens start k ∧ ¬ ExceedsAt limit tokens start k) ∧
    (∀ i, ClosesAt tokens start i → (∀ k < i, ¬ EofAt tokens start k ∧ ¬ ExceedsAt limit tokens start k) →
      (∃ b s, body limit text name r = .ok (b, s)) ∨ ∃ p, body limit text name r = .error
      ⟨.broken .slice, p⟩) ∧
    (∀ what p, body limit text name r = .error ⟨.unexpectedEnd what, p⟩ ↔
      what = Text.join ["'end' closing function '", name, "'"] ∧
      ∃ e t, IsLeast {e | EofAt tokens start e} e ∧ tokens[e]? = some t ∧
        t.span.start = p ∧ ∀ k < e, ¬ ClosesAt tokens start k ∧ ¬ ExceedsAt limit tokens start k) ∧
    (∀ what p, body limit text name r = .error ⟨.unsupported what, p⟩ ↔
      what = "nesting deeper than the configured limit" ∧
      ∃ j t, IsLeast {j | ExceedsAt limit tokens start j} j ∧ tokens[j]? = some t ∧
        t.span.start = p ∧ ∀ k < j, ¬ EofAt tokens start k ∧ ¬ ClosesAt tokens start k) ∧
    ∀ limit' b s, limit ≤ limit' → body limit text name r = .ok (b, s) →
      body limit' text name r = .ok (b, s) := by
  refine ⟨fun b s h => ?_, fun i hclose hbefore => ?_, fun what p => ⟨fun h => ?_, ?_⟩,
    fun what p => ⟨fun h => ?_, ?_⟩, fun limit' b s hle => body_mono hr heof hstart hle⟩
  · obtain ⟨i, hpast, hclose, rfl⟩ := closesAt_of_body hr heof hstart h
    exact ⟨i, hclose.isLeast, rfl, rfl,
      fun k hk => ⟨fun h => hpast k hk (.inl h), fun h => hpast k hk (.inr (.inr h))⟩⟩
  · have hpast : ∀ k < i, ¬ StopsAt limit tokens start k := by
      rintro k hk (h | h | h)
      · exact (hbefore k hk).1 h
      · exact absurd (hclose.le_of_closesAt h) (Nat.not_le.2 hk)
      · exact (hbefore k hk).2 h
    exact (body_of_closesAt hr hpast hclose).imp_left fun h => h.imp fun _ hrun => ⟨_, hrun⟩
  · obtain ⟨e, hpast, ⟨hend, t, ht, hrun⟩ | ⟨-, ⟨b, hrun⟩ | ⟨_, hrun⟩⟩ | ⟨-, _, -, hrun⟩⟩ :=
      body_cases hr heof hstart limit text name
    all_goals cases hrun.symm.trans h
    refine ⟨rfl, e, t, ⟨hend, fun k hk => ?_⟩, ht, rfl,
      fun k hk => ⟨fun h => hpast k hk (.inr (.inl h)), fun h => hpast k hk (.inr (.inr h))⟩⟩
    exact Nat.le_of_not_lt fun hlt => hpast k hlt (.inl hk)
  · rintro ⟨rfl, e, t, hleast, ht, rfl, hbefore⟩
    have hpast : ∀ k < e, ¬ StopsAt limit tokens start k := by
      rintro k hk (h | h | h)
      · exact absurd (hleast.2 h) (Nat.not_le.2 hk)
      · exact (hbefore k hk).1 h
      · exact (hbefore k hk).2 h
    obtain ⟨t', ht', hsplit⟩ := splitAtEnd_of_eofAt name hpast hleast.1
    obtain rfl := Option.some.inj (ht.symm.trans ht')
    exact body_of_splitAtEnd_error (hr ▸ hsplit)
  · obtain ⟨j, hpast, ⟨-, _, -, hrun⟩ | ⟨-, ⟨b, hrun⟩ | ⟨_, hrun⟩⟩ | ⟨hexceeds, t, ht, hrun⟩⟩ :=
      body_cases hr heof hstart limit text name
    all_goals cases hrun.symm.trans h
    refine ⟨rfl, j, t, ⟨hexceeds, fun k hk => ?_⟩, ht, rfl,
      fun k hk => ⟨fun h => hpast k hk (.inl h), fun h => hpast k hk (.inr (.inl h))⟩⟩
    exact Nat.le_of_not_lt fun hlt => hpast k hlt (.inr (.inr hk))
  · rintro ⟨rfl, j, t, hleast, ht, rfl, hbefore⟩
    have hpast : ∀ k < j, ¬ StopsAt limit tokens start k := by
      rintro k hk (h | h | h)
      · exact (hbefore k hk).1 h
      · exact (hbefore k hk).2 h
      · exact absurd (hleast.2 h) (Nat.not_le.2 hk)
    obtain ⟨t', ht', hsplit⟩ := splitAtEnd_of_exceedsAt name hpast hleast.1
    obtain rfl := Option.some.inj (ht.symm.trans ht')
    exact body_of_splitAtEnd_error (hr ▸ hsplit)

/-- The rest of a function with a loop inside a branch, behind its name. -/
def nestedBody : Text := "f\nif a\nfor b\nend\nend\nend\n"

/-- Three constructs are open at most: the function is read under the limit
3 up to its own `end`, and under the limit 2 the loop is too deep. -/
theorem body_ends_nested : ∃ tokens b s, scan nestedBody = .ok tokens ∧
    body 3 nestedBody "f" ⟨tokens.drop 1, tokens.head?, []⟩ = .ok (b, s) ∧
    s.last.map (·.span.start) = some ⟨6, 1⟩ ∧
    (∃ i, IsLeast {i | ClosesAt tokens 1 i} i ∧ s.ahead = tokens.drop (i + 1) ∧ s.last = tokens[i]?) ∧
    body 2 nestedBody "f" ⟨tokens.drop 1, tokens.head?,
      []⟩ = .error ⟨.unsupported "nesting deeper than the configured limit", ⟨3, 1⟩⟩ ∧
    ∃ j t, IsLeast {j | ExceedsAt 2 tokens 1 j} j ∧ tokens[j]? = some t ∧ t.span.start = ⟨3, 1⟩ := by
  obtain ⟨tokens, hscan, heof, hlength, ⟨⟨b, s⟩, hthree, hlast⟩, htwo⟩ : ∃ tokens,
      scan nestedBody = .ok tokens ∧ tokens.getLast?.map (·.kind) = some .eof ∧ 1 < tokens.length ∧
      (∃ x, body 3 nestedBody "f" ⟨tokens.drop 1, tokens.head?, []⟩ = .ok x ∧
        x.2.last.map (·.span.start) = some ⟨6, 1⟩) ∧
      (body 2 nestedBody "f" ⟨tokens.drop 1, tokens.head?, []⟩).map (·.1) =
        .error ⟨.unsupported "nesting deeper than the configured limit", ⟨3, 1⟩⟩ := by
    decide +kernel
  have htwo : body 2 nestedBody "f" ⟨tokens.drop 1, tokens.head?, []⟩ =
      .error ⟨.unsupported "nesting deeper than the configured limit", ⟨3, 1⟩⟩ := by
    cases hrun : body 2 nestedBody "f" ⟨tokens.drop 1, tokens.head?, []⟩ with
    | ok x =>
      rw [hrun] at htwo
      cases htwo
    | error f =>
      rw [hrun] at htwo
      exact congrArg Except.error (Except.error.inj htwo)
  obtain ⟨i, hclose, hahead, hi, -⟩ :=
    (body_ends_at_matching_end 3 nestedBody "f" heof hlength rfl).1 b s hthree
  obtain ⟨-, j, t, hexceeds, ht, hplace, -⟩ :=
    ((body_ends_at_matching_end 2 nestedBody "f" heof hlength rfl).2.2.2.1 _ _).1 htwo
  exact ⟨tokens, b, s, hscan, hthree, hlast,
    ⟨i, hclose, hahead, hi⟩, htwo, j, t, hexceeds, ht, hplace⟩

end Read

end ClassdefDoc
