import ClassdefDoc.Class.Parse
import ClassdefDoc.Proofs.Parse.Triple

/-!
# Readings that take given tokens

`Takes comments last ts rest m A` says that a reading `m` succeeds on the tokens `ts ++ rest`, takes
exactly `ts`, passes no comment and gives a value with `A`; `comments` were passed and `last` was taken
before. Unlike a triple it says that there is a result. There is a rule for each basic reading in front of
what follows it, and repetition is put together from its rounds by `Takes.many_stop` and `Takes.many_item`.
-/

namespace ClassdefDoc.Read

open List

variable {α β : Type}

def Takes (comments : List LooseComment) (last : Option Token) (ts rest : List Token) (m : Read α)
    (A : α → Prop) : Prop :=
  ∃ a, A a ∧ m ⟨ts ++ rest, last, comments⟩ = .ok (a, ⟨rest, ts.getLast?.or last, comments⟩)

namespace Takes

variable {comments : List LooseComment} {last : Option Token} {t : Token} {ts ts' rest : List Token}
  {A : α → Prop} {B : β → Prop} {f : Unit → Read β} {k : TokenKind} {m : Read α} {step : Read (Option α)}
  {what : Text}

theorem pure {a : α} (h : A a) : Takes comments last [] rest (Pure.pure a) A := ⟨a, h, rfl⟩

theorem bind {f : α → Read β} (hm : Takes comments last ts (ts' ++ rest) m A)
    (hf : ∀ a, A a → Takes comments (ts.getLast?.or last) ts' rest (f a) B) :
    Takes comments last (ts ++ ts') rest (m >>= f) B := by
  obtain ⟨a, ha, hrun⟩ := hm
  obtain ⟨b, hb, hrun'⟩ := hf a ha
  refine ⟨b, hb, ?_⟩
  rw [append_assoc, bind_eq hrun, hrun', getLast?_append, Option.or_assoc]

theorem andThen {a : α} {f : α → Read β} (hm : Takes comments last ts (ts' ++ rest) m (· = a))
    (hf : Takes comments (ts.getLast?.or last) ts' rest (f a) B) :
    Takes comments last (ts ++ ts') rest (m >>= f) B :=
  bind hm fun _ ha => ha ▸ hf

/-- Behind the reading nothing is taken. -/
theorem bind_last {f : α → Read β} (hm : Takes comments last ts rest m A)
    (hf : ∀ a, A a → Takes comments (ts.getLast?.or last) [] rest (f a) B) :
    Takes comments last ts rest (m >>= f) B := by
  rw [← append_nil ts]
  exact bind hm hf

/-- A reading that takes nothing. -/
theorem bind_nil {f : α → Read β} (hm : Takes comments last [] (ts ++ rest) m A)
    (hf : ∀ a, A a → Takes comments last ts rest (f a) B) : Takes comments last ts rest (m >>= f) B :=
  bind hm hf

theorem mono {A' : α → Prop} (h : Takes comments last ts rest m A) (hA : ∀ a, A a → A' a) :
    Takes comments last ts rest m A' := by
  obtain ⟨a, ha, hrun⟩ := h
  exact ⟨a, hA a ha, hrun⟩

theorem map {f : α → β} (h : Takes comments last ts rest m fun a => B (f a)) :
    Takes comments last ts rest (f <$> m) B := by
  obtain ⟨a, ha, hrun⟩ := h
  exact ⟨f a, ha, map_eq hrun⟩

/-! ## Looking ahead -/

theorem get {f : Reader → Read β} (hf : Takes comments last ts rest (f ⟨ts ++ rest, last, comments⟩) B) :
    Takes comments last ts rest (MonadState.get >>= f) B :=
  hf

theorem lastLine {f : Nat → Read β} (hf : ∀ n, Takes comments last ts rest (f n) B) :
    Takes comments last ts rest (Read.lastLine >>= f) B := by
  cases last with
  | none => exact hf 1
  | some t => exact hf _

section

variable {f : Token → Read β} {g : Bool → Read β}
  (ht : (ts ++ rest).head? = some t) (hk : t.kind.isContinuation = false)
include ht hk

theorem peek (hf : Takes comments last ts rest (f t) B) :
    Takes comments last ts rest (Read.peek >>= f) B := by
  refine bind_nil (A := (· = t)) ⟨t, rfl, ?_⟩ fun a ha => ha ▸ hf
  obtain ⟨more, hmore⟩ := head?_eq_some_iff.1 ht
  exact peek_eq (sees_of_ahead (by rw [nil_append, hmore]) hk)

theorem sees (hg : Takes comments last ts rest (g (t.kind == k)) B) :
    Takes comments last ts rest (Read.sees k >>= g) B := by
  rw [Read.sees, bind_assoc]
  refine peek ht hk ?_
  rwa [pure_bind]

/-- Something else than `k` is ahead. -/
theorem not_sees (hne : t.kind ≠ k) (hg : Takes comments last ts rest (g false) B) :
    Takes comments last ts rest (Read.sees k >>= g) B :=
  sees ht hk (by rwa [beq_eq_false_iff_ne.2 hne])

theorem seesIdentifier (hne : ∀ w, t.kind ≠ .identifier w) (hg : Takes comments last ts rest (g false) B) :
    Takes comments last ts rest (Read.seesIdentifier >>= g) B := by
  rw [Read.seesIdentifier, bind_assoc]
  refine peek ht hk ?_
  split
  · rename_i w hw
    exact absurd hw (hne w)
  · rwa [pure_bind]

theorem endStatement {f : Unit → Read β} (hends : endsStatement t.kind)
    (hf : Takes comments last ts rest (f ()) B) :
    Takes comments last ts rest (Read.endStatement >>= f) B := by
  rw [Read.endStatement, bind_assoc]
  refine peek ht hk ?_
  rwa [if_pos hends, pure_bind]

end

theorem endHeader (ht : (ts ++ rest).head? = some t) (hkind : t.kind = .newline)
    (hf : Takes comments last ts rest (f ()) B) : Takes comments last ts rest (Read.endHeader >>= f) B := by
  rw [Read.endHeader, bind_assoc]
  refine peek ht (by rw [hkind]; rfl) ?_
  simp only [hkind]
  exact hf

/-! ## Taking tokens -/

section

variable (hk : t.kind.isContinuation = false)
include hk

theorem single (hne : rest ≠ []) : Takes comments last [t] rest Read.advance (· = t) :=
  ⟨t, rfl, advance_of_ahead rfl hk hne⟩

theorem advance {f : Token → Read β} (hne : ts ++ rest ≠ []) (hf : Takes comments (some t) ts rest (f t) B) :
    Takes comments last (t :: ts) rest (Read.advance >>= f) B :=
  bind (single hk hne) fun _ ha => ha ▸ hf

theorem discard (hne : ts ++ rest ≠ []) (hf : Takes comments (some t) ts rest (f ()) B) :
    Takes comments last (t :: ts) rest (Functor.discard Read.advance >>= f) B :=
  have hdiscard : Takes comments last [t] (ts ++ rest) (Functor.discard Read.advance) fun _ => True :=
    map (f := Function.const Token ()) ((single hk hne).mono fun _ _ => trivial)
  bind hdiscard fun _ _ => hf

end

theorem expectIdentifier {w : Text} {f : Token × Text → Read β} (hkind : t.kind = .identifier w)
    (hne : ts ++ rest ≠ []) (hf : Takes comments (some t) ts rest (f (t, w)) B) :
    Takes comments last (t :: ts) rest (Read.expectIdentifier what >>= f) B := by
  obtain ⟨u, more, hmore⟩ := exists_cons_of_ne_nil hne
  have hword : Takes comments last [t] (ts ++ rest) (Read.expectIdentifier what) (· = (t, w)) :=
    ⟨_, rfl, by rw [hmore]; exact expectIdentifier_eq (significant_cons (by rw [hkind]; rfl) _) hkind⟩
  exact bind hword fun _ ha => ha ▸ hf

theorem expect (hkind : t.kind = k)
    (hk : k.isContinuation = false) (hne : ts ++ rest ≠ []) (hf : Takes comments (some t) ts rest (f ()) B) :
    Takes comments last (t :: ts) rest (Read.expect k what >>= f) B := by
  rw [Read.expect, bind_assoc]
  refine peek rfl (by rwa [hkind]) ?_
  rw [if_pos hkind]
  exact discard (by rwa [hkind]) hne hf

/-! ## Layout -/

/-- No layout inside brackets is ahead. -/
theorem skipLines (ht : (ts ++ rest).head? = some t) (hk : isLineLayout t.kind = false)
    (hf : Takes comments last ts rest (f ()) B) : Takes comments last ts rest (Read.skipLines >>= f) B := by
  refine bind_nil (A := fun _ => True) ⟨(), trivial, ?_⟩ fun _ _ => hf
  obtain ⟨more, hmore⟩ := head?_eq_some_iff.1 ht
  have hdrop : (t :: more).dropWhile (isLineLayout ·.kind) = t :: more :=
    dropWhile_cons_of_neg (by simp [hk])
  show Except.ok _ = _
  simp only [nil_append, hmore, hdrop, getLast?_nil, Option.none_or]

/-- The layout before a statement has no comments. -/
theorem skipLayout {record : Bool} {layout : List Token}
    (hlayout : ∀ u ∈ layout, isLayout u.kind ∧ LooseComment.ofToken? u = none)
    (hk : isLayout t.kind = false) (hf : Takes comments last (t :: ts) rest (f ()) B) :
    Takes comments last (layout ++ t :: ts) rest (Read.skipLayout record >>= f) B := by
  obtain ⟨b, hb, hrun⟩ := hf
  refine ⟨b, hb, ?_⟩
  have htake : (layout ++ (t :: ts ++ rest)).takeWhile (isLayout ·.kind) = layout := by
    rw [takeWhile_append_of_pos fun u hu => (hlayout u hu).1, cons_append,
      takeWhile_cons_of_neg (by simp [hk]), append_nil]
  have hdrop : (layout ++ (t :: ts ++ rest)).dropWhile (isLayout ·.kind) = t :: ts ++ rest := by
    rw [dropWhile_append_of_pos fun u hu => (hlayout u hu).1, cons_append,
      dropWhile_cons_of_neg (by simp [hk])]
  have hnone : layout.filterMap LooseComment.ofToken? = [] :=
    filterMap_eq_nil_iff.2 fun u hu => (hlayout u hu).2
  have hskip : Read.skipLayout record ⟨layout ++ t :: ts ++ rest, last, comments⟩ =
      .ok ((), ⟨t :: ts ++ rest, last, comments⟩) := by
    show Except.ok _ = _
    simp only [append_assoc, htake, hdrop, hnone, ite_self, append_nil]
  have hlast : (layout ++ t :: ts).getLast? = (t :: ts).getLast? :=
    getLast?_append_of_ne_nil layout (cons_ne_nil t ts)
  rw [bind_eq hskip, hrun, hlast]

/-! ## Repetition -/

theorem many_stop (h : Takes comments last ts rest step (· = none)) :
    Takes comments last ts rest (many step) (· = []) := by
  obtain ⟨_, rfl, hrun⟩ := h
  refine ⟨[], rfl, ?_⟩
  simp only [many, collect, hrun]

theorem many_item {C : List α → Prop} {D : List α → Prop}
    (h : Takes comments last ts (ts' ++ rest) step fun o => ∃ a, o = some a ∧ A a) (hne : ts ≠ [])
    (h' : Takes comments (ts.getLast?.or last) ts' rest (many step) C)
    (hD : ∀ a as, A a → C as → D (a :: as)) :
    Takes comments last (ts ++ ts') rest (many step) D := by
  obtain ⟨_, ⟨a, rfl, ha⟩, hrun⟩ := h
  obtain ⟨as, has, hrun'⟩ := h'
  refine ⟨a :: as, hD a as ha has, ?_⟩
  obtain ⟨hcollected, hlength⟩ := of_collect hrun'
  rw [append_assoc, many]
  refine (Collected.item (by rw [hrun]) ?_).collect_eq ?_
  · rwa [getLast?_append, Option.or_assoc]
  · have := length_pos_iff.2 hne
    simp only [length_cons, length_append] at hlength ⊢
    omega

end Takes

end ClassdefDoc.Read
