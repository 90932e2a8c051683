import ClassdefDoc.Collect
import Mathlib.Tactic

/-!
# Runs of a collecting step

`Collected step s as b` says that `step`, run from `s` again and again, gives the items `as` and then the
result `b`. Unlike `collect` it has no budget: `collected_of_collect` and `Collected.collect_eq` tie the two
together. `Chain` is the part of such a run before its result, which can be put together from pieces.
-/

namespace ClassdefDoc

variable {ε σ α β : Type} {step : σ → Except ε (Turn σ α β)}
  {as bs : List α} {b : β} {n : Nat} {s s' : σ} {stuck : ε}

/-- Both parts of a computation that succeeds do. -/
theorem of_bind_eq_ok {x : Except ε α} {f : α → Except ε β} (h : x >>= f = .ok b) :
    ∃ a, x = .ok a ∧ f a = .ok b := by
  cases x with
  | error e => cases h
  | ok a => exact ⟨a, rfl, h⟩

theorem exists_of_isOk {x : Except ε α} (h : x.isOk) : ∃ a, x = .ok a := by
  cases x with
  | error e => cases h
  | ok a => exact ⟨a, rfl⟩

/-- What a computation gives can be looked at. -/
instance decidableExistsOk {x : Except ε α} {P : α → Prop} [DecidablePred P] :
    Decidable (∃ a, x = .ok a ∧ P a) :=
  match x with
  | .error _ => isFalse (by rintro ⟨_, ⟨⟩, _⟩)
  | .ok a => decidable_of_iff (P a) ⟨fun h => ⟨a, rfl, h⟩, by rintro ⟨_, ⟨⟩, h⟩; exact h⟩

instance decidableForallOk {x : Except ε α} {P : α → Prop} [DecidablePred P] :
    Decidable (∀ a, x = .ok a → P a) :=
  match x with
  | .error _ => isTrue (by rintro _ ⟨⟩)
  | .ok a => decidable_of_iff (P a) ⟨by rintro h _ ⟨⟩; exact h, fun h => h a rfl⟩

instance decidableExistsSome {o : Option α} {P : α → Prop} [DecidablePred P] :
    Decidable (∃ a, o = some a ∧ P a) :=
  inferInstanceAs (Decidable (∃ a ∈ o, P a))

/-- The step gives the items one after another and leads from the first state to the last. -/
inductive Chain (step : σ → Except ε (Turn σ α β)) : σ → List α → σ → Prop
  | nil (s : σ) : Chain step s [] s
  | cons {s : σ} {a : α} {next : σ} {as : List α} {s' : σ} :
    step s = .ok (.item a next) → Chain step next as s' → Chain step s (a :: as) s'

/-- The step gives the items one after another and then the result. -/
inductive Collected (step : σ → Except ε (Turn σ α β)) : σ → List α → β → Prop
  | done {s : σ} {b : β} : step s = .ok (.done b) → Collected step s [] b
  | item {s : σ} {a : α} {next : σ} {as : List α} {b : β} :
    step s = .ok (.item a next) → Collected step next as b → Collected step s (a :: as) b

theorem Chain.append {s'' : σ} (h : Chain step s as s') (h' : Chain step s' bs s'') :
    Chain step s (as ++ bs) s'' := by
  induction h with
  | nil s => exact h'
  | cons hstep _ ih => exact .cons hstep (ih h')

theorem Chain.of_append {s'' : σ} (h : Chain step s (as ++ bs) s'') :
    ∃ s', Chain step s as s' ∧ Chain step s' bs s'' := by
  induction as generalizing s with
  | nil => exact ⟨s, .nil s, h⟩
  | cons a as ih =>
    cases h with
    | cons hstep hrest =>
      obtain ⟨s', has, hbs⟩ := ih hrest
      exact ⟨s', .cons hstep has, hbs⟩

theorem Chain.single {a : α} (h : step s = .ok (.item a s')) : Chain step s [a] s' :=
  .cons h (.nil s')

theorem Chain.append_collected (h : Chain step s as s') (h' : Collected step s' bs b) :
    Collected step s (as ++ bs) b := by
  induction h with
  | nil s => exact h'
  | cons hstep _ ih => exact .item hstep (ih h')

theorem Chain.collected (h : Chain step s as s') (hdone : step s' = .ok (.done b)) :
    Collected step s as b := by
  simpa using h.append_collected (.done hdone)

theorem Collected.chain (h : Collected step s as b) :
    ∃ s', Chain step s as s' ∧ step s' = .ok (.done b) := by
  induction h with
  | done h => exact ⟨_, .nil _, h⟩
  | item hstep _ ih =>
    obtain ⟨s', hchain, hdone⟩ := ih
    exact ⟨s', .cons hstep hchain, hdone⟩

/-- A run that ends goes on with every beginning of it. -/
theorem Chain.exists_append {s₁ : σ} (h : Chain step s as s₁)
    (h' : Chain step s bs s') (hdone : step s' = .ok (.done b)) :
    ∃ cs, bs = as ++ cs ∧ Chain step s₁ cs s' := by
  induction h generalizing bs with
  | nil s => exact ⟨bs, rfl, h'⟩
  | cons hstep _ ih =>
    cases h' with
    | nil =>
      rw [hdone] at hstep
      cases hstep
    | cons hstep' hrest =>
      rw [hstep'] at hstep
      cases hstep
      obtain ⟨cs, rfl, hcs⟩ := ih hrest
      exact ⟨cs, rfl, hcs⟩

/-- What every step keeps, a chain keeps. -/
theorem Chain.keeps {P : σ → Prop} (h : Chain step s as s')
    (hkeep : ∀ {s a next}, P s → step s = .ok (.item a next) → P next) (hs : P s) : P s' := by
  induction h with
  | nil s => exact hs
  | cons hstep _ ih => exact ih (hkeep hs hstep)

/-- A run within its budget gives fewer items than the budget. -/
theorem of_collect (h : collect stuck step n s = .ok (as, b)) : Collected step s as b ∧ as.length < n := by
  induction n generalizing s as with
  | zero => cases h
  | succ n ih =>
    simp only [collect] at h
    split at h
    · cases h
    · rename_i hstep
      cases h
      exact ⟨.done hstep, n.succ_pos⟩
    · rename_i hstep
      split at h
      · cases h
      · rename_i hrest
        cases h
        obtain ⟨hmore, hlt⟩ := ih hrest
        exact ⟨.item hstep hmore, Nat.succ_lt_succ hlt⟩

theorem collected_of_collect (h : collect stuck step n s = .ok (as, b)) : Collected step s as b :=
  (of_collect h).1

/-- A run that fails comes to a step that does, or exceeds its budget. -/
theorem error_of_collect {e : ε} (h : collect stuck step n s = .error e) :
    e = stuck ∨ ∃ as s', Chain step s as s' ∧ step s' = .error e := by
  induction n generalizing s with
  | zero =>
    cases h
    exact .inl rfl
  | succ n ih =>
    simp only [collect] at h
    split at h
    · rename_i hstep
      cases h
      exact .inr ⟨[], s, .nil s, hstep⟩
    · cases h
    · rename_i a next hstep
      split at h
      · rename_i hrest
        cases h
        obtain rfl | ⟨as, s', hchain, herror⟩ := ih hrest
        · exact .inl rfl
        · exact .inr ⟨a :: as, s', .cons hstep hchain, herror⟩
      · cases h

/-- A run goes on behind a beginning of it. -/
theorem Chain.collect_append (h : Chain step s as s') (n : Nat) :
    collect stuck step (as.length + n) s = (collect stuck step n s').map fun r => (as ++ r.1, r.2) := by
  induction h with
  | nil s =>
    rw [List.length_nil, Nat.zero_add]
    cases collect stuck step n s <;> rfl
  | @cons s a next as s' hstep _ ih =>
    rw [List.length_cons, Nat.add_right_comm, collect, hstep]
    simp only [ih]
    cases collect stuck step n s' <;> rfl

theorem Collected.collect_eq (h : Collected step s as b) (hn : as.length < n) :
    collect stuck step n s = .ok (as, b) := by
  obtain ⟨s', hchain, hdone⟩ := h.chain
  obtain ⟨k, rfl⟩ := Nat.exists_eq_add_of_lt hn
  rw [Nat.add_assoc, hchain.collect_append, collect, hdone]
  simp [Except.map]

/-- A run gives no more items than the size of its state, if each item makes the state smaller. -/
theorem Collected.length_le (h : Collected step s as b) (size : σ → Nat) {P : σ → Prop} (hs : P s)
    (shrinks : ∀ {s a next}, P s → step s = .ok (.item a next) → P next ∧ size next < size s) :
    as.length ≤ size s := by
  induction h with
  | done _ => exact Nat.zero_le _
  | item hstep _ ih =>
    obtain ⟨hnext, hlt⟩ := shrinks hs hstep
    have := ih hnext
    simp only [List.length_cons]
    omega

end ClassdefDoc
