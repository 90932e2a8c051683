/-!
# Collecting items from a state

`collect` runs a step again and again; each run gives an item and a new state, or ends the whole with
a result. The number of runs is bounded by a budget, which the caller takes from the size of its
input: a step that gives an item makes the state smaller.
-/

namespace ClassdefDoc

variable {ε σ α β : Type}

/-- What one run of a step gives. -/
inductive Turn (σ α β : Type) where
  | item (a : α) (next : σ)
  | done (b : β)

/-- The items that `step` gives from state `s`, and its result; `stuck` is the error of a run that
exceeds its budget. -/
def collect (stuck : ε) (step : σ → Except ε (Turn σ α β)) : Nat → σ → Except ε (List α × β)
  | 0, _ => .error stuck
  | budget + 1, s =>
    match step s with
    | .error e => .error e
    | .ok (.done b) => .ok ([], b)
    | .ok (.item a next) =>
      match collect stuck step budget next with
      | .error e => .error e
      | .ok (items, b) => .ok (a :: items, b)

end ClassdefDoc
