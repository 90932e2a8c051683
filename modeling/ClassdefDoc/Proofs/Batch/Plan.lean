import ClassdefDoc.Proofs.Batch.Schedule

/-!
# Plans of a batch

While a plan is made, the claimed outputs hold the first claimant of every output seen so far
and nothing else (`Claims`). So what an input is given depends on the inputs before it only
(`planAfter_getElem?_eq`): its own output if none of them has that output, and otherwise the
collision with the first of them that has it, also when there are more (`plan_first_claimant`).
-/

namespace ClassdefDoc

open List

namespace Path

variable {p q : Text}

theorem same_iff : same p q ↔ parts p = parts q := beq_iff_eq

end Path

namespace Batch

variable {b : Batch} {earlier inputs : List Text} {claimed : List (Text × Text)}
  {i : Nat} {input first output path : Text}

/-- Whether the output of an input is a path. -/
def hasOutput (b : Batch) (path input : Text) : Bool := Path.same (b.outputPath input) path

theorem hasOutput_congr {path' : Text} (h : Path.same path path') : b.hasOutput path = b.hasOutput path' := by
  funext input
  rw [hasOutput, hasOutput, Path.same, Path.same, Path.same_iff.1 h]

/-- The claimed outputs are those of the earlier inputs, each with the first input that has it. -/
def Claims (b : Batch) (earlier : List Text) (claimed : List (Text × Text)) : Prop :=
  ∀ path, claimed.find? (fun c => Path.same c.1 path) =
    (earlier.find? (b.hasOutput path)).map fun first => (b.outputPath first, first)

namespace Claims

theorem nil (b : Batch) : b.Claims [] [] := fun _ => rfl

/-- An output that is claimed is not claimed again. -/
theorem taken (h : b.Claims earlier claimed)
    (hfirst : earlier.find? (b.hasOutput (b.outputPath input)) = some first) :
    b.Claims (earlier ++ [input]) claimed := by
  intro path
  rw [h path, find?_append]
  cases hpath : b.hasOutput path input with
  | false => simp [hpath]
  | true =>
    rw [← hasOutput_congr hpath, hfirst]
    rfl

theorem free (h : b.Claims earlier claimed)
    (hnone : earlier.find? (b.hasOutput (b.outputPath input)) = none) :
    b.Claims (earlier ++ [input]) ((b.outputPath input, input) :: claimed) := by
  intro path
  rw [find?_cons, find?_append, h path]
  cases hpath : b.hasOutput path input with
  | false =>
    rw [hasOutput] at hpath
    simp [hpath, hasOutput]
  | true =>
    have hself : b.hasOutput (b.outputPath input) input := beq_self_eq_true _
    rw [hasOutput] at hpath
    rw [hpath, ← hasOutput_congr hpath, hnone, find?_singleton, hself]
    rfl

end Claims

/-- What an input behind others is given. -/
def given (b : Batch) (earlier : List Text) (input : Text) : Except RunError Text :=
  match earlier.find? (b.hasOutput (b.outputPath input)) with
  | none => .ok (b.outputPath input)
  | some first => .error (.collision input (b.outputPath first) first)

theorem planAfter_getElem?_eq (h : b.Claims earlier claimed) (hinput : inputs[i]? = some input) :
    (b.planAfter claimed inputs)[i]? = some (b.given (earlier ++ inputs.take i) input) := by
  induction inputs generalizing earlier claimed i with
  | nil => cases hinput
  | cons next inputs ih =>
    have hnext := h (b.outputPath next)
    rw [planAfter]
    cases hfirst : earlier.find? (b.hasOutput (b.outputPath next)) with
    | none =>
      rw [hfirst, Option.map_none] at hnext
      rw [hnext]
      cases i with
      | zero =>
        cases hinput
        simp [given, hfirst]
      | succ i => simpa using ih (h.free hfirst) hinput
    | some first =>
      rw [hfirst, Option.map_some] at hnext
      rw [hnext]
      cases i with
      | zero =>
        cases hinput
        simp [given, hfirst]
      | succ i => simpa using ih (h.taken hfirst) hinput

theorem plan_getElem? (hinput : inputs[i]? = some input) :
    (b.plan inputs)[i]? = some (b.given (inputs.take i) input) :=
  planAfter_getElem?_eq (Claims.nil b) hinput

theorem given_eq_ok_iff : b.given earlier input = .ok output ↔
    output = b.outputPath input ∧ ∀ q ∈ earlier, Path.same (b.outputPath q) (b.outputPath input) = false := by
  rw [given]
  cases hfirst : earlier.find? (b.hasOutput (b.outputPath input)) with
  | none =>
    have hnone : ∀ q ∈ earlier, Path.same (b.outputPath q) (b.outputPath input) = false := by
      simpa [hasOutput] using hfirst
    rw [and_iff_left hnone, Except.ok.injEq, eq_comm]
  | some first =>
    have hmem := mem_of_find?_eq_some hfirst
    have hsame := find?_some hfirst
    simp only [reduceCtorEq, false_iff, not_and]
    exact fun _ hnone => Bool.noConfusion ((hnone first hmem).symm.trans hsame)

/-- An input is refused exactly if an earlier one has its output. -/
theorem exists_given_eq_error_iff : (∃ e, b.given earlier input = .error e) ↔
    ∃ q ∈ earlier, Path.same (b.outputPath q) (b.outputPath input) := by
  rw [given]
  cases hfirst : earlier.find? (b.hasOutput (b.outputPath input)) with
  | none => simpa [hasOutput] using hfirst
  | some first =>
    have hsame : b.hasOutput (b.outputPath input) first := find?_some hfirst
    exact iff_of_true ⟨_, rfl⟩ ⟨first, mem_of_find?_eq_some hfirst, hsame⟩

theorem given_eq_error_iff {e : RunError} : b.given earlier input = .error e ↔
    ∃ first, earlier.find? (b.hasOutput (b.outputPath input)) = some first ∧
      e = .collision input (b.outputPath first) first := by
  rw [given]
  cases earlier.find? (b.hasOutput (b.outputPath input)) with
  | none => simp
  | some first => simp [eq_comm]

/-- Every input is given its output or a collision, in order; given outputs are different paths; and an
input collides exactly if an earlier one has its output, with the first input of the list that has it. -/
theorem plan_first_claimant (b : Batch) (inputs : List Text) :
    (b.plan inputs).length = inputs.length ∧
      (∀ (i j : Nat) (p q : Text), i ≠ j → (b.plan inputs)[i]? = some (.ok p) →
        (b.plan inputs)[j]? = some (.ok q) →
        Path.same p q = false) ∧
      ∀ (i : Nat) (input : Text), inputs[i]? = some input →
        ((∃ p, (b.plan inputs)[i]? = some (.ok p)) ↔
          ∀ q ∈ inputs.take i, Path.same (b.outputPath q) (b.outputPath input) = false) ∧
        (∀ p, (b.plan inputs)[i]? = some (.ok p) → p = b.outputPath input) ∧
        ((∃ q ∈ inputs.take i, Path.same (b.outputPath q) (b.outputPath input) = true) →
          ∃ first, inputs.find? (fun q => Path.same (b.outputPath q) (b.outputPath input)) = some first ∧
            (b.plan inputs)[i]? = some (.error (.collision input (b.outputPath first) first))) := by
  refine ⟨length_planAfter b [] inputs, fun i j p q hij hi hj => ?_, fun i input hinput => ?_⟩
  · rcases Nat.lt_or_gt_of_ne hij with hlt | hlt
    · exact planAfter_ne hlt hi hj
    · rw [Path.same, Bool.beq_comm]
      exact planAfter_ne hlt hj hi
  · rw [plan_getElem? hinput]
    simp only [Option.some.injEq, given_eq_ok_iff, given_eq_error_iff]
    refine ⟨⟨fun h => ?_, fun hnone => ⟨_, rfl, hnone⟩⟩, fun p hp => hp.1, fun h => ?_⟩
    · obtain ⟨_, _, hnone⟩ := h
      exact hnone
    obtain ⟨q, hq, hsame⟩ := h
    have hfound : ((inputs.take i).find? (b.hasOutput (b.outputPath input))).isSome = true :=
      List.find?_isSome.2 ⟨q, hq, hsame⟩
    obtain ⟨first, hfirst⟩ := Option.isSome_iff_exists.1 hfound
    refine ⟨first, ?_, first, hfirst, rfl⟩
    -- the first one before the input is the first one of all
    have happend : (inputs.take i ++ inputs.drop i).find? (b.hasOutput (b.outputPath input)) = _ :=
      List.find?_append
    rw [List.take_append_drop, hfirst] at happend
    exact happend

/-- Of four inputs, three have one output: the first one is given it, the
others collide with the first one. -/
theorem plan_three_claimants :
    let b : Batch := ⟨{}, "out", "cc"⟩
    let inputs : List Text := ["a/A.m", "b/A.m", "+p/A.m", "c//A.m"]
    b.plan inputs = [.ok "out/A.cc", .error (.collision "b/A.m" "out/A.cc" "a/A.m"), .ok "out/+p/A.cc",
        .error (.collision "c//A.m" "out/A.cc" "a/A.m")] ∧
      ∃ first, inputs.find? (fun q => Path.same (b.outputPath q) (b.outputPath "c//A.m")) = some first ∧
        (b.plan inputs)[3]? = some (.error (.collision "c//A.m" (b.outputPath first) first)) :=
  ⟨by decide +kernel, ((plan_first_claimant _ _).2.2 3 "c//A.m" rfl).2.2 ⟨"b/A.m", by decide +kernel⟩⟩

end Batch

end ClassdefDoc
