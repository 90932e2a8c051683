import ClassdefDoc.Proofs.Batch.Schedule

/-!
# Batches do not depend on their schedule

If no path of a batch leads to or through another one's output, the workers do not see each other:
at every moment each input is where it would be if it were worked on alone in the tree that the
batch started with. `Steady` is this invariant; it holds at the start and every event keeps it
(`Steady.step`). It gives the report and the files of every schedule that has come to its end.
-/

namespace ClassdefDoc.Batch

open List FileTree
open ClassdefDoc.Path (location trail)

variable {v : Location} {p : Pseudocode} {workers : Nat}

/-- No path of a batch leads to or through an output that is not its own, no output leads through an input,
and no path goes up from a location that an output leads through and that is missing in the tree `t`. -/
structure Apart (b : Batch) (inputs : List Text) (t : FileTree) : Prop where
  betweenOutputs : ∀ i ∈ inputs, ∀ j ∈ inputs, Path.same (b.outputPath i) (b.outputPath j) = false →
    location t.home (b.outputPath i) ∉ trail t.home (b.outputPath j)
  fromInputs : ∀ i ∈ inputs, ∀ j ∈ inputs,
    location t.home (b.outputPath i) ∉ trail t.home j ∧ location t.home j ∉ trail t.home (b.outputPath i)
  rises : ∀ path ∈ inputs ++ inputs.map b.outputPath, ∀ v ∈ Path.rises t.home path, t.find? v = none →
    ∀ i ∈ inputs, v ∉ trail t.home (b.outputPath i)

variable {b : Batch} {inputs : List Text} {i j : Nat} {input input' output output' : Text}
  {t : FileTree} {s s' : BatchState} {stage : Stage}

namespace Apart

variable (h : b.Apart inputs t) (hi : (b.jobs inputs)[i]? = some (input, .ok output))

include h hi

/-- An output goes up only from what the tree holds. -/
theorem grounded : t.GroundedPath output := by
  obtain ⟨hinput, rfl⟩ := outputPath_of_jobs hi
  intro v hv hnone
  refine h.rises _ (mem_append_right _ (mem_map_of_mem hinput)) v hv hnone input hinput ?_
  exact Location.mem_trail_of_mem_rises hv

theorem not_mem_trail (hij : i ≠ j) (hj : (b.jobs inputs)[j]? = some (input', .ok output')) :
    location t.home output ∉ trail t.home output' := by
  have hsame := same_of_jobs hij hi hj
  obtain ⟨hinput, rfl⟩ := outputPath_of_jobs hi
  obtain ⟨hinput', rfl⟩ := outputPath_of_jobs hj
  exact h.betweenOutputs input hinput input' hinput' hsame

theorem not_mem_input (hinput' : input' ∈ inputs) :
    location t.home output ∉ trail t.home input' ∧ location t.home input' ∉ trail t.home output := by
  obtain ⟨hinput, rfl⟩ := outputPath_of_jobs hi
  exact h.fromInputs input hinput input' hinput'

theorem rises_not_mem (hinput' : input' ∈ inputs) (hv : v ∈ Path.rises t.home input')
    (hnone : t.find? v = none) :
    v ∉ trail t.home output := by
  obtain ⟨hinput, rfl⟩ := outputPath_of_jobs hi
  exact h.rises input' (mem_append_left _ hinput') v hv hnone input hinput

end Apart

/-! ## One input alone -/

theorem alone_of_error {e : RunError} (h : b.translation t input = .error e) :
    b.alone t input (.ok output) = ⟨input, .failed e.message, []⟩ := by
  rw [alone, process_run, h]

theorem alone_of_ok (h : b.translation t input = .ok p) :
    b.alone t input (.ok output) = reportOf input output p ((write output p.text).run t).1 := by
  rw [alone, process_run, h]
  rfl

theorem input_alone (b : Batch) (t : FileTree) (input : Text) (planned : Except RunError Text) :
    (b.alone t input planned).input = input := by
  cases planned with
  | error e => rfl
  | ok output =>
    cases h : b.translation t input with
    | error e => rw [alone_of_error h]
    | ok p =>
      rw [alone_of_ok h]
      cases ((write output p.text).run t).1 <;> rfl

/-- An input that is written has its planned output, and its diagnostics are those of its translation. -/
theorem of_alone_written {planned : Except RunError Text}
    (h : (b.alone t input planned).fate = .written output) :
    planned = .ok output ∧ ∃ p, b.translation t input = .ok p ∧
      (b.alone t input planned).diagnostics = p.diagnostics := by
  cases planned with
  | error e => cases h
  | ok output' =>
    cases htranslation : b.translation t input with
    | error e =>
      rw [alone_of_error htranslation] at h
      cases h
    | ok p =>
      rw [alone_of_ok htranslation] at h ⊢
      cases hwrite : ((write output' p.text).run t).1 with
      | error e =>
        rw [hwrite] at h
        cases h
      | ok =>
        rw [hwrite] at h
        cases h
        exact ⟨rfl, p, rfl, rfl⟩

/-! ## The invariant -/

/-- The work on an input has come to where it would be in the tree `t`. -/
def Agrees (b : Batch) (t : FileTree) (input : Text) (planned : Except RunError Text) : Stage → Prop
  | .waiting => True
  | .started output => planned = .ok output
  | .translated output p => planned = .ok output ∧ b.translation t input = .ok p
  | .done f => f = ⟨input, .skipped, []⟩ ∨ f = b.alone t input planned

/-- The output of the input with number `i` is written. -/
def HasWritten (s : BatchState) (i : Nat) (output : Text) : Prop :=
  ∃ f, s.stages[i]? = some (.done f) ∧ f.fate = .written output

theorem hasWritten_set_self (hi : i < s.stages.length) (tree : FileTree) :
    HasWritten { s with tree := tree, stages := s.stages.set i stage } i output ↔
      ∃ f, stage = .done f ∧ f.fate = .written output := by
  rw [HasWritten, getElem?_set_self hi]
  simp only [Option.some.injEq]

theorem hasWritten_set_ne (hij : i ≠ j) (tree : FileTree) :
    HasWritten { s with tree := tree, stages := s.stages.set i stage } j output ↔ HasWritten s j output := by
  rw [HasWritten, HasWritten, getElem?_set_ne hij]

/-- A planned output leads through a location. -/
def LeadsThrough (b : Batch) (inputs : List Text) (t : FileTree) (v : Location) : Prop :=
  ∃ (i : Nat) (input output : Text), (b.jobs inputs)[i]? = some (input, .ok output) ∧
    v ∈ trail t.home output ∧
    v ≠ location t.home output

/-- The batch `b` has come from the tree `t` to the state `s`: the inputs agree with `t`, and the tree
differs from `t` in the outputs that are written and in new directories on the way to outputs. -/
structure Steady (b : Batch) (inputs : List Text) (t : FileTree) (s : BatchState) : Prop where
  length : s.stages.length = inputs.length
  agrees : ∀ {i : Nat} {input : Text} {planned : Except RunError Text} {stage : Stage},
    (b.jobs inputs)[i]? = some (input, planned) → s.stages[i]? = some stage → b.Agrees t input planned stage
  closed : s.tree.Closed
  home : s.tree.home = t.home
  found : ∀ v, s.tree.find? v = t.find? v ∨
    (t.find? v = none ∧ s.tree.find? v = some .dir ∧ b.LeadsThrough inputs t v) ∨
    ∃ i output, HasWritten s i output ∧ v = location t.home output
  written : ∀ {i : Nat} {input output : Text}, (b.jobs inputs)[i]? = some (input, .ok output) →
    HasWritten s i output → ∃ p, b.translation t input = .ok p ∧
      s.tree.find? (location t.home output) = some (.file (some p.text))

namespace Steady

theorem start (ht : t.Closed) : b.Steady inputs t (.start inputs t) where
  length := length_map _
  agrees := by
    intro i input planned stage _ hstage
    obtain ⟨_, -, rfl⟩ := mem_map.1 (mem_of_getElem? hstage)
    exact trivial
  closed := ht
  home := rfl
  found v := .inl rfl
  written := by
    rintro i input output - ⟨f, hstage, -⟩
    obtain ⟨_, -, hwaiting⟩ := mem_map.1 (mem_of_getElem? hstage)
    cases hwaiting

section

variable (h : b.Steady inputs t s)
include h

/-- An output that is written is the planned one. -/
theorem exists_job (hwritten : HasWritten s i output) :
    ∃ input, (b.jobs inputs)[i]? = some (input, .ok output) := by
  obtain ⟨f, hstage, hfate⟩ := hwritten
  have hi : i < (b.jobs inputs).length := by
    rw [length_jobs, ← h.length]
    exact (List.getElem?_eq_some_iff.1 hstage).1
  obtain ⟨⟨input, planned⟩, hjob⟩ : ∃ job, (b.jobs inputs)[i]? = some job := ⟨_, getElem?_eq_getElem hi⟩
  rcases h.agrees hjob hstage with rfl | rfl
  · cases hfate
  · exact ⟨input, (of_alone_written hfate).1 ▸ hjob⟩

/-- What no output leads to or through is the same. -/
theorem find?_eq (hv : ∀ (i : Nat) (input output : Text), (b.jobs inputs)[i]? = some (input, .ok output) →
      v ∉ trail t.home output) : s.tree.find? v = t.find? v := by
  rcases h.found v with hsame | ⟨-, -, i, input, output, hjob, hmem, -⟩ | ⟨i, output, hwritten, rfl⟩
  · exact hsame
  · exact absurd hmem (hv i input output hjob)
  · obtain ⟨input, hjob⟩ := h.exists_job hwritten
    exact absurd (Path.location_mem_trail _ _) (hv i input output hjob)

/-- What stands where no output is written is the same, or a directory is new. -/
theorem grew (hv : ∀ i output, HasWritten s i output → v ≠ location t.home output) : t.Grew s.tree v := by
  rcases h.found v with hsame | ⟨hnone, hdir, -⟩ | ⟨i, output, hwritten, heq⟩
  · exact .inl hsame
  · exact .inr ⟨hnone, hdir⟩
  · exact absurd heq (hv i output hwritten)

/-- An input reads what it reads in the tree that the batch started with. -/
theorem translation_eq (hapart : b.Apart inputs t) (ht : t.Closed) (hinput : input ∈ inputs) :
    b.translation s.tree input = b.translation t input := by
  have hgrew (v : Location) (hv : v ∈ trail t.home input) : t.Grew s.tree v := by
    refine h.grew fun i output hwritten heq => ?_
    obtain ⟨input', hjob⟩ := h.exists_job hwritten
    exact (hapart.not_mem_input hjob hinput).1 (heq ▸ hv)
  have hrises (v : Location) (hv : v ∈ Path.rises t.home input) : s.tree.find? v = t.find? v := by
    rcases hgrew v (Location.mem_trail_of_mem_rises hv) with hsame | ⟨hnone, -⟩
    · exact hsame
    · exact h.find?_eq fun i input' output hjob => hapart.rises_not_mem hjob hinput hv hnone
  have htarget : s.tree.find? (location t.home input) = t.find? (location t.home input) :=
    h.find?_eq fun i input' output hjob => (hapart.not_mem_input hjob hinput).2
  rw [translation, translation, read_congr ht h.home hgrew hrises htarget]

end

section Write

variable (h : b.Steady inputs t s) (hapart : b.Apart inputs t)
  (hjob : (b.jobs inputs)[i]? = some (input, .ok output)) (hnot : ∀ output, ¬HasWritten s i output)

include h hapart hjob hnot

/-- An output that is not yet written leads to what it led to. -/
theorem find?_output : s.tree.find? (location t.home output) = t.find? (location t.home output) := by
  rcases h.found (location t.home output) with hsame | ⟨-, -, j, input', output', hjob', hmem, hne⟩ |
    ⟨j, output', hwritten, heq⟩
  · exact hsame
  · by_cases hij : i = j
    · subst hij
      cases hjob.symm.trans hjob'
      exact absurd rfl hne
    · exact absurd hmem (hapart.not_mem_trail hjob hij hjob')
  · by_cases hij : i = j
    · subst hij
      exact absurd hwritten (hnot output')
    · obtain ⟨input', hjob'⟩ := h.exists_job hwritten
      exact absurd (heq ▸ Path.location_mem_trail _ _) (hapart.not_mem_trail hjob hij hjob')

theorem grew_of_trail (hv : v ∈ trail t.home output) : t.Grew s.tree v := by
  refine h.grew fun j output' hwritten heq => ?_
  by_cases hij : i = j
  · subst hij
    exact hnot output' hwritten
  · obtain ⟨input', hjob'⟩ := h.exists_job hwritten
    exact hapart.not_mem_trail hjob' (Ne.symm hij) hjob (heq ▸ hv)

/-- An output still goes up only from what the tree holds. -/
theorem grounded : s.tree.GroundedPath output := by
  intro v hv
  rw [h.home] at hv
  rcases h.grew_of_trail hapart hjob hnot (Location.mem_trail_of_mem_rises hv) with hsame | ⟨-, hdir⟩
  · rw [hsame]
    exact hapart.grounded hjob v hv
  · rw [hdir]
    rintro ⟨⟩

/-- An output is written as it is written alone. -/
theorem write_eq (ht : t.Closed) (text : Text) :
    ((write output text).run s.tree).1 = ((write output text).run t).1 := by
  refine write_congr ht (hapart.grounded hjob) h.closed (h.grounded hapart hjob hnot) text
    ⟨h.home, fun v hv => ?_⟩ (h.find?_output hapart hjob hnot)
  exact (h.grew_of_trail hapart hjob hnot (Path.mem_trail_iff.2 (.inl hv))).isFile_iff

end Write

section Step

variable {planned : Except RunError Text} {stage stage' : Stage}

theorem agrees_set (h : b.Steady inputs t s) (hjob : (b.jobs inputs)[i]? = some (input, planned))
    (hagrees : b.Agrees t input planned stage') (hi : i < s.stages.length) {planned' : Except RunError Text}
    (hjob' : (b.jobs inputs)[j]? = some (input', planned'))
    (hstage : (s.stages.set i stage')[j]? = some stage) :
    b.Agrees t input' planned' stage := by
  by_cases hij : i = j
  · subst hij
    rw [getElem?_set_self hi] at hstage
    cases hstage
    cases hjob.symm.trans hjob'
    exact hagrees
  · rw [getElem?_set_ne hij] at hstage
    exact h.agrees hjob' hstage

theorem not_hasWritten (hstage : s.stages[i]? = some stage) (hreport : stage.report? = none) (output : Text) :
    ¬HasWritten s i output := by
  rintro ⟨f, hdone, -⟩
  cases hstage.symm.trans hdone
  cases hreport

/-- A step that writes nothing. -/
theorem set (h : b.Steady inputs t s) (hjob : (b.jobs inputs)[i]? = some (input, planned))
    (hstage : s.stages[i]? = some stage) (hreport : stage.report? = none)
    (hagrees : b.Agrees t input planned stage')
    (hfate : ∀ f output, stage' = .done f → f.fate ≠ .written output) :
    b.Steady inputs t { s with stages := s.stages.set i stage' } := by
  have hi : i < s.stages.length := (List.getElem?_eq_some_iff.1 hstage).1
  have hwritten (j : Nat) (output : Text) :
      HasWritten { s with stages := s.stages.set i stage' } j output ↔ HasWritten s j output := by
    by_cases hij : i = j
    · subst hij
      rw [hasWritten_set_self hi]
      refine ⟨?_, fun hold => absurd hold (not_hasWritten hstage hreport output)⟩
      rintro ⟨f, hdone, hf⟩
      exact absurd hf (hfate f output hdone)
    · exact hasWritten_set_ne hij s.tree
  refine ⟨by rw [length_set, h.length], h.agrees_set hjob hagrees hi,
    h.closed, h.home, fun v => ?_, fun hjob' hold => ?_⟩
  · simp only [hwritten]
    exact h.found v
  · exact h.written hjob' ((hwritten _ _).1 hold)

end Step

section

variable (h : b.Steady inputs t s) (hapart : b.Apart inputs t) (ht : t.Closed)
include h hapart ht

/-- The writing of an output. -/
theorem write (hjob : (b.jobs inputs)[i]? = some (input, .ok output))
    (hstage : s.stages[i]? = some (.translated output p)) :
    b.Steady inputs t { s with
      tree := ((write output p.text).run s.tree).2
      stages :=
  s.stages.set i (.done (reportOf input output p ((write output p.text).run s.tree).1)) } := by
  have hi : i < s.stages.length := (List.getElem?_eq_some_iff.1 hstage).1
  have hnot := not_hasWritten hstage rfl
  have htranslation : b.translation t input = .ok p := (h.agrees hjob hstage).2
  have hwrote := write_effect h.closed (h.grounded hapart hjob hnot) p.text
  have hresult := h.write_eq hapart hjob hnot ht p.text
  generalize ((FileTree.write output p.text).run s.tree).1 = r at hwrote hresult
  generalize ((FileTree.write output p.text).run s.tree).2 = tree at hwrote
  have hself (output' : Text) :
      HasWritten { s with tree := tree, stages := s.stages.set i (.done (reportOf input output p r)) }
      i output' ↔ r = .ok () ∧ output' = output := by
    rw [hasWritten_set_self hi]
    constructor
    · rintro ⟨f, hf, hfate⟩
      cases hf
      cases r with
      | error e => cases hfate
      | ok =>
        cases hfate
        exact ⟨rfl, rfl⟩
    · rintro ⟨rfl, rfl⟩
      exact ⟨_, rfl, rfl⟩
  have hother {j : Nat} {output' : Text} (hold : HasWritten s j output') :
      HasWritten { s with tree := tree, stages := s.stages.set i (.done (reportOf input output p r)) }
      j output' :=
    (hasWritten_set_ne (fun hij : i = j => hnot output' (hij ▸ hold)) tree).2 hold
  obtain ⟨hclosed, hhome, helsewhere, habove, hfailed, hwritten⟩ := hwrote
  rw [h.home] at hhome helsewhere habove hfailed hwritten
  refine ⟨by rw [length_set, h.length], h.agrees_set hjob ?_ hi, hclosed, hhome, fun v => ?_, ?_⟩
  · exact .inr (by rw [alone_of_ok htranslation, hresult])
  · by_cases hv : v = location t.home output
    · subst hv
      by_cases hr : r = .ok ()
      · exact .inr (.inr ⟨i, output, (hself output).2 ⟨hr, rfl⟩, rfl⟩)
      · exact .inl ((hfailed hr).trans (h.find?_output hapart hjob hnot))
    rcases habove v hv with hsame | ⟨hnone, hdir⟩
    · rw [hsame]
      refine (h.found v).imp id (Or.imp id ?_)
      rintro ⟨j, output', hold, rfl⟩
      exact ⟨j, output', hother hold, rfl⟩
    · -- the directory is new to the batch too: what stood at `v` in `s` was not made by another write
      have hmem : v ∈ trail t.home output := by
        by_contra hmem
        cases hnone.symm.trans ((helsewhere v hmem).symm.trans hdir)
      refine .inr (.inl ⟨?_, hdir, i, input, output, hjob, hmem, hv⟩)
      rcases h.found v with heq | ⟨-, hsome, -⟩ | ⟨j, output', hold, rfl⟩
      · rw [← heq, hnone]
      · cases hsome.symm.trans hnone
      · obtain ⟨input', hjob'⟩ := h.exists_job hold
        obtain ⟨p', -, hfile⟩ := h.written hjob' hold
        cases hfile.symm.trans hnone
  · intro j input' output' hjob' hnew
    by_cases hij : i = j
    · subst hij
      cases hjob.symm.trans hjob'
      exact ⟨p, htranslation, hwritten ((hself output).1 hnew).1⟩
    · obtain ⟨p', htranslation', hfile⟩ := h.written hjob' ((hasWritten_set_ne hij tree).1 hnew)
      refine ⟨p', htranslation', ?_⟩
      rw [helsewhere _ (hapart.not_mem_trail hjob' (Ne.symm hij) hjob), hfile]

/-- Every event keeps the invariant. -/
theorem step {e : Event} (hstep : b.step inputs workers s e = some s') : b.Steady inputs t s' := by
  cases e with
  | cancel =>
    cases hstep
    exact ⟨h.length, h.agrees, h.closed, h.home, h.found, h.written⟩
  | work i =>
    obtain ⟨input, planned, stage, stage', tree, hjob, hstage, hadvance, rfl⟩ := step_work_eq_some hstep
    have hagrees := h.agrees hjob hstage
    cases stage with
    | waiting =>
      simp only [advance] at hadvance
      split_ifs at hadvance
      · cases hadvance
        exact h.set hjob hstage rfl (.inl rfl) (by rintro f output ⟨⟩ ⟨⟩)
      · cases planned with
        | error e =>
          cases hadvance
          exact h.set hjob hstage rfl (.inr rfl) (by rintro f output ⟨⟩ ⟨⟩)
        | ok output =>
          cases hadvance
          exact h.set hjob hstage rfl rfl (by rintro f output ⟨⟩)
    | started output =>
      obtain rfl : planned = .ok output := hagrees
      have hinput : input ∈ inputs := (outputPath_of_jobs hjob).1
      rw [advance, h.translation_eq hapart ht hinput] at hadvance
      cases htranslation : b.translation t input with
      | error e =>
        rw [htranslation] at hadvance
        cases hadvance
        exact h.set hjob hstage rfl (.inr (alone_of_error htranslation).symm) (by rintro f output ⟨⟩ ⟨⟩)
      | ok p =>
        rw [htranslation] at hadvance
        cases hadvance
        exact h.set hjob hstage rfl ⟨rfl, htranslation⟩ (by rintro f output ⟨⟩)
    | translated output p =>
      obtain ⟨rfl, -⟩ : planned = .ok output ∧ _ := hagrees
      cases hadvance
      exact h.write hapart ht hjob hstage
    | done f => cases hadvance

/-- Every schedule keeps the invariant. -/
theorem run {events : List Event}
    (hrun : events.foldlM (b.step inputs workers) s = some s') : b.Steady inputs t s' := by
  induction events generalizing s with
  | nil =>
    cases hrun
    exact h
  | cons e events ih =>
    rw [foldlM_cons, Option.bind_eq_bind, Option.bind_eq_some_iff] at hrun
    obtain ⟨next, hstep, hrun⟩ := hrun
    exact ih (h.step hapart ht hstep) hrun

end

end Steady

end ClassdefDoc.Batch
