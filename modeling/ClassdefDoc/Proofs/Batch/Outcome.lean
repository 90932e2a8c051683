import ClassdefDoc.Proofs.Batch.Independence

/-!
# The outcome of a batch

A schedule has come to its end when no input can be worked on any more. Its report then has one
entry for each input, in order: the input was skipped because the flag was set before its first
step (`skipped_of_run`), or the entry is the one that the input has when it is worked on alone.
The files are those of the start and the outputs that are reported as written (`exists_outcome`).
What is written is what a filter request for the input gives (`filter_on_of_batch`).

Paths are compared by where they lead from the working directory. `Apart` also
keeps paths from going up with `..` out of a directory that the batch makes, for
such a path leads somewhere only after the directory is made (`not_alone_of_rise`).
-/

namespace ClassdefDoc

open List FileTree
open Option (bind_eq_bind bind_eq_some_iff map_eq_some_iff map_none map_some)

/-- The content of the file at a location. -/
def FileTree.file? (t : FileTree) (v : Location) : Option (Option Text) :=
  match t.find? v with
  | some (.file content) => some content
  | _ => none

/-! ## Filter requests -/

/-- The result of a part of a run on a file tree. -/
def RunM.on {α : Type} (m : RunM (StateM FileTree) α) (t : FileTree) : Except RunError α × FileTree :=
  StateT.run (ExceptT.run m) t

section Filter

variable {α β : Type} {settings : Settings} {t t' : FileTree}

theorem RunM.on_bind (m : RunM (StateM FileTree) α) (f : α → RunM (StateM FileTree) β) (t : FileTree) :
    (m >>= f).on t = match m.on t with
      | (.ok a, t₁) => (f a).on t₁
      | (.error e, t₁) => (.error e, t₁) := by
  rw [RunM.on, ExceptT.run_bind, StateT.run_bind, RunM.on]
  rcases StateT.run m.run t with ⟨_ | _, t₁⟩ <;> rfl

/-- A part of a run changes no file. -/
def RunM.Keeps (m : RunM (StateM FileTree) α) : Prop := ∀ t, (m.on t).2 = t

theorem RunM.Keeps.bind {m : RunM (StateM FileTree) α} {f : α → RunM (StateM FileTree) β} (hm : m.Keeps)
    (hf : ∀ a, (f a).Keeps) : (m >>= f).Keeps := by
  intro t
  have ht := hm t
  rw [RunM.on_bind]
  generalize m.on t = r at ht
  obtain ⟨_ | a, t₁⟩ := r
  · exact ht
  · exact (hf a t₁).trans ht

theorem MacroTable.keeps_load (path : Text) : (MacroTable.load disk path).Keeps := by
  refine .bind (fun _ => rfl) fun text _ => ?_
  split <;> rfl

theorem Settings.keeps_options (settings : Settings) : (settings.options disk).Keeps := by
  rw [Settings.options]
  split
  · refine .bind (MacroTable.keeps_load _) fun macros _ => ?_
    dsimp only
    split <;> rfl
  · refine .bind (fun _ => rfl) fun macros _ => ?_
    dsimp only
    split <;> rfl

/-- A filter request with the settings and the group of a batch request
gives what the batch makes of its input. -/
theorem filter_on_of_batch {request : BatchRequest} {b : Batch}
    (h : (request.batch disk settings).on t = (.ok b, t')) (input : Text) :
    (FilterRequest.pseudocode disk settings { input := input, group := request.group }).on t =
      (b.translation t input, t) := by
  obtain ⟨r, hoptions⟩ : ∃ r, (settings.options disk).on t = (r, t) :=
    ⟨_, Prod.ext rfl (settings.keeps_options t)⟩
  rw [BatchRequest.batch, RunM.on_bind, hoptions] at h
  cases r with
  | error e => cases h
  | ok o =>
    dsimp only at h
    split at h
    · cases h
    · rename_i o' hchecked
      cases h
      rw [FilterRequest.pseudocode, RunM.on_bind, hoptions]
      show RunM.on (disk.readFile input (.read input) >>= _) t = _
      rw [RunM.on_bind, RunM.on, Batch.readFile_run, Batch.translation]
      cases t.read input with
      | error e => rfl
      | ok text =>
        simp only [Except.mapError, RunM.on_bind]
        rw [hchecked]
        rfl

end Filter

namespace Batch

variable {b : Batch} {inputs : List Text} {workers i j : Nat}
  {t : FileTree} {s s' : BatchState} {events : List Event}

/-! ## Skipped inputs -/

/-- The flag is set before the first step of the input with number `i`. -/
def CancelledBefore (events : List Event) (i : Nat) : Prop :=
  ∃ before after, events = before ++ .work i :: after ∧ .cancel ∈ before ∧ .work i ∉ before

theorem CancelledBefore.cons {e : Event} (he : e ≠ .work i) (h : CancelledBefore events i) :
    CancelledBefore (e :: events) i := by
  obtain ⟨before, after, rfl, hcancel, hnone⟩ := h
  exact ⟨e :: before, after, rfl, mem_cons_of_mem _ hcancel, not_mem_cons_of_ne_of_not_mem (Ne.symm he) hnone⟩

/-- The work on an input has begun, and the input is not skipped. -/
def Begun : Stage → Prop
  | .waiting => False
  | .done f => f.fate ≠ .skipped
  | _ => True

theorem begun_advance {cancelled : Bool} {input : Text} {planned : Except RunError Text}
    {stage stage' : Stage} {tree : FileTree}
    (h : b.advance t cancelled input planned stage = some (stage', tree))
    (hstage : Begun stage ∨ cancelled = false) : Begun stage' := by
  cases stage with
  | waiting =>
    obtain rfl := hstage.resolve_left id
    cases planned <;> cases h
    · exact Fate.noConfusion
    · exact trivial
  | started output =>
    rw [advance] at h
    split at h <;> cases h
    · exact Fate.noConfusion
    · exact trivial
  | translated output p =>
    cases h
    show (reportOf input output p ((write output p.text).run t).1).fate ≠ .skipped
    cases ((write output p.text).run t).1 <;> exact Fate.noConfusion
  | done f => cases h

section

variable (hrun : events.foldlM (b.step inputs workers) s = some s')
include hrun

/-- An input whose work has begun is never skipped. -/
theorem begun_run (hbegun : ∃ stage, s.stages[i]? = some stage ∧ Begun stage) :
    ∃ stage, s'.stages[i]? = some stage ∧ Begun stage := by
  induction events generalizing s with
  | nil =>
    cases hrun
    exact hbegun
  | cons e events ih =>
    rw [foldlM_cons, bind_eq_bind, bind_eq_some_iff] at hrun
    obtain ⟨next, hstep, hrun⟩ := hrun
    refine ih hrun ?_
    cases e with
    | cancel =>
      cases hstep
      exact hbegun
    | work j =>
      obtain ⟨input, planned, stage, stage', tree, -, hstage, hadvance, rfl⟩ := step_work_eq_some hstep
      by_cases hij : j = i
      · subst hij
        obtain ⟨old, hold, hbegun⟩ := hbegun
        cases hstage.symm.trans hold
        exact ⟨stage', getElem?_set_self (List.getElem?_eq_some_iff.1 hstage).1,
          begun_advance hadvance (.inl hbegun)⟩
      · simp only [getElem?_set_ne hij]
        exact hbegun

/-- An input is skipped only if the flag is set before its first step, or was set at the start. -/
theorem skipped_of_run {f : FileReport}
    (hwaiting : s.stages[i]? = some .waiting) (hdone : s'.stages[i]? = some (.done f))
    (hf : f.fate = .skipped) :
    (s.cancelled ∧ ∃ before after, events = before ++ .work i :: after ∧ .work i ∉ before) ∨
      CancelledBefore events i := by
  induction events generalizing s with
  | nil =>
    cases hrun
    cases hwaiting.symm.trans hdone
  | cons e events ih =>
    rw [foldlM_cons, bind_eq_bind, bind_eq_some_iff] at hrun
    obtain ⟨next, hstep, hrun⟩ := hrun
    cases e with
    | cancel =>
      cases hstep
      refine .inr ?_
      rcases ih hrun hwaiting with ⟨-, before, after, rfl, hnone⟩ | hbefore
      · exact ⟨.cancel :: before, after, rfl, mem_cons_self,
          not_mem_cons_of_ne_of_not_mem (by rintro ⟨⟩) hnone⟩
      · exact hbefore.cons (by rintro ⟨⟩)
    | work j =>
      obtain ⟨input, planned, stage, stage', tree, -, hstage, hadvance, rfl⟩ := step_work_eq_some hstep
      by_cases hij : j = i
      · subst hij
        refine .inl ⟨?_, [], events, rfl, not_mem_nil⟩
        by_contra hclear
        have hbegun := begun_advance hadvance (.inr (Bool.eq_false_of_not_eq_true hclear))
        have hset := getElem?_set_self (a := stage') (List.getElem?_eq_some_iff.1 hstage).1
        obtain ⟨last, hlast, hbegun⟩ := begun_run hrun ⟨stage', hset, hbegun⟩
        cases hlast.symm.trans hdone
        exact hbegun hf
      · have hne : Event.work j ≠ .work i := fun h => hij (Event.work.inj h)
        rcases ih hrun ((getElem?_set_ne hij).trans hwaiting) with ⟨hset, before, after, rfl, hnone⟩ | hbefore
        · exact .inl ⟨hset, .work j :: before, after, rfl, not_mem_cons_of_ne_of_not_mem (Ne.symm hne) hnone⟩
        · exact .inr (hbefore.cons hne)

end

/-! ## The outcome -/

/-- What a batch that starts in the tree `t` leaves when it has come to the state `s`. -/
structure Outcome (b : Batch) (inputs : List Text) (t : FileTree) (events : List Event) (s : BatchState)
    (files : List FileReport) : Prop where
  report : s.report? = some ⟨files⟩
  order : files.map (·.input) = inputs
  skipped : ∀ {i : Nat} {f : FileReport}, files[i]? = some f → f.fate = .skipped → CancelledBefore events i
  /-- Every other entry is the one of the input alone. -/
  alone : ∀ {i : Nat} {f : FileReport}, files[i]? = some f → f.fate ≠ .skipped →
    ∃ planned, (b.plan inputs)[i]? = some planned ∧ f = b.alone t f.input planned
  /-- What is written is the result of a filter request with the same settings. -/
  written : ∀ f ∈ files, ∀ {output : Text}, f.fate = .written output → ∃ p : Pseudocode,
    b.translation t f.input = .ok p ∧ f.diagnostics = p.diagnostics ∧
      s.tree.file? (Path.location t.home output) = some (some p.text) ∧
      ∀ (settings : Settings) (request : BatchRequest) (tree : FileTree),
        (request.batch disk settings).on t = (.ok b, tree) →
          (FilterRequest.pseudocode disk settings { input := f.input, group := request.group }).on t =
            (.ok p, t)
  /-- No other file is new or changed. -/
  kept : ∀ v, (∀ f ∈ files, ∀ output, f.fate = .written output → v ≠ Path.location t.home output) →
    s.tree.file? v = t.file? v

variable {files : List FileReport} {r : Report}

theorem stages_of_report? (h : s.report? = some r) : s.stages = r.files.map .done := by
  obtain ⟨files, hfiles, rfl⟩ := map_eq_some_iff.1 h
  clear h
  generalize s.stages = stages at hfiles
  induction stages generalizing files with
  | nil =>
    cases hfiles
    rfl
  | cons stage stages ih =>
    simp only [mapM_cons, bind_eq_bind, bind_eq_some_iff, Option.pure_def] at hfiles
    obtain ⟨f, hf, rest, hrest, heq⟩ := hfiles
    cases heq
    cases stage with
    | done =>
      cases hf
      rw [map_cons, ← ih rest hrest]
    | _ => cases hf

/-- When there is a report, no input can be worked on any more. -/
theorem step_of_report? (h : s.report? = some r) (i : Nat) : b.step inputs workers s (.work i) = none := by
  by_contra hsome
  obtain ⟨s', hstep⟩ := Option.ne_none_iff_exists'.1 hsome
  obtain ⟨input, planned, stage, stage', tree, -, hstage, hadvance, -⟩ := step_work_eq_some hstep
  rw [stages_of_report? h] at hstage
  obtain ⟨f, -, rfl⟩ := mem_map.1 (mem_of_getElem? hstage)
  cases hadvance

/-- The outcome of a schedule that has come to its end. -/
theorem outcome_of_stages (hapart : b.Apart inputs t) (ht : t.Closed)
    (hrun : b.runSchedule inputs workers t events = some s) (hfiles : s.stages = files.map .done) :
    b.Outcome inputs t events s files := by
  have hsteady : b.Steady inputs t s := (Steady.start ht).run hapart ht hrun
  have hlength : files.length = inputs.length := by rw [← hsteady.length, hfiles, length_map]
  have hstage {i : Nat} {f : FileReport} (hf : files[i]? = some f) : s.stages[i]? = some (.done f) := by
    rw [hfiles, getElem?_map, hf]
    rfl
  -- every entry is the one of its job
  have hentry {i : Nat} {f : FileReport} (hf : files[i]? = some f) :
      ∃ input planned, (b.jobs inputs)[i]? = some (input, planned) ∧ f.input = input ∧
        (f.fate = .skipped ∨ f = b.alone t input planned) := by
    have hi : i < (b.jobs inputs).length := by
      rw [length_jobs, ← hlength]
      exact (List.getElem?_eq_some_iff.1 hf).1
    obtain ⟨⟨input, planned⟩, hjob⟩ : ∃ job, (b.jobs inputs)[i]? = some job := ⟨_, getElem?_eq_getElem hi⟩
    refine ⟨input, planned, hjob, ?_⟩
    rcases hsteady.agrees hjob (hstage hf) with rfl | rfl
    · exact ⟨rfl, .inl rfl⟩
    · exact ⟨input_alone b t input planned, .inr rfl⟩
  refine ⟨report?_of_stages hfiles, ?_, fun {i f} hf hskipped => ?_, fun {i f} hf hnot => ?_,
    fun f hf output hwritten => ?_, fun v hv => ?_⟩
  · refine ext_getElem? fun i => ?_
    rw [getElem?_map]
    cases hf : files[i]? with
    | none => rw [map_none, eq_comm, List.getElem?_eq_none_iff, ← hlength, ← List.getElem?_eq_none_iff, hf]
    | some f =>
      obtain ⟨input, planned, hjob, hinput, -⟩ := hentry hf
      rw [map_some, hinput, (getElem?_jobs.1 hjob).1]
  · have hi : i < inputs.length := hlength ▸ (List.getElem?_eq_some_iff.1 hf).1
    have hwaiting : (BatchState.start inputs t).stages[i]? = some .waiting := by
      rw [BatchState.start, getElem?_map, getElem?_eq_getElem hi]
      rfl
    rcases skipped_of_run hrun hwaiting (hstage hf) hskipped with ⟨hset, -⟩ | hbefore
    · cases hset
    · exact hbefore
  · obtain ⟨input, planned, hjob, rfl, hskipped | hf⟩ := hentry hf
    · exact absurd hskipped hnot
    · exact ⟨planned, (getElem?_jobs.1 hjob).2, hf⟩
  · obtain ⟨i, hf⟩ := mem_iff_getElem?.1 hf
    obtain ⟨input, planned, hjob, rfl, hskipped | heq⟩ := hentry hf
    · cases hskipped.symm.trans hwritten
    · obtain ⟨rfl, p, htranslation, hdiagnostics⟩ := of_alone_written (heq ▸ hwritten)
      obtain ⟨p', htranslation', hfile⟩ := hsteady.written hjob ⟨f, hstage hf, hwritten⟩
      cases htranslation.symm.trans htranslation'
      refine ⟨p, htranslation, heq ▸ hdiagnostics, ?_, fun settings request tree hbatch => ?_⟩
      · rw [file?, hfile]
      · rw [filter_on_of_batch hbatch, htranslation]
  · rcases hsteady.found v with hsame | ⟨hnone, hdir, -⟩ | ⟨i, output, ⟨f, hf, hwritten⟩, rfl⟩
    · rw [file?, file?, hsame]
    · rw [file?, file?, hnone, hdir]
    · rw [hfiles, getElem?_map, map_eq_some_iff] at hf
      obtain ⟨f', hf', hf⟩ := hf
      cases hf
      exact absurd rfl (hv f (mem_of_getElem? hf') output hwritten)

namespace Outcome

/-- Without a cancel every entry is the one of its input alone. -/
theorem files_eq (h : b.Outcome inputs t events s files) (hcancel : .cancel ∉ events) :
    files = (b.jobs inputs).map fun (input, planned) => b.alone t input planned := by
  have hlength : files.length = inputs.length := by rw [← h.order, length_map]
  refine ext_getElem? fun i => ?_
  rw [getElem?_map]
  cases hf : files[i]? with
  | none =>
    rw [List.getElem?_eq_none_iff, hlength, ← length_jobs b inputs, ← List.getElem?_eq_none_iff] at hf
    rw [hf, map_none]
  | some f =>
    have hnot : f.fate ≠ .skipped := by
      intro hskipped
      obtain ⟨before, after, rfl, hmem, -⟩ := h.skipped hf hskipped
      exact hcancel (mem_append_left _ hmem)
    obtain ⟨planned, hplanned, heq⟩ := h.alone hf hnot
    have hinput : inputs[i]? = some f.input := by rw [← h.order, getElem?_map, hf, map_some]
    rw [getElem?_jobs.2 ⟨hinput, hplanned⟩, map_some]
    exact congrArg some heq

/-- The files follow from the report. -/
theorem file?_eq {events' : List Event} (h : b.Outcome inputs t events s files)
    (h' : b.Outcome inputs t events' s' files) (v : Location) : s.tree.file? v = s'.tree.file? v := by
  by_cases hv : ∃ f ∈ files, ∃ output, f.fate = .written output ∧ v = Path.location t.home output
  · obtain ⟨f, hf, output, hwritten, rfl⟩ := hv
    obtain ⟨p, htranslation, -, hfile, -⟩ := h.written f hf hwritten
    obtain ⟨p', htranslation', -, hfile', -⟩ := h'.written f hf hwritten
    cases htranslation.symm.trans htranslation'
    rw [hfile, hfile']
  · have hkept : ∀ f ∈ files, ∀ output, f.fate = .written output → v ≠ Path.location t.home output :=
      fun f hf output hwritten heq => hv ⟨f, hf, output, hwritten, heq⟩
    rw [h.kept v hkept, h'.kept v hkept]

end Outcome

/-- The outcome of a batch does not depend on its schedule; without a cancel
it is that of the inputs in order. -/
theorem exists_outcome (b : Batch) (inputs : List Text) (t : FileTree)
    (ht : t.Closed) (hapart : b.Apart inputs t) (workers : Nat)
    (hworkers : 0 < workers) (events : List Event) (s : BatchState)
    (hrun : b.runSchedule inputs workers t events = some s)
    (hend : ∀ i, b.step inputs workers s (.work i) = none) :
    ∃ files, b.Outcome inputs t events s files ∧
      (.cancel ∉ events → ⟨files⟩ = ((b.run FileTree.disk false inputs).run t).1 ∧
        ∀ v, s.tree.file? v = ((b.run FileTree.disk false inputs).run t).2.file? v) := by
  have hsteady : b.Steady inputs t s := (Steady.start ht).run hapart ht hrun
  obtain ⟨files, hfiles⟩ := stages_of_stuck hworkers hsteady.length hend
  have houtcome := outcome_of_stages hapart ht hrun hfiles
  refine ⟨files, houtcome, fun hcancel => ?_⟩
  obtain ⟨s', ⟨events', hcancel', hrun'⟩, hreport, htree⟩ := leads_run b inputs hworkers t
  have houtcome' := outcome_of_stages hapart ht hrun' (stages_of_report? hreport)
  have heq := (houtcome.files_eq hcancel).trans (houtcome'.files_eq hcancel').symm
  rw [← htree]
  exact ⟨by rw [heq], fun v => houtcome.file?_eq (heq ▸ houtcome') v⟩

/-! ## Batches of two classes -/

/-- Two files with a class each, one of them outside the working directory. -/
def besideWork : FileTree where
  entries := [(["src"], .dir), (["src", "A.m"], .file (some "classdef A\nend\n")), (["work"], .dir),
    (["work", "B.m"], .file (some "classdef B\nend\n")), (["work", "build"], .dir)]
  home := ["work"]

/-- The output directory is reached through a directory that exists. -/
def throughBuild : Batch := ⟨{}, "build/../out", "cc"⟩

theorem closed_besideWork : besideWork.Closed := closed_of_entries (by decide +kernel) (by decide +kernel)

theorem apart_throughBuild : throughBuild.Apart ["../src/A.m", "B.m"] besideWork where
  betweenOutputs := by decide +kernel
  fromInputs := by decide +kernel
  rises := by decide +kernel

/-- The batch is cancelled after one of two inputs is translated and before the other one is started. -/
theorem outcome_of_cancel : ∃ s files, throughBuild.runSchedule ["../src/A.m", "B.m"] 2 besideWork
      [.work 0, .work 0, .cancel, .work 1, .work 0] = some s ∧
    throughBuild.Outcome ["../src/A.m", "B.m"] besideWork [.work 0,
      .work 0, .cancel, .work 1, .work 0] s files ∧
    files.map (·.fate) = [.written "build/../out/A.cc", .skipped] ∧
    s.tree.file? ["work", "out", "A.cc"] ≠ none := by
  have hend : ((throughBuild.runSchedule ["../src/A.m", "B.m"] 2 besideWork
      [.work 0, .work 0, .cancel, .work 1, .work 0]).any fun s =>
        s.tree.file? ["work", "out", "A.cc"] ≠ none ∧ s.report?.any fun r =>
          r.files.map (·.fate) = [.written "build/../out/A.cc", .skipped]) = true := by decide +kernel
  obtain ⟨s, hrun, hend⟩ := (Option.any_eq_true _ _).1 hend
  obtain ⟨hfile, hend⟩ := of_decide_eq_true hend
  obtain ⟨r, hreport, hfates⟩ := (Option.any_eq_true _ _).1 hend
  obtain ⟨files, houtcome, -⟩ :=
    exists_outcome throughBuild ["../src/A.m", "B.m"] besideWork closed_besideWork
    apart_throughBuild 2 (by decide) _ s hrun (step_of_report? hreport)
  cases hreport.symm.trans houtcome.report
  exact ⟨s, files, hrun, houtcome, of_decide_eq_true hfates, hfile⟩

/-- Two files with a class each in the working directory. -/
def twoClasses : FileTree where
  entries := [(["A.m"], .file (some "classdef A\nend\n")), (["B.m"], .file (some "classdef B\nend\n"))]

def intoOut : Batch := ⟨{}, "out", "cc"⟩

/-- The second input goes up from a directory that the batch makes for the first one. No output is an input,
and no path begins with another one; yet the input is translated in the batch and cannot be read alone. -/
theorem not_alone_of_rise :
    let inputs : List Text := ["B.m", "out/../A.m"]
    (∀ i ∈ inputs, ∀ j ∈ inputs, Path.same (intoOut.outputPath i) j = false) ∧
      (∀ p ∈ inputs ++ inputs.map intoOut.outputPath, ∀ q ∈ inputs ++ inputs.map intoOut.outputPath,
        Path.parts p <+: Path.parts q → Path.parts p = Path.parts q) ∧
      ((intoOut.run disk false inputs).run twoClasses).1.files.map (·.fate) =
        [.written "out/B.cc", .written "out/A.cc"] ∧
      (intoOut.alone twoClasses "out/../A.m" (.ok "out/A.cc")).fate =
        .failed "Failed to read out/../A.m: No such file or directory (os error 2)" := by
  decide +kernel

end Batch

end ClassdefDoc
