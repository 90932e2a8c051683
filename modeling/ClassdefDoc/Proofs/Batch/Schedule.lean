import ClassdefDoc.Proofs.File.Tree
import ClassdefDoc.Run.Request

/-!
# Schedules of a batch

Workers share one file tree and one flag that cancels the batch. The work on an input takes three
steps: the flag is checked, the input is read and translated, and the output is written. An `Event` is
one such step or the moment at which the flag is set, and a schedule is a list of events. `Batch.step`
says what an event does, and which events can happen: at most `workers` inputs are worked on at a time.

`process_run` says that the steps of one input, taken without a pause, are `Batch.process`.
-/

namespace ClassdefDoc

open List FileTree

/-- How far the work on an input has come. -/
inductive Stage where
  | waiting
  | started (output : Text)
  /-- What is left is to write. -/
  | translated (output : Text) (p : Pseudocode)
  | done (f : FileReport)

namespace Stage

def report? : Stage → Option FileReport
  | done f => some f
  | _ => none

def isWaiting : Stage → Bool
  | waiting => true
  | _ => false

def isBusy : Stage → Bool
  | started _ | translated _ _ => true
  | _ => false

end Stage

inductive Event where
  | cancel
  /-- The next step of the input with a number. -/
  | work (i : Nat)
  deriving DecidableEq, Repr

/-- A batch at work. -/
structure BatchState where
  tree : FileTree
  cancelled : Bool
  /-- One stage for each input. -/
  stages : List Stage

namespace BatchState

def start (inputs : List Text) (t : FileTree) : BatchState := ⟨t, false, inputs.map fun _ => .waiting⟩

def busy (s : BatchState) : Nat := s.stages.countP (·.isBusy)

/-- The report, when the work on all inputs is done. -/
def report? (s : BatchState) : Option Report := (s.stages.mapM Stage.report?).map Report.mk

end BatchState

namespace Batch

variable {claimed : List (Text × Text)} {planned : Except RunError Text}

/-- What reading and translating an input gives. -/
def translation (b : Batch) (t : FileTree) (input : Text) : Except RunError Pseudocode :=
  match t.read input with
  | .error e => .error (.read input e)
  | .ok text => b.pseudocode input text

/-- The report on an input whose writing ended with `r`. -/
def reportOf (input output : Text) (p : Pseudocode) (r : Except FileError Unit) : FileReport :=
  match r with
  | .error e => ⟨input, .failed (RunError.write output e).message, []⟩
  | .ok _ => ⟨input, .written output, p.diagnostics⟩

/-- The next step of an input. -/
def advance (b : Batch) (t : FileTree) (cancelled : Bool) (input : Text) (planned : Except RunError Text) :
    Stage → Option (Stage × FileTree)
  | .waiting =>
    if cancelled then some (.done ⟨input, .skipped, []⟩, t)
    else match planned with
      | .error e => some (.done ⟨input, .failed e.message, []⟩, t)
      | .ok output => some (.started output, t)
  | .started output =>
    match b.translation t input with
    | .error e => some (.done ⟨input, .failed e.message, []⟩, t)
    | .ok p => some (.translated output p, t)
  | .translated output p =>
    let (r, t) := (write output p.text).run t
    some (.done (reportOf input output p r), t)
  | .done _ => none

/-- The inputs with their outputs. -/
def jobs (b : Batch) (inputs : List Text) : List (Text × Except RunError Text) := inputs.zip (b.plan inputs)

/-- What an event does, if it can happen. -/
def step (b : Batch) (inputs : List Text) (workers : Nat) (s : BatchState) : Event → Option BatchState
  | .cancel => some { s with cancelled := true }
  | .work i => do
    let (input, planned) ← (b.jobs inputs)[i]?
    let stage ← s.stages[i]?
    if stage.isWaiting ∧ workers ≤ s.busy then none
    else
      let (stage, tree) ← b.advance s.tree s.cancelled input planned stage
      pure { s with tree := tree, stages := s.stages.set i stage }

/-- What a schedule leads to. -/
def runSchedule (b : Batch) (inputs : List Text) (workers : Nat) (t : FileTree) (events : List Event) :
    Option BatchState :=
  events.foldlM (b.step inputs workers) (.start inputs t)

/-! ## One input alone -/

/-- The report on an input that is worked on alone. -/
def alone (b : Batch) (t : FileTree) (input : Text) (planned : Except RunError Text) : FileReport :=
  ((b.process disk false input planned).run t).1

theorem readFile_run (t : FileTree) (path : Text) (wrap : FileError → RunError) :
    StateT.run (disk.readFile path wrap).run t = ((t.read path).mapError wrap, t) := rfl

theorem writeFile_run (t : FileTree) (path text : Text) :
    StateT.run (disk.writeFile path text).run t =
      match (write path text).run t with
      | (r, t) => (r.mapError (.write path), t) := rfl

theorem writeOutput_run (b : Batch) (t : FileTree) (input output : Text) :
    StateT.run (b.writeOutput disk input output).run t =
      match b.translation t input with
      | .error e => (.error e, t)
      | .ok p =>
        match (write output p.text).run t with
        | (.error e, t) => (.error (.write output e), t)
        | (.ok _, t) => (.ok p.diagnostics, t) := by
  rw [translation, writeOutput, ExceptT.run_bind, StateT.run_bind, readFile_run]
  cases t.read input with
  | error e => rfl
  | ok text =>
    show StateT.run (ExceptT.run (m := StateM FileTree) (match b.pseudocode input text with
      | .error e => _
      | .ok p => _)) t = match b.pseudocode input text with
        | .error e => _
        | .ok p => _
    cases b.pseudocode input text with
    | error e => rfl
    | ok p =>
      show StateT.run (ExceptT.run (disk.writeFile output p.text >>= fun _ => pure p.diagnostics)) t =
        match (write output p.text).run t with
        | (.error e, t) => _
        | (.ok _, t) => _
      rw [ExceptT.run_bind, StateT.run_bind, writeFile_run]
      rcases (write output p.text).run t with ⟨_ | _, t₁⟩ <;> rfl

theorem process_run (b : Batch) (t : FileTree) (input output : Text) :
    (b.process disk false input (.ok output)).run t =
      match b.translation t input with
      | .error e => (⟨input, .failed e.message, []⟩, t)
      | .ok p =>
        let (r, t) := (write output p.text).run t
        (reportOf input output p r, t) := by
  have hprocess : (b.process disk false input (.ok output)).run t =
      match StateT.run (b.writeOutput disk input output).run t with
      | (.ok found, t) => (⟨input, .written output, found⟩, t)
      | (.error e, t) => (⟨input, .failed e.message, []⟩, t) := by
    show StateT.run (ExceptT.run (b.writeOutput disk input output) >>= fun r => _) t = _
    rw [StateT.run_bind]
    rcases StateT.run (b.writeOutput disk input output).run t with ⟨_ | _, t₁⟩ <;> rfl
  rw [hprocess, writeOutput_run]
  cases b.translation t input with
  | error e => rfl
  | ok p =>
    dsimp only
    rcases (write output p.text).run t with ⟨_ | _, t₁⟩ <;> rfl

/-! ## Plans -/

theorem length_planAfter (b : Batch) (claimed : List (Text × Text)) (inputs : List Text) :
    (b.planAfter claimed inputs).length = inputs.length := by
  induction inputs generalizing claimed with
  | nil => rfl
  | cons input inputs ih =>
    rw [planAfter]
    split <;> simp only [length_cons, ih]

theorem length_jobs (b : Batch) (inputs : List Text) : (b.jobs inputs).length = inputs.length := by
  rw [jobs, length_zip, plan, length_planAfter, min_self]

variable {b : Batch} {inputs : List Text} {i j : Nat} {input input' output output' : Text}

theorem planAfter_getElem? (h : (b.planAfter claimed inputs)[i]? = some (.ok output)) :
    inputs[i]?.map b.outputPath = some output ∧ ∀ c ∈ claimed, Path.same c.1 output = false := by
  induction inputs generalizing claimed i with
  | nil => cases h
  | cons input inputs ih =>
    rw [planAfter] at h
    split at h
    · cases i with
      | zero => cases h
      | succ i => exact ih h
    · rename_i hnone
      cases i with
      | zero =>
        cases h
        exact ⟨rfl, fun c hc => by simpa using find?_eq_none.1 hnone c hc⟩
      | succ i =>
        obtain ⟨houtput, hclaimed⟩ := ih h
        exact ⟨houtput, fun c hc => hclaimed c (mem_cons_of_mem _ hc)⟩

/-- Planned outputs are different paths. -/
theorem planAfter_ne (hij : i < j) (hi : (b.planAfter claimed inputs)[i]? = some (.ok output))
    (hj : (b.planAfter claimed inputs)[j]? = some (.ok output')) : Path.same output output' = false := by
  induction inputs generalizing claimed i j with
  | nil => cases hi
  | cons input inputs ih =>
    obtain ⟨j, rfl⟩ := Nat.exists_eq_succ_of_ne_zero (Nat.ne_zero_of_lt hij)
    rw [planAfter] at hi hj
    cases hfind : claimed.find? (fun c => Path.same c.1 (b.outputPath input)) with
    | some c =>
      rw [hfind] at hi hj
      cases i with
      | zero => cases hi
      | succ i => exact ih (Nat.lt_of_succ_lt_succ hij) hi hj
    | none =>
      rw [hfind] at hi hj
      cases i with
      | zero =>
        cases hi
        exact (planAfter_getElem? hj).2 _ mem_cons_self
      | succ i => exact ih (Nat.lt_of_succ_lt_succ hij) hi hj

theorem getElem?_jobs :
    (b.jobs inputs)[i]? = some (input, planned) ↔ inputs[i]? = some input ∧
    (b.plan inputs)[i]? = some planned := by
  rw [jobs, getElem?_zip_eq_some]

theorem outputPath_of_jobs (h : (b.jobs inputs)[i]? = some (input, .ok output)) :
    input ∈ inputs ∧ output = b.outputPath input := by
  obtain ⟨hinput, hplanned⟩ := getElem?_jobs.1 h
  have houtput := (planAfter_getElem? hplanned).1
  rw [hinput] at houtput
  exact ⟨mem_of_getElem? hinput, (Option.some.inj houtput).symm⟩

theorem same_of_jobs (hij : i ≠ j) (hi : (b.jobs inputs)[i]? = some (input, .ok output))
    (hj : (b.jobs inputs)[j]? = some (input', .ok output')) : Path.same output output' = false := by
  have hi := (getElem?_jobs.1 hi).2
  have hj := (getElem?_jobs.1 hj).2
  rcases Nat.lt_or_gt_of_ne hij with hlt | hlt
  · exact planAfter_ne hlt hi hj
  · rw [Path.same, Bool.beq_comm]
    exact planAfter_ne hlt hj hi

/-! ## Steps -/

variable {workers : Nat} {s s' : BatchState} {t : FileTree}

theorem step_work_eq_some (h : b.step inputs workers s (.work i) = some s') :
    ∃ input planned stage stage' tree, (b.jobs inputs)[i]? = some (input, planned) ∧
      s.stages[i]? = some stage ∧
      b.advance s.tree s.cancelled input planned stage = some (stage', tree) ∧
      s' = { s with tree := tree, stages := s.stages.set i stage' } := by
  simp only [step, Option.bind_eq_bind, Option.bind_eq_some_iff] at h
  obtain ⟨⟨input, planned⟩, hjob, stage, hstage, h⟩ := h
  split_ifs at h
  obtain ⟨⟨stage', tree⟩, hadvance, hs⟩ := Option.bind_eq_some_iff.1 h
  cases hs
  exact ⟨input, planned, stage, stage', tree, hjob, hstage, hadvance, rfl⟩

theorem step_work {stage stage' : Stage} {tree : FileTree}
    (hjob : (b.jobs inputs)[i]? = some (input, planned)) (hstage : s.stages[i]? = some stage)
    (hworker : stage.isBusy ∨ s.busy < workers)
    (hadvance : b.advance s.tree s.cancelled input planned stage = some (stage', tree)) :
    b.step inputs workers s (.work i) = some { s with tree := tree, stages := s.stages.set i stage' } := by
  have hfree : ¬(stage.isWaiting ∧ workers ≤ s.busy) := by
    rintro ⟨hwaiting, hle⟩
    rcases hworker with hbusy | hlt
    · cases stage <;> cases hwaiting
      cases hbusy
    · exact absurd hlt (Nat.not_lt.2 hle)
  simp only [step, hjob, hstage, Option.bind_eq_bind, Option.bind_some, if_neg hfree, hadvance]
  rfl

theorem exists_advance (b : Batch) (t : FileTree) (cancelled : Bool) (input : Text)
    (planned : Except RunError Text) {stage : Stage} (h : stage.report? = none) :
    ∃ stage' tree, b.advance t cancelled input planned stage = some (stage', tree) := by
  cases stage with
  | waiting => cases cancelled <;> cases planned <;> exact ⟨_, _, rfl⟩
  | started output =>
    rw [advance]
    split <;> exact ⟨_, _, rfl⟩
  | translated output p => exact ⟨_, _, rfl⟩
  | done => cases h

theorem Stage.exists_map_done {stages : List Stage} (h : ∀ stage ∈ stages, ∃ f, stage = .done f) :
    ∃ files : List FileReport, stages = files.map .done := by
  induction stages with
  | nil => exact ⟨[], rfl⟩
  | cons stage stages ih =>
    obtain ⟨⟨f, rfl⟩, hrest⟩ := forall_mem_cons.1 h
    obtain ⟨files, rfl⟩ := ih hrest
    exact ⟨f :: files, rfl⟩

/-- When no input can be worked on any more, all are done. -/
theorem stages_of_stuck (hworkers : 0 < workers) (hlength : s.stages.length = inputs.length)
    (hstuck : ∀ i, b.step inputs workers s (.work i) = none) :
    ∃ files : List FileReport, s.stages = files.map .done := by
  have hnot {i : Nat} {stage : Stage} (hstage : s.stages[i]? = some stage)
      (hworker : stage.isBusy ∨ s.busy < workers) : stage.report? ≠ none := by
    intro hnone
    have hi : i < (b.jobs inputs).length := by
      rw [length_jobs, ← hlength]
      exact (List.getElem?_eq_some_iff.1 hstage).1
    obtain ⟨⟨input, planned⟩, hjob⟩ : ∃ job, (b.jobs inputs)[i]? = some job := ⟨_, getElem?_eq_getElem hi⟩
    obtain ⟨stage', tree, hadvance⟩ := exists_advance b s.tree s.cancelled input planned hnone
    cases (hstuck i).symm.trans (step_work hjob hstage hworker hadvance)
  have hbusy : s.busy = 0 := by
    rw [BatchState.busy, countP_eq_zero]
    intro stage hmem hbusy
    obtain ⟨i, hstage⟩ := mem_iff_getElem?.1 hmem
    refine hnot hstage (.inl hbusy) ?_
    cases stage <;> first | rfl | cases hbusy
  have hdone (stage : Stage) (hmem : stage ∈ s.stages) : ∃ f, stage = .done f := by
    obtain ⟨i, hstage⟩ := mem_iff_getElem?.1 hmem
    have hreport := hnot hstage (.inr (hbusy ▸ hworkers))
    cases stage with
    | done f => exact ⟨f, rfl⟩
    | _ => exact absurd rfl hreport
  exact Stage.exists_map_done hdone

theorem report?_of_stages {files : List FileReport} (h : s.stages = files.map .done) :
    s.report? = some ⟨files⟩ := by
  have hfiles : (files.map Stage.done).mapM Stage.report? = some files := by
    rw [mapM_map]
    exact (mapM_pure (m := Option) (f := id)).trans (by rw [map_id]; rfl)
  rw [BatchState.report?, h, hfiles]
  rfl

/-! ## The order of the inputs as a schedule -/

/-- Events other than the setting of the flag lead from one state to another. -/
def Leads (b : Batch) (inputs : List Text) (workers : Nat) (s s' : BatchState) : Prop :=
  ∃ events : List Event, Event.cancel ∉ events ∧ events.foldlM (b.step inputs workers) s = some s'

namespace Leads

variable {s₁ s₂ s₃ : BatchState}

theorem refl (s : BatchState) : Leads b inputs workers s s := ⟨[], not_mem_nil, rfl⟩

theorem trans (h : Leads b inputs workers s₁ s₂) (h' : Leads b inputs workers s₂ s₃) :
    Leads b inputs workers s₁ s₃ := by
  obtain ⟨events, hcancel, hrun⟩ := h
  obtain ⟨events', hcancel', hrun'⟩ := h'
  refine ⟨events ++ events', fun hmem => (mem_append.1 hmem).elim hcancel hcancel', ?_⟩
  rw [foldlM_append, hrun]
  exact hrun'

theorem work (h : b.step inputs workers s₁ (.work i) = some s₂) (h' : Leads b inputs workers s₂ s₃) :
    Leads b inputs workers s₁ s₃ := by
  refine trans ⟨[.work i], by simp, ?_⟩ h'
  rw [foldlM_cons, h]
  rfl

end Leads

/-- An input is worked on to its end while nothing else happens. -/
theorem leads_process (hworkers : s.busy < workers)
    (hcancelled : s.cancelled = false) (hjob : (b.jobs inputs)[i]? = some (input, planned))
    (hstage : s.stages[i]? = some .waiting) :
    Leads b inputs workers s ⟨((b.process disk false input planned).run s.tree).2, false,
      s.stages.set i (.done ((b.process disk false input planned).run s.tree).1)⟩ := by
  obtain ⟨tree, cancelled, stages⟩ := s
  subst hcancelled
  have hi : i < stages.length := (List.getElem?_eq_some_iff.1 hstage).1
  cases planned with
  | error e => exact .work (step_work hjob hstage (.inr hworkers) rfl) (.refl _)
  | ok output =>
    refine .work (step_work hjob hstage (.inr hworkers) rfl) ?_
    rw [process_run]
    cases htranslation : b.translation tree input with
    | error e =>
      have hadvance : b.advance tree false input (.ok output) (.started output) =
          some (.done ⟨input, .failed e.message, []⟩, tree) := by rw [advance, htranslation]
      refine .work (step_work hjob (getElem?_set_self hi) (.inl rfl) hadvance) ?_
      rw [set_set]
      exact .refl _
    | ok p =>
      have hadvance : b.advance tree false input (.ok output) (.started output) =
          some (.translated output p, tree) := by rw [advance, htranslation]
      refine .work (step_work hjob (getElem?_set_self hi) (.inl rfl) hadvance) ?_
      rw [set_set]
      refine .work (step_work hjob (getElem?_set_self hi) (.inl rfl) rfl) ?_
      rw [set_set]
      exact .refl _

/-- The reports on some inputs, worked on in order. -/
def inOrder (b : Batch) (jobs : List (Text × Except RunError Text)) : StateM FileTree (List FileReport) :=
  jobs.mapM fun (input, planned) => b.process disk false input planned

theorem busy_of_waiting (t : FileTree) (files : List FileReport) (rest : List (Text × Except RunError Text)) :
    BatchState.busy ⟨t, false, files.map .done ++ rest.map fun _ => .waiting⟩ = 0 := by
  rw [BatchState.busy, countP_eq_zero]
  intro stage hmem
  rcases mem_append.1 hmem with hmem | hmem
  · obtain ⟨f, -, rfl⟩ := mem_map.1 hmem
    exact Bool.false_ne_true
  · obtain ⟨job, -, rfl⟩ := mem_map.1 hmem
    exact Bool.false_ne_true

/-- The inputs that are left are worked on in order. -/
theorem leads_inOrder (hworkers : 0 < workers) {before rest : List (Text × Except RunError Text)}
    (hjobs : b.jobs inputs = before ++ rest) (files : List FileReport) (hfiles : files.length = before.length)
    (t : FileTree) :
    Leads b inputs workers ⟨t, false, files.map .done ++ rest.map fun _ => .waiting⟩
      ⟨((b.inOrder rest).run t).2, false, (files ++ ((b.inOrder rest).run t).1).map .done⟩ := by
  induction rest generalizing before files t with
  | nil =>
    have hnil : (b.inOrder []).run t = ([], t) := rfl
    rw [hnil, map_nil, append_nil, append_nil]
    exact .refl _
  | cons job rest ih =>
    obtain ⟨input, planned⟩ := job
    have hjob : (b.jobs inputs)[files.length]? = some (input, planned) := by
      rw [hjobs, hfiles, getElem?_append_right le_rfl, Nat.sub_self, getElem?_cons_zero]
    have hstage :
        (files.map Stage.done ++ ((input, planned) :: rest).map fun _ => Stage.waiting)[files.length]? =
        some .waiting := by
      rw [getElem?_append_right (by rw [length_map]), length_map, Nat.sub_self]
      rfl
    refine (leads_process (by rwa [busy_of_waiting]) rfl hjob hstage).trans ?_
    generalize hrun : (b.process disk false input planned).run t = r
    obtain ⟨f, t₁⟩ := r
    have hcons : (b.inOrder ((input, planned) :: rest)).run t =
        (f :: ((b.inOrder rest).run t₁).1, ((b.inOrder rest).run t₁).2) := by
      rw [inOrder, mapM_cons, StateT.run_bind, hrun]
      rfl
    have hset : (files.map Stage.done ++ ((input, planned) :: rest).map fun _ =>
        Stage.waiting).set files.length (.done f) =
        (files ++ [f]).map Stage.done ++ rest.map fun _ => Stage.waiting := by
      rw [set_append_right _ _ (by rw [length_map]), length_map, Nat.sub_self]
      simp
    rw [hcons, hset]
    have hjobs' : b.jobs inputs = (before ++ [(input, planned)]) ++ rest := by simp [hjobs]
    have hrest := ih hjobs' (files ++ [f]) (by simp [hfiles]) t₁
    rwa [append_assoc] at hrest

/-- Working on the inputs in order is a schedule. -/
theorem leads_run (b : Batch) (inputs : List Text) (hworkers : 0 < workers) (t : FileTree) :
    ∃ s, Leads b inputs workers (.start inputs t) s ∧
      s.report? = some ((b.run disk false inputs).run t).1 ∧
      s.tree = ((b.run disk false inputs).run t).2 := by
  have hjobs : b.jobs inputs = [] ++ b.jobs inputs := rfl
  have hleads := leads_inOrder hworkers hjobs [] rfl t
  have hstart : (([] : List FileReport).map Stage.done ++ (b.jobs inputs).map fun _ => Stage.waiting) =
      inputs.map fun _ => Stage.waiting := by
    rw [map_nil, nil_append, map_const', map_const', length_jobs]
  rw [hstart] at hleads
  refine ⟨_, hleads, ?_, ?_⟩
  · exact report?_of_stages rfl
  · rfl

end Batch

end ClassdefDoc
