/-
  The runs of one-shot jobs (`packages/schedule-core/src/engine.rs`: `spawn_one`, `heal_pass`,
  `observe_job_terminal`, `discard_if_failures_only`, `prune_pass`).

  A fire writes the row of its run before the row of its job. A heal reads the runs that are
  `running` and, in a second statement, their jobs; a job that is not found fails its run with
  `job_missing`. The job is not found before it is created either, nor after the row cap took it
  when it had finished, so a run can be failed whose job still runs or has succeeded
  (`heal_fails_live_run`). As long as no such verdict is written on a run that is `running`, a
  run that ends has the outcome of its job (`ended_runs_tell_their_jobs`).

  The runs of workflows, deadlines and kills are left out, and so are statements that fail.
-/
import Sp00ky.ScheduleCore.ScheduleRuns
import Sp00ky.Lib.EntryMap

namespace Sp00ky.ScheduleCore.JobRuns

open Lib

/-! ## The tables -/

/-- An outbox row; the last of its `errors`. -/
structure OutboxJob where
  status : JobStatus
  lastError : Option String
deriving DecidableEq, Repr

/-- One fire of one key of a job schedule. -/
structure Fire where
  runKey : String
  scheduleName : String
  key : String
  /-- `concurrency` is `skip` -/
  skips : Bool
  failuresOnly : Bool
deriving DecidableEq, Repr

/-- What the jobs' statement says of a run. -/
inductive Verdict where
  | missing
  | terminal (outcome : Outcome) (error : Option RunError)
deriving DecidableEq, Repr

/-- A call of an engine, by the statement it is about to run. -/
inductive Call where
  /-- `spawn_one`: `SELECT_BLOCKING_RUN`, the creation of the run (suppressed by an error), and
  `CREATE_JOB` -/
  | gating (f : Fire)
  | creating (f : Fire) (suppressed : Option RunError)
  | creatingJob (f : Fire)
  /-- `heal_pass`: `SELECT_RUNNING_JOB_RUNS`, `select_jobs_terminal`, and the finalizations -/
  | healing
  | lookingUp (waiting : List (String × String))
  | judging (verdicts : List (String × Verdict)) (waiting : List (String × String))
  /-- `observe_job_terminal`: `FIND_RUN_BY_JOB`, for each run `SELECT_JOB` if it failed, and the
  finalization -/
  | finding (job : String) (outcome : Outcome)
  | loading (job : String) (runs : List String)
  | observing (job : String) (run : String) (outcome : Outcome) (error : Option RunError)
      (runs : List String)
  /-- `discard_if_failures_only`: the job, then the run -/
  | discardingJob (job run : String)
  | discardingRun (run : String)
deriving DecidableEq, Repr

/-- The tables, with the calls that are going on. It is noted which outcomes the jobs reached. -/
structure Tables where
  runs : ScheduleRuns
  jobs : List (String × OutboxJob)
  calls : List Call
  reached : List (String × Outcome)

inductive Event where
  /-- a claimed fire, past the failure budget of its key or held back by it -/
  | spawnOne (f : Fire) (quarantined : Bool)
  | healPass
  | observeJobTerminal (job : String) (outcome : Outcome)
  /-- the runner moves a job -/
  | runJob (job : String) (row : OutboxJob)
  /-- the retention, or the row cap -/
  | pruneRuns (doomed : List String)
  | pruneJobs (doomed : List String)
  | resume (call : Call)
deriving DecidableEq, Repr

/-- The outcome of a job that is terminal. -/
def outcomeOf : JobStatus → Option Outcome
  | .success => some .success
  | .failed => some .failed
  | .pending | .processing => none

/-- `HEAL_LOOKUP_BATCH`. -/
def healLookupBatch : Nat := 500

/-- `job_failure_error`. -/
def jobFailureError (job : OutboxJob) : RunError := (job.lastError.map .ofJob).getD .jobFailed

namespace Tables

def start : Tables := ⟨[], [], [], []⟩

def spawn (s : Tables) (calls : List Call) : Tables := { s with calls := s.calls ++ calls }

/-- What a heal makes of a job's row. -/
def verdict (s : Tables) (job : String) : Option Verdict :=
  match EntryMap.get s.jobs job with
  | none => some .missing
  | some row =>
    match row.status with
    | .success => some (.terminal .success none)
    | .failed => some (.terminal .failed (some (jobFailureError row)))
    | .pending | .processing => none

/-- `finalize_schedule_run`: a run that went well under `failures-only` is then discarded, its job
first. -/
def finalizeScheduleRun (s : Tables) (run : String) (status : ScheduleRunStatus)
    (error : Option RunError) : Tables :=
  let finalized := { s with runs := s.runs.finalize run status error }
  match s.runs.runningRow run with
  | none => finalized
  | some row =>
    if row.failuresOnly && status.successShaped then
      match row.jobId with
      | some job => finalized.spawn [.discardingJob job run]
      | none => finalized.spawn [.discardingRun run]
    else finalized

/-- The row of a fire; `job` is the id its job will have. -/
def rowOf (f : Fire) (job : Option String) (status : ScheduleRunStatus)
    (error : Option RunError) : ScheduleRun where
  id := f.runKey
  scheduleName := f.scheduleName
  key := f.key
  kind := .job
  status
  error
  jobId := job
  failuresOnly := f.failuresOnly

/-- The next of the runs an observer found. -/
def observeNext (job : String) (outcome : Outcome) : List String → List Call
  | [] => []
  | run :: runs =>
    match outcome with
    | .failed => [.loading job (run :: runs)]
    | .success => [.observing job run .success none runs]

/-- A call runs its statement and goes on. `jobOf` is the id of the job of a run key. -/
def resume (jobOf : String → String) (s : Tables) : Call → Tables
  | .gating f =>
    if f.skips then
      match s.runs.blocking f.scheduleName f.key with
      | some blocker => s.spawn [.creating f (some (.skip blocker.id))]
      | none => s.spawn [.creating f none]
    else s.spawn [.creating f none]
  | .creating f (some error) =>
    if f.failuresOnly then s
    else match s.runs.create (rowOf f none .skipped (some error)) with
      | some runs => { s with runs }
      | none => s
  | .creating f none =>
    match s.runs.create (rowOf f (some (jobOf f.runKey)) .running none) with
    | some runs => { s with runs }.spawn [.creatingJob f]
    | none => s
  | .creatingJob f =>
    match EntryMap.get s.jobs (jobOf f.runKey) with
    | some _ => s
    | none => { s with jobs := EntryMap.set s.jobs (jobOf f.runKey) ⟨.pending, none⟩ }
  | .healing => s.spawn [.lookingUp s.runs.runningJobRuns]
  | .lookingUp [] => s
  | .lookingUp waiting =>
    let verdicts := (waiting.take healLookupBatch).filterMap fun w =>
      (s.verdict w.2).map fun v => (w.1, v)
    s.spawn [.judging verdicts (waiting.drop healLookupBatch)]
  | .judging [] waiting => s.spawn [.lookingUp waiting]
  | .judging ((run, .missing) :: verdicts) waiting =>
    (s.finalizeScheduleRun run .failed (some .jobMissing)).spawn [.judging verdicts waiting]
  | .judging ((run, .terminal outcome error) :: verdicts) waiting =>
    (s.finalizeScheduleRun run outcome.runStatus error).spawn [.judging verdicts waiting]
  | .finding job outcome => s.spawn (observeNext job outcome (s.runs.byJob job))
  | .loading _ [] => s
  | .loading job (run :: runs) =>
    let error := (EntryMap.get s.jobs job).bind fun row => row.lastError.map .ofJob
    s.spawn [.observing job run .failed error runs]
  | .observing job run outcome error runs =>
    (s.finalizeScheduleRun run outcome.runStatus error).spawn (observeNext job outcome runs)
  | .discardingJob job run =>
    { s with jobs := EntryMap.delete s.jobs job }.spawn [.discardingRun run]
  | .discardingRun run => { s with runs := s.runs.delete run }

/-- One step. The two engines' calls interleave freely, and so do the passes of one. -/
def step (jobOf : String → String) (s : Tables) : Event → Option Tables
  | .spawnOne f quarantined =>
    if quarantined then some (s.spawn [.creating f (some .quarantine)])
    else some (s.spawn [.gating f])
  | .healPass => some (s.spawn [.healing])
  | .observeJobTerminal job outcome =>
    -- the event of the row's update, however late it comes
    if (job, outcome) ∈ s.reached then some (s.spawn [.finding job outcome]) else none
  | .runJob job row =>
    match EntryMap.get s.jobs job with
    | none => none
    | some old =>
      if (outcomeOf old.status).isSome then none
      else some { s with
        jobs := EntryMap.set s.jobs job row
        reached := s.reached ++ ((outcomeOf row.status).map fun o => (job, o)).toList }
  | .pruneRuns doomed => some { s with runs := s.runs.prune doomed }
  | .pruneJobs doomed =>
    some { s with jobs := s.jobs.filter fun e =>
      ¬ (e.1 ∈ doomed ∧ (outcomeOf e.2.status).isSome) }
  | .resume call =>
    if call ∈ s.calls then some (resume jobOf { s with calls := s.calls.erase call } call)
    else none

/-- A verdict that a job is missing is not written on a run that is `running`. -/
def Timely (s : Tables) (e : Event) : Prop :=
  match e with
  | .resume (.judging ((run, .missing) :: _) _) => s.runs.runningRow run = none
  | _ => True

instance (s : Tables) (e : Event) : Decidable (s.Timely e) := by
  unfold Timely
  exact match e with
    | .resume (.judging ((_, .missing) :: _) _) => inferInstance
    | .resume (.judging ((_, .terminal _ _) :: _) _) | .resume (.judging [] _)
    | .resume (.gating _) | .resume (.creating _ _) | .resume (.creatingJob _)
    | .resume .healing | .resume (.lookingUp _) | .resume (.finding _ _)
    | .resume (.loading _ _) | .resume (.observing _ _ _ _ _) | .resume (.discardingJob _ _)
    | .resume (.discardingRun _) | .spawnOne _ _ | .healPass | .observeJobTerminal _ _
    | .runJob _ _ | .pruneRuns _ | .pruneJobs _ => isTrue trivial

end Tables

/-! ## Runs that tell of their jobs -/

section

variable {jobOf : String → String} {reached : List (String × Outcome)}

/-- The run ended as its job did. -/
def Tells (reached : List (String × Outcome)) (r : ScheduleRun) : Prop :=
  ∃ job outcome, r.jobId = some job ∧ (job, outcome) ∈ reached ∧ r.status = outcome.runStatus ∧
    r.error ≠ some .jobMissing

/-- A row while it is `running`, and once it has ended. -/
structure RunSound (jobOf : String → String) (reached : List (String × Outcome))
    (r : ScheduleRun) : Prop where
  live : r.status = .running → r.jobId = some (jobOf r.id) ∧ r.error = none
  ended : r.status = .success ∨ r.status = .failed → Tells reached r

/-- What is written on a run is what its job reached. -/
structure OutcomeSound (reached : List (String × Outcome)) (job : String) (outcome : Outcome)
    (error : Option RunError) : Prop where
  reached : (job, outcome) ∈ reached
  error : error ≠ some .jobMissing

def Verdict.Sound (reached : List (String × Outcome)) (job : String) : Verdict → Prop
  | .missing => True
  | .terminal outcome error => OutcomeSound reached job outcome error

/-- A call holds only what it has read of the jobs. -/
def Call.Sound (jobOf : String → String) (reached : List (String × Outcome)) : Call → Prop
  | .lookingUp waiting => ∀ w ∈ waiting, w.2 = jobOf w.1
  | .judging verdicts waiting =>
    (∀ v ∈ verdicts, v.2.Sound reached (jobOf v.1)) ∧ ∀ w ∈ waiting, w.2 = jobOf w.1
  | .finding job outcome => (job, outcome) ∈ reached
  | .loading job runs => (job, .failed) ∈ reached ∧ ∀ run ∈ runs, jobOf run = job
  | .observing job run outcome error runs =>
    OutcomeSound reached job outcome error ∧ ∀ r ∈ run :: runs, jobOf r = job
  | .gating _ | .creating _ _ | .creatingJob _ | .healing | .discardingJob _ _
  | .discardingRun _ => True

structure Tables.Sound (jobOf : String → String) (s : Tables) : Prop where
  runs : ∀ r ∈ s.runs, RunSound jobOf s.reached r
  jobs : ∀ e ∈ s.jobs, ∀ outcome, outcomeOf e.2.status = some outcome → (e.1, outcome) ∈ s.reached
  calls : ∀ call ∈ s.calls, call.Sound jobOf s.reached

variable {reached' : List (String × Outcome)}

theorem OutcomeSound.mono {job : String} {outcome : Outcome}
    {error : Option RunError} (h : OutcomeSound reached job outcome error)
    (hr : reached ⊆ reached') : OutcomeSound reached' job outcome error :=
  ⟨hr h.reached, h.error⟩

theorem RunSound.mono {r : ScheduleRun}
    (h : RunSound jobOf reached r) (hr : reached ⊆ reached') : RunSound jobOf reached' r := by
  refine ⟨h.live, fun hend => ?_⟩
  obtain ⟨job, outcome, hjob, hmem, hstatus, herror⟩ := h.ended hend
  exact ⟨job, outcome, hjob, hr hmem, hstatus, herror⟩

theorem Call.Sound.mono {call : Call}
    (h : call.Sound jobOf reached) (hr : reached ⊆ reached') : call.Sound jobOf reached' := by
  cases call with
  | judging verdicts waiting =>
    refine ⟨fun v hv => ?_, h.2⟩
    have hsound := h.1 v hv
    obtain ⟨run, verdict⟩ := v
    cases verdict with
    | missing => trivial
    | terminal outcome error => exact OutcomeSound.mono hsound hr
  | finding job outcome => exact hr h
  | loading job runs => exact ⟨hr h.1, h.2⟩
  | observing job run outcome error runs => exact ⟨h.1.mono hr, h.2⟩
  | lookingUp waiting => exact h
  | gating f | creating f suppressed | creatingJob f | healing | discardingJob job run
  | discardingRun run => trivial

/-- A row that is finalized with what its job reached tells so. -/
theorem RunSound.finalize {r : ScheduleRun} {outcome : Outcome} {error : Option RunError}
    (h : RunSound jobOf reached r) (hrun : r.status = .running)
    (ho : OutcomeSound reached (jobOf r.id) outcome error) :
    RunSound jobOf reached { r with status := outcome.runStatus, error := error.or r.error } := by
  obtain ⟨hjob, hnone⟩ := h.live hrun
  constructor
  · intro hlive
    cases outcome <;> cases hlive
  · intro _
    refine ⟨jobOf r.id, outcome, hjob, ho.reached, rfl, ?_⟩
    rw [hnone, Option.or_none]
    exact ho.error

namespace Tables.Sound

variable {s t : Tables}

theorem spawn (h : s.Sound jobOf) {calls : List Call}
    (hc : ∀ call ∈ calls, call.Sound jobOf s.reached) : (s.spawn calls).Sound jobOf :=
  ⟨h.runs, h.jobs, fun call hmem => (List.mem_append.mp hmem).elim (h.calls call) (hc call)⟩

theorem withRuns (h : s.Sound jobOf) {runs : ScheduleRuns}
    (hr : ∀ r ∈ runs, RunSound jobOf s.reached r) : Sound jobOf { s with runs } :=
  ⟨hr, h.jobs, h.calls⟩

theorem withJobs (h : s.Sound jobOf) {jobs : List (String × OutboxJob)}
    (hj : ∀ e ∈ jobs, e ∈ s.jobs ∨ outcomeOf e.2.status = none) :
    Sound jobOf { s with jobs } := by
  refine ⟨h.runs, fun e he outcome ho => ?_, h.calls⟩
  rcases hj e he with hold | hnone
  · exact h.jobs e hold outcome ho
  · rw [hnone] at ho
    cases ho

/-- The row of an id is finalized with what its job reached. -/
theorem finalizeRuns (h : s.Sound jobOf) {run : String} {outcome : Outcome}
    {error : Option RunError} (ho : OutcomeSound s.reached (jobOf run) outcome error) :
    ∀ r ∈ s.runs.finalize run outcome.runStatus error, RunSound jobOf s.reached r := by
  intro r hr
  rcases ScheduleRuns.mem_finalize hr with hr | ⟨r', hr', rfl, hrun, rfl⟩
  · exact h.runs r hr
  · exact (h.runs r' hr').finalize hrun ho

end Tables.Sound

theorem Tables.reached_finalizeScheduleRun (s : Tables) (run : String)
    (status : ScheduleRunStatus) (error : Option RunError) :
    (s.finalizeScheduleRun run status error).reached = s.reached := by
  unfold finalizeScheduleRun
  dsimp only
  split
  · rfl
  · split
    · split <;> rfl
    · rfl

namespace Tables.Sound

variable {s t : Tables}

/-- `finalize_schedule_run`, whatever rows the statement leaves. -/
theorem finalizeScheduleRun (h : s.Sound jobOf) {run : String} {status : ScheduleRunStatus}
    {error : Option RunError}
    (hr : ∀ r ∈ s.runs.finalize run status error, RunSound jobOf s.reached r) :
    (s.finalizeScheduleRun run status error).Sound jobOf := by
  have hf := h.withRuns hr
  unfold Tables.finalizeScheduleRun
  dsimp only
  split
  · exact hf
  · split
    · split
      · exact hf.spawn fun call hc => (List.mem_singleton.mp hc) ▸ trivial
      · exact hf.spawn fun call hc => (List.mem_singleton.mp hc) ▸ trivial
    · exact hf

theorem finalizeOutcome (h : s.Sound jobOf) {run : String} {outcome : Outcome}
    {error : Option RunError} (ho : OutcomeSound s.reached (jobOf run) outcome error) :
    (s.finalizeScheduleRun run outcome.runStatus error).Sound jobOf :=
  h.finalizeScheduleRun (h.finalizeRuns ho)

theorem create (h : s.Sound jobOf) {f : Fire} {runs : ScheduleRuns}
    (hc : s.runs.create (rowOf f (some (jobOf f.runKey)) .running none) = some runs) :
    Sound jobOf { s with runs } := by
  refine h.withRuns fun r hr => ?_
  rcases ScheduleRuns.mem_of_create hc hr with hr | rfl
  · exact h.runs r hr
  · exact ⟨fun _ => ⟨rfl, rfl⟩, fun hend => by rcases hend with hend | hend <;> cases hend⟩

theorem createSkipped (h : s.Sound jobOf) {f : Fire} {error : RunError} {runs : ScheduleRuns}
    (hc : s.runs.create (rowOf f none .skipped (some error)) = some runs) :
    Sound jobOf { s with runs } := by
  refine h.withRuns fun r hr => ?_
  rcases ScheduleRuns.mem_of_create hc hr with hr | rfl
  · exact h.runs r hr
  · constructor
    · intro hlive
      cases hlive
    · intro hend
      rcases hend with hend | hend <;> cases hend

/-- What a heal makes of a job is what the job reached. -/
theorem verdict (h : s.Sound jobOf) {job : String} {v : Verdict} (hv : s.verdict job = some v) :
    v.Sound s.reached job := by
  unfold Tables.verdict at hv
  split at hv
  next => cases hv; trivial
  next row hrow =>
    split at hv
    next hs => cases hv; exact ⟨h.jobs _ (EntryMap.mem_of_get hrow) .success (by rw [hs]; rfl), by simp⟩
    next hs =>
      cases hv
      refine ⟨h.jobs _ (EntryMap.mem_of_get hrow) .failed (by rw [hs]; rfl), ?_⟩
      unfold jobFailureError
      cases row.lastError <;> simp
    next => cases hv
    next => cases hv

theorem waiting (h : s.Sound jobOf) : ∀ w ∈ s.runs.runningJobRuns, w.2 = jobOf w.1 := by
  intro w hw
  obtain ⟨r, hr, hid, hrun, hjob⟩ := ScheduleRuns.mem_runningJobRuns hw
  rw [((h.runs r hr).live hrun).1, Option.some.injEq] at hjob
  rw [← hjob, hid]

theorem found (h : s.Sound jobOf) {job : String} : ∀ run ∈ s.runs.byJob job, jobOf run = job := by
  intro run hmem
  obtain ⟨r, hr, rfl, hrun, hjob⟩ := ScheduleRuns.mem_byJob hmem
  exact Option.some.inj (((h.runs r hr).live hrun).1.symm.trans hjob)

theorem observeNext {reached : List (String × Outcome)} {job : String} {outcome : Outcome}
    {runs : List String} (ho : (job, outcome) ∈ reached) (hr : ∀ run ∈ runs, jobOf run = job) :
    ∀ call ∈ Tables.observeNext job outcome runs, call.Sound jobOf reached := by
  intro call hc
  cases runs with
  | nil => cases hc
  | cons run runs =>
    cases outcome with
    | success => exact (List.mem_singleton.mp hc) ▸ ⟨⟨ho, by simp⟩, hr⟩
    | failed => exact (List.mem_singleton.mp hc) ▸ ⟨ho, hr⟩

/-- A call goes on. -/
theorem resume (h : s.Sound jobOf) {call : Call} (hc : call.Sound jobOf s.reached)
    (hok : s.Timely (.resume call)) : (Tables.resume jobOf s call).Sound jobOf := by
  have htrivial : ∀ {c : Call} {s : Tables}, c.Sound jobOf s.reached →
      ∀ call ∈ [c], call.Sound jobOf s.reached :=
    fun hc call hmem => (List.mem_singleton.mp hmem) ▸ hc
  cases call with
  | gating f =>
    simp only [Tables.resume]
    split
    · split <;> exact h.spawn (htrivial trivial)
    · exact h.spawn (htrivial trivial)
  | creating f suppressed =>
    cases suppressed with
    | some error =>
      simp only [Tables.resume]
      split
      · exact h
      · split
        next hrow => exact h.createSkipped hrow
        next => exact h
    | none =>
      simp only [Tables.resume]
      split
      next hrow => exact (h.create hrow).spawn (htrivial trivial)
      next => exact h
  | creatingJob f =>
    simp only [Tables.resume]
    split
    next => exact h
    next hnew =>
      refine h.withJobs fun e he => (EntryMap.mem_of_mem_set he).imp_right ?_
      rintro rfl
      rfl
  | healing => exact h.spawn (htrivial h.waiting)
  | lookingUp waiting =>
    cases waiting with
    | nil => exact h
    | cons w waiting =>
      refine h.spawn (htrivial ⟨fun v hv => ?_, fun w' hw' => hc w' (List.mem_of_mem_drop hw')⟩)
      obtain ⟨w', hw', hv⟩ := List.mem_filterMap.mp hv
      obtain ⟨v', hv', rfl⟩ := Option.map_eq_some_iff.mp hv
      have hjob : w'.2 = jobOf w'.1 := hc w' (List.mem_of_mem_take hw')
      exact hjob ▸ h.verdict hv'
  | judging verdicts waiting =>
    cases verdicts with
    | nil => exact h.spawn (htrivial hc.2)
    | cons v verdicts =>
      obtain ⟨run, v⟩ := v
      have hrest : (Call.judging verdicts waiting).Sound jobOf s.reached :=
        ⟨(List.forall_mem_cons.mp hc.1).2, hc.2⟩
      cases v with
      | missing =>
        -- the run is not `running` any more
        have hsame : s.runs.finalize run .failed (some .jobMissing) = s.runs :=
          ScheduleRuns.finalize_of_runningRow hok
        refine (h.finalizeScheduleRun (by rw [hsame]; exact h.runs)).spawn (htrivial ?_)
        rw [reached_finalizeScheduleRun]
        exact hrest
      | terminal outcome error =>
        have ho : OutcomeSound s.reached (jobOf run) outcome error := hc.1 _ List.mem_cons_self
        refine (h.finalizeOutcome ho).spawn (htrivial ?_)
        rw [reached_finalizeScheduleRun]
        exact hrest
  | finding job outcome => exact h.spawn (observeNext hc h.found)
  | loading job runs =>
    cases runs with
    | nil => exact h
    | cons run runs =>
      refine h.spawn (htrivial ⟨⟨hc.1, ?_⟩, hc.2⟩)
      cases EntryMap.get s.jobs job with
      | none => simp
      | some row => cases hl : row.lastError <;> simp [hl]
  | observing job run outcome error runs =>
    have hjob : jobOf run = job := hc.2 run List.mem_cons_self
    refine (h.finalizeOutcome (hjob ▸ hc.1)).spawn ?_
    rw [reached_finalizeScheduleRun]
    exact observeNext hc.1.reached (List.forall_mem_cons.mp hc.2).2
  | discardingJob job run =>
    exact (h.withJobs fun e he => .inl (List.mem_of_mem_filter he)).spawn (htrivial trivial)
  | discardingRun run => exact h.withRuns fun r hr => h.runs r (ScheduleRuns.mem_delete hr)

theorem runJob (h : s.Sound jobOf) (job : String) (row : OutboxJob) :
    Sound jobOf { s with
      jobs := EntryMap.set s.jobs job row
      reached := s.reached ++ ((outcomeOf row.status).map fun o => (job, o)).toList } := by
  have hsub : s.reached ⊆ s.reached ++ ((outcomeOf row.status).map fun o => (job, o)).toList :=
    List.subset_append_left _ _
  refine ⟨fun r hr => (h.runs r hr).mono hsub, fun e he outcome ho => ?_,
    fun call hc => (h.calls call hc).mono hsub⟩
  rcases EntryMap.mem_of_mem_set he with he | rfl
  · exact hsub (h.jobs e he outcome ho)
  · exact List.mem_append_right _ (by rw [ho]; exact List.mem_singleton_self _)

theorem step (h : s.Sound jobOf) {e : Event} (hok : s.Timely e)
    (ht : Tables.step jobOf s e = some t) : t.Sound jobOf := by
  cases e with
  | spawnOne f quarantined =>
    simp only [Tables.step] at ht
    split at ht <;> cases ht
    · exact h.spawn fun call hc => (List.mem_singleton.mp hc) ▸ trivial
    · exact h.spawn fun call hc => (List.mem_singleton.mp hc) ▸ trivial
  | healPass =>
    cases ht
    exact h.spawn fun call hc => (List.mem_singleton.mp hc) ▸ trivial
  | observeJobTerminal job outcome =>
    simp only [Tables.step] at ht
    split at ht
    next hreached =>
      cases ht
      exact h.spawn fun call hc => (List.mem_singleton.mp hc) ▸ hreached
    next => cases ht
  | runJob job row =>
    simp only [Tables.step] at ht
    split at ht
    next => cases ht
    next =>
      split at ht
      · cases ht
      · cases ht
        exact h.runJob job row
  | pruneRuns doomed =>
    cases ht
    exact h.withRuns fun r hr => h.runs r (ScheduleRuns.mem_prune hr)
  | pruneJobs doomed =>
    cases ht
    exact h.withJobs fun e he => .inl (List.mem_of_mem_filter he)
  | resume call =>
    simp only [Tables.step] at ht
    split at ht
    next hmem =>
      cases ht
      have hothers : Sound jobOf { s with calls := s.calls.erase call } :=
        ⟨h.runs, h.jobs, fun c hc => h.calls c (List.mem_of_mem_erase hc)⟩
      exact hothers.resume (h.calls call hmem) hok
    next => cases ht

theorem start : Tables.start.Sound jobOf :=
  ⟨fun _ hr => (by cases hr), fun _ he => (by cases he), fun _ hc => (by cases hc)⟩

end Tables.Sound

end

/-! ## Runs -/

/-- As long as no run is failed for a missing job while it is `running`, every run of a job that
ends success or failed has the outcome its job reached, and none says `job_missing`. -/
theorem ended_runs_tell_their_jobs (jobOf : String → String) (s : Tables)
    (hrun : Run (Tables.step jobOf) Tables.Timely Tables.start s) :
    ∀ r ∈ s.runs, r.status = .success ∨ r.status = .failed → Tells s.reached r := by
  have hsound : s.Sound jobOf :=
    hrun.invariant Tables.Sound.start fun _ _ _ h hok hstep => h.step hok hstep
  exact fun r hr => (hsound.runs r hr).ended

/-! ## A job that is not there -/

def oneFire : Fire := ⟨"sync_1_k", "sync", "k", true, false⟩

def jobOfRun (runKey : String) : String := "job:" ++ runKey

/-- The fire is past its check and has created its run. -/
def createRun : List Event :=
  [.spawnOne oneFire false, .resume (.gating oneFire), .resume (.creating oneFire none)]

def createJob : List Event := [.resume (.creatingJob oneFire)]

/-- A heal that finds the run and judges its job. -/
def healOne (verdict : Verdict) : List Event :=
  [.healPass, .resume .healing, .resume (.lookingUp [("sync_1_k", "job:sync_1_k")]),
    .resume (.judging [("sync_1_k", verdict)] [])]

/-- The job succeeds. -/
def succeed : List Event := [.runJob "job:sync_1_k" ⟨.success, none⟩]

/-- A run that is healed once its job is done. -/
theorem ended_runs_tell_their_jobs_one : ∃ s : Tables,
    Run (Tables.step jobOfRun) Tables.Timely Tables.start s ∧
    ∃ r ∈ s.runs, r.status = .success ∧ Tells s.reached r := by
  have hrun : (runAll (Tables.step jobOfRun) (fun s e => decide (s.Timely e)) Tables.start
      (createRun ++ createJob ++ succeed ++ healOne (.terminal .success none))).any
        (fun s => s.runs.any fun r => r.status = .success) = true := by decide +kernel
  obtain ⟨s, hs, hall⟩ := exists_run hrun
  obtain ⟨r, hr, hend⟩ := List.any_eq_true.mp hall
  have hin : Run (Tables.step jobOfRun) Tables.Timely Tables.start s :=
    hs.mono fun _ _ => of_decide_eq_true
  have hsuccess : r.status = .success := of_decide_eq_true hend
  exact ⟨s, hin, r, hr, hsuccess, ended_runs_tell_their_jobs jobOfRun s hin r hr (.inl hsuccess)⟩

/-- A heal that comes between the run and its job fails a run whose job is then pending, and so
does one that comes after the row cap has taken the job that succeeded. -/
theorem heal_fails_live_run :
    (∃ s : Tables, Run (Tables.step jobOfRun) (fun _ _ => True) Tables.start s ∧
      s.runs.any (fun r => r.status = .failed ∧ r.error = some .jobMissing) = true ∧
      EntryMap.get s.jobs "job:sync_1_k" = some ⟨.pending, none⟩ ∧ s.reached = []) ∧
    (∃ s : Tables, Run (Tables.step jobOfRun) (fun _ _ => True) Tables.start s ∧
      s.runs.any (fun r => r.status = .failed ∧ r.error = some .jobMissing) = true ∧
      s.reached = [("job:sync_1_k", .success)]) ∧
    ¬ ∀ s : Tables, Run (Tables.step jobOfRun) (fun _ _ => True) Tables.start s →
      ∀ r ∈ s.runs, r.status = .success ∨ r.status = .failed → Tells s.reached r := by
  have hrace : (runAll (Tables.step jobOfRun) (fun _ _ => true) Tables.start
      (createRun ++ healOne .missing ++ createJob)).any
        (fun s => s.runs.any (fun r => r.status = .failed ∧ r.error = some .jobMissing) = true ∧
          EntryMap.get s.jobs "job:sync_1_k" = some ⟨.pending, none⟩ ∧ s.reached = []) = true := by
    decide +kernel
  have hcap : (runAll (Tables.step jobOfRun) (fun _ _ => true) Tables.start
      (createRun ++ createJob ++ succeed ++ [.pruneJobs ["job:sync_1_k"]] ++
        healOne .missing)).any
        (fun s => s.runs.any (fun r => r.status = .failed ∧ r.error = some .jobMissing) = true ∧
          s.reached = [("job:sync_1_k", .success)]) = true := by
    decide +kernel
  obtain ⟨s, hs, hall⟩ := exists_freeRun hrace
  obtain ⟨t, ht, hcapped⟩ := exists_freeRun hcap
  obtain ⟨hfailed, hjob, hreached⟩ := of_decide_eq_true hall
  have hfree : Run (Tables.step jobOfRun) (fun _ _ => True) Tables.start s :=
    hs
  refine ⟨⟨s, hfree, hfailed, hjob, hreached⟩,
    ⟨t, ht, of_decide_eq_true hcapped⟩, fun h => ?_⟩
  obtain ⟨r, hr, hend⟩ := List.any_eq_true.mp hfailed
  obtain ⟨job, outcome, -, hmem, -⟩ := h s hfree r hr (.inr (of_decide_eq_true hend).1)
  rw [hreached] at hmem
  cases hmem

end Sp00ky.ScheduleCore.JobRuns
