/-
  The statements of the workflow engine (`packages/schedule-core/src/sql.rs`).

  Every write is one guarded statement: it names the statuses it matches, and does nothing to a row
  in another. A landing is guarded by the status alone, so the statement here carries the job whose
  outcome was observed, and the creation of a job the outputs the pass held.
-/
import Sp00ky.ScheduleCore.Dag
import Sp00ky.Lib.Calls

namespace Sp00ky.ScheduleCore

open Lib
open Ssp (Json)

/-! ## Rows -/

/-- The status of `_00_workflow_run`. -/
inductive RunStatus where
  | running | success | failed | killed
deriving DecidableEq, Repr

structure RunRow where
  status : RunStatus
  killRequested : Bool
  retryCount : Nat
deriving DecidableEq, Repr

/-- `step_job_attempt`, of the run. -/
structure JobId where
  table : String
  step : String
  attempt : Nat
deriving DecidableEq, Repr

/-- A row of `_00_step_run`. It is noted whether it was finalized with the outcome of a job. -/
structure StepRow where
  step : String
  status : StepStatus
  jobId : Option JobId
  output : Option Json
  dispatchAttempts : Nat
  landed : Bool

inductive JobStatus where
  | pending | processing | success | failed
deriving DecidableEq, Repr

/-- `build_job_content`. -/
structure JobContent where
  path : String
  payload : List (String × Json)
  maxRetries : Option Int
  retryStrategy : Option String
  timeout : Option Int

/-- An outbox row. -/
structure JobRow where
  status : JobStatus
  result : Option Json
  content : JobContent

/-- The job is not terminal. -/
def JobRow.unfinished (job : JobRow) : Bool := job.status = .pending || job.status = .processing

/-- One run with its steps and their jobs. -/
structure RunState where
  run : Option RunRow
  steps : String → Option StepRow
  jobs : JobId → Option JobRow

/-- A value that is there and not null. -/
def nonNull : Option Json → Option Json
  | some .null => none
  | v => v

/-! ## Statements -/

/-- What a job's row says about its step. -/
inductive Outcome where
  | success | failed
deriving DecidableEq, Repr

def Outcome.stepStatus : Outcome → StepStatus
  | .success => .success
  | .failed => .failed

def Outcome.jobStatus : Outcome → JobStatus
  | .success => .success
  | .failed => .failed

inductive Statement where
  | selectRun
  | selectSteps
  | selectJob (job : JobId)
  | findStepByJob (job : JobId)
  | createRun
  | createStepRun (step : String)
  | finalizeStep (step : String) (outcome : Outcome) (output : Option Json) (observed : JobId)
  | skipStep (step : String)
  | skipUndispatchedStep (step : String)
  | failUndispatchableStep (step : String)
  | failUndispatchedStep (step : String)
  | claimStepReady (step : String)
  | bumpStepDispatchAttempt (step : String)
  | createJob (job : JobId) (content : JobContent) (outputs : String → Option Json)
  | markStepDispatched (step : String) (job : JobId)
  | killJob (job : JobId)
  | finalizeWorkflowRun (status : RunStatus)
  | requestWorkflowKill
  | resetStepForRetry (step : String)
  | resetDispatchedStepForRetry (step : String) (job : Option JobId)
  | reopenWorkflowRun
  | deleteJobs (jobs : List JobId)
  | deleteWorkflowRun

/-- What a pass reads of the answer. -/
def Answer : Statement → Type
  | .selectRun | .reopenWorkflowRun => Option RunRow
  | .selectSteps => List StepRow
  | .selectJob _ => Option JobRow
  | .findStepByJob _ => Nat
  | .bumpStepDispatchAttempt _ => Option Nat
  | .createRun | .skipUndispatchedStep _ | .claimStepReady _ | .finalizeWorkflowRun _
  | .resetStepForRetry _ | .resetDispatchedStepForRetry .. => Bool
  | _ => Unit

namespace RunState

/-- `load_step_rows`: the rows in the order the store returns them, a null output read as none. -/
def rows (w : Workflow) (s : RunState) : List StepRow :=
  w.rowOrder.filterMap fun step =>
    (s.steps step).map fun row => { row with output := nonNull row.output }

/-- `UPDATE ... WHERE`, on one step row: the row after, if it matched. -/
def updateStep (s : RunState) (step : String) (guard : StepRow → Bool)
    (change : StepRow → StepRow) : RunState × Option StepRow :=
  match s.steps step with
  | none => (s, none)
  | some row =>
    if guard row then
      ({ s with steps := Function.update s.steps step (some (change row)) }, some (change row))
    else (s, none)

/-- The same on the run. -/
def updateRun (s : RunState) (guard : RunRow → Bool) (change : RunRow → RunRow) :
    RunState × Option RunRow :=
  match s.run with
  | none => (s, none)
  | some run =>
    if guard run then ({ s with run := some (change run) }, some (change run)) else (s, none)

/-- A blocked row. -/
def blockedRow (step : String) : StepRow := ⟨step, .blocked, none, none, 0, false⟩

/-- The row goes back to the start. -/
def resetRow (row : StepRow) : StepRow :=
  { row with status := .blocked, jobId := none, output := none, dispatchAttempts := 0, landed := false }

/-- The patch of `finalize_step`. -/
def finalizeRow (outcome : Outcome) (output : Option Json) (row : StepRow) : StepRow :=
  { row with
    status := outcome.stepStatus
    output := (nonNull output).or row.output
    landed := true }

/-- Each statement as the database runs it. -/
def exec (w : Workflow) (s : RunState) : (q : Statement) → RunState × Answer q
  | .selectRun => (s, s.run)
  | .selectSteps => (s, s.rows w)
  | .selectJob job => (s, s.jobs job)
  | .findStepByJob job =>
    (s, (s.rows w).countP fun row => row.jobId = some job && row.status = .dispatched)
  | .createRun =>
    match s.run with
    | some _ => (s, false)
    | none => ({ s with run := some ⟨.running, false, 0⟩ }, true)
  | .createStepRun step =>
    match s.steps step with
    | some _ => (s, ())
    | none => ({ s with steps := Function.update s.steps step (some (blockedRow step)) }, ())
  | .finalizeStep step outcome output _ =>
    ((s.updateStep step (·.status = .dispatched) (finalizeRow outcome output)).1, ())
  | .skipStep step =>
    ((s.updateStep step (fun row => row.status = .blocked || row.status = .ready)
      fun row => { row with status := .skipped }).1, ())
  | .skipUndispatchedStep step =>
    let after := s.updateStep step (fun row => row.status = .dispatched && row.jobId.isNone)
      fun row => { row with status := .skipped }
    (after.1, after.2.isSome)
  | .failUndispatchableStep step =>
    ((s.updateStep step (·.status = .ready) fun row => { row with status := .failed }).1, ())
  | .failUndispatchedStep step =>
    ((s.updateStep step (fun row => row.status = .dispatched && row.jobId.isNone)
      fun row => { row with status := .failed }).1, ())
  | .claimStepReady step =>
    let after := s.updateStep step (·.status = .blocked) fun row => { row with status := .ready }
    (after.1, after.2.isSome)
  | .bumpStepDispatchAttempt step =>
    let after := s.updateStep step (fun row => row.status = .ready || row.status = .dispatched)
      fun row => { row with dispatchAttempts := row.dispatchAttempts + 1 }
    (after.1, after.2.map (·.dispatchAttempts))
  | .createJob job content _ =>
    match s.jobs job with
    | some _ => (s, ())
    | none => ({ s with jobs := Function.update s.jobs job (some ⟨.pending, none, content⟩) }, ())
  | .markStepDispatched step job =>
    ((s.updateStep step (fun row => row.status = .ready || row.status = .dispatched)
      fun row => { row with status := .dispatched, jobId := some job }).1, ())
  -- The kill reaches the job by the runner, as a job that goes terminal by itself.
  | .killJob _ => (s, ())
  | .finalizeWorkflowRun status =>
    let after := s.updateRun (·.status = .running) fun run => { run with status := status }
    (after.1, after.2.isSome)
  | .requestWorkflowKill =>
    ((s.updateRun (·.status = .running) fun run => { run with killRequested := true }).1, ())
  | .resetStepForRetry step =>
    let after := s.updateStep step (fun row => row.status = .failed || row.status = .skipped)
      resetRow
    (after.1, after.2.isSome)
  | .resetDispatchedStepForRetry step job =>
    let after := s.updateStep step
      (fun row => row.status = .dispatched && job.isSome && decide (row.jobId = job)) resetRow
    (after.1, after.2.isSome)
  | .reopenWorkflowRun =>
    s.updateRun (fun run => run.status = .failed || run.status = .killed) fun run =>
      { run with status := .running, killRequested := false, retryCount := run.retryCount + 1 }
  | .deleteJobs jobs =>
    ({ s with jobs := fun job => if job ∈ jobs then none else s.jobs job }, ())
  | .deleteWorkflowRun => ({ s with run := none, steps := fun _ => none }, ())

/-- A job moves on by itself: the runner picks it up, or it ends. -/
inductive JobEvent where
  | pickUp (job : JobId)
  | finish (job : JobId) (outcome : Outcome) (result : Option Json)

/-- A terminal job stays as it is. -/
def jobEvent (s : RunState) : JobEvent → Option RunState
  | .pickUp job =>
    match s.jobs job with
    | some row =>
      if row.unfinished then
        some { s with jobs := Function.update s.jobs job (some { row with status := .processing }) }
      else none
    | none => none
  | .finish job outcome result =>
    match s.jobs job with
    | some row =>
      if row.unfinished then
        some { s with
          jobs := Function.update s.jobs job (some { row with status := outcome.jobStatus, result }) }
      else none
    | none => none

/-- Nothing is there yet. -/
def empty : RunState := ⟨none, fun _ => none, fun _ => none⟩

/-! ## Updates of one row -/

/-- An update leaves the run and the jobs. -/
theorem updateStep_run (s : RunState) (step : String) (p : StepRow → Bool) (f : StepRow → StepRow) :
    (s.updateStep step p f).1.run = s.run ∧ (s.updateStep step p f).1.jobs = s.jobs := by
  unfold updateStep
  split
  · exact ⟨rfl, rfl⟩
  · split <;> exact ⟨rfl, rfl⟩

/-- An update of the run leaves the rest. -/
theorem updateRun_steps (s : RunState) (p : RunRow → Bool) (f : RunRow → RunRow) :
    (s.updateRun p f).1.steps = s.steps ∧ (s.updateRun p f).1.jobs = s.jobs := by
  unfold updateRun
  split
  · exact ⟨rfl, rfl⟩
  · split <;> exact ⟨rfl, rfl⟩

/-- Of a row after one is written: it is as before, or the one. -/
theorem update_cases {κ β : Type} [DecidableEq κ] {rows : κ → Option β} {x y : κ} {new row : β}
    (h : Function.update rows x (some new) y = some row) :
    rows y = some row ∨ (y = x ∧ row = new) := by
  by_cases hy : y = x
  · subst hy
    rw [Function.update_self] at h
    exact .inr ⟨rfl, (Option.some.inj h).symm⟩
  · rw [Function.update_of_ne hy] at h
    exact .inl h

/-- Of a row after an update: it is as before, or it matched and was changed. -/
theorem updateStep_steps {s : RunState} {step x : String} {p : StepRow → Bool}
    {f : StepRow → StepRow} {row : StepRow} (h : (s.updateStep step p f).1.steps x = some row) :
    s.steps x = some row ∨
      x = step ∧ ∃ old, s.steps step = some old ∧ p old = true ∧ row = f old := by
  unfold updateStep at h
  split at h
  next => exact .inl h
  next old hold =>
    split at h
    next hp =>
      rcases update_cases h with h | ⟨rfl, rfl⟩
      · exact .inl h
      · exact .inr ⟨rfl, old, hold, hp, rfl⟩
    next => exact .inl h

/-- Of a row before an update: it is still so, or it matched and is changed. -/
theorem steps_updateStep {s : RunState} {x : String} (step : String) (p : StepRow → Bool)
    (f : StepRow → StepRow) {row : StepRow} (h : s.steps x = some row) :
    ((s.updateStep step p f).1.steps x = some row ∧ (x = step → p row = false)) ∨
      (x = step ∧ p row = true ∧ (s.updateStep step p f).1.steps x = some (f row)) := by
  unfold updateStep
  by_cases hx : x = step
  · subst hx
    rw [h]
    dsimp only
    cases hp : p row with
    | true =>
      refine .inr ⟨rfl, rfl, ?_⟩
      rw [if_pos rfl]
      exact Function.update_self ..
    | false =>
      refine .inl ⟨?_, fun _ => rfl⟩
      rw [if_neg (by decide)]
      exact h
  · refine .inl ⟨?_, fun heq => absurd heq hx⟩
    cases hs : s.steps step with
    | none => exact h
    | some old =>
      dsimp only
      split
      · dsimp only
        rw [Function.update_of_ne hx]
        exact h
      · exact h

end RunState

end Sp00ky.ScheduleCore
