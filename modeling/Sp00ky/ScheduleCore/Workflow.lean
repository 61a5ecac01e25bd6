/-
  Driving a workflow run (`packages/schedule-core/src/workflow.rs`).

  A pass reads the run and its step rows once and acts on what it read: it lands the jobs that have
  ended, skips what can no longer run, dispatches what is ready, and looks again whether everything
  is terminal. Any number of passes, kills and retries run at once.
-/
import Sp00ky.ScheduleCore.Statements

namespace Sp00ky.ScheduleCore

open Lib
open Ssp (Json)

/-- A call of the engine. -/
abbrev Pass (α : Type) := Prog Statement Answer α

def ask (q : Statement) : Pass (Answer q) := Prog.stmt q

/-- `MAX_DISPATCH_ATTEMPTS`. -/
def maxDispatchAttempts : Nat := 3

/-! ## Payloads -/

/-- `Map::insert`. -/
def insertField (fields : List (String × Json)) (key : String) (v : Json) :
    List (String × Json) :=
  fields.filter (fun f => f.1 ≠ key) ++ [(key, v)]

/-- `build_payload`. -/
def buildPayload (base : Option Json) (stepOutputs : List (String × Json)) :
    List (String × Json) :=
  let payload := match base with
    | some (.object fields) => fields
    | _ => []
  if stepOutputs.isEmpty then payload else insertField payload "steps" (.object stepOutputs)

/-- The outputs of the direct dependencies. -/
def StepDef.inputs (step : StepDef) (outputs : String → Option Json) : List (String × Json) :=
  step.dependsOn.dedup.filterMap fun dep => (outputs dep).map fun out => (dep, out)

/-- The job's content: its payload has the dependencies' outputs and the run's input. -/
def jobContent (w : Workflow) (step : StepDef) (outputs : String → Option Json) : JobContent :=
  let payload := buildPayload step.payload (step.inputs outputs)
  ⟨step.path,
    match w.input with
    | none => payload
    | some input => insertField payload "input" input,
    step.maxRetries, step.retryStrategy, step.timeout⟩

/-- The outbox table of a step. -/
def jobTable (w : Workflow) (step : StepDef) : Option String := step.table.or w.targetTable

/-- `dispatch_step`. -/
def dispatchStep (w : Workflow) (run : RunRow) (step : StepDef)
    (outputs : String → Option Json) : Pass Unit :=
  match jobTable w step with
  | none => ask (.failUndispatchableStep step.name)
  | some table => do
    let job : JobId := ⟨table, step.name, run.retryCount⟩
    ask (.createJob job (jobContent w step outputs) outputs)
    ask (.markStepDispatched step.name job)

/-! ## A pass -/

/-- The statuses of the rows a pass holds. -/
def statusesOf (rows : List StepRow) : Statuses :=
  fun name => (rows.find? fun row => row.step = name).map (·.status)

/-- The outputs of the rows that have succeeded. -/
def outputsOf (rows : List StepRow) : String → Option Json :=
  fun name => (rows.find? fun row => row.step = name && row.status = .success).bind (·.output)

/-- The row of a step whose job has ended is landed. -/
def landStep (row : StepRow) : Pass StepRow :=
  if row.status = .dispatched then
    match row.jobId with
    | none => .done row
    | some job => do
      let found : Option JobRow ← ask (.selectJob job)
      match found with
      | none => do
        ask (.finalizeStep row.step .failed none job)
        pure { row with status := .failed }
      | some job' =>
        match job'.status with
        | .success => do
          ask (.finalizeStep row.step .success job'.result job)
          pure { row with status := .success, output := job'.result }
        | .failed => do
          ask (.finalizeStep row.step .failed none job)
          pure { row with status := .failed }
        | .pending | .processing => pure row
  else .done row

/-- The rows a failure skips: all that have not started, or those it dooms. -/
def toSkip (w : Workflow) (rows : List StepRow) : List String :=
  match w.onFailure with
  | .halt => (rows.filter fun row => row.status = .blocked || row.status = .ready).map (·.step)
  | .continueIndependent =>
    let doomed := (w.dag.doomedSteps (statusesOf rows)).map (·.1)
    (rows.filter fun row => row.step ∈ doomed).map (·.step)

/-- A row without a job is skipped. -/
def skipUndispatched (row : StepRow) : Pass StepRow :=
  if row.status = .dispatched && row.jobId.isNone then do
    let skipped : Bool ← ask (.skipUndispatchedStep row.step)
    pure (if skipped then { row with status := .skipped } else row)
  else .done row

def skipSteps (w : Workflow) (rows : List StepRow) : Pass (List StepRow) := do
  let skips := toSkip w rows
  let _ ← Prog.each (fun step => ask (.skipStep step)) skips
  Prog.each skipUndispatched
    (rows.map fun row => if row.step ∈ skips then { row with status := .skipped } else row)

/-- A row past `blocked` that holds no job is dispatched again, or given up. -/
def recoverStep (w : Workflow) (run : RunRow) (statuses : Statuses)
    (outputs : String → Option Json) (row : StepRow) : Pass Unit :=
  if row.status = .ready || (row.status = .dispatched && row.jobId.isNone) then
    match w.dag.step row.step with
    | none => .done ()
    | some step =>
      if step.satisfied statuses then
        if maxDispatchAttempts ≤ row.dispatchAttempts then do
          let _ ← ask (if row.status = .ready then .failUndispatchableStep row.step
            else .failUndispatchedStep row.step)
          pure ()
        else do
          let charged : Option Nat ← ask (.bumpStepDispatchAttempt row.step)
          if charged.isSome then dispatchStep w run step outputs else pure ()
      else .done ()
  else .done ()

/-- A ready step is claimed, and dispatched if the claim is won. -/
def startStep (w : Workflow) (run : RunRow) (outputs : String → Option Json)
    (rows : List StepRow) (step : StepDef) : Pass Unit :=
  if rows.any fun row => row.step = step.name then do
    let claimed : Bool ← ask (.claimStepReady step.name)
    if claimed then dispatchStep w run step outputs else pure ()
  else .done ()

/-- The jobs of a run are deleted. -/
def deleteJobsOf (rows : List StepRow) : Pass Unit :=
  if (rows.filterMap (·.jobId)).isEmpty then .done ()
  else do
    let _ ← ask (.deleteJobs (rows.filterMap (·.jobId)))
    pure ()

/-- `discard_workflow_if_failures_only`. -/
def discardWorkflow : Pass Unit := do
  let rows : List StepRow ← ask .selectSteps
  deleteJobsOf rows
  let _ ← ask .deleteWorkflowRun
  pure ()

/-- `complete_workflow_run`. -/
def completeWorkflowRun (w : Workflow) : Pass Unit := do
  let finalized : Bool ← ask (.finalizeWorkflowRun .success)
  if finalized && w.failuresOnly then discardWorkflow else pure ()

/-- The run ends when nothing can move any more. -/
def finishWorkflow (w : Workflow) : Pass Unit := do
  let rows : List StepRow ← ask .selectSteps
  if rows.isEmpty || !rows.all (·.status.isTerminal) then pure ()
  else if rows.any (·.status = .failed) then do
    let _ ← ask (.finalizeWorkflowRun .failed)
    pure ()
  else completeWorkflowRun w

/-- `stop_workflow_run`. -/
def stopWorkflowRun (status : RunStatus) : Pass Unit := do
  let rows : List StepRow ← ask .selectSteps
  let _ ← Prog.each (fun (row : StepRow) =>
    match row.status with
    | .blocked | .ready => ask (.skipStep row.step)
    | .dispatched =>
      match row.jobId with
      | some job => ask (.killJob job)
      | none => do
        let _ ← ask (.skipUndispatchedStep row.step)
        pure ()
    | _ => .done ()) rows
  let _ ← ask (.finalizeWorkflowRun status)
  pure ()

/-- A failure skips what it keeps from running. -/
def propagateFailure (w : Workflow) (rows : List StepRow) : Pass (List StepRow) :=
  if rows.any (·.status = .failed) then skipSteps w rows else .done rows

/-- What is ready is dispatched, and what lost its dispatch; nothing under a failure that halts. -/
def dispatchReady (w : Workflow) (run : RunRow) (anyFailed : Bool) (rows : List StepRow) :
    Pass Unit :=
  if w.onFailure = .halt ∧ anyFailed then .done ()
  else do
    let statuses := statusesOf rows
    let outputs := outputsOf rows
    let _ ← Prog.each (recoverStep w run statuses outputs) rows
    let _ ← Prog.each (startStep w run outputs rows) (w.dag.readySteps statuses)
    pure ()

/-- The steps of a pass, from the rows it has landed on. -/
def moveOn (w : Workflow) (run : RunRow) (rows : List StepRow) : Pass Unit := do
  let left ← propagateFailure w rows
  dispatchReady w run (rows.any (·.status = .failed)) left
  finishWorkflow w

/-- `advance_workflow`. -/
def advanceWorkflow (w : Workflow) : Pass Unit := do
  let run : Option RunRow ← ask .selectRun
  match run with
  | none => pure ()
  | some run =>
    if run.status ≠ .running then pure ()
    else if run.killRequested then stopWorkflowRun .killed
    else do
      let rows : List StepRow ← ask .selectSteps
      let landed ← Prog.each landStep rows
      moveOn w run landed

/-! ## Other calls -/

/-- `request_workflow_kill`. -/
def requestWorkflowKill : Pass Unit := do
  ask .requestWorkflowKill
  let run : Option RunRow ← ask .selectRun
  match run with
  | none => pure ()
  | some run => if run.status = .running then stopWorkflowRun .killed else pure ()

/-- `observe_job_terminal`. -/
def observeJobTerminal (w : Workflow) (job : JobId) (status : JobStatus) : Pass Unit :=
  if status = .success ∨ status = .failed then do
    let found : Nat ← ask (.findStepByJob job)
    let _ ← Prog.each (fun _ => advanceWorkflow w) (List.range found)
    pure ()
  else .done ()

/-- Each row, with what its job has come to if it is dispatched; `none` while one is running. -/
def settledJobs : List StepRow → Pass (Option (List (StepRow × Option JobStatus)))
  | [] => .done (some [])
  | row :: rest =>
    if row.status = .dispatched then
      match row.jobId with
      | none => do
        let settled ← settledJobs rest
        pure (settled.map ((row, none) :: ·))
      | some job => do
        let found : Option JobRow ← ask (.selectJob job)
        if found.any (·.unfinished) then pure none
        else do
          let settled ← settledJobs rest
          pure (settled.map ((row, found.map (·.status)) :: ·))
    else do
      let settled ← settledJobs rest
      pure (settled.map ((row, none) :: ·))

/-- A dispatched row goes back, if it still names the job that was seen. -/
def resetDispatched (row : StepRow) : Pass Bool :=
  ask (.resetDispatchedStepForRetry row.step row.jobId)

/-- What did not work is reset; a dispatched row, unless its job has succeeded. -/
def resetStep (settled : StepRow × Option JobStatus) : Pass Bool :=
  match settled.1.status with
  | .failed | .skipped => ask (.resetStepForRetry settled.1.step)
  | .dispatched =>
    if settled.2 = some .success then .done false
    else resetDispatched settled.1
  | .success | .blocked | .ready => .done false

/-- The job of a dispatched row has succeeded. -/
def landable (settled : StepRow × Option JobStatus) : Bool :=
  settled.1.status = .dispatched && settled.2 = some .success

/-- `retry_workflow`. -/
def retryWorkflow (w : Workflow) : Pass Unit := do
  let run : Option RunRow ← ask .selectRun
  match run with
  | none => pure ()
  | some run =>
    if run.status = .failed ∨ run.status = .killed then do
      let rows : List StepRow ← ask .selectSteps
      let settled ← settledJobs rows
      match settled with
      | none => pure ()
      | some settled => do
        let reset ← Prog.each resetStep settled
        if reset.any id || settled.any landable then do
          let reopened : Option RunRow ← ask .reopenWorkflowRun
          match reopened with
          | none => pure ()
          | some _ => advanceWorkflow w
        else pure ()
    else pure ()

/-- `rerun_workflow`, for the run it starts. -/
def spawnRerun (w : Workflow) : Pass Unit := do
  let created : Bool ← ask .createRun
  if created then do
    let _ ← Prog.each (fun step => ask (.createStepRun step)) w.dag.names
    advanceWorkflow w
  else pure ()

/-- A call on the run. -/
inductive Call where
  | advance
  | observeJobTerminal (job : JobId) (status : JobStatus)
  | stop (status : RunStatus)
  | requestKill
  | retry
  /-- `rerun_workflow`, for the run it is copied from. -/
  | rerunFrom
  | rerunTo

/-- What each call does. -/
def Call.program (w : Workflow) : Call → Pass Unit
  | .advance => advanceWorkflow w
  | .observeJobTerminal job status => ScheduleCore.observeJobTerminal w job status
  | .stop status => stopWorkflowRun status
  | .requestKill => requestWorkflowKill
  | .retry => retryWorkflow w
  | .rerunFrom => do
    let _ ← ask .selectRun
    pure ()
  | .rerunTo => spawnRerun w

/-- The run with its calls. -/
abbrev Engine := Calls RunState Statement Answer

/-- One step of a call, or of a job. -/
def engineStep (w : Workflow) (e : Engine) (a : CallEvent Call RunState.JobEvent) : Option Engine :=
  Calls.step (RunState.exec w) (Call.program w) RunState.jobEvent e a

end Sp00ky.ScheduleCore
