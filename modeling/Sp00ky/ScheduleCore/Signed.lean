/-
  Who asks which statement of a workflow run (`packages/schedule-core/src/workflow.rs`).

  The calls of `Workflow.lean`, with each statement signed by the function that asks it: a pass, a
  stop, a spawn or an operator. The error a run is closed with is that of the function that closes
  it. `spawn_workflow` is here in full: the schedule run that gates the fire, the skeleton that is
  written row by row, and the run failed when a write of it fails. Without the signatures the calls
  are those of `Workflow.lean` (`program_unsigned`).

  The ledger notes three things for the theorems: which jobs were created, which were handed to
  `JobKill::kill`, and that a stop has returned with the run closed and not opened since.
-/
import Sp00ky.ScheduleCore.Workflow
import Sp00ky.Lib.Succession

namespace Sp00ky.ScheduleCore

open Lib
open Ssp (Json)

/-! ## Statements -/

/-- The function that asks a statement. -/
inductive Caller where
  | pass | stop | spawn | operator
deriving DecidableEq, Repr

inductive SignedStatement where
  | ask (caller : Caller) (q : Statement)
  | createScheduleRun
  /-- `stop_workflow_run` returns. -/
  | stopReturned

def SignedAnswer : SignedStatement → Type
  | .ask _ q => Answer q
  | .createScheduleRun => Bool
  | .stopReturned => Unit

/-- The `code` of a run's error. -/
inductive ClosingError where
  | killed | deadlineExceeded | stepFailed | spawnFailed
deriving DecidableEq, Repr

/-- The error that a run is closed with. -/
def errorOf : Caller → RunStatus → Option ClosingError
  | .stop, .killed => some .killed
  | .stop, .failed => some .deadlineExceeded
  | .pass, .failed => some .stepFailed
  | .spawn, .failed => some .spawnFailed
  | _, _ => none

/-- The run is failed or killed. -/
def RunState.closed (s : RunState) : Bool :=
  s.run.any fun run => run.status = .failed || run.status = .killed

def RunState.running (s : RunState) : Bool := s.run.any fun run => run.status = .running

/-- The statement makes the run a running one. -/
def RunState.opens (s : RunState) : Statement → Bool
  | .createRun => s.run.isNone
  | .reopenWorkflowRun => s.closed
  | _ => false

/-- One run with its error, the schedule run of its fire, and the notes. -/
structure Ledger where
  state : RunState
  error : Option ClosingError
  scheduleRun : Bool
  created : List JobId
  handed : List JobId
  stopped : Bool

namespace Ledger

/-- Nothing is there yet. -/
def empty : Ledger := ⟨.empty, none, false, [], [], false⟩

/-- The run's error after a statement. -/
def errorAfter (s : Ledger) (caller : Caller) : Statement → Option ClosingError
  | .finalizeWorkflowRun status => if s.state.running then errorOf caller status else s.error
  | .deleteWorkflowRun => none
  | q => if s.state.opens q then none else s.error

def createdAfter (s : Ledger) : Statement → List JobId
  | .createJob job _ _ => job :: s.created
  | _ => s.created

/-- A job is handed to the runner to be killed. -/
def handedAfter (s : Ledger) : Statement → List JobId
  | .killJob job => job :: s.handed
  | _ => s.handed

/-- Each statement as the database runs it. -/
def exec (w : Workflow) (s : Ledger) : (q : SignedStatement) → Ledger × SignedAnswer q
  | .ask caller q =>
    ({ s with
        state := (RunState.exec w s.state q).1
        error := s.errorAfter caller q
        created := s.createdAfter q
        handed := s.handedAfter q
        stopped := s.stopped && !s.state.opens q },
      (RunState.exec w s.state q).2)
  | .createScheduleRun => ({ s with scheduleRun := true }, !s.scheduleRun)
  | .stopReturned => ({ s with stopped := s.stopped || s.state.closed }, ())

/-- A job moves on by itself. -/
def jobEvent (s : Ledger) (e : RunState.JobEvent) : Option Ledger :=
  (s.state.jobEvent e).map fun state => { s with state }

end Ledger

/-! ## Calls -/

/-- A call of the engine, signed. -/
abbrev SignedPass (α : Type) := Prog SignedStatement SignedAnswer α

def askSigned (q : SignedStatement) : SignedPass (SignedAnswer q) := Prog.stmt q

/-- The statements of a program are asked by one function. -/
def signed {α : Type} (caller : Caller) (p : Pass α) : SignedPass α :=
  p.translate fun q => askSigned (.ask caller q)

/-- Why a run is stopped. -/
inductive StopReason where
  | killed | deadline
deriving DecidableEq, Repr

def StopReason.status : StopReason → RunStatus
  | .killed => .killed
  | .deadline => .failed

/-- `stop_workflow_run`. -/
def stopRun (reason : StopReason) : SignedPass Unit := do
  signed .stop (stopWorkflowRun reason.status)
  askSigned .stopReturned

/-- `advance_workflow`, of a run it goes on with. -/
def workOn (w : Workflow) (run : RunRow) : Pass Unit := do
  let rows : List StepRow ← ask .selectSteps
  let landed ← Prog.each landStep rows
  moveOn w run landed

/-- `advance_workflow`. -/
def advance (w : Workflow) : SignedPass Unit := do
  let run : Option RunRow ← signed .pass (ask .selectRun)
  match run with
  | none => pure ()
  | some run =>
    if run.status ≠ .running then pure ()
    else if run.killRequested then stopRun .killed
    else signed .pass (workOn w run)

/-- `observe_job_terminal`. -/
def observeTerminal (w : Workflow) (job : JobId) (status : JobStatus) : SignedPass Unit :=
  if status = .success ∨ status = .failed then do
    let found : Nat ← signed .pass (ask (.findStepByJob job))
    let _ ← Prog.each (fun _ => advance w) (List.range found)
    pure ()
  else .done ()

/-- `request_workflow_kill`. -/
def requestKill : SignedPass Unit := do
  signed .operator (ask .requestWorkflowKill)
  let run : Option RunRow ← signed .operator (ask .selectRun)
  match run with
  | none => pure ()
  | some run => if run.status = .running then stopRun .killed else pure ()

/-- `retry_workflow`, up to the pass: whether the run was reopened. -/
def resetAndReopen : Pass Bool := do
  let run : Option RunRow ← ask .selectRun
  match run with
  | none => pure false
  | some run =>
    if run.status = .failed ∨ run.status = .killed then do
      let rows : List StepRow ← ask .selectSteps
      let settled ← settledJobs rows
      match settled with
      | none => pure false
      | some settled => do
        let reset ← Prog.each resetStep settled
        if reset.any id || settled.any landable then do
          let reopened : Option RunRow ← ask .reopenWorkflowRun
          pure reopened.isSome
        else pure false
    else pure false

/-- `retry_workflow`. -/
def retry (w : Workflow) : SignedPass Unit := do
  let reopened : Bool ← signed .operator resetAndReopen
  if reopened then advance w else pure ()

/-- `rerun_workflow`, for the run it starts. -/
def rerun (w : Workflow) : SignedPass Unit := do
  let created : Bool ← signed .operator (ask .createRun)
  if created then do
    let _ ← signed .operator (Prog.each (fun step => ask (.createStepRun step)) w.dag.names)
    advance w
  else pure ()

/-- The writes of a run's skeleton: its row, then a row for each step. -/
def skeleton (w : Workflow) : List (Pass Unit) :=
  (do let _ ← ask .createRun; pure ()) :: w.dag.names.map fun step => ask (.createStepRun step)

/-- `spawn_workflow`. -/
def spawn (w : Workflow) : SignedPass Unit := do
  let created : Bool ← askSigned .createScheduleRun
  if created then do
    let _ ← signed .spawn (Prog.each id (skeleton w))
    advance w
  else pure ()

/-- `spawn_workflow`, of which a write fails after so many: `fail_unspawnable_run`. -/
def spawnFailing (w : Workflow) (written : Nat) : SignedPass Unit := do
  let created : Bool ← askSigned .createScheduleRun
  if created then do
    let _ ← signed .spawn (Prog.each id ((skeleton w).take written))
    let _ ← signed .spawn (ask (.finalizeWorkflowRun .failed))
    pure ()
  else pure ()

/-- A call on the run. -/
inductive Invocation where
  | advance
  | observeJobTerminal (job : JobId) (status : JobStatus)
  | stop (reason : StopReason)
  | requestKill
  | retry
  | rerun
  | spawn
  | spawnFailing (written : Nat)

/-- What each call does. -/
def Invocation.program (w : Workflow) : Invocation → SignedPass Unit
  | .advance => ScheduleCore.advance w
  | .observeJobTerminal job status => observeTerminal w job status
  | .stop reason => stopRun reason
  | .requestKill => ScheduleCore.requestKill
  | .retry => ScheduleCore.retry w
  | .rerun => ScheduleCore.rerun w
  | .spawn => ScheduleCore.spawn w
  | .spawnFailing written => ScheduleCore.spawnFailing w written

/-- The run with its calls. -/
abbrev Signers := Calls Ledger SignedStatement SignedAnswer

abbrev SignerEvent := CallEvent Invocation RunState.JobEvent

/-- One step of a call, or of a job. -/
def signedStep (w : Workflow) (e : Signers) (a : SignerEvent) : Option Signers :=
  Calls.step (Ledger.exec w) (Invocation.program w) Ledger.jobEvent e a

/-! ## Without the signatures -/

/-- A program without its signatures. -/
def unsigned {α : Type} (p : SignedPass α) : Pass α :=
  p.translate fun q => match q with
    | .ask _ q => Prog.stmt q
    | .createScheduleRun => .done true
    | .stopReturned => .done ()

theorem unsigned_signed {α : Type} (caller : Caller) (p : Pass α) : unsigned (signed caller p) = p :=
  (Prog.translate_translate _ _ p).trans (Prog.translate_stmt p)

theorem unsigned_bind {α β : Type} (p : SignedPass α) (f : α → SignedPass β) :
    unsigned (p.bind f) = (unsigned p).bind fun a => unsigned (f a) := Prog.translate_bind _ p f

theorem unsigned_signed_bind {α β : Type} (caller : Caller) (p : Pass α) (f : α → SignedPass β) :
    unsigned ((signed caller p).bind f) = p.bind fun a => unsigned (f a) := by
  rw [unsigned_bind, unsigned_signed]

theorem unsigned_stopRun (reason : StopReason) :
    unsigned (stopRun reason) = stopWorkflowRun reason.status :=
  (unsigned_signed_bind .stop _ _).trans (Prog.bind_done _)

theorem unsigned_advance (w : Workflow) : unsigned (advance w) = advanceWorkflow w := by
  refine (unsigned_signed_bind .pass (ask .selectRun) _).trans ?_
  refine congrArg (Prog.bind (ask .selectRun)) (funext fun run => ?_)
  cases run with
  | none => rfl
  | some run =>
    dsimp only
    split
    · rfl
    · split
      · exact unsigned_stopRun .killed
      · exact unsigned_signed .pass _

theorem unsigned_observeTerminal (w : Workflow) (job : JobId) (status : JobStatus) :
    unsigned (observeTerminal w job status) = observeJobTerminal w job status := by
  unfold observeTerminal observeJobTerminal
  split
  · refine (unsigned_signed_bind .pass (ask (.findStepByJob job)) _).trans ?_
    refine congrArg (Prog.bind (ask (.findStepByJob job))) (funext fun found => ?_)
    refine (unsigned_bind _ _).trans ?_
    have heach : unsigned (Prog.each (fun _ => advance w) (List.range found)) =
        Prog.each (fun _ => advanceWorkflow w) (List.range found) := by
      refine (Prog.translate_each _ _ _).trans ?_
      exact congrArg (Prog.each · _) (funext fun _ => unsigned_advance w)
    rw [heach]
    rfl
  · rfl

theorem unsigned_requestKill : unsigned requestKill = requestWorkflowKill := by
  refine (unsigned_signed_bind .operator (ask .requestWorkflowKill) _).trans ?_
  refine congrArg (Prog.bind (ask .requestWorkflowKill)) (funext fun _ => ?_)
  refine (unsigned_signed_bind .operator (ask .selectRun) _).trans ?_
  refine congrArg (Prog.bind (ask .selectRun)) (funext fun run => ?_)
  cases run with
  | none => rfl
  | some run =>
    dsimp only
    split
    · exact unsigned_stopRun .killed
    · rfl

/-- What follows a retry that may have reopened the run. -/
theorem resetAndReopen_bind (w : Workflow) :
    (resetAndReopen.bind fun reopened => if reopened then advanceWorkflow w else .done ()) =
      retryWorkflow w := by
  unfold resetAndReopen retryWorkflow
  refine (Prog.bind_assoc _ _ _).trans ?_
  refine congrArg (Prog.bind (ask .selectRun)) (funext fun run => ?_)
  cases run with
  | none => rfl
  | some run =>
    dsimp only
    split
    · refine (Prog.bind_assoc _ _ _).trans ?_
      refine congrArg (Prog.bind (ask .selectSteps)) (funext fun rows => ?_)
      refine (Prog.bind_assoc _ _ _).trans ?_
      refine congrArg (Prog.bind (settledJobs rows)) (funext fun settled => ?_)
      cases settled with
      | none => rfl
      | some settled =>
        refine (Prog.bind_assoc _ _ _).trans ?_
        refine congrArg (Prog.bind (Prog.each resetStep settled)) (funext fun reset => ?_)
        split
        · refine (Prog.bind_assoc _ _ _).trans ?_
          refine congrArg (Prog.bind (ask .reopenWorkflowRun)) (funext fun reopened => ?_)
          cases reopened <;> rfl
        · rfl
    · rfl

theorem unsigned_retry (w : Workflow) : unsigned (retry w) = retryWorkflow w := by
  refine (unsigned_signed_bind .operator resetAndReopen _).trans ?_
  rw [← resetAndReopen_bind]
  refine congrArg (Prog.bind resetAndReopen) (funext fun reopened => ?_)
  cases reopened with
  | true => exact unsigned_advance w
  | false => rfl

theorem unsigned_rerun (w : Workflow) : unsigned (rerun w) = spawnRerun w := by
  refine (unsigned_signed_bind .operator (ask .createRun) _).trans ?_
  refine congrArg (Prog.bind (ask .createRun)) (funext fun created => ?_)
  cases created with
  | false => rfl
  | true =>
    refine (unsigned_signed_bind .operator _ _).trans ?_
    exact congrArg (Prog.bind _) (funext fun _ => unsigned_advance w)

/-- The call that an invocation is without the signatures; a spawn has none. -/
def Invocation.call? : Invocation → Option Call
  | .advance => some .advance
  | .observeJobTerminal job status => some (.observeJobTerminal job status)
  | .stop reason => some (.stop reason.status)
  | .requestKill => some .requestKill
  | .retry => some .retry
  | .rerun => some .rerunTo
  | .spawn | .spawnFailing _ => none

/-- Without the signatures the calls are those of the engine. -/
theorem program_unsigned (w : Workflow) {i : Invocation} {c : Call} (h : i.call? = some c) :
    unsigned (i.program w) = c.program w := by
  cases i with
  | advance => cases h; exact unsigned_advance w
  | observeJobTerminal job status => cases h; exact unsigned_observeTerminal w job status
  | stop reason => cases h; exact unsigned_stopRun reason
  | requestKill => cases h; exact unsigned_requestKill
  | retry => cases h; exact unsigned_retry w
  | rerun => cases h; exact unsigned_rerun w
  | spawn | spawnFailing written => cases h

end Sp00ky.ScheduleCore
