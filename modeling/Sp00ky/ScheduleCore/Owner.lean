/-
  A workflow run and the schedule run that owns it (`packages/schedule-core/src/workflow.rs`:
  `spawn_workflow`, `advance_workflow`, `stop_workflow_run`, `retry_workflow`; `engine.rs`:
  `replace_active_runs`, `finalize_schedule_run`, `heal_pass`, `reap_pass`, `prune_pass`).

  The two rows of one run key are created, finalized, reopened and deleted by statements of their
  own. A call is a saga that is suspended at its next statement; any number of them interleave, and
  a call may die, or its statement fail. The step rows are left out: how far they let a pass, or a
  retry, come is a choice (`finishPass`, `finishReset`). So are the rows of fires that are
  suppressed, the errors that are recorded, and the reports to the schedule.
-/
import Sp00ky.ScheduleCore.ScheduleRuns

namespace Sp00ky.ScheduleCore.Owner

open Lib

/-! ## Rows and calls -/

/-- A row of `_00_workflow_run`. It is noted whether a replace has closed it. -/
structure WorkflowRun where
  status : RunStatus
  killRequested : Bool
  failuresOnly : Bool
  replaced : Bool
deriving DecidableEq, Repr

/-- What a run ends with. -/
inductive Ending where
  | success | failed | killed
deriving DecidableEq, Repr

def Ending.status : Ending → RunStatus
  | .success => .success
  | .failed => .failed
  | .killed => .killed

/-- One fire of one key. -/
structure Fire where
  runKey : String
  scheduleName : String
  key : String
  kind : ScheduleKind
  job : String
  failuresOnly : Bool
  /-- how many steps the workflow has -/
  steps : Nat
deriving DecidableEq, Repr

/-- A call, by the statement it is about to run. -/
inductive Call where
  /-- `spawn_one`: `CREATE_SCHEDULE_RUN`; for a job `CREATE_JOB`, and the finalization if that
  fails -/
  | creatingOwner (f : Fire)
  | creatingJob
  | failingJobRun
  /-- `spawn_workflow`: `CREATE_WORKFLOW_RUN`, the step rows that are left, `LINK_WORKFLOW_RUN` -/
  | creatingRun (f : Fire)
  | creatingSteps (left : Nat)
  | linking
  /-- `fail_unspawnable_run`: the workflow run, its owner if that matched, and the owner -/
  | failingRun
  | failingMirror
  | failingOwner
  /-- `advance_workflow`: the read of the run, the work on its steps, and the finalizations -/
  | loading
  | passing
  | completing
  | failing
  /-- `finalize_owning_schedule_run`, then what is left of a completion or of a replace -/
  | mirroring (ending : Ending) (discards replaces : Bool)
  /-- `discard_if_failures_only`, then the same -/
  | discardingOwner (discards replaces : Bool)
  | discardingRun
  /-- the reads of a kill that a heal finds requested, of the reaper and of `cancel_workflow` -/
  | loadingKill
  | reaping
  | cancelling
  /-- `request_workflow_kill`: the flag, and the read of the run -/
  | requesting (replaces : Bool)
  | loadingRequested (replaces : Bool)
  /-- `stop_workflow_run`, past the steps: `FINALIZE_WORKFLOW_RUN` -/
  | stopping (ending : Ending) (replaces : Bool)
  /-- `replace_active_runs`: the read of what is active, and the finalization -/
  | selecting
  | replacing
  /-- `retry_workflow`: the read of the run, the work on its steps, and the two reopens -/
  | loadingRetry
  | resetting
  | reopeningRun
  | reopeningOwner
deriving DecidableEq, Repr

/-- The rows of one run key, with the calls that are going on. -/
structure Pair where
  owner : Option ScheduleRun
  run : Option WorkflowRun
  /-- the owner's `workflow_run` is set -/
  linked : Bool
  calls : List Call

inductive Event where
  | fire (f : Fire)
  | advance | healKill | reap | cancel | replace | retry
  /-- a heal, an observer or the reaper ends the run of a job -/
  | finalizeJobRun (outcome : Outcome)
  | pruneOwner | pruneRun
  /-- a pass is through with the steps, and may find that all have ended -/
  | finishPass (verdict : Option Outcome)
  /-- a retry is through with the steps, and may find nothing to reset -/
  | finishReset (found : Bool)
  | resume (call : Call)
  | fail (call : Call)
  | die (call : Call)
deriving DecidableEq, Repr

namespace Pair

/-- Nothing has been fired under the key. -/
def blank : Pair := ⟨none, none, false, []⟩

def spawn (s : Pair) (calls : List Call) : Pair := { s with calls := s.calls ++ calls }

/-- The owner is `running`. -/
def OwnerRuns (s : Pair) : Prop := ∃ o ∈ s.owner, o.status = .running

/-- The workflow run is `running`. -/
def RunRuns (s : Pair) : Prop := ∃ w ∈ s.run, w.status = .running

instance (s : Pair) : Decidable s.OwnerRuns :=
  match h : s.owner with
  | none => isFalse fun ⟨_, ho, _⟩ => by rw [h] at ho; cases ho
  | some o =>
    if ho : o.status = .running then isTrue ⟨o, h, ho⟩
    else isFalse fun ⟨o', ho', hr⟩ => by
      rw [h] at ho'
      cases ho'
      exact ho hr

instance (s : Pair) : Decidable s.RunRuns :=
  match h : s.run with
  | none => isFalse fun ⟨_, hw, _⟩ => by rw [h] at hw; cases hw
  | some w =>
    if hw : w.status = .running then isTrue ⟨w, h, hw⟩
    else isFalse fun ⟨w', hw', hr⟩ => by
      rw [h] at hw'
      cases hw'
      exact hw hr

/-! ## Statements -/

def ownerOf (f : Fire) : ScheduleRun where
  id := f.runKey
  scheduleName := f.scheduleName
  key := f.key
  kind := f.kind
  status := .running
  error := none
  jobId := if f.kind = .job then some f.job else none
  failuresOnly := f.failuresOnly

/-- `FINALIZE_SCHEDULE_RUN`. -/
def finalizeOwner (s : Pair) (status : ScheduleRunStatus) : Pair :=
  { s with owner := s.owner.map (·.finalize status none) }

/-- `FINALIZE_WORKFLOW_RUN`, on a run that is `running`. -/
def closeRun (s : Pair) (ending : Ending) (replaced : Bool) : Pair :=
  { s with run := s.run.map fun w => { w with status := ending.status, replaced } }

/-- `REOPEN_WORKFLOW_RUN`, on a run that failed or was killed. -/
def reopenRun (s : Pair) : Pair :=
  { s with run := s.run.map fun w =>
    { w with status := .running, killRequested := false, replaced := false } }

/-- `REOPEN_SCHEDULE_RUN`. -/
def reopenOwner (s : Pair) : Pair := { s with owner := s.owner.map (·.reopen) }

/-- `REQUEST_WORKFLOW_KILL`. -/
def requestKill (s : Pair) : Pair :=
  { s with run := s.run.map fun w => { w with killRequested := w.killRequested || w.status = .running } }

/-- What goes on once the owner is finalized or discarded. -/
def afterMirror (discards replaces : Bool) : List Call :=
  if replaces then [.replacing] else if discards then [.discardingRun] else []

/-- `finalize_schedule_run`; an owner that went well under `failures-only` is then discarded. -/
def finalizeScheduleRun (s : Pair) (status : ScheduleRunStatus) (discards replaces : Bool) : Pair :=
  if s.OwnerRuns ∧ s.owner.any (·.failuresOnly) ∧ status.successShaped then
    (s.finalizeOwner status).spawn [.discardingOwner discards replaces]
  else (s.finalizeOwner status).spawn (afterMirror discards replaces)

/-- A run may be retried. -/
def Retries (s : Pair) : Prop := ∃ w ∈ s.run, w.status = .failed ∨ w.status = .killed

instance (s : Pair) : Decidable s.Retries :=
  match h : s.run with
  | none => isFalse fun ⟨_, hw, _⟩ => by rw [h] at hw; cases hw
  | some w =>
    if hw : w.status = .failed ∨ w.status = .killed then isTrue ⟨w, h, hw⟩
    else isFalse fun ⟨w', hw', hr⟩ => by
      rw [h] at hw'
      cases hw'
      exact hw hr

/-- A call runs its statement and goes on. -/
def resume (s : Pair) : Call → Option Pair
  | .creatingOwner f =>
    match s.owner with
    | some _ => some s
    | none =>
      match f.kind with
      | .job => some ({ s with owner := some (ownerOf f) }.spawn [.creatingJob])
      | .workflow =>
        some ({ s with owner := some (ownerOf f), linked := false }.spawn [.creatingRun f])
  | .creatingJob => some s
  | .failingJobRun => some (s.finalizeScheduleRun .failed false false)
  | .creatingRun f =>
    match s.run with
    | some _ => some (s.spawn [.creatingSteps f.steps])
    | none => some ({ s with run := some ⟨.running, false, f.failuresOnly, false⟩ }.spawn
        [.creatingSteps f.steps])
  | .creatingSteps (left + 1) => some (s.spawn [.creatingSteps left])
  | .creatingSteps 0 => some (s.spawn [.linking])
  | .linking => some ({ s with linked := true }.spawn [.loading])
  | .failingRun =>
    if s.RunRuns then some ((s.closeRun .failed false).spawn [.failingMirror])
    else some (s.spawn [.failingOwner])
  | .failingMirror => some ((s.finalizeScheduleRun .failed false false).spawn [.failingOwner])
  | .failingOwner => some (s.finalizeScheduleRun .failed false false)
  | .loading =>
    match s.run with
    | some ⟨.running, true, _, _⟩ => some (s.spawn [.stopping .killed false])
    | some ⟨.running, false, _, _⟩ => some (s.spawn [.passing])
    | _ => some s
  | .passing => none
  | .completing =>
    if s.RunRuns then
      some ((s.closeRun .success false).spawn [.mirroring .success (s.run.any (·.failuresOnly)) false])
    else some s
  | .failing =>
    if s.RunRuns then some ((s.closeRun .failed false).spawn [.mirroring .failed false false])
    else some s
  | .mirroring ending discards replaces =>
    some (s.finalizeScheduleRun ending.status.ofOwner discards replaces)
  | .discardingOwner discards replaces =>
    some ({ s with owner := none }.spawn (afterMirror discards replaces))
  | .discardingRun => some { s with run := none }
  | .loadingKill => if s.run.isSome then some (s.spawn [.stopping .killed false]) else some s
  | .reaping => if s.RunRuns then some (s.spawn [.stopping .failed false]) else some s
  | .cancelling => if s.RunRuns then some (s.spawn [.requesting false]) else some s
  | .requesting replaces => some (s.requestKill.spawn [.loadingRequested replaces])
  | .loadingRequested replaces =>
    if s.RunRuns then some (s.spawn [.stopping .killed replaces])
    else some (s.spawn (afterMirror false replaces))
  | .stopping ending replaces =>
    -- the owner is finalized whether the run was `running` or not
    if s.RunRuns then
      some ((s.closeRun ending replaces).spawn [.mirroring ending false replaces])
    else some (s.spawn [.mirroring ending false replaces])
  | .selecting =>
    if s.OwnerRuns then
      if s.linked then some (s.spawn [.requesting true]) else some (s.spawn [.replacing])
    else some s
  | .replacing => some (s.finalizeScheduleRun .replaced false false)
  | .loadingRetry => if s.Retries then some (s.spawn [.resetting]) else some s
  | .resetting => none
  | .reopeningRun => if s.Retries then some (s.reopenRun.spawn [.reopeningOwner]) else some s
  | .reopeningOwner => some (s.reopenOwner.spawn [.loading])

/-- What a call does whose statement fails; without an entry it returns the error. -/
def onFail : Call → List Call
  | .creatingJob => [.failingJobRun]
  | .creatingRun _ | .creatingSteps _ => [.failingRun]
  | .failingRun | .failingMirror => [.failingOwner]
  | .reopeningOwner => [.loading]
  | .discardingOwner discards replaces => afterMirror discards replaces
  | _ => []

/-- The calls but the one that goes on. -/
def others (s : Pair) (call : Call) : Pair := { s with calls := s.calls.erase call }

/-- One step. -/
def step (s : Pair) : Event → Option Pair
  | .fire f => some (s.spawn [.creatingOwner f])
  | .advance => some (s.spawn [.loading])
  | .healKill => some (s.spawn [.loadingKill])
  | .reap => some (s.spawn [.reaping])
  | .cancel => some (s.spawn [.cancelling])
  | .replace => some (s.spawn [.selecting])
  | .retry => some (s.spawn [.loadingRetry])
  | .finalizeJobRun outcome =>
    if s.owner.any (·.kind = .job) then some (s.finalizeScheduleRun outcome.runStatus false false)
    else none
  | .pruneOwner => if s.OwnerRuns then none else some { s with owner := none }
  | .pruneRun => if s.RunRuns then none else some { s with run := none }
  | .finishPass verdict =>
    if .passing ∈ s.calls then
      match verdict with
      | none => some (s.others .passing)
      | some .success => some ((s.others .passing).spawn [.completing])
      | some .failed => some ((s.others .passing).spawn [.failing])
    else none
  | .finishReset found =>
    if .resetting ∈ s.calls then
      if found then some ((s.others .resetting).spawn [.reopeningRun])
      else some (s.others .resetting)
    else none
  | .resume call => if call ∈ s.calls then (s.others call).resume call else none
  | .fail call => if call ∈ s.calls then some ((s.others call).spawn (onFail call)) else none
  | .die call => if call ∈ s.calls then some (s.others call) else none

end Pair

end Sp00ky.ScheduleCore.Owner
