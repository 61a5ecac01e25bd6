/-
  What every argument about the workflow engine shares.

  An account is a discipline together with what a pass knows: that a step has succeeded with an
  output, and that a job was seen on a dispatched row. Its one law about statements says what each
  of them keeps when the pass knows what it relies on (`Pre`). All calls of the engine are sound
  for every account (`Account.sound`), so a property of runs is an account.
-/
import Sp00ky.ScheduleCore.Workflow

namespace Sp00ky.ScheduleCore

open Lib
open Ssp (Json)

/-! ## What only grows -/

/-- The run is kept, and its jobs with what they have come to. -/
structure RunState.Onward (s t : RunState) : Prop where
  run : ∀ run, s.run = some run → ∃ run', t.run = some run' ∧ run.retryCount ≤ run'.retryCount
  job : ∀ j job, s.jobs j = some job →
    ∃ job', t.jobs j = some job' ∧ job'.content = job.content ∧ (job.unfinished = false → job' = job)

namespace RunState

theorem Onward.refl (s : RunState) : s.Onward s :=
  ⟨fun run h => ⟨run, h, Nat.le_refl _⟩, fun _ job h => ⟨job, h, rfl, fun _ => rfl⟩⟩

theorem Onward.trans {s t u : RunState} (h : s.Onward t) (h' : t.Onward u) : s.Onward u := by
  refine ⟨fun run hr => ?_, fun j job hj => ?_⟩
  · obtain ⟨run', hr', hle⟩ := h.run run hr
    obtain ⟨run'', hr'', hle'⟩ := h'.run run' hr'
    exact ⟨run'', hr'', Nat.le_trans hle hle'⟩
  · obtain ⟨job', hj', hc, he⟩ := h.job j job hj
    obtain ⟨job'', hj'', hc', he'⟩ := h'.job j job' hj'
    refine ⟨job'', hj'', hc'.trans hc, fun hu => ?_⟩
    have hsame : job' = job := he hu
    rw [hsame] at he'
    exact he' hu

variable {s t : RunState}

/-- A job that has ended is as it was. -/
theorem Onward.ended (h : s.Onward t) {j : JobId} {job : JobRow}
    (hj : s.jobs j = some job) (hu : job.unfinished = false) : t.jobs j = some job := by
  obtain ⟨job', hj', _, he⟩ := h.job j job hj
  rw [hj', he hu]

/-- The statements that delete. -/
def deletes : Statement → Bool
  | .deleteJobs _ | .deleteWorkflowRun => true
  | _ => false

theorem onward_of_eq (hr : t.run = s.run) (hj : t.jobs = s.jobs) : s.Onward t :=
  ⟨fun run h => ⟨run, by rw [hr, h], Nat.le_refl _⟩,
    fun j job h => ⟨job, by rw [hj, h], rfl, fun _ => rfl⟩⟩

theorem onward_updateStep (s : RunState) (step : String) (p : StepRow → Bool)
    (f : StepRow → StepRow) : s.Onward (s.updateStep step p f).1 :=
  onward_of_eq (updateStep_run s step p f).1 (updateStep_run s step p f).2

theorem onward_updateRun (s : RunState) (p : RunRow → Bool) (f : RunRow → RunRow)
    (hf : ∀ run, run.retryCount ≤ (f run).retryCount) : s.Onward (s.updateRun p f).1 := by
  unfold updateRun
  split
  next => exact Onward.refl s
  next run hrun =>
    split
    · refine ⟨fun run' h => ⟨f run, rfl, ?_⟩, fun _ job h => ⟨job, h, rfl, fun _ => rfl⟩⟩
      rw [hrun, Option.some.injEq] at h
      exact h ▸ hf run
    · exact Onward.refl s

/-- What does not delete keeps what is there. -/
theorem exec_onward (w : Workflow) (s : RunState) {q : Statement} (hq : deletes q = false) :
    s.Onward (exec w s q).1 := by
  cases q with
  | deleteJobs jobs | deleteWorkflowRun => cases hq
  | createRun =>
    simp only [exec]
    split
    next => exact Onward.refl s
    next h => exact ⟨fun run hr => absurd (h ▸ hr) nofun, fun _ job h => ⟨job, h, rfl, fun _ => rfl⟩⟩
  | createStepRun step =>
    simp only [exec]
    split
    · exact Onward.refl s
    · exact onward_of_eq rfl rfl
  | createJob job content outputs =>
    simp only [exec]
    split
    next => exact Onward.refl s
    next h =>
      refine ⟨fun run hr => ⟨run, hr, Nat.le_refl _⟩, fun j job' hj => ⟨job', ?_, rfl, fun _ => rfl⟩⟩
      have hne : j ≠ job := by
        rintro rfl
        rw [h] at hj
        cases hj
      exact (Function.update_of_ne hne _ _).trans hj
  | finalizeWorkflowRun status
  | requestWorkflowKill => exact onward_updateRun s _ _ fun run => Nat.le_refl _
  | reopenWorkflowRun => exact onward_updateRun s _ _ fun run => Nat.le_succ _
  | selectRun | selectSteps | selectJob job | findStepByJob job | killJob job => exact Onward.refl s
  | _ => exact onward_updateStep s _ _ _

/-- A job's own move keeps what is there. -/
theorem jobEvent_onward {e : JobEvent} (h : jobEvent s e = some t) :
    s.Onward t := by
  have hupdate : ∀ (j : JobId) (row row' : JobRow), s.jobs j = some row → row.unfinished = true →
      row'.content = row.content →
        s.Onward { s with jobs := Function.update s.jobs j (some row') } := by
    intro j row row' hrow hu hc
    refine ⟨fun run hr => ⟨run, hr, Nat.le_refl _⟩, fun j' job hj => ?_⟩
    by_cases heq : j' = j
    · subst heq
      rw [hrow, Option.some.injEq] at hj
      refine ⟨row', Function.update_self .., hj ▸ hc, fun hu' => ?_⟩
      rw [← hj, hu] at hu'
      cases hu'
    · exact ⟨job, (Function.update_of_ne heq _ _).trans hj, rfl, fun _ => rfl⟩
  cases e with
  | pickUp j | finish j outcome result =>
    simp only [jobEvent] at h
    split at h
    next row hrow =>
      split at h
      next hu =>
        cases h
        exact hupdate j row _ hrow hu rfl
      next => cases h
    next => cases h

/-- A job's own move leaves the step rows, and what the jobs were made of. -/
theorem jobEvent_steps {e : JobEvent} (h : jobEvent s e = some t) :
    t.steps = s.steps ∧ ∀ {j job}, t.jobs j = some job →
      ∃ job', s.jobs j = some job' ∧ job.content = job'.content := by
  cases e with
  | pickUp j | finish j outcome result =>
    simp only [jobEvent] at h
    split at h
    next row hrow =>
      split at h
      next =>
        cases h
        refine ⟨rfl, fun hjob => ?_⟩
        rcases update_cases hjob with hjob | ⟨rfl, rfl⟩
        · exact ⟨_, hjob, rfl⟩
        · exact ⟨row, hrow, rfl⟩
      next => cases h
    next => cases h

/-- A job's own move leaves the run, and opens no job. -/
theorem jobEvent_open {e : JobEvent} (h : jobEvent s e = some t) :
    t.run = s.run ∧ ∀ {j job}, t.jobs j = some job → job.unfinished = true →
      ∃ job', s.jobs j = some job' ∧ job'.unfinished = true := by
  cases e with
  | pickUp j | finish j outcome result =>
    simp only [jobEvent] at h
    split at h
    next row hrow =>
      split at h
      next hu =>
        cases h
        refine ⟨rfl, fun hjob hu' => ?_⟩
        rcases update_cases hjob with hjob | ⟨rfl, -⟩
        · exact ⟨_, hjob, hu'⟩
        · exact ⟨row, hrow, hu⟩
      next => cases h
    next => cases h

end RunState

/-! ## Accounts -/

/-- The output a job's end has for its step. -/
def Outcome.output (outcome : Outcome) (job : JobRow) : Option Json :=
  match outcome with
  | .success => job.result
  | .failed => none

/-- What a pass knows as it asks a statement: of a landing, the job whose end it saw; of a new job,
that the dependencies have succeeded with the outputs it holds. -/
def Pre (w : Workflow) (known : String → Option Json → RunState → Prop)
    (observed : String → JobId → RunState → Prop) (s : RunState) : Statement → Prop
  | .finalizeStep x outcome output j =>
    observed x j s ∧ ∃ job, s.jobs j = some job ∧ job.status = outcome.jobStatus ∧
      output = outcome.output job
  | .resetDispatchedStepForRetry _ (some j) => ∃ job, s.jobs j = some job ∧ job.status = .failed
  | .createJob j content outputs =>
    (∃ step ∈ w.dag.steps, jobTable w step = some j.table ∧ j.step = step.name ∧
      content = jobContent w step outputs ∧ ∀ dep ∈ step.dependsOn, known dep (outputs dep) s) ∧
    ∃ run, s.run = some run ∧ j.attempt ≤ run.retryCount
  | .markStepDispatched x j => j.step = x ∧ ∃ job, s.jobs j = some job
  | _ => True

/-- A discipline of the engine, with what a pass knows. -/
structure Account (w : Workflow) (ok : RunState → Statement → Prop) extends
    Discipline (RunState.exec w) RunState.jobEvent ok where
  known : String → Option Json → RunState → Prop
  observed : String → JobId → RunState → Prop
  onward : ∀ {s t}, rely s t → s.Onward t
  known_rely : ∀ {s t x out}, rely s t → known x out s → known x out t
  observed_rely : ∀ {s t x j}, rely s t → observed x j s → observed x j t
  named : ∀ {s x row}, inv s → s.steps x = some row → row.step = x
  known_of_row : ∀ {s x row}, inv s → s.steps x = some row → row.status = .success →
    known x (nonNull row.output) s
  observed_of_row : ∀ {s x row j}, inv s → s.steps x = some row → row.status = .dispatched →
    row.jobId = some j → observed x j s ∧ ∃ job, s.jobs j = some job
  statement : ∀ {s q}, inv s → ok s q → Pre w known observed s q →
    inv (RunState.exec w s q).1 ∧ rely s (RunState.exec w s q).1
  landed : ∀ {s x out j}, inv s → ok s (.finalizeStep x .success out j) →
    Pre w known observed s (.finalizeStep x .success out j) →
      known x out (RunState.exec w s (.finalizeStep x .success out j)).1

end Sp00ky.ScheduleCore
