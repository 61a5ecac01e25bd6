/-
  A step row tells the truth about its job.

  A skipped step has no job at the run's attempt, a step that was landed has the outcome of the job
  it names, and a step has at most one job that is not over. This rests on every dispatch being
  finished by the pass that holds it, or by one that recovers it: a row is `ready` while its job
  already exists, and whatever moves the row on in between leaves the job behind
  (`halfDispatched_is_skipped`).
-/
import Sp00ky.ScheduleCore.DependencyOrder

namespace Sp00ky.ScheduleCore

open Lib

namespace RunState

/-- The job of a step at the run's attempt. -/
def currentJob (w : Workflow) (s : RunState) (x : String) : Option JobRow :=
  (w.dag.step x).bind fun step => (jobTable w step).bind fun table =>
    s.run.bind fun run => s.jobs ⟨table, x, run.retryCount⟩

end RunState

open RunState

/-! ## The condition -/

/-- The statement leaves no dispatch behind. -/
def faithful (w : Workflow) (s : RunState) : Statement → Bool
  -- What lands is the end of the job the row names.
  | .finalizeStep x _ _ job =>
    (s.steps x).all fun row => row.status ≠ .dispatched || row.jobId = some job
  -- A ready row is marked with the job of the run's attempt, a dispatched row with its own.
  | .markStepDispatched x job =>
    (s.steps x).all fun row =>
      (row.status ≠ .ready || s.run.any fun run => run.retryCount = job.attempt) &&
        (row.status ≠ .dispatched || row.jobId = some job)
  -- A new job is of the run's attempt, and its row is still ready.
  | .createJob job _ _ =>
    (s.jobs job).isSome ||
      ((s.steps job.step).any (·.status = .ready) &&
        s.run.any fun run => run.retryCount = job.attempt)
  -- What is skipped has no job at the run's attempt.
  | .skipStep x =>
    (s.steps x).all fun row =>
      (row.status ≠ .blocked && row.status ≠ .ready) || (s.currentJob w x).isNone
  | .failUndispatchableStep x =>
    (s.steps x).all fun row => row.status ≠ .ready || (s.currentJob w x).all (!·.unfinished)
  -- No job of a ready row is underway as the run is reopened.
  | .reopenWorkflowRun =>
    w.dag.names.all fun x =>
      !((s.steps x).any (·.status = .ready) && (s.currentJob w x).any (·.unfinished))
  | .deleteJobs _ | .deleteWorkflowRun => false
  | _ => true

/-! ## The invariant -/

namespace RunState

/-- The attempt is the run's. -/
def Current (s : RunState) (attempt : Nat) : Prop :=
  ∃ run, s.run = some run ∧ attempt = run.retryCount

/-- A row stands for a job that is not over: it is ready and the job is of the run's attempt, or it
names the job. -/
def StandsFor (s : RunState) (j : JobId) (row : StepRow) : Prop :=
  (row.status = .ready ∧ s.Current j.attempt) ∨ (row.status = .dispatched ∧ row.jobId = some j)

/-- What a row says of its job, if it says so by a landing. -/
def LandedRight (s : RunState) (row : StepRow) : Prop :=
  row.landed = true → ∃ (outcome : Outcome) (j : JobId) (job : JobRow),
    row.status = outcome.stepStatus ∧ row.jobId = some j ∧ s.jobs j = some job ∧
      job.status = outcome.jobStatus

structure Faithful (w : Workflow) (s : RunState) : Prop where
  named : ∀ {x row}, s.steps x = some row → row.step = x
  placed : ∀ {j job}, s.jobs j = some job → ∃ step ∈ w.dag.steps, step.name = j.step ∧
    jobTable w step = some j.table
  attempt : ∀ {j job}, s.jobs j = some job → ∃ run, s.run = some run ∧ j.attempt ≤ run.retryCount
  marked : ∀ {x row}, s.steps x = some row → row.status = .dispatched →
    ∃ j, row.jobId = some j
  jobOf : ∀ {x row j}, s.steps x = some row → row.jobId = some j → ∃ job, s.jobs j = some job
  landed : ∀ {x row}, s.steps x = some row → s.LandedRight row
  skipped : ∀ {x row}, s.steps x = some row → row.status = .skipped → ∀ j, j.step = x →
    s.Current j.attempt → s.jobs j = none
  standsFor : ∀ {j job}, s.jobs j = some job → job.unfinished = true →
    ∃ row, s.steps j.step = some row ∧ s.StandsFor j row

variable {w : Workflow} {s t : RunState}

/-- The jobs of a step are told apart by their attempts. -/
theorem Faithful.job_eq (hs : s.Faithful w) {j j' : JobId} {job job' : JobRow}
    (hj : s.jobs j = some job) (hj' : s.jobs j' = some job') (hstep : j.step = j'.step)
    (hattempt : j.attempt = j'.attempt) : j = j' := by
  obtain ⟨step, hmem, hname, htable⟩ := hs.placed hj
  obtain ⟨step', hmem', hname', htable'⟩ := hs.placed hj'
  have hsame : step = step' :=
    List.inj_on_of_nodup_map w.dag.nodup hmem hmem' (by rw [hname, hname', hstep])
  obtain ⟨table, x, attempt⟩ := j
  obtain ⟨table', x', attempt'⟩ := j'
  subst hsame
  rw [htable, Option.some.injEq] at htable'
  simp_all

variable {j : JobId}

/-- The job of a step at the run's attempt is found under its table. -/
theorem Faithful.currentJob_eq (hs : s.Faithful w) {job : JobRow}
    (hj : s.jobs j = some job) (hcurrent : s.Current j.attempt) :
    s.currentJob w j.step = some job := by
  obtain ⟨step, hmem, hname, htable⟩ := hs.placed hj
  obtain ⟨run, hrun, ha⟩ := hcurrent
  have hfind : w.dag.step j.step = some step := hname ▸ WorkflowDag.step_of_mem hmem
  rw [currentJob, hfind, Option.bind_some, htable, Option.bind_some, hrun, Option.bind_some, ← ha]
  exact hj

/-! ## One row -/

/-- What a guarded update may do to a row. -/
structure FaithfulChange (s : RunState) (x : String) (old new : StepRow) : Prop where
  named : new.step = old.step
  marked : new.status = .dispatched → ∃ j, new.jobId = some j
  jobOf : ∀ {j}, new.jobId = some j → ∃ job, s.jobs j = some job
  landed : s.LandedRight new
  skipped : new.status = .skipped → ∀ j, j.step = x → s.Current j.attempt → s.jobs j = none
  standsFor : ∀ {j job}, s.jobs j = some job → job.unfinished = true → j.step = x →
    s.StandsFor j old → s.StandsFor j new

variable {x : String}

theorem faithful_updateStep {p : StepRow → Bool} {f : StepRow → StepRow} (hs : s.Faithful w)
    (hf : ∀ row, s.steps x = some row → p row = true → s.FaithfulChange x row (f row)) :
    (s.updateStep x p f).1.Faithful w := by
  obtain ⟨hrun, hjobs⟩ := updateStep_run s x p f
  have hcurrent : ∀ {n}, (s.updateStep x p f).1.Current n ↔ s.Current n := by
    intro n
    unfold Current
    rw [hrun]
  refine ⟨fun hrow => ?_, fun hjob => hs.placed (hjobs ▸ hjob), fun hjob => ?_, fun hrow => ?_,
    fun hrow => ?_, fun hrow => ?_, fun hrow => ?_, fun {j job} hjob hu => ?_⟩
  · rcases updateStep_steps hrow with h | ⟨rfl, old, hold, hp, rfl⟩
    · exact hs.named h
    · rw [(hf old hold hp).named]
      exact hs.named hold
  · rw [hrun]
    exact hs.attempt (hjobs ▸ hjob)
  · rcases updateStep_steps hrow with h | ⟨rfl, old, hold, hp, rfl⟩
    · exact hs.marked h
    · exact (hf old hold hp).marked
  · rw [hjobs]
    rcases updateStep_steps hrow with h | ⟨rfl, old, hold, hp, rfl⟩
    · exact hs.jobOf h
    · exact (hf old hold hp).jobOf
  · unfold LandedRight
    rw [hjobs]
    rcases updateStep_steps hrow with h | ⟨rfl, old, hold, hp, rfl⟩
    · exact hs.landed h
    · exact (hf old hold hp).landed
  · intro hskip j hstep hcur
    rw [hjobs]
    rcases updateStep_steps hrow with h | ⟨rfl, old, hold, hp, rfl⟩
    · exact hs.skipped h hskip j hstep (hcurrent.mp hcur)
    · exact (hf old hold hp).skipped hskip j hstep (hcurrent.mp hcur)
  · rw [hjobs] at hjob
    obtain ⟨row, hrow, hstands⟩ := hs.standsFor hjob hu
    rcases steps_updateStep x p f hrow with ⟨h, _⟩ | ⟨hx, hp, h⟩
    · exact ⟨row, h, hstands.imp_left fun ⟨hr, hc⟩ => ⟨hr, hcurrent.mpr hc⟩⟩
    · have hnew := (hf row (hx ▸ hrow) hp).standsFor hjob hu hx hstands
      exact ⟨f row, h, hnew.imp_left fun ⟨hr, hc⟩ => ⟨hr, hcurrent.mpr hc⟩⟩

/-- A row that has not landed and stands for nothing goes to another status, naming its job as
before or none. -/
theorem FaithfulChange.of_idle {old new : StepRow} (hs : s.Faithful w)
    (hold : s.steps x = some old) (hname : new.step = old.step) (hnew : new.status ≠ .dispatched)
    (hlanded : new.landed = false) (hjob : new.jobId = old.jobId ∨ new.jobId = none)
    (hskip : new.status = .skipped → ∀ j, j.step = x → s.Current j.attempt → s.jobs j = none)
    (hstands : ∀ {j job}, s.jobs j = some job → job.unfinished = true → j.step = x →
      ¬ s.StandsFor j old) : s.FaithfulChange x old new := by
  refine ⟨hname, fun h => absurd h hnew, fun {j} hj => ?_, fun h => ?_, hskip,
    fun hj hu hstep h => absurd h (hstands hj hu hstep)⟩
  · rcases hjob with h | h
    · exact hs.jobOf hold (h ▸ hj)
    · rw [h] at hj
      cases hj
  · rw [hlanded] at h
    cases h

/-- A row has not landed while it is not over. -/
theorem Faithful.not_landed (hs : s.Faithful w) {row : StepRow}
    (hrow : s.steps x = some row) (hstatus : row.status ≠ .success ∧ row.status ≠ .failed) :
    row.landed = false := by
  cases hl : row.landed with
  | false => rfl
  | true =>
    obtain ⟨outcome, _, _, h, _⟩ := hs.landed hrow hl
    cases outcome with
    | success => exact absurd h hstatus.1
    | failed => exact absurd h hstatus.2

/-- A row that is neither ready nor dispatched stands for nothing. -/
theorem not_standsFor {row : StepRow}
    (h : row.status ≠ .ready ∧ row.status ≠ .dispatched) : ¬ s.StandsFor j row := by
  rintro (⟨hr, _⟩ | ⟨hd, _⟩)
  · exact h.1 hr
  · exact h.2 hd

/-- A job that is over and named by the row leaves no other. -/
theorem not_standsFor_over {job : JobRow} {row : StepRow}
    (hd : row.status = .dispatched) (hj : row.jobId = some j) (hjob : s.jobs j = some job)
    (hover : job.unfinished = false) {j' : JobId} {job' : JobRow} (hjob' : s.jobs j' = some job')
    (hu : job'.unfinished = true) : ¬ s.StandsFor j' row := by
  rintro (⟨hr, _⟩ | ⟨_, hj'⟩)
  · rw [hd] at hr
    cases hr
  · rw [hj, Option.some.injEq] at hj'
    rw [← hj', hjob, Option.some.injEq] at hjob'
    rw [← hjob', hover] at hu
    cases hu

/-! ## Statements -/

/-- What an account of the rows takes a pass to know: no more than the job it saw. -/
abbrev Ground (w : Workflow) : RunState → Statement → Prop :=
  Pre w (fun _ _ _ => True) fun _ _ _ => True

theorem finalizeStep_faithful {outcome : Outcome} {output : Option Ssp.Json} (hs : s.Faithful w) (hok : faithful w s (.finalizeStep x outcome output j) = true)
    (hpre : Ground w s (.finalizeStep x outcome output j)) :
    (exec w s (.finalizeStep x outcome output j)).1.Faithful w := by
  obtain ⟨_, job, hjob, hstatus, _⟩ := hpre
  refine faithful_updateStep hs fun row hrow hp => ?_
  have hd : row.status = .dispatched := of_decide_eq_true hp
  have hj : row.jobId = some j := by simpa [faithful, hrow, hd] using hok
  have hover : job.unfinished = false := by
    unfold JobRow.unfinished
    rw [hstatus]
    cases outcome <;> rfl
  refine ⟨rfl, fun h => ?_, fun h => hs.jobOf hrow h, fun _ => ?_, fun h => ?_,
    fun hjob' hu _ h => absurd h (not_standsFor_over hd hj hjob hover hjob' hu)⟩
  · cases outcome <;> cases h
  · exact ⟨outcome, j, job, rfl, hj, hjob, hstatus⟩
  · cases outcome <;> cases h

theorem markStepDispatched_faithful (hs : s.Faithful w)
    (hok : faithful w s (.markStepDispatched x j) = true)
    (hpre : Ground w s (.markStepDispatched x j)) :
    (exec w s (.markStepDispatched x j)).1.Faithful w := by
  obtain ⟨hstep, job, hjob⟩ := hpre
  refine faithful_updateStep hs fun row hrow hp => ?_
  have hstatus : row.status = .ready ∨ row.status = .dispatched := by simpa using hp
  have hopen : row.status ≠ .success ∧ row.status ≠ .failed := by
    rcases hstatus with h | h <;> rw [h] <;> decide
  have hlanded : row.landed = false := hs.not_landed hrow hopen
  refine ⟨rfl, fun _ => ⟨j, rfl⟩, fun h => ?_, fun h => ?_, nofun, fun {j' job'} hj' _ hx h => ?_⟩
  · cases h
    exact ⟨job, hjob⟩
  · rw [hlanded] at h
    cases h
  · refine .inr ⟨rfl, congrArg some ?_⟩
    rcases h with ⟨hready, run', hrun', ha'⟩ | ⟨hd, hid⟩
    · have hany : s.run.any (fun run => run.retryCount = j.attempt) = true := by
        simp only [faithful, hrow, Option.all_some, hready] at hok
        exact (Bool.or_eq_true_iff.mp (Bool.and_eq_true_iff.mp hok).1).resolve_left (by decide)
      obtain ⟨run, hrun, ha⟩ := (Option.any_eq_true _ _).mp hany
      rw [hrun, Option.some.injEq] at hrun'
      exact hs.job_eq hjob hj' (hstep.trans hx.symm) (by rw [ha', ← hrun', of_decide_eq_true ha])
    · have hsame : row.jobId = some j := by simpa [faithful, hrow, hd] using hok
      rw [hsame, Option.some.injEq] at hid
      exact hid

theorem skipStep_faithful (hs : s.Faithful w)
    (hok : faithful w s (.skipStep x) = true) : (exec w s (.skipStep x)).1.Faithful w := by
  refine faithful_updateStep hs fun row hrow hp => ?_
  have hstatus : row.status = .blocked ∨ row.status = .ready := by simpa using hp
  have hopen : row.status ≠ .success ∧ row.status ≠ .failed := by
    rcases hstatus with h | h <;> rw [h] <;> decide
  have hnone : s.currentJob w x = none := by
    rcases hstatus with h | h <;> simpa [faithful, hrow, h] using hok
  have hnojob : ∀ j, j.step = x → s.Current j.attempt → s.jobs j = none := by
    intro j hx hcurrent
    cases hjob : s.jobs j with
    | none => rfl
    | some job =>
      have hfound := hs.currentJob_eq hjob hcurrent
      rw [hx, hnone] at hfound
      cases hfound
  have hlanded : row.landed = false := hs.not_landed hrow hopen
  refine FaithfulChange.of_idle hs hrow rfl nofun hlanded (.inl rfl) (fun _ => hnojob) ?_
  rintro j job hjob _ hx (⟨_, hcurrent⟩ | ⟨hd, _⟩)
  · rw [hnojob j hx hcurrent] at hjob
    cases hjob
  · rcases hstatus with h | h <;> rw [h] at hd <;> cases hd

theorem failUndispatchableStep_faithful (hs : s.Faithful w)
    (hok : faithful w s (.failUndispatchableStep x) = true) :
    (exec w s (.failUndispatchableStep x)).1.Faithful w := by
  refine faithful_updateStep hs fun row hrow hp => ?_
  have hready : row.status = .ready := of_decide_eq_true hp
  have hover : (s.currentJob w x).all (!·.unfinished) = true := by
    simpa [faithful, hrow, hready] using hok
  have hlanded : row.landed = false := hs.not_landed hrow (by rw [hready]; decide)
  refine FaithfulChange.of_idle hs hrow rfl nofun hlanded (.inl rfl) nofun ?_
  rintro j job hjob hu hx (⟨_, hcurrent⟩ | ⟨hd, _⟩)
  · have hfound := hs.currentJob_eq hjob hcurrent
    rw [hx] at hfound
    rw [hfound, Option.all_some, hu] at hover
    cases hover
  · rw [hready] at hd
    cases hd

theorem createJob_faithful {content : JobContent} {outputs : String → Option Ssp.Json}
    (hs : s.Faithful w) (hok : faithful w s (.createJob j content outputs) = true)
    (hpre : Ground w s (.createJob j content outputs)) :
    (exec w s (.createJob j content outputs)).1.Faithful w := by
  obtain ⟨⟨step, hmem, htable, hname, _⟩, run, hrun, hle⟩ := hpre
  simp only [exec]
  split
  next => exact hs
  next hnew =>
    have hold : ∀ {j' job'}, s.jobs j' = some job' →
        Function.update s.jobs j (some ⟨.pending, none, content⟩) j' = some job' := by
      intro j' job' hjob'
      have hne : j' ≠ j := by
        rintro rfl
        rw [hnew] at hjob'
        cases hjob'
      rw [Function.update_of_ne hne]
      exact hjob'
    have hcases : ∀ {j' job'},
        Function.update s.jobs j (some ⟨.pending, none, content⟩) j' = some job' →
          j' = j ∨ s.jobs j' = some job' := by
      intro j' job' hjob'
      by_cases hj : j' = j
      · exact .inl hj
      · rw [Function.update_of_ne hj] at hjob'
        exact .inr hjob'
    simp only [faithful, hnew, Option.isSome_none, Bool.false_or, Bool.and_eq_true] at hok
    obtain ⟨hrow, hattempt⟩ := hok
    obtain ⟨row, hrow, hready⟩ := (Option.any_eq_true _ _).mp hrow
    obtain ⟨now, hnow, hattempt⟩ := (Option.any_eq_true _ _).mp hattempt
    have hready : row.status = .ready := of_decide_eq_true hready
    have hcurrent : s.Current j.attempt := ⟨now, hnow, (of_decide_eq_true hattempt).symm⟩
    refine ⟨hs.named, fun hjob => ?_, fun hjob => ?_, hs.marked, fun hrow' hj' => ?_,
      fun hrow' hl => ?_, fun {x row'} hrow' hskip j' hx hcur => ?_, fun {j' job'} hjob hu => ?_⟩
    · rcases hcases hjob with rfl | h
      · exact ⟨step, hmem, hname.symm, htable⟩
      · exact hs.placed h
    · rcases hcases hjob with rfl | h
      · exact ⟨run, hrun, hle⟩
      · exact hs.attempt h
    · obtain ⟨job, hjob⟩ := hs.jobOf hrow' hj'
      exact ⟨job, hold hjob⟩
    · obtain ⟨outcome, j', job, hstatus, hid, hjob, ho⟩ := hs.landed hrow' hl
      exact ⟨outcome, j', job, hstatus, hid, hold hjob, ho⟩
    · -- The row of the new job is ready, so it is not the skipped one.
      have hne : j' ≠ j := by
        rintro rfl
        rw [hx, hrow', Option.some.injEq] at hrow
        rw [← hrow, hskip] at hready
        cases hready
      dsimp only
      rw [Function.update_of_ne hne]
      exact hs.skipped hrow' hskip j' hx hcur
    · rcases hcases hjob with rfl | h
      · exact ⟨row, hrow, .inl ⟨hready, hcurrent⟩⟩
      · exact hs.standsFor h hu

theorem createStepRun_faithful (x : String) (hs : s.Faithful w) :
    (exec w s (.createStepRun x)).1.Faithful w := by
  simp only [exec]
  split
  next => exact hs
  next hnone =>
    refine ⟨fun hrow => ?_, hs.placed, hs.attempt, fun hrow => ?_, fun hrow => ?_, fun hrow => ?_,
      fun hrow => ?_, fun {j job} hjob hu => ?_⟩
    · rcases update_cases hrow with h | ⟨rfl, rfl⟩
      · exact hs.named h
      · rfl
    · rcases update_cases hrow with h | ⟨rfl, rfl⟩
      · exact hs.marked h
      · rintro ⟨⟩
    · rcases update_cases hrow with h | ⟨rfl, rfl⟩
      · exact hs.jobOf h
      · rintro ⟨⟩
    · rcases update_cases hrow with h | ⟨rfl, rfl⟩
      · exact hs.landed h
      · rintro ⟨⟩
    · rcases update_cases hrow with h | ⟨rfl, rfl⟩
      · exact hs.skipped h
      · rintro ⟨⟩
    · obtain ⟨row, hrow, hstands⟩ := hs.standsFor hjob hu
      have hne : j.step ≠ x := by
        intro heq
        rw [heq, hnone] at hrow
        cases hrow
      refine ⟨row, ?_, hstands⟩
      dsimp only
      rw [Function.update_of_ne hne]
      exact hrow

/-- A change of the run alone. -/
theorem Faithful.of_run (hs : s.Faithful w) (honward : s.Onward t) (hsteps : t.steps = s.steps)
    (hjobs : t.jobs = s.jobs)
    (hskipped : ∀ {x row}, s.steps x = some row → row.status = .skipped → ∀ j, j.step = x →
      t.Current j.attempt → s.jobs j = none)
    (hready : ∀ {j job row}, s.jobs j = some job → job.unfinished = true →
      s.steps j.step = some row → row.status = .ready → s.Current j.attempt →
        t.Current j.attempt) : t.Faithful w := by
  refine ⟨fun hrow => hs.named (hsteps ▸ hrow), fun hjob => hs.placed (hjobs ▸ hjob), fun hjob => ?_,
    fun hrow => hs.marked (hsteps ▸ hrow), fun hrow => ?_, fun hrow => ?_, fun hrow => ?_,
    fun {j job} hjob hu => ?_⟩
  · obtain ⟨run, hrun, hle⟩ := hs.attempt (hjobs ▸ hjob)
    obtain ⟨run', hrun', hle'⟩ := honward.run run hrun
    exact ⟨run', hrun', Nat.le_trans hle hle'⟩
  · rw [hjobs]
    exact hs.jobOf (hsteps ▸ hrow)
  · unfold LandedRight
    rw [hjobs]
    exact hs.landed (hsteps ▸ hrow)
  · rw [hjobs]
    exact hskipped (hsteps ▸ hrow)
  · rw [hjobs] at hjob
    rw [hsteps]
    obtain ⟨row, hrow, hstands⟩ := hs.standsFor hjob hu
    rcases hstands with ⟨hr, hcurrent⟩ | h
    · exact ⟨row, hrow, .inl ⟨hr, hready hjob hu hrow hr hcurrent⟩⟩
    · exact ⟨row, hrow, .inr h⟩

/-- A run that moves on at its attempt. -/
theorem updateRun_faithful (hs : s.Faithful w) (p : RunRow → Bool) (f : RunRow → RunRow)
    (hf : ∀ run, (f run).retryCount = run.retryCount) : (s.updateRun p f).1.Faithful w := by
  obtain ⟨hsteps, hjobs⟩ := updateRun_steps s p f
  have hcurrent : ∀ n, (s.updateRun p f).1.Current n ↔ s.Current n := by
    intro n
    unfold updateRun Current
    cases hrun : s.run with
    | none => simp [hrun]
    | some run => by_cases hp : p run <;> simp [hp, hrun, hf]
  refine hs.of_run (onward_updateRun s p f fun run => (hf run).ge) hsteps hjobs
    (fun hrow hskip j hx hc => hs.skipped hrow hskip j hx ((hcurrent _).mp hc))
    fun _ _ _ _ hc => (hcurrent _).mpr hc

theorem createRun_faithful (hs : s.Faithful w) : (exec w s .createRun).1.Faithful w := by
  have honward := exec_onward w s (q := .createRun) rfl
  revert honward
  simp only [exec]
  split
  next => exact fun _ => hs
  next hnone =>
    -- With no run there is no job.
    have hnojob : ∀ j, s.jobs j = none := by
      intro j
      cases hjob : s.jobs j with
      | none => rfl
      | some job =>
        obtain ⟨run, hrun, _⟩ := hs.attempt hjob
        rw [hnone] at hrun
        cases hrun
    intro honward
    refine hs.of_run honward rfl rfl (fun _ _ j _ _ => hnojob j) fun {j job _} hjob => ?_
    rw [hnojob j] at hjob
    cases hjob

theorem reopenWorkflowRun_faithful (hs : s.Faithful w)
    (hok : faithful w s .reopenWorkflowRun = true) :
    (exec w s .reopenWorkflowRun).1.Faithful w := by
  have honward := exec_onward w s (q := .reopenWorkflowRun) rfl
  obtain ⟨hsteps, hjobs⟩ := updateRun_steps s
    (fun run => run.status = .failed || run.status = .killed) fun run =>
      { run with status := .running, killRequested := false, retryCount := run.retryCount + 1 }
  refine hs.of_run honward hsteps hjobs (fun {x row} hrow hskip j hx hc => ?_) ?_
  · -- A job is of an attempt up to the run's, so none is of the one that is opened.
    cases hjob : s.jobs j with
    | none => rfl
    | some job =>
      obtain ⟨run, hrun, hle⟩ := hs.attempt hjob
      obtain ⟨run', hrun', ha⟩ := hc
      simp only [exec, updateRun, hrun] at hrun'
      split at hrun'
      · cases hrun'
        dsimp only at ha
        omega
      · rw [hrun, Option.some.injEq] at hrun'
        have hnone := hs.skipped hrow hskip j hx ⟨run, hrun, by rw [ha, hrun']⟩
        rw [hjob] at hnone
        cases hnone
  · intro j job row hjob hu hrow hready hcurrent
    obtain ⟨step, hmem, hname, _⟩ := hs.placed hjob
    have hstep := List.all_eq_true.mp hok j.step (List.mem_map.mpr ⟨step, hmem, hname⟩)
    rw [hrow, hs.currentJob_eq hjob hcurrent] at hstep
    simp [hready, hu] at hstep

theorem jobEvent_faithful {e : JobEvent} (hs : s.Faithful w) (h : jobEvent s e = some t) :
    t.Faithful w := by
  have honward := jobEvent_onward h
  obtain ⟨hsteps, hcontent⟩ := jobEvent_steps h
  obtain ⟨hrun, hopen⟩ := jobEvent_open h
  have hcurrent : ∀ n, t.Current n ↔ s.Current n := by
    intro n
    unfold Current
    rw [hrun]
  refine ⟨fun hrow => hs.named (hsteps ▸ hrow), fun hjob => ?_, fun hjob => ?_,
    fun hrow => hs.marked (hsteps ▸ hrow), fun hrow hj => ?_, fun hrow hl => ?_,
    fun {x row} hrow hskip j hx hc => ?_, fun {j job} hjob hu => ?_⟩
  · obtain ⟨job', hjob', _⟩ := hcontent hjob
    exact hs.placed hjob'
  · obtain ⟨job', hjob', _⟩ := hcontent hjob
    rw [hrun]
    exact hs.attempt hjob'
  · obtain ⟨job, hjob⟩ := hs.jobOf (hsteps ▸ hrow) hj
    obtain ⟨job', hjob', _⟩ := honward.job _ job hjob
    exact ⟨job', hjob'⟩
  · obtain ⟨outcome, j, job, hstatus, hid, hjob, ho⟩ := hs.landed (hsteps ▸ hrow) hl
    refine ⟨outcome, j, job, hstatus, hid, honward.ended hjob ?_, ho⟩
    unfold JobRow.unfinished
    rw [ho]
    cases outcome <;> rfl
  · cases hjob : t.jobs j with
    | none => rfl
    | some job =>
      obtain ⟨job', hjob', _⟩ := hcontent hjob
      rw [hs.skipped (hsteps ▸ hrow) hskip j hx ((hcurrent _).mp hc)] at hjob'
      cases hjob'
  · obtain ⟨job', hjob', hu'⟩ := hopen hjob hu
    obtain ⟨row, hrow, hstands⟩ := hs.standsFor hjob' hu'
    exact ⟨row, hsteps ▸ hrow, hstands.imp_left fun ⟨hr, hc⟩ => ⟨hr, (hcurrent _).mpr hc⟩⟩

/-- Each statement keeps the rows to the truth. -/
theorem exec_faithful {q : Statement} (hs : s.Faithful w) (hok : faithful w s q = true)
    (hpre : Ground w s q) : (exec w s q).1.Faithful w := by
  cases q with
  | selectRun | selectSteps | selectJob job | findStepByJob job | killJob job => exact hs
  | deleteJobs jobs => cases hok
  | deleteWorkflowRun => cases hok
  | createRun => exact createRun_faithful hs
  | createStepRun x => exact createStepRun_faithful x hs
  | createJob j content outputs => exact createJob_faithful hs hok hpre
  | finalizeWorkflowRun status => exact updateRun_faithful hs _ _ fun _ => rfl
  | requestWorkflowKill => exact updateRun_faithful hs _ _ fun _ => rfl
  | reopenWorkflowRun => exact reopenWorkflowRun_faithful hs hok
  | finalizeStep x outcome output j => exact finalizeStep_faithful hs hok hpre
  | markStepDispatched x j => exact markStepDispatched_faithful hs hok hpre
  | skipStep x => exact skipStep_faithful hs hok
  | failUndispatchableStep x => exact failUndispatchableStep_faithful hs hok
  | bumpStepDispatchAttempt x =>
    refine faithful_updateStep hs fun row hrow hp => ?_
    have hskip : row.status ≠ .skipped := by
      have hstatus : row.status = .ready ∨ row.status = .dispatched := by simpa using hp
      rcases hstatus with h | h <;> rw [h] <;> decide
    have hmarked : row.status = .dispatched → ∃ j, row.jobId = some j := hs.marked hrow
    have hlanded : s.LandedRight row := hs.landed hrow
    exact ⟨rfl, hmarked, fun hj => hs.jobOf hrow hj, hlanded, fun h => absurd h hskip,
      fun _ _ _ h => h⟩
  | claimStepReady x =>
    refine faithful_updateStep hs fun row hrow hp => ?_
    have hstatus : row.status = .blocked := of_decide_eq_true hp
    have hlanded : row.landed = false := hs.not_landed hrow (by rw [hstatus]; decide)
    refine FaithfulChange.of_idle hs hrow rfl nofun hlanded (.inl rfl) nofun ?_
    exact fun _ _ _ => not_standsFor (by rw [hstatus]; decide)
  | skipUndispatchedStep x | failUndispatchedStep x =>
    -- A dispatched row always names its job.
    refine faithful_updateStep hs fun row hrow hp => ?_
    simp only [Bool.and_eq_true, decide_eq_true_eq, Option.isNone_iff_eq_none] at hp
    obtain ⟨j, hj⟩ := hs.marked hrow hp.1
    rw [hp.2] at hj
    cases hj
  | resetStepForRetry x =>
    refine faithful_updateStep hs fun row hrow hp => ?_
    have hstatus : row.status = .failed ∨ row.status = .skipped := by simpa using hp
    refine FaithfulChange.of_idle hs hrow rfl nofun rfl (.inr rfl) nofun ?_
    refine fun _ _ _ => not_standsFor ?_
    rcases hstatus with h | h <;> rw [h] <;> decide
  | resetDispatchedStepForRetry x job =>
    refine faithful_updateStep hs fun row hrow hp => ?_
    simp only [Bool.and_eq_true, decide_eq_true_eq] at hp
    obtain ⟨⟨hd, hsome⟩, hj⟩ := hp
    obtain ⟨j, rfl⟩ := Option.isSome_iff_exists.mp hsome
    obtain ⟨job, hjob, hfailed⟩ := hpre
    refine FaithfulChange.of_idle hs hrow rfl nofun rfl (.inr rfl) nofun ?_
    exact fun hjob' hu _ =>
      not_standsFor_over hd hj hjob (by simp [JobRow.unfinished, hfailed]) hjob' hu

end RunState

/-! ## Runs -/

/-- The account of the rows. -/
def truthAccount (w : Workflow) : Account w fun s q => faithful w s q = true where
  inv := Faithful w
  rely := Onward
  refl := Onward.refl
  trans := Onward.trans
  env_ok hs h := ⟨jobEvent_faithful hs h, jobEvent_onward h⟩
  known _ _ _ := True
  observed _ _ _ := True
  onward h := h
  known_rely _ _ := trivial
  observed_rely _ _ := trivial
  named hs := hs.named
  known_of_row _ _ _ := trivial
  observed_of_row hs hrow _ hj := ⟨trivial, hs.jobOf hrow hj⟩
  statement {_ q} hs hok hpre := by
    have hkeeps : deletes q = false := by
      cases q <;> first | rfl | cases hok
    exact ⟨exec_faithful hs hok hpre, exec_onward w _ hkeeps⟩
  landed _ _ _ := trivial

theorem faithful_empty (w : Workflow) : Faithful w RunState.empty :=
  ⟨nofun, nofun, nofun, nofun, nofun, nofun, nofun, nofun⟩

theorem faithful_allows (w : Workflow) (e : Engine) (a : CallEvent Call RunState.JobEvent) :
    Calls.allows (faithful w) e a = true → Calls.Allows (fun s q => faithful w s q = true) e a :=
  Calls.allows_sound (fun _ _ h => h) e a

/-- The job of `a` fails; a pass lands it and halts the run, a retry starts it again. -/
def failAndRetryA : List (CallEvent Call RunState.JobEvent) :=
  startA ++ [(.env (.finish ⟨"job", "a", 0⟩ .failed none) : CallEvent Call RunState.JobEvent), .call .advance] ++
    List.replicate 8 (.next 0 : CallEvent Call RunState.JobEvent) ++
    (.call .retry : CallEvent Call RunState.JobEvent) :: List.replicate 11 (.next 0)

/-- In such a run every job is of an attempt of the run, one that is not over has the row of its
step, and every dispatched row names a job. -/
theorem jobs_have_rows (w : Workflow) {e : Engine}
    (hrun : Run (engineStep w) (Calls.Allows fun s q => faithful w s q = true)
      ⟨RunState.empty, []⟩ e) :
    (∀ j job, e.state.jobs j = some job →
      (∃ run, e.state.run = some run ∧ j.attempt ≤ run.retryCount) ∧
        (job.unfinished = true →
          ∃ row, e.state.steps j.step = some row ∧ e.state.StandsFor j row)) ∧
      ∀ x row, e.state.steps x = some row → row.status = .dispatched →
        ∃ j job, row.jobId = some j ∧ e.state.jobs j = some job := by
  obtain ⟨hs, _, _⟩ := (truthAccount w).holds (faithful_empty w) hrun .start
  have hs : e.state.Faithful w := hs
  refine ⟨fun j job hjob => ⟨hs.attempt hjob, hs.standsFor hjob⟩, fun x row hrow hd => ?_⟩
  obtain ⟨j, hj⟩ := hs.marked hrow hd
  obtain ⟨job, hjob⟩ := hs.jobOf hrow hj
  exact ⟨j, job, hj, hjob⟩

theorem jobs_have_rows_retried : ∃ e : Engine, ∃ job,
    e.state.jobs ⟨"job", "a", 1⟩ = some job ∧
      ∃ run, e.state.run = some run ∧ 1 ≤ run.retryCount := by
  have hrun : (runAll (engineStep twoSteps) (Calls.allows (faithful twoSteps))
      ⟨RunState.empty, []⟩ failAndRetryA).any
        (fun e => (e.state.jobs ⟨"job", "a", 1⟩).isSome) = true := by decide +kernel
  obtain ⟨e, he, ha⟩ := exists_run hrun
  obtain ⟨job, hjob⟩ := Option.isSome_iff_exists.mp ha
  exact ⟨e, job, hjob, ((jobs_have_rows twoSteps (he.mono (faithful_allows twoSteps))).1 _ _ hjob).1⟩

end Sp00ky.ScheduleCore
