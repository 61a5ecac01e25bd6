/-
  Steps start in dependency order, with the recorded outputs.

  A job of a step is there only while every step it depends on is `success`, there is one for each
  attempt, and its payload has under `steps` what those rows have recorded. It rests on three
  things. No landing reaches a row that names another job than the one that was read; no other
  job is put over the one a row names; and a pass creates a job with no null among the outputs
  it holds. A landing keeps the job's result as it is, also a null that the row never records, so
  the pass that lands it and starts what depends on it hands it on
  (`null_output_is_handed_on`).
-/
import Sp00ky.ScheduleCore.Passes
import Mathlib.Data.List.Dedup

namespace Sp00ky.ScheduleCore

open Lib
open Ssp (Json)

/-! ## The outputs in a payload -/

/-- `payload.steps`. -/
def JobContent.steps (content : JobContent) : Option Json := content.payload.lookup "steps"

/-- What is to be there: the outputs, if any dependency has one. -/
def StepDef.stepsOf (step : StepDef) (outputs : String → Option Json) : Option Json :=
  if (step.inputs outputs).isEmpty then none else some (.object (step.inputs outputs))

/-- The step's own payload has no `steps`. -/
def StepDef.stepsFree (step : StepDef) : Bool :=
  match step.payload with
  | some (.object fields) => (fields.lookup "steps").isNone
  | _ => true

theorem StepDef.inputs_congr {step : StepDef} {outputs outputs' : String → Option Json}
    (h : ∀ dep ∈ step.dependsOn, outputs dep = outputs' dep) :
    step.inputs outputs = step.inputs outputs' := by
  unfold inputs
  refine List.filterMap_congr fun dep hdep => ?_
  rw [h dep (List.mem_dedup.mp hdep)]

theorem lookup_insertField (fields : List (String × Json)) (key key' : String) (v : Json) :
    (insertField fields key v).lookup key' = if key' = key then some v else fields.lookup key' := by
  unfold insertField
  induction fields with
  | nil =>
    by_cases h : key' = key
    · simp [h]
    · simp [List.lookup_cons, h, beq_eq_false_iff_ne.mpr h]
  | cons f fields ih =>
    obtain ⟨k, x⟩ := f
    by_cases hk : k = key
    · rw [List.filter_cons_of_neg (by simpa using hk), ih]
      by_cases h : key' = key
      · simp [h]
      · have hne : (key' == k) = false := beq_eq_false_iff_ne.mpr (hk ▸ h)
        simp [h, List.lookup_cons, hne]
    · rw [List.filter_cons_of_pos (by simpa using hk), List.cons_append, List.lookup_cons, ih,
        List.lookup_cons]
      by_cases hx : key' = k
      · subst hx
        simp [hk]
      · simp [beq_eq_false_iff_ne.mpr hx]

/-- The payload of a job has the outputs it was made from, unless there is none and the step
brings a `steps` of its own. -/
theorem jobContent_steps (w : Workflow) {step : StepDef} {outputs : String → Option Json}
    (h : step.stepsFree = true ∨ (step.inputs outputs).isEmpty = false) :
    (jobContent w step outputs).steps = step.stepsOf outputs := by
  have hpayload : (buildPayload step.payload (step.inputs outputs)).lookup "steps" =
      step.stepsOf outputs := by
    unfold buildPayload StepDef.stepsOf
    dsimp only
    cases hempty : (step.inputs outputs).isEmpty with
    | false => simp [lookup_insertField]
    | true =>
      simp only [hempty, Bool.true_eq_false, or_false] at h
      unfold StepDef.stepsFree at h
      simp only [if_true]
      cases hp : step.payload with
      | none => rfl
      | some base =>
        rw [hp] at h
        cases base with
        | object fields => exact Option.isNone_iff_eq_none.mp h
        | _ => rfl
  unfold jobContent JobContent.steps
  dsimp only
  cases w.input with
  | none => exact hpayload
  | some input =>
    rw [lookup_insertField, if_neg (by decide)]
    exact hpayload

/-! ## The condition -/

/-- The statement keeps to what a dependency order rests on. -/
def orderly (w : Workflow) (s : RunState) : Statement → Bool
  -- What lands is the end of the job the row names.
  | .finalizeStep x _ _ job =>
    (s.steps x).all fun row => row.status ≠ .dispatched || row.jobId = some job
  -- The job that is marked is not put over another.
  | .markStepDispatched x job =>
    (s.steps x).all fun row =>
      (row.status ≠ .ready && row.status ≠ .dispatched) || row.jobId.all (· = job)
  -- A new job is made of outputs without a null, and is not to find a `steps` of its own.
  | .createJob job _ outputs =>
    (s.jobs job).isSome || (w.dag.step job.step).all fun step =>
      (step.dependsOn.all fun dep => (nonNull (outputs dep)).isSome || (outputs dep).isNone) &&
        (step.stepsFree || !(step.inputs outputs).isEmpty)
  | .deleteJobs _ | .deleteWorkflowRun => false
  | _ => true

/-! ## The invariant -/

namespace RunState

/-- What the step rows have recorded. -/
def recorded (s : RunState) : String → Option Json := fun x => (s.steps x).bind (·.output)

/-- The step has succeeded. -/
def Succeeded (s : RunState) (x : String) : Prop :=
  ∃ row, s.steps x = some row ∧ row.status = .success

/-- The job was started in order: its dependencies have succeeded, and it has their outputs. -/
def StartedInOrder (w : Workflow) (s : RunState) (j : JobId) (content : JobContent) : Prop :=
  ∃ step ∈ w.dag.steps, step.name = j.step ∧ jobTable w step = some j.table ∧
    (∀ dep ∈ step.dependsOn, s.Succeeded dep) ∧ content.steps = step.stepsOf s.recorded

/-- A row that was seen dispatched with the job is so still, or shows how the job ended. -/
def Shows (s : RunState) (j : JobId) (row : StepRow) : Prop :=
  (row.status = .dispatched ∧ row.jobId = some j) ∨
    (∃ job, s.jobs j = some job ∧ job.status = .failed) ∨
    ∃ job, s.jobs j = some job ∧ job.status = .success ∧ row.status = .success ∧
      row.output = nonNull job.result

structure Ordered (w : Workflow) (s : RunState) : Prop where
  named : ∀ {x row}, s.steps x = some row → row.step = x
  unset : ∀ {x row}, s.steps x = some row → row.status ≠ .success → row.output = none
  nonNull : ∀ {x row}, s.steps x = some row → nonNull row.output = row.output
  jobOf : ∀ {x row j}, s.steps x = some row → row.jobId = some j → ∃ job, s.jobs j = some job
  started : ∀ {j job}, s.jobs j = some job → s.StartedInOrder w j job.content

/-- What the arguments rely on: a success stays as it is. -/
structure OrderKept (s t : RunState) : Prop where
  onward : s.Onward t
  success : ∀ {x row}, s.steps x = some row → row.status = .success → t.steps x = some row
  shows : ∀ {x j row}, s.steps x = some row → s.Shows j row → ∃ row', t.steps x = some row' ∧
    t.Shows j row'

variable {w : Workflow} {s t : RunState} {j : JobId} {row : StepRow}

theorem Shows.onward (h : s.Shows j row) (hst : s.Onward t) :
    t.Shows j row := by
  rcases h with h | ⟨job, hjob, hf⟩ | ⟨job, hjob, hs, h⟩
  · exact .inl h
  · exact .inr (.inl ⟨job, hst.ended hjob (by simp [JobRow.unfinished, hf]), hf⟩)
  · exact .inr (.inr ⟨job, hst.ended hjob (by simp [JobRow.unfinished, hs]), hs, h⟩)

/-- What changes only the jobs keeps what is shown. -/
theorem OrderKept.of_steps (h : s.Onward t) (hsteps : t.steps = s.steps) : OrderKept s t :=
  ⟨h, fun hrow _ => hsteps ▸ hrow, fun hrow hs => ⟨_, hsteps ▸ hrow, hs.onward h⟩⟩

theorem OrderKept.trans {u : RunState} (h : OrderKept s t) (h' : OrderKept t u) :
    OrderKept s u := by
  refine ⟨h.onward.trans h'.onward, fun hrow hs => h'.success (h.success hrow hs) hs, ?_⟩
  intro x j row hrow hs
  obtain ⟨row', hrow', hs'⟩ := h.shows hrow hs
  exact h'.shows hrow' hs'

/-- A job that was started in order stays so. -/
theorem StartedInOrder.later {content : JobContent} (h : s.StartedInOrder w j content)
    (hst : OrderKept s t) : t.StartedInOrder w j content := by
  obtain ⟨step, hstep, hname, htable, hdeps, hsteps⟩ := h
  refine ⟨step, hstep, hname, htable, fun dep hdep => ?_, ?_⟩
  · obtain ⟨row, hrow, hsuccess⟩ := hdeps dep hdep
    exact ⟨row, hst.success hrow hsuccess, hsuccess⟩
  · rw [hsteps]
    unfold StepDef.stepsOf
    have hsame : step.inputs s.recorded = step.inputs t.recorded := by
      refine StepDef.inputs_congr fun dep hdep => ?_
      obtain ⟨row, hrow, hsuccess⟩ := hdeps dep hdep
      rw [recorded, recorded, hrow, hst.success hrow hsuccess]
    rw [hsame]

/-- What a guarded update may do to a row: it is no success, and it shows what it showed. -/
structure RowChange (s : RunState) (old new : StepRow) : Prop where
  named : new.step = old.step
  pending : old.status ≠ .success
  unset : new.status ≠ .success → new.output = none
  nonNull : nonNull new.output = new.output
  jobOf : ∀ {j}, new.jobId = some j → ∃ job, s.jobs j = some job
  shows : ∀ {j}, s.Shows j old → s.Shows j new

/-- An update of one row that does no more. -/
theorem ordered_updateStep {x : String} {p : StepRow → Bool} {f : StepRow → StepRow}
    (hs : s.Ordered w) (hf : ∀ row, s.steps x = some row → p row = true → s.RowChange row (f row)) :
    (s.updateStep x p f).1.Ordered w ∧ OrderKept s (s.updateStep x p f).1 := by
  obtain ⟨hrun, hjobs⟩ := updateStep_run s x p f
  have honward := onward_updateStep s x p f
  have hkept : OrderKept s (s.updateStep x p f).1 := by
    refine ⟨honward, fun {y row} hrow hsuccess => ?_, fun {y j row} hrow hshows => ?_⟩
    · rcases steps_updateStep x p f hrow with ⟨h, _⟩ | ⟨rfl, hp, _⟩
      · exact h
      · exact absurd hsuccess (hf row hrow hp).pending
    · rcases steps_updateStep x p f hrow with ⟨h, _⟩ | ⟨rfl, hp, h⟩
      · exact ⟨row, h, hshows.onward honward⟩
      · exact ⟨f row, h, ((hf row hrow hp).shows hshows).onward honward⟩
  refine ⟨⟨fun {y row} hrow => ?_, fun {y row} hrow => ?_, fun {y row} hrow => ?_,
    fun {y row j} hrow => ?_, fun {j job} hjob => ?_⟩, hkept⟩
  · rcases updateStep_steps hrow with h | ⟨rfl, old, hold, hp, rfl⟩
    · exact hs.named h
    · rw [(hf old hold hp).named]
      exact hs.named hold
  · rcases updateStep_steps hrow with h | ⟨rfl, old, hold, hp, rfl⟩
    · exact hs.unset h
    · exact (hf old hold hp).unset
  · rcases updateStep_steps hrow with h | ⟨rfl, old, hold, hp, rfl⟩
    · exact hs.nonNull h
    · exact (hf old hold hp).nonNull
  · rw [hjobs]
    rcases updateStep_steps hrow with h | ⟨rfl, old, hold, hp, rfl⟩
    · exact hs.jobOf h
    · exact (hf old hold hp).jobOf
  · rw [hjobs] at hjob
    exact (hs.started hjob).later hkept

/-- A change of the jobs alone. -/
theorem Ordered.of_steps (hs : s.Ordered w) (h : s.Onward t) (hsteps : t.steps = s.steps)
    (hjobs : ∀ {j job}, t.jobs j = some job → t.StartedInOrder w j job.content) :
    t.Ordered w := by
  refine ⟨fun hrow => hs.named (hsteps ▸ hrow), fun hrow => hs.unset (hsteps ▸ hrow),
    fun hrow => hs.nonNull (hsteps ▸ hrow), fun {x row j} hrow hj => ?_, hjobs⟩
  obtain ⟨job, hjob⟩ := hs.jobOf (hsteps ▸ hrow) hj
  obtain ⟨job', hjob', _, _⟩ := h.job j job hjob
  exact ⟨job', hjob'⟩

/-- A row that is no success, and shows nothing, goes to another status with no job of its own. -/
theorem RowChange.of_idle {old new : StepRow} (hs : s.Ordered w) {x : String}
    (hold : s.steps x = some old) (hname : new.step = old.step) (hpending : old.status ≠ .success)
    (hidle : old.status = .dispatched → old.jobId = none)
    (hjob : new.jobId = old.jobId ∨ new.jobId = none)
    (hout : new.output = old.output ∨ new.output = none) : s.RowChange old new := by
  have hunset : new.output = none := by
    rcases hout with h | h
    · rw [h]
      exact hs.unset hold hpending
    · exact h
  refine ⟨hname, hpending, fun _ => hunset, by rw [hunset]; rfl, fun {j} hj => ?_, fun {j} h => ?_⟩
  · rcases hjob with h | h
    · exact hs.jobOf hold (h ▸ hj)
    · rw [h] at hj
      cases hj
  · rcases h with ⟨hd, hj⟩ | h | ⟨_, _, _, hsuccess, _⟩
    · rw [hidle hd] at hj
      cases hj
    · exact .inr (.inl h)
    · exact absurd hsuccess hpending

/-- What a pass holds as known is recorded. -/
def Recorded (x : String) (out : Option Json) (s : RunState) : Prop :=
  ∃ row, s.steps x = some row ∧ row.status = .success ∧ row.output = nonNull out

/-- What a pass saw on a row is shown by it. -/
def Seen (x : String) (j : JobId) (s : RunState) : Prop :=
  ∃ row, s.steps x = some row ∧ s.Shows j row

theorem nonNull_nonNull (v : Option Json) : ScheduleCore.nonNull (nonNull v) = nonNull v := by
  cases v with
  | none => rfl
  | some v => cases v <;> rfl

/-- Landing on the row of the job that was seen. -/
theorem finalize_change {x : String} {outcome : Outcome} {output : Option Json} (hs : s.Ordered w) (hrow : s.steps x = some row)
    (hd : row.status = .dispatched) (hj : row.jobId = some j)
    (hpre : Pre w Recorded Seen s (.finalizeStep x outcome output j)) :
    s.RowChange row (finalizeRow outcome output row) := by
  obtain ⟨_, job, hjob, hstatus, rfl⟩ := hpre
  have hunset : row.output = none := hs.unset hrow (by rw [hd]; decide)
  have hout : (finalizeRow outcome (outcome.output job) row).output =
      ScheduleCore.nonNull (outcome.output job) := by
    simp [finalizeRow, hunset]
  refine ⟨rfl, by rw [hd]; decide, fun hne => ?_, ?_, fun {j'} hj' => hs.jobOf hrow hj', ?_⟩
  · rw [hout]
    cases outcome with
    | success => exact absurd rfl hne
    | failed => rfl
  · rw [hout, nonNull_nonNull]
  · rintro j' (⟨_, hj'⟩ | h | ⟨_, _, _, hsuccess, _⟩)
    · rw [hj, Option.some.injEq] at hj'
      subst hj'
      cases outcome with
      | success => exact .inr (.inr ⟨job, hjob, hstatus, rfl, hout⟩)
      | failed => exact .inr (.inl ⟨job, hjob, hstatus⟩)
    · exact .inr (.inl h)
    · rw [hd] at hsuccess
      cases hsuccess

/-- Marking a row with a job that is put over no other. -/
theorem mark_change {x : String} (hs : s.Ordered w)
    (hrow : s.steps x = some row) (hstatus : row.status = .ready ∨ row.status = .dispatched)
    (hok : row.jobId.all (· = j) = true) (hj : ∃ job, s.jobs j = some job) :
    s.RowChange row { row with status := .dispatched, jobId := some j } := by
  have hpending : row.status ≠ .success := by
    rcases hstatus with h | h <;> rw [h] <;> decide
  have hunset : row.output = none := hs.unset hrow hpending
  have hnonNull : ScheduleCore.nonNull row.output = row.output := hs.nonNull hrow
  refine ⟨rfl, hpending, fun _ => hunset, hnonNull, fun {j'} hj' => ?_, ?_⟩
  · cases hj'
    exact hj
  · rintro j' (⟨_, hj'⟩ | h | ⟨_, _, _, hsuccess, _⟩)
    · rw [hj'] at hok
      exact .inl ⟨rfl, congrArg some (of_decide_eq_true hok).symm⟩
    · exact .inr (.inl h)
    · exact absurd hsuccess hpending

/-- A dispatched row goes back once its job has failed. -/
theorem resetDispatched_change
    (hd : row.status = .dispatched) (hj : row.jobId = some j)
    (hjob : ∃ job, s.jobs j = some job ∧ job.status = .failed) : s.RowChange row (resetRow row) := by
  refine ⟨rfl, by rw [hd]; decide, fun _ => rfl, rfl, nofun, ?_⟩
  rintro j' (⟨_, hj'⟩ | h | ⟨_, _, _, hsuccess, _⟩)
  · rw [hj, Option.some.injEq] at hj'
    exact .inr (.inl (hj' ▸ hjob))
  · exact .inr (.inl h)
  · rw [hd] at hsuccess
    cases hsuccess

/-- A job is created in order. -/
theorem createJob_ordered {content : JobContent} {outputs : String → Option Json}
    (hok : orderly w s (.createJob j content outputs) = true)
    (hpre : Pre w Recorded Seen s (.createJob j content outputs)) (hnew : s.jobs j = none) :
    s.StartedInOrder w j content := by
  obtain ⟨⟨step, hstep, htable, hname, rfl, hdeps⟩, _⟩ := hpre
  have hfind : w.dag.step j.step = some step := by
    rw [hname]
    exact WorkflowDag.step_of_mem hstep
  simp only [orderly, hnew, Option.isSome_none, Bool.false_or, hfind, Option.all_some,
    Bool.and_eq_true, Bool.or_eq_true, List.all_eq_true, Bool.not_eq_true'] at hok
  obtain ⟨hnulls, hfree⟩ := hok
  have hsame : ∀ dep ∈ step.dependsOn, outputs dep = s.recorded dep := by
    intro dep hdep
    obtain ⟨row, hrow, _, hout⟩ := hdeps dep hdep
    have hheld : ScheduleCore.nonNull (outputs dep) = outputs dep := by
      cases hv : outputs dep with
      | none => rfl
      | some v =>
        have hnull := hnulls dep hdep
        rw [hv] at hnull
        cases v <;> first | rfl | simp [ScheduleCore.nonNull] at hnull
    rw [recorded, hrow, Option.bind_some, hout, hheld]
  refine ⟨step, hstep, hname.symm, htable, fun dep hdep => ?_, ?_⟩
  · obtain ⟨row, hrow, hsuccess, _⟩ := hdeps dep hdep
    exact ⟨row, hrow, hsuccess⟩
  · rw [jobContent_steps w hfree]
    unfold StepDef.stepsOf
    rw [StepDef.inputs_congr hsame]

/-- Each statement keeps the order, if it keeps to the condition and the pass knows its ground. -/
theorem exec_ordered {q : Statement} (hs : s.Ordered w) (hok : orderly w s q = true)
    (hpre : Pre w Recorded Seen s q) : (exec w s q).1.Ordered w ∧ OrderKept s (exec w s q).1 := by
  have hsame : s.Ordered w ∧ OrderKept s s := ⟨hs, OrderKept.of_steps (Onward.refl s) rfl⟩
  have hrun : ∀ (p : RunRow → Bool) (f : RunRow → RunRow),
      (∀ run, run.retryCount ≤ (f run).retryCount) →
        (s.updateRun p f).1.Ordered w ∧ OrderKept s (s.updateRun p f).1 := by
    intro p f hf
    have honward := onward_updateRun s p f hf
    obtain ⟨hsteps, hjobs⟩ := updateRun_steps s p f
    refine ⟨hs.of_steps honward hsteps fun hjob => ?_, OrderKept.of_steps honward hsteps⟩
    rw [hjobs] at hjob
    exact (hs.started hjob).later (OrderKept.of_steps honward hsteps)
  cases q with
  | selectRun | selectSteps | selectJob job | findStepByJob job | killJob job => exact hsame
  | deleteJobs jobs => cases hok
  | deleteWorkflowRun => cases hok
  | createRun =>
    have honward := exec_onward w s (q := .createRun) rfl
    have hkept : (exec w s .createRun).1.steps = s.steps ∧
        (exec w s .createRun).1.jobs = s.jobs := by
      simp only [exec]
      split <;> exact ⟨rfl, rfl⟩
    refine ⟨hs.of_steps honward hkept.1 fun hjob => ?_, OrderKept.of_steps honward hkept.1⟩
    rw [hkept.2] at hjob
    exact (hs.started hjob).later (OrderKept.of_steps honward hkept.1)
  | finalizeWorkflowRun status => exact hrun _ _ fun _ => Nat.le_refl _
  | requestWorkflowKill => exact hrun _ _ fun _ => Nat.le_refl _
  | reopenWorkflowRun => exact hrun _ _ fun _ => Nat.le_succ _
  | createStepRun x =>
    simp only [exec]
    split
    next => exact hsame
    next hnone =>
      have hne : ∀ {y row}, s.steps y = some row → y ≠ x := by
        rintro y row hrow rfl
        rw [hnone] at hrow
        cases hrow
      have hkept : OrderKept s { s with steps := Function.update s.steps x (some (blockedRow x)) } :=
        ⟨onward_of_eq rfl rfl, fun hrow _ => (Function.update_of_ne (hne hrow) _ _).trans hrow,
          fun hrow h => ⟨_, (Function.update_of_ne (hne hrow) _ _).trans hrow, h⟩⟩
      refine ⟨⟨fun hrow => ?_, fun hrow => ?_, fun hrow => ?_, fun hrow => ?_,
        fun hjob => (hs.started hjob).later hkept⟩, hkept⟩
      all_goals rcases update_cases hrow with h | ⟨rfl, rfl⟩
      · exact hs.named h
      · rfl
      · exact hs.unset h
      · exact fun _ => rfl
      · exact hs.nonNull h
      · rfl
      · exact hs.jobOf h
      · rintro ⟨⟩
  | createJob j content outputs =>
    have honward := exec_onward w s (q := .createJob j content outputs) rfl
    have hsteps : (exec w s (.createJob j content outputs)).1.steps = s.steps := by
      simp only [exec]
      split <;> rfl
    have hkept := OrderKept.of_steps honward hsteps
    refine ⟨hs.of_steps honward hsteps fun {j' job'} hjob => ?_, hkept⟩
    refine StartedInOrder.later ?_ hkept
    simp only [exec] at hjob
    split at hjob
    next => exact hs.started hjob
    next hnew =>
      by_cases hj : j' = j
      · subst hj
        dsimp only at hjob
        rw [Function.update_self, Option.some.injEq] at hjob
        subst hjob
        exact createJob_ordered hok hpre hnew
      · dsimp only at hjob
        rw [Function.update_of_ne hj] at hjob
        exact hs.started hjob
  | finalizeStep x outcome output j =>
    refine ordered_updateStep hs fun row hrow hp => ?_
    have hd : row.status = .dispatched := of_decide_eq_true hp
    have hj : row.jobId = some j := by simpa [orderly, hrow, hd] using hok
    exact finalize_change hs hrow hd hj hpre
  | markStepDispatched x j =>
    refine ordered_updateStep hs fun row hrow hp => ?_
    have hstatus : row.status = .ready ∨ row.status = .dispatched := by simpa using hp
    have hj : row.jobId.all (· = j) = true := by
      rcases hstatus with h | h <;> simpa [orderly, hrow, h] using hok
    exact mark_change hs hrow hstatus hj hpre.2
  | bumpStepDispatchAttempt x =>
    refine ordered_updateStep hs fun row hrow hp => ?_
    have hpending : row.status ≠ .success := by
      have hstatus : row.status = .ready ∨ row.status = .dispatched := by simpa using hp
      rcases hstatus with h | h <;> rw [h] <;> decide
    have hnonNull : ScheduleCore.nonNull row.output = row.output := hs.nonNull hrow
    have hunset : row.output = none := hs.unset hrow hpending
    exact ⟨rfl, hpending, fun _ => hunset, hnonNull, fun hj => hs.jobOf hrow hj, fun h => h⟩
  | resetDispatchedStepForRetry x job =>
    refine ordered_updateStep hs fun row hrow hp => ?_
    simp only [Bool.and_eq_true, decide_eq_true_eq] at hp
    obtain ⟨⟨hd, hsome⟩, hj⟩ := hp
    obtain ⟨j, rfl⟩ := Option.isSome_iff_exists.mp hsome
    exact resetDispatched_change hd hj hpre
  | skipStep x =>
    refine ordered_updateStep hs fun row hrow hp => ?_
    have hstatus : row.status = .blocked ∨ row.status = .ready := by simpa using hp
    refine RowChange.of_idle hs hrow rfl ?_ ?_ (.inl rfl) (.inl rfl)
    all_goals rcases hstatus with h | h <;> simp [h]
  | failUndispatchableStep x =>
    refine ordered_updateStep hs fun row hrow hp => ?_
    have hstatus : row.status = .ready := of_decide_eq_true hp
    refine RowChange.of_idle hs hrow rfl ?_ ?_ (.inl rfl) (.inl rfl)
    all_goals simp [hstatus]
  | claimStepReady x =>
    refine ordered_updateStep hs fun row hrow hp => ?_
    have hstatus : row.status = .blocked := of_decide_eq_true hp
    refine RowChange.of_idle hs hrow rfl ?_ ?_ (.inl rfl) (.inl rfl)
    all_goals simp [hstatus]
  | skipUndispatchedStep x | failUndispatchedStep x =>
    refine ordered_updateStep hs fun row hrow hp => ?_
    simp only [Bool.and_eq_true, decide_eq_true_eq, Option.isNone_iff_eq_none] at hp
    refine RowChange.of_idle hs hrow rfl ?_ (fun _ => hp.2) (.inl rfl) (.inl rfl)
    rw [hp.1]
    decide
  | resetStepForRetry x =>
    refine ordered_updateStep hs fun row hrow hp => ?_
    have hstatus : row.status = .failed ∨ row.status = .skipped := by simpa using hp
    refine RowChange.of_idle hs hrow rfl ?_ ?_ (.inr rfl) (.inr rfl)
    all_goals rcases hstatus with h | h <;> simp [h]

/-- A job that moves on leaves the order. -/
theorem jobEvent_ordered {e : JobEvent} (hs : s.Ordered w) (h : jobEvent s e = some t) :
    t.Ordered w ∧ OrderKept s t := by
  have honward := jobEvent_onward h
  obtain ⟨hsteps, hjobs⟩ := jobEvent_steps h
  have hkept := OrderKept.of_steps honward hsteps
  refine ⟨hs.of_steps honward hsteps fun hjob => ?_, hkept⟩
  obtain ⟨job, hjob', hcontent⟩ := hjobs hjob
  rw [hcontent]
  exact (hs.started hjob').later hkept

end RunState

open RunState

/-- The account of the order. -/
def orderAccount (w : Workflow) : Account w fun s q => orderly w s q = true where
  inv := Ordered w
  rely := OrderKept
  refl s := OrderKept.of_steps (Onward.refl s) rfl
  trans := OrderKept.trans
  env_ok := jobEvent_ordered
  known := Recorded
  observed := Seen
  onward h := h.onward
  known_rely h := fun ⟨row, hrow, hsuccess, hout⟩ =>
    ⟨row, h.success hrow hsuccess, hsuccess, hout⟩
  observed_rely h := fun ⟨_, hrow, hshows⟩ => h.shows hrow hshows
  named hs := hs.named
  known_of_row {_ _ row} hs hrow hsuccess := by
    have hnull : nonNull row.output = row.output := hs.nonNull hrow
    exact ⟨row, hrow, hsuccess, by rw [hnull, hnull]⟩
  observed_of_row hs hrow hd hj := ⟨⟨_, hrow, .inl ⟨hd, hj⟩⟩, hs.jobOf hrow hj⟩
  statement := exec_ordered
  landed {s x out j} hs hok hpre := by
    obtain ⟨⟨row, hrow, hshows⟩, job, hjob, hstatus, rfl⟩ := hpre
    have hjob' : ∀ {job'}, s.jobs j = some job' → job' = job := fun h => by
      rw [hjob, Option.some.injEq] at h
      exact h.symm
    rcases hshows with ⟨hd, hj⟩ | ⟨job', h, hf⟩ | ⟨job', h, _, hsuccess, hout⟩
    · have hunset : row.output = none := hs.unset hrow (by rw [hd]; decide)
      rcases steps_updateStep x (·.status = .dispatched)
        (finalizeRow .success (Outcome.success.output job)) hrow with ⟨_, hno⟩ | ⟨_, _, h⟩
      · simp [hd] at hno
      · exact ⟨_, h, rfl, by simp [finalizeRow, hunset]⟩
    · rw [hjob' h, hstatus] at hf
      cases hf
    · rcases steps_updateStep x (·.status = .dispatched)
        (finalizeRow .success (Outcome.success.output job)) hrow with ⟨h', _⟩ | ⟨_, hp, _⟩
      · exact ⟨row, h', hsuccess, by rw [hout, hjob' h]; rfl⟩
      · simp [hsuccess] at hp

/-! ## Runs -/

theorem ordered_empty (w : Workflow) : Ordered w RunState.empty :=
  ⟨nofun, nofun, nofun, nofun, nofun⟩

/-- In a run whose statements keep to the condition every job was started in order and stays so:
the jobs and the successful rows are there in all later states, and a step has one job for each
attempt. -/
theorem steps_start_in_order (w : Workflow) {e e' : Engine}
    (hrun : Run (engineStep w) (Calls.Allows fun s q => orderly w s q = true)
      ⟨RunState.empty, []⟩ e)
    (hlater : Run (engineStep w) (Calls.Allows fun s q => orderly w s q = true) e e') :
    (∀ j job, e.state.jobs j = some job → e.state.StartedInOrder w j job.content) ∧
      (∀ j job, e.state.jobs j = some job → ∃ job', e'.state.jobs j = some job' ∧
        job'.content = job.content ∧ e'.state.StartedInOrder w j job.content) ∧
      (∀ x row, e.state.steps x = some row → row.status = .success →
        e'.state.steps x = some row) ∧
      ∀ j j' job job', e.state.jobs j = some job → e'.state.jobs j' = some job' →
        j.step = j'.step → j.attempt = j'.attempt → j = j' := by
  obtain ⟨hs, hs', hkept⟩ := (orderAccount w).holds (ordered_empty w) hrun hlater
  have hs : Ordered w e.state := hs
  have hs' : Ordered w e'.state := hs'
  have hkept : OrderKept e.state e'.state := hkept
  refine ⟨fun j job hjob => hs.started hjob, fun j job hjob => ?_,
    fun x row hrow hsuccess => hkept.success hrow hsuccess, ?_⟩
  · obtain ⟨job', hjob', hcontent, _⟩ := hkept.onward.job j job hjob
    exact ⟨job', hjob', hcontent, hcontent ▸ hs'.started hjob'⟩
  · intro j j' job job' hjob hjob' hstep hattempt
    obtain ⟨step, hmem, hname, htable, _⟩ := hs.started hjob
    obtain ⟨step', hmem', hname', htable', _⟩ := hs'.started hjob'
    have hsame : step = step' := List.inj_on_of_nodup_map w.dag.nodup hmem hmem' (by
      rw [hname, hname', hstep])
    obtain ⟨table, x, attempt⟩ := j
    obtain ⟨table', x', attempt'⟩ := j'
    subst hsame
    rw [htable, Option.some.injEq] at htable'
    simp_all

/-- A step named `a`, and `b` that depends on it. -/
def twoSteps : Workflow where
  dag := {
    steps := [⟨"a", [], none, "/a", none, none, none, none⟩,
      ⟨"b", ["a"], none, "/b", none, none, none, none⟩]
    nonempty := by decide
    nodup := by decide
    ordered := by
      intro before step after h dep hdep
      rcases before with _ | ⟨x, _ | ⟨y, rest⟩⟩
      · cases h
        cases hdep
      · cases h
        simpa using hdep
      · simp at h }
  onFailure := .halt
  targetTable := some "job"
  input := none
  failuresOnly := false
  rowOrder := ["a", "b"]
  rowOrder_perm := List.Perm.refl _

/-- The run is spawned and its first pass starts `a`. -/
def startA : List (CallEvent Call RunState.JobEvent) :=
  .call .rerunTo :: List.replicate 10 (.next 0)

/-- The job of `a` ends, and a pass that lands it starts `b`. -/
def startB (result : Json) : List (CallEvent Call RunState.JobEvent) :=
  [.env (.finish ⟨"job", "a", 0⟩ .success (some result)), .call .advance] ++
    List.replicate 6 (.next 0)

theorem orderly_allows (w : Workflow) (e : Engine) (a : CallEvent Call RunState.JobEvent) :
    Calls.allows (orderly w) e a = true → Calls.Allows (fun s q => orderly w s q = true) e a :=
  Calls.allows_sound (fun _ _ h => h) e a

/-- `b` is started after `a`. -/
theorem steps_start_in_order_two : ∃ e e' : Engine,
    (∃ job, e'.state.jobs ⟨"job", "b", 0⟩ = some job) ∧
      (∀ j job, e'.state.jobs j = some job → e'.state.StartedInOrder twoSteps j job.content) ∧
        ∀ j j' job job', e.state.jobs j = some job → e'.state.jobs j' = some job' →
          j.step = j'.step → j.attempt = j'.attempt → j = j' := by
  have hrun : ((runAll (engineStep twoSteps) (Calls.allows (orderly twoSteps))
      ⟨RunState.empty, []⟩ startA).bind fun e => (runAll (engineStep twoSteps)
        (Calls.allows (orderly twoSteps)) e (startB (.int 1))).map fun e' => (e, e')).any
          (fun p => (p.2.state.jobs ⟨"job", "b", 0⟩).isSome) = true := by decide +kernel
  obtain ⟨e, e', he, he', hb⟩ := exists_pair hrun
  have hfirst := (run_of_runAll he).mono (orderly_allows twoSteps)
  have hsecond := (run_of_runAll he').mono (orderly_allows twoSteps)
  exact ⟨e, e', Option.isSome_iff_exists.mp hb,
    (steps_start_in_order twoSteps (hfirst.trans hsecond) .start).1,
    (steps_start_in_order twoSteps hfirst hsecond).2.2.2⟩

/-- In such a run only a success records an output, and never a null, and a row names no job but
one that is there and was started in order. -/
theorem rows_are_coherent (w : Workflow) {e : Engine}
    (hrun : Run (engineStep w) (Calls.Allows fun s q => orderly w s q = true)
      ⟨RunState.empty, []⟩ e) {x : String} {row : StepRow} (hrow : e.state.steps x = some row) :
    (row.output ≠ none → row.status = .success) ∧ nonNull row.output = row.output ∧
      ∀ j, row.jobId = some j → ∃ job, e.state.jobs j = some job ∧
        e.state.StartedInOrder w j job.content := by
  obtain ⟨hs, -, -⟩ := (orderAccount w).holds (ordered_empty w) hrun .start
  have hs : Ordered w e.state := hs
  refine ⟨fun ho => by_contra fun hne => ho (hs.unset hrow hne), hs.nonNull hrow, fun j hj => ?_⟩
  obtain ⟨job, hjob⟩ := hs.jobOf hrow hj
  exact ⟨job, hjob, hs.started hjob⟩

theorem rows_are_coherent_two : ∃ e : Engine, ∃ row, e.state.steps "a" = some row ∧
    (row.output ≠ none → row.status = .success) := by
  have hrun : (runAll (engineStep twoSteps) (Calls.allows (orderly twoSteps))
      ⟨RunState.empty, []⟩ startA).any (fun e => (e.state.steps "a").isSome) = true := by decide +kernel
  obtain ⟨e, he, ha⟩ := exists_run hrun
  obtain ⟨row, hrow⟩ := Option.isSome_iff_exists.mp ha
  exact ⟨e, row, hrow, (rows_are_coherent twoSteps (he.mono (orderly_allows twoSteps)) hrow).1⟩

/-- A pass lands a null result and hands it on: the job of `b` has an output of `a` that is not
recorded. -/
theorem null_output_is_handed_on : ¬ ∀ e : Engine,
    Run (engineStep twoSteps) (fun _ _ => True) ⟨RunState.empty, []⟩ e →
      ∀ j job, e.state.jobs j = some job → e.state.StartedInOrder twoSteps j job.content := by
  intro hall
  have hrun : (runAll (engineStep twoSteps) (fun _ _ => true) ⟨RunState.empty, []⟩
      (startA ++ startB .null)).any (fun e =>
        (e.state.jobs ⟨"job", "b", 0⟩).any (·.content.steps.isSome) &&
          (e.state.recorded "a").isNone) = true := by decide +kernel
  obtain ⟨e, he, hb⟩ := exists_freeRun hrun
  obtain ⟨hjob, hnone⟩ := Bool.and_eq_true_iff.mp hb
  obtain ⟨job, hjob, hsteps⟩ := (Option.any_eq_true _ _).mp hjob
  obtain ⟨step, hmem, hname, _, _, h⟩ :=
    hall e he _ job hjob
  have hnone : e.state.recorded "a" = none := Option.isNone_iff_eq_none.mp hnone
  have hstep : step.dependsOn = ["a"] := by
    simp only [twoSteps, List.mem_cons, List.not_mem_nil, or_false] at hmem
    rcases hmem with rfl | rfl
    · exact absurd hname (by decide)
    · rfl
  have hempty : step.inputs e.state.recorded = [] := by
    rw [StepDef.inputs, hstep]
    simp [hnone]
  rw [h, StepDef.stepsOf, hempty] at hsteps
  cases hsteps

end Sp00ky.ScheduleCore
