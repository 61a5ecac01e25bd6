/-
  The rows of `_00_schedule_run` and the statements on them (`packages/schedule-core/src/sql.rs`).

  A run is created under an id made from its schedule, its fire and its key, so a second creation
  is refused. It is finalized only while it is `running`, and reopened only if it is the run of a
  workflow that failed or was killed. What else a statement finds it leaves as it was.
-/
import Sp00ky.ScheduleCore.Statements

namespace Sp00ky.ScheduleCore

/-! ## Rows -/

inductive ScheduleKind where
  | job | workflow
deriving DecidableEq, Repr

/-- The status of `_00_schedule_run`. -/
inductive ScheduleRunStatus where
  | running | success | failed | killed | skipped | replaced
deriving DecidableEq, Repr

/-- The outcome of a job or of a step, as the status of a run. -/
def Outcome.runStatus : Outcome → ScheduleRunStatus
  | .success => .success
  | .failed => .failed

/-- The status of a workflow run, on its owner. -/
def RunStatus.ofOwner : RunStatus → ScheduleRunStatus
  | .running => .running
  | .success => .success
  | .failed => .failed
  | .killed => .killed

/-- The `code` of a run's error, or the job's own. -/
inductive RunError where
  | jobMissing
  | jobFailed
  | ofJob (error : String)
  | quarantine
  /-- suppressed by the run with this id -/
  | skip (blocker : String)
deriving DecidableEq, Repr

structure ScheduleRun where
  id : String
  scheduleName : String
  key : String
  kind : ScheduleKind
  status : ScheduleRunStatus
  error : Option RunError
  jobId : Option String
  /-- `history_mode` is `failures-only` -/
  failuresOnly : Bool
deriving DecidableEq, Repr

/-- `is_success_shaped`. -/
def ScheduleRunStatus.successShaped : ScheduleRunStatus → Bool
  | .success | .skipped | .replaced => true
  | .running | .failed | .killed => false

namespace ScheduleRun

/-- Of the schedule and the key. -/
def IsOf (r : ScheduleRun) (name key : String) : Prop := r.scheduleName = name ∧ r.key = key

instance (r : ScheduleRun) (name key : String) : Decidable (r.IsOf name key) :=
  inferInstanceAs (Decidable (_ ∧ _))

/-- `FINALIZE_SCHEDULE_RUN` on one row; without an error the error stays. -/
def finalize (status : ScheduleRunStatus) (error : Option RunError) (r : ScheduleRun) :
    ScheduleRun :=
  if r.status = .running then { r with status, error := error.or r.error } else r

/-- What a retry reopens. -/
def Reopens (r : ScheduleRun) : Prop :=
  r.kind = .workflow ∧ (r.status = .failed ∨ r.status = .killed)

instance (r : ScheduleRun) : Decidable r.Reopens := inferInstanceAs (Decidable (_ ∧ _))

/-- `REOPEN_SCHEDULE_RUN` on one row. -/
def reopen (r : ScheduleRun) : ScheduleRun :=
  if r.Reopens then { r with status := .running, error := none } else r

theorem finalize_id (status : ScheduleRunStatus) (error : Option RunError) (r : ScheduleRun) :
    (r.finalize status error).id = r.id := by
  unfold finalize
  split <;> rfl

theorem reopen_id (r : ScheduleRun) : r.reopen.id = r.id := by
  unfold reopen
  split <;> rfl

end ScheduleRun

/-! ## Statements -/

/-- The table. -/
abbrev ScheduleRuns := List ScheduleRun

namespace ScheduleRuns

/-- `CREATE_SCHEDULE_RUN`, `CREATE_TERMINAL_SCHEDULE_RUN`: nothing if the id is taken. -/
def create (runs : ScheduleRuns) (r : ScheduleRun) : Option ScheduleRuns :=
  if r.id ∈ runs.map (·.id) then none else some (runs ++ [r])

/-- One statement on the row of an id. -/
def onRow (runs : ScheduleRuns) (id : String) (change : ScheduleRun → ScheduleRun) :
    ScheduleRuns :=
  runs.map fun r => if r.id = id then change r else r

def finalize (runs : ScheduleRuns) (id : String) (status : ScheduleRunStatus)
    (error : Option RunError) : ScheduleRuns :=
  runs.onRow id (·.finalize status error)

def reopen (runs : ScheduleRuns) (id : String) : ScheduleRuns := runs.onRow id (·.reopen)

/-- `DELETE_SCHEDULE_RUN`. -/
def delete (runs : ScheduleRuns) (id : String) : ScheduleRuns := runs.filter fun r => r.id ≠ id

/-- `PRUNE_SCHEDULE_RUNS`, of the doomed: never a run that is `running`. -/
def prune (runs : ScheduleRuns) (doomed : List String) : ScheduleRuns :=
  runs.filter fun r => ¬ (r.id ∈ doomed ∧ r.status ≠ .running)

/-- `SELECT_ACTIVE_RUNS`. -/
def active (runs : ScheduleRuns) (name key : String) : ScheduleRuns :=
  runs.filter fun r => r.IsOf name key ∧ r.status = .running

/-- `SELECT_BLOCKING_RUN`. -/
def blocking (runs : ScheduleRuns) (name key : String) : Option ScheduleRun :=
  (runs.active name key).head?

/-- `SELECT_RUNNING_JOB_RUNS`: the ids with their jobs. -/
def runningJobRuns (runs : ScheduleRuns) : List (String × String) :=
  (runs.filter fun r => r.status = .running ∧ r.kind = .job).filterMap fun r =>
    r.jobId.map fun job => (r.id, job)

/-- `FIND_RUN_BY_JOB`. -/
def byJob (runs : ScheduleRuns) (job : String) : List String :=
  (runs.filter fun r => r.jobId = some job ∧ r.status = .running).map (·.id)

/-- The row of an id that is `running`. -/
def runningRow (runs : ScheduleRuns) (id : String) : Option ScheduleRun :=
  runs.find? fun r => r.id = id ∧ r.status = .running

section

variable {runs : ScheduleRuns} {r : ScheduleRun} {id name key : String} {runs' : ScheduleRuns}

theorem mem_of_create (h : runs.create r = some runs') {r' : ScheduleRun}
    (hmem : r' ∈ runs') : r' ∈ runs ∨ r' = r := by
  unfold create at h
  split at h
  · cases h
  · cases h
    simpa using hmem

theorem mem_onRow {change : ScheduleRun → ScheduleRun} (h : r ∈ runs.onRow id change) :
    r ∈ runs ∨ ∃ r' ∈ runs, r'.id = id ∧ r = change r' := by
  obtain ⟨r', hr', rfl⟩ := List.mem_map.mp h
  split
  next hid => exact .inr ⟨r', hr', hid, rfl⟩
  next => exact .inl hr'

theorem ids_onRow {change : ScheduleRun → ScheduleRun} (hid : ∀ r, (change r).id = r.id) :
    (runs.onRow id change).map (·.id) = runs.map (·.id) := by
  unfold onRow
  rw [List.map_map]
  refine List.map_congr_left fun r _ => ?_
  rw [Function.comp_apply]
  split
  · exact hid r
  · rfl

theorem nodup_create (h : runs.create r = some runs')
    (hn : (runs.map (·.id)).Nodup) : (runs'.map (·.id)).Nodup := by
  unfold create at h
  split at h
  next => cases h
  next hnew =>
    cases h
    rw [List.map_append, List.map_singleton]
    exact hn.append (List.nodup_singleton _) (List.disjoint_singleton.mpr hnew)

variable {status : ScheduleRunStatus} {error : Option RunError}

/-- A finalized table has the rows it had, but for the ones that were `running` under the id. -/
theorem mem_finalize (h : r ∈ runs.finalize id status error) : r ∈ runs ∨ ∃ r' ∈ runs, r'.id = id ∧
      r'.status = .running ∧ r = { r' with status, error := error.or r'.error } := by
  rcases mem_onRow h with h | ⟨r', hr', hid, rfl⟩
  · exact .inl h
  · unfold ScheduleRun.finalize
    split
    next hrun => exact .inr ⟨r', hr', hid, hrun, rfl⟩
    next => exact .inl hr'

/-- A reopened table has the rows it had, but for the ones that the statement matched. -/
theorem mem_reopen (h : r ∈ runs.reopen id) : r ∈ runs ∨ ∃ r' ∈ runs, r'.id = id ∧
    r'.Reopens ∧ r = { r' with status := .running, error := none } := by
  rcases mem_onRow h with h | ⟨r', hr', hid, rfl⟩
  · exact .inl h
  · unfold ScheduleRun.reopen
    split
    next hre => exact .inr ⟨r', hr', hid, hre, rfl⟩
    next => exact .inl hr'

/-- Nothing is finalized that is not `running`. -/
theorem finalize_of_runningRow
    (h : runs.runningRow id = none) : runs.finalize id status error = runs := by
  have hno := List.find?_eq_none.mp h
  refine (List.map_congr_left fun r hr => ?_).trans (List.map_id runs)
  unfold ScheduleRun.finalize
  split
  next hid => exact if_neg fun hrun => hno r hr (decide_eq_true ⟨hid, hrun⟩)
  next => rfl

theorem mem_delete (h : r ∈ runs.delete id) : r ∈ runs := List.mem_of_mem_filter h

theorem mem_prune {doomed : List String} (h : r ∈ runs.prune doomed) : r ∈ runs :=
  List.mem_of_mem_filter h

theorem mem_active : r ∈ runs.active name key ↔ r ∈ runs ∧ r.IsOf name key ∧ r.status = .running := by
  unfold active
  rw [List.mem_filter, decide_eq_true_iff]

theorem active_finalize
    (hs : status ≠ .running) (h : r ∈ (runs.finalize id status error).active name key) :
    r ∈ runs.active name key := by
  obtain ⟨hmem, hof, hrun⟩ := mem_active.mp h
  rcases mem_finalize hmem with hmem | ⟨r', -, -, -, rfl⟩
  · exact mem_active.mpr ⟨hmem, hof, hrun⟩
  · exact absurd hrun hs

theorem active_of_subset (hsub : runs' ⊆ runs)
    (h : r ∈ runs'.active name key) : r ∈ runs.active name key := by
  obtain ⟨hmem, hof⟩ := mem_active.mp h
  exact mem_active.mpr ⟨hsub hmem, hof⟩

/-- Without a blocking run none of the key is `running`. -/
theorem blocking_eq_none : runs.blocking name key = none ↔ runs.active name key = [] := by
  unfold blocking
  exact List.head?_eq_none_iff

theorem mem_runningJobRuns {job : String} (h : (id, job) ∈ runs.runningJobRuns) :
    ∃ r ∈ runs, r.id = id ∧ r.status = .running ∧ r.jobId = some job := by
  obtain ⟨r, hr, hjob⟩ := List.mem_filterMap.mp h
  obtain ⟨job', hjob', heq⟩ := Option.map_eq_some_iff.mp hjob
  obtain ⟨rfl, rfl⟩ := Prod.mk.inj heq
  obtain ⟨hmem, hrun⟩ := List.mem_filter.mp hr
  exact ⟨r, hmem, rfl, (of_decide_eq_true hrun).1, hjob'⟩

theorem mem_byJob {job : String} (h : id ∈ runs.byJob job) :
    ∃ r ∈ runs, r.id = id ∧ r.status = .running ∧ r.jobId = some job := by
  obtain ⟨r, hr, rfl⟩ := List.mem_map.mp h
  obtain ⟨hmem, hrun⟩ := List.mem_filter.mp hr
  exact ⟨r, hmem, rfl, (of_decide_eq_true hrun).2, (of_decide_eq_true hrun).1⟩

end

end ScheduleRuns

end Sp00ky.ScheduleCore
