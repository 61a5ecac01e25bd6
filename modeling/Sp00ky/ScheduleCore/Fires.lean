/-
  The sweeps of one engine (`packages/schedule-core/src/engine.rs`: `plan_pass`, `fire_pass`,
  `fan_out`, `spawn_one`, `replace_active_runs`, `create_schedule_run`; `workflow.rs`:
  `spawn_workflow`).

  A sweep claims what is due and then what is triggered, and fans each claimed fire out over the
  keys of its rows. The id of a run is made of the schedule, the time of the sweep and the key. No
  statement fails, and nothing else happens within a sweep; what happens between two sweeps is left
  open. No schedule has a quarantine budget. What the first pass over a new workflow run makes of
  it is a choice of the sweep (`firstPass`). The errors of runs and schedules, the rollups and the
  reports are left out.
-/
import Sp00ky.Lib.EntryMap
import Sp00ky.ScheduleCore.Ids
import Sp00ky.ScheduleCore.SkipOverlap

namespace Sp00ky.ScheduleCore.Fires

open Lib
open Skip (Concurrency)

/-! ## Rows -/

/-- The outcome of a first pass, as the status of the workflow run. -/
def endStatus : Outcome → RunStatus
  | .success => .success
  | .failed => .failed

/-- What a schedule starts. -/
inductive Work where
  | job (targetTable path : Option String)
  /-- a `workflow` whose definition is there and a graph, or not -/
  | workflow (valid : Bool)
deriving DecidableEq, Repr

structure ScheduleSpec where
  name : String
  concurrency : Concurrency
  work : Work
  /-- there is a `forEach` query -/
  forEach : Bool
  forEachKey : Option String
  failuresOnly : Bool
deriving DecidableEq, Repr

/-- A field of a row that a `forEach` query answered. -/
inductive Cell where
  | text (value : String)
  /-- any other JSON value, as it is rendered -/
  | other (rendered : String)
deriving DecidableEq, Repr

abbrev Row := List (String × Cell)

def ScheduleSpec.keyField (spec : ScheduleSpec) : String := spec.forEachKey.getD "id"

def ScheduleSpec.kind (spec : ScheduleSpec) : ScheduleKind :=
  match spec.work with
  | .job _ _ => .job
  | .workflow _ => .workflow

def fanOutKey (row : Row) (keyField : String) : String :=
  match EntryMap.get row keyField with
  | some (.text value) => value
  | some (.other rendered) => rendered
  | none => ""

structure Schedule where
  spec : ScheduleSpec
  paused : Bool
  configDisabled : Bool
  nextFireAt : Option Int
  triggerRequestedAt : Option Int
  lastFireAt : Option Int
deriving DecidableEq, Repr

inductive Trigger where
  | cron | manual
deriving DecidableEq, Repr

structure Tables where
  schedules : List (String × Schedule)
  runs : ScheduleRuns
  /-- the workflow runs, by their run key -/
  workflowRuns : List (String × RunStatus)
  /-- the runs whose `workflow_run` is set -/
  linked : List String
  /-- the outbox jobs that are there, and the ones that were handed to `JobKill` -/
  jobs : List String
  killed : List String

structure EngineConfig where
  sha256 : String → Vector UInt8 32
  fanoutMax : Nat
  /-- the schedule's next fire after a time, if its spec has one -/
  nextFireAfter : ScheduleSpec → Int → Option Int

/-- What one sweep meets. -/
structure Sweep where
  /-- the clock of the engine, and the one of the database -/
  now : Int
  dbNow : Int
  /-- what the `forEach` query of a schedule answers -/
  rowsOf : Trigger → String → List Row
  /-- how the first pass over the workflow run of a key ends it, if it does -/
  firstPass : String → Option Outcome

namespace Tables

/-! ## Finalizations -/

/-- A run that went well under `failures-only` is discarded, with its job. -/
def finalizeScheduleRun (s : Tables) (id : String) (status : ScheduleRunStatus) : Tables :=
  let finalized := { s with runs := s.runs.finalize id status none }
  match s.runs.runningRow id with
  | none => finalized
  | some row =>
    if row.failuresOnly && status.successShaped then
      { finalized with
        runs := finalized.runs.delete id
        jobs := match row.kind, row.jobId with
          | .job, some job => s.jobs.erase job
          | _, _ => s.jobs }
    else finalized

/-- The workflow run of a run is there, and `running`. -/
def Live (s : Tables) (id : String) : Prop :=
  id ∈ s.linked ∧ EntryMap.get s.workflowRuns id = some .running

instance (s : Tables) (id : String) : Decidable (s.Live id) := inferInstanceAs (Decidable (_ ∧ _))

/-- The owner is told that its workflow run was killed. -/
def requestWorkflowKill (s : Tables) (id : String) : Tables :=
  if s.Live id then
    { s with workflowRuns := EntryMap.set s.workflowRuns id .killed }.finalizeScheduleRun id .killed
  else s

def killJob (s : Tables) (job : Option String) : Tables :=
  { s with killed := s.killed ++ job.toList }

def replaceRun (s : Tables) (r : ScheduleRun) : Tables :=
  ((s.killJob r.jobId).requestWorkflowKill r.id).finalizeScheduleRun r.id .replaced

def replaceActiveRuns (s : Tables) (name key : String) : Tables :=
  (s.runs.active name key).foldl replaceRun s

/-- `CREATE_WORKFLOW_RUN` unless it is there, and `LINK_WORKFLOW_RUN`. -/
def createWorkflowRun (s : Tables) (id : String) : Tables :=
  { s with
    workflowRuns := if (EntryMap.get s.workflowRuns id).isSome then s.workflowRuns
      else EntryMap.set s.workflowRuns id .running
    linked := id :: s.linked }

end Tables

/-! ## One key of a fire -/

/-- A claimed fire. -/
structure Fire where
  spec : ScheduleSpec
  fireAt : Int
  rows : List Row
  firstPass : String → Option Outcome

section

variable (cfg : EngineConfig)

namespace Fire

def id (f : Fire) (key : String) : String := Ids.runKey cfg.sha256 f.spec.name f.fireAt key

def row (f : Fire) (key : String) (status : ScheduleRunStatus) (jobId : Option String) :
    ScheduleRun where
  id := f.id cfg key
  scheduleName := f.spec.name
  key
  kind := f.spec.kind
  status
  error := none
  jobId
  failuresOnly := f.spec.failuresOnly

/-- `ids::job`. -/
def job (f : Fire) (table key : String) : String :=
  table ++ ":sch_" ++ Ids.sanitizeJob cfg.sha256 (f.id cfg key)

/-- What follows the creation of the run of a workflow: the workflow run, and its first pass. -/
def startWorkflow (f : Fire) (s : Tables) (key : String) : Tables :=
  let id := f.id cfg key
  let s := s.createWorkflowRun id
  if EntryMap.get s.workflowRuns id = some .running then
    match f.firstPass id with
    | none => s
    | some outcome =>
      let s := { s with workflowRuns := EntryMap.set s.workflowRuns id (endStatus outcome) }
      s.finalizeScheduleRun id outcome.runStatus
  else s

/-- The run of a key, past the concurrency gate; whether the fire made one. -/
def spawn (f : Fire) (s : Tables) (key : String) : Tables × Bool :=
  match f.spec.work with
  | .job (some table) (some _) =>
    let job := f.job cfg table key
    match s.runs.create (f.row cfg key .running (some job)) with
    | some runs => ({ s with runs, jobs := if job ∈ s.jobs then s.jobs else s.jobs ++ [job] }, true)
    | none => (s, false)
  | .workflow true =>
    match s.runs.create (f.row cfg key .running none) with
    | some runs => (f.startWorkflow cfg { s with runs } key, true)
    | none => (s, false)
  | .job _ _ | .workflow false => (s, false)

/-- A fire that is suppressed; `failures-only` writes no such row. -/
def skip (f : Fire) (s : Tables) (key : String) : Tables × Bool :=
  if f.spec.failuresOnly then (s, false)
  else match s.runs.create (f.row cfg key .skipped none) with
    | some runs => ({ s with runs }, true)
    | none => (s, false)

def spawnOne (f : Fire) (s : Tables) (key : String) : Tables × Bool :=
  match f.spec.concurrency with
  | .allow => f.spawn cfg s key
  | .skip =>
    match s.runs.blocking f.spec.name key with
    | some _ => f.skip cfg s key
    | none => f.spawn cfg s key
  | .replace => f.spawn cfg (s.replaceActiveRuns f.spec.name key) key

/-! ## Fires -/

/-- The fan-out keys, of all rows. -/
def keys (f : Fire) : List String :=
  if f.spec.forEach then f.rows.map fun row => fanOutKey row f.spec.keyField else [""]

/-- The keys of the rows within the fan-out limit. -/
def kept (f : Fire) : List String :=
  if f.spec.forEach then (f.rows.take cfg.fanoutMax).map fun row => fanOutKey row f.spec.keyField
  else [""]

/-- The runs of some keys, in order, and the keys a run was made for. -/
def spawnAll (f : Fire) (s : Tables) : List String → Tables × List String
  | [] => (s, [])
  | key :: keys =>
    let (t, made) := f.spawnOne cfg s key
    let (u, rest) := f.spawnAll t keys
    (u, if made then key :: rest else rest)

def fanOut (f : Fire) (s : Tables) : Tables × List String := f.spawnAll cfg s (f.kept cfg)

end Fire

/-! ## Sweeps -/

namespace Tables

/-- `plan_pass`. -/
def planPass (s : Tables) (now : Int) : Tables :=
  { s with schedules := s.schedules.map fun e =>
      if e.2.nextFireAt = none ∧ !e.2.paused ∧ !e.2.configDisabled then
        (e.1, { e.2 with nextFireAt := cfg.nextFireAfter e.2.spec now })
      else e }

/-- `CLAIM_FIRE`: the fire time must still be the one that was observed. -/
def claimFire (s : Tables) (name : String) (now next observed : Int) : Option Tables :=
  match EntryMap.get s.schedules name with
  | none => none
  | some e =>
    if e.nextFireAt = some observed then
      let e := { e with lastFireAt := some now, nextFireAt := some next }
      some { s with schedules := EntryMap.set s.schedules name e }
    else none

/-- `CLAIM_TRIGGER`: the clock stays as it is. -/
def claimTrigger (s : Tables) (name : String) (now observed : Int) : Option Tables :=
  match EntryMap.get s.schedules name with
  | none => none
  | some e =>
    if e.triggerRequestedAt = some observed then
      let e := { e with lastFireAt := some now, triggerRequestedAt := none }
      some { s with schedules := EntryMap.set s.schedules name e }
    else none

end Tables

/-- A fire with the tables it found and left, and the keys it made a run for. -/
structure Fired where
  fire : Fire
  before : Tables
  after : Tables
  made : List String

def Fire.run (f : Fire) (s : Tables) : Fired := ⟨f, s, (f.fanOut cfg s).1, (f.fanOut cfg s).2⟩

namespace Sweep

def fire (w : Sweep) (trigger : Trigger) (spec : ScheduleSpec) : Fire :=
  ⟨spec, w.now, w.rowsOf trigger spec.name, w.firstPass⟩

/-- The due schedules, as the statement answered them. -/
def fireDue (w : Sweep) (s : Tables) : List (String × Schedule) → Tables × List Fired
  | [] => (s, [])
  | (name, e) :: rest =>
    match e.nextFireAt, cfg.nextFireAfter e.spec w.now with
    | some observed, some next =>
      match s.claimFire name w.now next observed with
      | some t =>
        let fired := (w.fire .cron e.spec).run cfg t
        let (u, more) := w.fireDue fired.after rest
        (u, fired :: more)
      | none => w.fireDue s rest
    | _, _ => w.fireDue s rest

/-- The triggered schedules. -/
def fireTriggered (w : Sweep) (s : Tables) : List (String × Schedule) → Tables × List Fired
  | [] => (s, [])
  | (name, e) :: rest =>
    match e.triggerRequestedAt with
    | some observed =>
      match s.claimTrigger name w.now observed with
      | some t =>
        let fired := (w.fire .manual e.spec).run cfg t
        let (u, more) := w.fireTriggered fired.after rest
        (u, fired :: more)
      | none => w.fireTriggered s rest
    | none => w.fireTriggered s rest

/-- `fire_pass`, with `SELECT_DUE` and `SELECT_TRIGGERED`. -/
def firePass (w : Sweep) (s : Tables) : Tables × List Fired :=
  let (t, due) := w.fireDue cfg s (s.schedules.filter fun e =>
    !e.2.paused && !e.2.configDisabled && e.2.nextFireAt.any (· ≤ w.dbNow))
  let (u, triggered) := w.fireTriggered cfg t (t.schedules.filter fun e =>
    !e.2.paused && e.2.triggerRequestedAt.isSome)
  (u, due ++ triggered)

end Sweep

/-- Sweeps of one engine, each after whatever has happened to the tables since the last. -/
def sweeps (s : Tables) : List ((Tables → Tables) × Sweep) → List Fired
  | [] => []
  | (change, w) :: rest =>
    let (t, fired) := w.firePass cfg ((change s).planPass cfg w.now)
    fired ++ sweeps t rest

end

end Sp00ky.ScheduleCore.Fires
