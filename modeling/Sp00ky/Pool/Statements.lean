/-
  The statements of the pool engine (`packages/pool-core/src/sql.rs`).

  Every write is one guarded statement, and every clock is the database's: leases, boot timeouts and
  heartbeats are compared with the time of the statement. Times are in milliseconds. Rows are kept
  in the order they were created, which is the order they are read in.

  For the theorems a job row notes how often it was claimed since it was created or retried, and the
  database which claims were made, which results were accepted, and how many boots have failed since
  a machine became ready.
-/
import Sp00ky.Pool.Spec

namespace Sp00ky.Pool

abbrev MachineId := Nat

abbrev JobId := Nat

/-! ## Rows -/

/-- A row of `_00_machine`. -/
structure MachineRow where
  id : MachineId
  state : MachineState
  providerId : Option MachineId
  slots : Nat
  busySlots : Nat
  specHash : String
  idleSince : Option Nat
  createdAt : Nat
  readyAt : Option Nat
  lastSeen : Option Nat
  reason : Option String
  failure : Bool
  endedAt : Option Nat
deriving DecidableEq, Repr

/-- `MachineRow` of `spec.rs`: a live machine with its clocks evaluated. -/
structure MachineView where
  id : MachineId
  state : MachineState
  slots : Nat
  busySlots : Nat
  specHash : String
  hasIdleSince : Bool
  bootOverdue : Bool
  heartbeatLost : Bool
  fresh : Bool
  idleExpired : Bool
  lifetimeOver : Bool
  settled : Bool
deriving DecidableEq, Repr

inductive JobStatus where
  | pending | processing | success | failed
deriving DecidableEq, Repr

/-- An outbox row. A missing `lease_epoch` or `retries` is read as 0 everywhere. -/
structure JobRow where
  id : JobId
  status : JobStatus
  assignee : Option MachineId
  leaseEpoch : Nat
  leaseUntil : Option Nat
  retries : Nat
  maxRetries : Option Int
  timeout : Option Int
  delay : Option Nat
  createdAt : Nat
  updatedAt : Nat
  errors : List String
  result : Option String
  /-- Claims since it was created or retried. -/
  claims : Nat
deriving DecidableEq, Repr

/-- An attempt: a job as it was claimed, with the machine it is bound to. -/
structure Attempt where
  job : JobId
  epoch : Nat
  machine : MachineId
deriving DecidableEq, Repr

structure Db where
  now : Nat
  pool : PoolRow
  machines : List MachineRow
  jobs : List JobRow
  nextMachine : MachineId
  nextJob : JobId
  /-- Every claim that was made. -/
  claimed : List Attempt
  /-- Every attempt whose result was accepted. -/
  accepted : List Attempt
  /-- Boots that failed since a machine became ready. -/
  failedBoots : Nat
deriving Repr

/-- Seconds as milliseconds. -/
def secs (n : Nat) : Nat := n * 1000

/-- The pool's breaker is open. -/
def Db.breakerOpen (s : Db) : Bool := s.pool.breakerUntil.any fun until_ => s.now < until_

/-- `poll_secs`. -/
def pollSecs (leaseSecs : Nat) : Nat := Nat.min (Nat.max (leaseSecs / 6) 1) 10

/-- `fresh_secs`. -/
def freshSecs (leaseSecs : Nat) : Nat := pollSecs leaseSecs * 3

/-- A row of `SELECT_LIVE_MACHINES`. -/
def MachineRow.view (now : Nat) (spec : PoolSpec) (m : MachineRow) : MachineView where
  id := m.id
  state := m.state
  slots := Nat.max m.slots 1
  busySlots := m.busySlots
  specHash := m.specHash
  hasIdleSince := m.idleSince.isSome
  bootOverdue := m.createdAt + secs spec.bootTimeoutSecs < now
  heartbeatLost := m.lastSeen.getD m.createdAt + secs spec.leaseSecs < now
  fresh := m.lastSeen.any fun seen => now < seen + secs (freshSecs spec.leaseSecs)
  idleExpired := m.idleSince.any fun since => since + secs spec.idleTimeoutSecs < now
  lifetimeOver := m.createdAt + secs spec.maxLifetimeSecs < now
  settled := m.createdAt + secs 15 < now

namespace JobRow

/-- `PENDING_DUE_CLAUSE`. -/
def due (now : Nat) (row : JobRow) : Bool := row.createdAt + row.delay.getD 0 ≤ now

/-- `LEASE_EXPIRED`. -/
def leaseExpired (now : Nat) (row : JobRow) : Bool :=
  row.leaseUntil.getD (row.updatedAt + secs 600) < now

/-- No retry is left after this attempt. -/
def exhausted (row : JobRow) : Bool := row.maxRetries.getD 3 ≤ (row.retries : Int) + 1

/-- `ATTEMPT_FENCE`. -/
def heldBy (attempt : Attempt) (row : JobRow) : Bool :=
  row.status = .processing && row.assignee = some attempt.machine && row.leaseEpoch = attempt.epoch

end JobRow

/-! ## Statements -/

inductive Statement where
  | selectPool
  | recordBootFailure (failures : Int) (error : String) (untilSecs : Nat)
  | resetBootFailures
  | recordPoolError (error : String)
  | selectLiveMachines (spec : PoolSpec)
  | createMachine (slots : Nat) (specHash : String)
  | setProviderId (id : MachineId) (providerId : MachineId)
  | moveMachine (id : MachineId) (source : List MachineState) (target : MachineState)
  | beginTerminate (id : MachineId) (source : List MachineState) (reason : String) (failure : Bool)
  | finishTerminate (id : MachineId)
  | markReady (id : MachineId)
  | touchMachine (id : MachineId)
  | selectMachine (id : MachineId)
  | setOccupancyIdle (id : MachineId)
  | setOccupancyBusy (id : MachineId) (busy : Nat)
  | pruneMachines (keepSecs : Nat)
  | countQueued
  | selectQueued (n : Nat)
  | selectOccupancy (machines : List MachineId)
  | selectBound (machine : MachineId)
  | claimJob (job : JobId) (machine : MachineId) (leaseSecs : Nat)
  | renewLease (attempt : Attempt) (leaseSecs : Nat)
  | failExpiredExhausted
  | requeueExpired
  | failOverdue (limitSecs : Nat)
  | completeSuccess (attempt : Attempt) (result : Option String)
  | completeFailure (attempt : Attempt) (error : String)
  | completeTerminalFailure (attempt : Attempt) (error : String)
  | retryJob (job : JobId)
  | killJob (job : JobId)
  /-- The provider is asked for the machine. -/
  | providerCreate (id : MachineId)
  | providerDestroy (id : MachineId)

/-- What a call reads of the answer. -/
def Answer : Statement → Type
  | .selectPool => PoolSpec
  | .selectLiveMachines _ => List MachineView
  | .createMachine .. => MachineId
  | .moveMachine .. | .beginTerminate .. | .markReady _ | .claimJob .. | .completeSuccess ..
  | .completeFailure .. | .completeTerminalFailure .. | .retryJob _ | .killJob _ => Bool
  | .touchMachine _ | .selectMachine _ => Option MachineState
  | .countQueued => Nat
  | .selectQueued _ => List JobId
  | .selectOccupancy _ => List (MachineId × Nat)
  | .selectBound _ => List JobRow
  | _ => Unit

namespace Db

/-- `UPDATE type::record($id) ... WHERE`, on a machine: the rows after, and whether it matched. -/
def updateMachine (s : Db) (id : MachineId) (guard : MachineRow → Bool)
    (change : MachineRow → MachineRow) : Db × Bool :=
  ({ s with machines := s.machines.map fun m => if m.id = id ∧ guard m then change m else m },
    s.machines.any fun m => m.id = id && guard m)

/-- `UPDATE table ... WHERE`, on the jobs. -/
def updateJobs (s : Db) (guard : JobRow → Bool) (change : JobRow → JobRow) : Db :=
  { s with jobs := s.jobs.map fun row => if guard row then change row else row }

/-- The same on one job. -/
def updateJob (s : Db) (id : JobId) (guard : JobRow → Bool) (change : JobRow → JobRow) :
    Db × Bool :=
  (s.updateJobs (fun row => row.id = id && guard row) change,
    s.jobs.any fun row => row.id = id && guard row)

/-- The rows of the outbox that are bound to a machine. -/
def boundTo (s : Db) (machine : MachineId) : List JobRow :=
  s.jobs.filter fun row => row.status = .processing && row.assignee = some machine

/-- The queue: what is pending and due. -/
def queue (s : Db) : List JobRow := s.jobs.filter fun row => row.status = .pending && row.due s.now

/-- An attempt that ended for good. -/
def endJob (s : Db) (status : JobStatus) (error : Option String) (row : JobRow) : JobRow :=
  { row with
    status := status
    leaseUntil := none
    errors := row.errors ++ error.toList
    updatedAt := s.now }

/-- `fail_expired_exhausted`. -/
def failExhausted (s : Db) (row : JobRow) : JobRow :=
  { s.endJob .failed (some "lease_expired") row with
    leaseEpoch := row.leaseEpoch + 1
    retries := row.retries + 1 }

/-- `requeue_expired`. -/
def requeue (s : Db) (row : JobRow) : JobRow :=
  { s.endJob .pending (some "lease_expired") row with
    assignee := none
    leaseEpoch := row.leaseEpoch + 1
    retries := row.retries + 1 }

/-- `complete_failure`. -/
def failAttempt (s : Db) (error : String) (row : JobRow) : JobRow :=
  { s.endJob (if row.exhausted then .failed else .pending) (some error) row with
    assignee := if row.exhausted then row.assignee else none
    retries := row.retries + 1 }

/-- `CLAIM_JOB`. -/
def claim (s : Db) (machine : MachineId) (leaseSecs : Nat) (row : JobRow) : JobRow :=
  { row with
    status := .processing
    assignee := some machine
    leaseEpoch := row.leaseEpoch + 1
    leaseUntil := some (s.now + secs leaseSecs)
    updatedAt := s.now
    claims := row.claims + 1 }

/-- `RETRY_JOB`. -/
def reset (s : Db) (row : JobRow) : JobRow :=
  { row with
    status := .pending
    retries := 0
    errors := []
    assignee := none
    leaseUntil := none
    updatedAt := s.now
    claims := 0 }

/-- A result is written by the attempt it names, if that still holds the job. -/
def complete (s : Db) (attempt : Attempt) (change : JobRow → JobRow) : Db × Bool :=
  let after := s.updateJob attempt.job (·.heldBy attempt) change
  ({ after.1 with accepted := if after.2 then attempt :: s.accepted else s.accepted }, after.2)

/-- Each statement as the database runs it. -/
def exec (s : Db) : (q : Statement) → Db × Answer q
  | .selectPool => (s, PoolSpec.fromRow s.pool s.breakerOpen)
  | .recordBootFailure failures error untilSecs =>
    ({ s with
        pool := { s.pool with
          bootFailures := some failures
          lastError := some error
          breakerUntil := if 0 < untilSecs then some (s.now + secs untilSecs) else none }
        failedBoots := s.failedBoots + 1 }, ())
  | .resetBootFailures =>
    (if 0 < s.pool.bootFailures.getD 0 ∨ s.pool.breakerUntil.isSome then
      { s with pool := { s.pool with bootFailures := some 0, breakerUntil := none, lastError := none } }
     else s, ())
  | .recordPoolError error => ({ s with pool := { s.pool with lastError := some error } }, ())
  | .selectLiveMachines spec =>
    (s, (s.machines.filter (·.state.isLive)).map (·.view s.now spec))
  | .createMachine slots specHash =>
    ({ s with
        machines := s.machines ++ [⟨s.nextMachine, .requested, none, slots, 0, specHash, none, s.now,
          none, none, none, false, none⟩]
        nextMachine := s.nextMachine + 1 }, s.nextMachine)
  | .setProviderId id providerId =>
    ((s.updateMachine id (·.state.isLive) fun m => { m with providerId := some providerId }).1, ())
  | .moveMachine id source target =>
    s.updateMachine id (fun m => m.state ∈ source) fun m => { m with state := target }
  | .beginTerminate id source reason failure =>
    s.updateMachine id (fun m => m.state ∈ source)
      fun m => { m with state := .terminating, reason := some reason, failure := failure }
  | .finishTerminate id =>
    ((s.updateMachine id (·.state = .terminating) fun m =>
      { m with
        state := if m.failure then .failed else .gone
        endedAt := some s.now
        busySlots := 0 }).1, ())
  | .markReady id =>
    let after := s.updateMachine id (fun m => m.state = .requested || m.state = .booting) fun m =>
      { m with
        state := .ready
        readyAt := some (m.readyAt.getD s.now)
        lastSeen := some s.now
        idleSince := some s.now }
    ({ after.1 with failedBoots := if after.2 then 0 else s.failedBoots }, after.2)
  | .touchMachine id =>
    ((s.updateMachine id (·.state.isLive) fun m => { m with lastSeen := some s.now }).1,
      (s.machines.find? fun m => m.id = id && m.state.isLive).map (·.state))
  | .selectMachine id => (s, (s.machines.find? fun m => m.id = id).map (·.state))
  | .setOccupancyIdle id =>
    ((s.updateMachine id (fun _ => true) fun m =>
      { m with busySlots := 0, idleSince := some (m.idleSince.getD s.now) }).1, ())
  | .setOccupancyBusy id busy =>
    ((s.updateMachine id (fun _ => true) fun m => { m with busySlots := busy, idleSince := none }).1,
      ())
  | .pruneMachines keepSecs =>
    ({ s with machines := s.machines.filter fun m =>
        m.state.isLive || !m.endedAt.any fun at_ => at_ + secs keepSecs < s.now }, ())
  | .countQueued => (s, s.queue.length)
  | .selectQueued n => (s, (s.queue.take n).map (·.id))
  | .selectOccupancy machines =>
    (s, (machines.map fun m => (m, (s.boundTo m).length)).filter fun p => 0 < p.2)
  | .selectBound machine => (s, s.boundTo machine)
  | .claimJob job machine leaseSecs =>
    let after := s.updateJob job (·.status = .pending) (s.claim machine leaseSecs)
    ({ after.1 with
        claimed := (s.jobs.filter fun row => row.id = job && row.status = .pending).map
          (fun row => ⟨job, row.leaseEpoch + 1, machine⟩) ++ s.claimed }, after.2)
  | .renewLease attempt leaseSecs =>
    ((s.updateJob attempt.job (·.heldBy attempt) fun row =>
      { row with leaseUntil := some (s.now + secs leaseSecs) }).1, ())
  | .failExpiredExhausted =>
    (s.updateJobs (fun row => row.status = .processing && row.leaseExpired s.now && row.exhausted)
      s.failExhausted, ())
  | .requeueExpired =>
    (s.updateJobs (fun row => row.status = .processing && row.leaseExpired s.now) s.requeue, ())
  | .failOverdue limitSecs =>
    (s.updateJobs (fun row => row.status = .processing && row.updatedAt + secs limitSecs < s.now)
      fun row => { s.endJob .failed (some "deadline") row with leaseEpoch := row.leaseEpoch + 1 }, ())
  | .completeSuccess attempt result =>
    s.complete attempt fun row => { s.endJob .success none row with result := result.or row.result }
  | .completeFailure attempt error => s.complete attempt (s.failAttempt error)
  | .completeTerminalFailure attempt error => s.complete attempt (s.endJob .failed (some error))
  | .retryJob job =>
    s.updateJob job (fun row => row.status = .failed || row.status = .success) s.reset
  | .killJob job =>
    s.updateJob job (fun row => row.status = .pending || row.status = .processing) fun row =>
      { s.endJob .failed (some "killed") row with leaseEpoch := row.leaseEpoch + 1 }
  | .providerCreate _ | .providerDestroy _ => (s, ())

/-! ## What happens by itself -/

inductive Event where
  | tick (ms : Nat)
  | createJob (maxRetries timeout : Option Int) (delay : Option Nat)

/-- Time passes, or a job is created. -/
def event (s : Db) : Event → Db
  | .tick ms => { s with now := s.now + ms }
  | .createJob maxRetries timeout delay =>
    { s with
      jobs := s.jobs ++ [⟨s.nextJob, .pending, none, 0, none, 0, maxRetries, timeout, delay, s.now,
        s.now, [], none, 0⟩]
      nextJob := s.nextJob + 1 }

/-- Nothing has happened in the pool yet. -/
def empty (pool : PoolRow) : Db := ⟨0, pool, [], [], 0, 0, [], [], 0⟩

end Db

/-! ## Failures -/

/-- The error a statement answers with, and whether it took effect. -/
structure Fault where
  unknownField : Bool
  effect : Bool
deriving DecidableEq, Repr

/-- The database, and whether the next answers of it and of the provider are failures. -/
structure World where
  db : Db
  fault : Option Fault
deriving Repr

/-- The answer of a statement that may fail. -/
def Reply (q : Statement) : Type := Except Fault (Answer q)

namespace World

/-- A statement runs, or fails with or without effect. -/
def exec (w : World) (q : Statement) : World × Reply q :=
  match w.fault with
  | none => ({ w with db := (w.db.exec q).1 }, .ok (w.db.exec q).2)
  | some fault => (if fault.effect then { w with db := (w.db.exec q).1 } else w, .error fault)

inductive Event where
  | db (e : Db.Event)
  | fault (fault : Option Fault)

def event (w : World) : Event → World
  | .db e => { w with db := w.db.event e }
  | .fault fault => { w with fault }

/-- What a statement does to the database: what it says, or nothing. -/
theorem exec_db (w : World) (q : Statement) :
    (w.exec q).1.db = (w.db.exec q).1 ∨ (w.exec q).1.db = w.db := by
  unfold exec
  split
  · exact .inl rfl
  · split
    · exact .inl rfl
    · exact .inr rfl

/-- A statement that is answered has run. -/
theorem exec_ok {w : World} {q : Statement} {a : Answer q} (h : (w.exec q).2 = .ok a) :
    (w.exec q).1.db = (w.db.exec q).1 ∧ a = (w.db.exec q).2 := by
  unfold exec at h ⊢
  split at h
  next => exact ⟨rfl, (Except.ok.inj h).symm⟩
  next => cases h

end World

end Sp00ky.Pool
