/-
  A durable instance and the outbox jobs that run it (`packages/backend/src/surreal.ts`:
  `SurrealStore`; `engine.ts`: `runInstance`; `packages/ssp-node/src/jobs/runner.rs`:
  `execute_job`, `handle_failure`).

  The instance holds one wake token, and whoever schedules its next run replaces the token and
  creates the job that carries it in one transaction. An attempt of a job claims the instance with
  the token it was given; what it answers decides what becomes of the job. One instance is
  modelled, with the jobs created for it. Any call may end at any point, on either side, and a
  store call that fails leaves the tables as they were.

  How often an attempt of a job failed is noted on the job (`losses`); nothing reads it.
-/
import Sp00ky.Lib.EntryMap
import Sp00ky.Lib.Transition

namespace Sp00ky.Durable

open Lib

/-! ## Rows -/

abbrev Token := String

/-- The statuses of `_00_wf_instance` that are written. -/
inductive InstanceStatus where
  | queued | running | waiting | complete | errored | terminated
deriving DecidableEq, Repr

/-- `ACTIVE_STATUSES`. -/
def InstanceStatus.active : InstanceStatus → Bool
  | .queued | .running | .waiting => true
  | .complete | .errored | .terminated => false

structure Instance where
  status : InstanceStatus
  /-- the token of the one job that may run the instance next -/
  wake : Token
  leaseEpoch : Nat
  leaseUntil : Option Nat
deriving DecidableEq, Repr

inductive JobStatus where
  | pending | processing | success | failed
deriving DecidableEq, Repr

/-- A job of the outbox; its id is made of the token its payload carries. -/
structure Job where
  delay : Nat
  status : JobStatus
  retries : Nat
  leaseEpoch : Nat
  losses : Nat
deriving DecidableEq, Repr

/-- The `max_retries` of `CREATE_JOB`. -/
def maxRetries : Nat := 10

/-- An attempt of a job, under the lease its claim of the row gave it. -/
structure Attempt where
  wake : Token
  retries : Nat
  epoch : Nat
deriving DecidableEq, Repr

/-- What is going on, by what it is about to do. -/
inductive Call where
  /-- a job entry in the queue of the runner, at `claim_processing` -/
  | queued (wake : Token) (retries : Nat)
  /-- `execute_job`, at the answer to its request -/
  | awaiting (a : Attempt)
  /-- `execute_job`, at `complete_success` -/
  | completing (a : Attempt)
  /-- `handle_failure`, at the requeue after the backoff -/
  | retrying (a : Attempt)
  /-- `handle_failure`, at `failed` -/
  | givingUp (a : Attempt)
  /-- `runInstance`, at `claim` -/
  | requested (a : Attempt)
  /-- `runInstance`, past the claim of an epoch -/
  | running (a : Attempt) (epoch : Nat)
  /-- the answer of `runInstance` on its way -/
  | answered (a : Attempt) (ok : Bool)
deriving DecidableEq, Repr

/-- How a run ends. -/
inductive Finish where
  | complete
  | errored
  | suspend (delayMs : Nat) (newWake : Token)
deriving DecidableEq, Repr

structure Tables where
  now : Nat
  inst : Option Instance
  jobs : List (Token × Job)
  calls : List Call

inductive Event where
  | create (wake : Token)
  | sendEvent (newWake : Token)
  | terminate (newWake : Token)
  | restart (newWake : Token)
  | tick (ms : Nat)
  /-- the runner, or its recovery sweep, takes up a `pending` row -/
  | pickUp (wake : Token)
  /-- `reclaim_expired_lease` -/
  | reclaim (wake : Token)
  | resume (call : Call) (leaseMs : Nat)
  | renewLease (a : Attempt) (epoch leaseMs : Nat)
  | saveStep (a : Attempt) (epoch : Nat)
  | finish (a : Attempt) (epoch : Nat) (finish : Finish)
  /-- a store call of the run failed: a 500 -/
  | storeFailure (a : Attempt) (epoch : Nat)
  /-- the answer arrives; `persisted` if `increment_retries` gets through -/
  | answer (a : Attempt) (ok persisted : Bool)
  /-- the runner gives the answer up for lost -/
  | lose (a : Attempt) (persisted : Bool)
  | die (call : Call)
deriving DecidableEq, Repr

namespace Tables

def start : Tables := ⟨0, none, [], []⟩

def spawn (s : Tables) (calls : List Call) : Tables := { s with calls := s.calls ++ calls }

def drop (s : Tables) (call : Call) : Tables := { s with calls := s.calls.erase call }

/-! ## The store -/

/-- `CREATE_JOB`: the transaction fails if the id is taken. -/
def createJob (s : Tables) (wake : Token) (delay : Nat) (inst : Instance) : Option Tables :=
  match EntryMap.get s.jobs wake with
  | some _ => none
  | none => some { s with
      inst := some inst, jobs := EntryMap.set s.jobs wake ⟨delay, .pending, 0, 0, 0⟩ }

def create (s : Tables) (wake : Token) : Option Tables :=
  match s.inst with
  | some _ => none
  | none => s.createJob wake 0 ⟨.queued, wake, 0, none⟩

/-- An inactive instance gets the event, but no job. -/
def sendEvent (s : Tables) (newWake : Token) : Option Tables :=
  match s.inst with
  | none => none
  | some i =>
    if i.status.active then s.createJob newWake 0 { i with wake := newWake } else some s

def terminate (s : Tables) (newWake : Token) : Option Tables :=
  match s.inst with
  | none => none
  | some i =>
    if i.status.active then
      some { s with inst := some ⟨.terminated, newWake, i.leaseEpoch + 1, none⟩ }
    else some s

def restart (s : Tables) (newWake : Token) : Option Tables :=
  match s.inst with
  | none => none
  | some i => s.createJob newWake 0 ⟨.queued, newWake, i.leaseEpoch + 1, none⟩

/-- What a claim finds. -/
inductive Claim where
  | claimed (inst : Instance)
  | gone | done | stale | busy
deriving DecidableEq, Repr

def claim (s : Tables) (wake : Token) (leaseMs : Nat) : Claim :=
  match s.inst with
  | none => .gone
  | some i =>
    if !i.status.active then .done
    else if i.wake ≠ wake then .stale
    else if i.leaseUntil.any (s.now ≤ ·) then .busy
    else .claimed ⟨.running, i.wake, i.leaseEpoch + 1, some (s.now + leaseMs)⟩

/-- The instance, if it still is at the epoch. -/
def fence (s : Tables) (epoch : Nat) : Option Instance :=
  s.inst.filter (·.leaseEpoch = epoch)

/-- A suspended run is due at once if the token changed under it. -/
def finish (s : Tables) (i : Instance) (claimedWake : Token) : Finish → Option Tables
  | .complete => some { s with inst := some { i with status := .complete, leaseUntil := none } }
  | .errored => some { s with inst := some { i with status := .errored, leaseUntil := none } }
  | .suspend delayMs newWake =>
    let delay := if i.wake ≠ claimedWake then 0 else delayMs
    s.createJob newWake delay
      ⟨if 0 < delay then .waiting else .running, newWake, i.leaseEpoch, none⟩

/-! ## The job runner -/

def onJob (s : Tables) (wake : Token) (change : Job → Job) : Tables :=
  match EntryMap.get s.jobs wake with
  | some j => { s with jobs := EntryMap.set s.jobs wake (change j) }
  | none => s

/-- `fenced_write`: a write of an attempt on its row, unless the row has been claimed since. -/
def fencedWrite (s : Tables) (a : Attempt) (change : Job → Job) : Tables :=
  s.onJob a.wake fun j => if j.leaseEpoch = a.epoch then change j else j

/-- The row still is at the epoch of the attempt. -/
def holds (s : Tables) (a : Attempt) : Bool :=
  (EntryMap.get s.jobs a.wake).any (·.leaseEpoch = a.epoch)

/-- `handle_failure` up to the backoff, or to the end of the job. -/
def handleFailure (s : Tables) (a : Attempt) (persisted : Bool) : Tables :=
  let s := s.onJob a.wake fun j => { j with losses := j.losses + 1 }
  let s := if persisted then s.fencedWrite a fun j => { j with retries := j.retries + 1 } else s
  let a := { a with retries := a.retries + 1 }
  s.spawn [if a.retries < maxRetries then .retrying a else .givingUp a]

/-! ## Steps -/

/-- A call does what it is about to do. -/
def resume (s : Tables) (leaseMs : Nat) : Call → Option Tables
  | .queued wake retries =>
    match EntryMap.get s.jobs wake with
    | none => some s
    | some j =>
      if j.status = .pending then
        let a : Attempt := ⟨wake, retries, j.leaseEpoch + 1⟩
        some ((s.onJob wake fun j =>
          { j with status := .processing, leaseEpoch := j.leaseEpoch + 1 }).spawn
            [.awaiting a, .requested a])
      else some s
  | .completing a => some (s.fencedWrite a fun j => { j with status := .success })
  | .retrying a =>
    let t := s.fencedWrite a fun j => { j with status := .pending }
    if s.holds a then some (t.spawn [.queued a.wake a.retries]) else some t
  | .givingUp a => some (s.fencedWrite a fun j => { j with status := .failed })
  | .requested a =>
    match s.claim a.wake leaseMs with
    | .claimed i => some ({ s with inst := some i }.spawn [.running a i.leaseEpoch])
    | .gone | .done | .stale => some (s.spawn [.answered a true])
    | .busy => some (s.spawn [.answered a false])
  | .awaiting _ | .running _ _ | .answered _ _ => none

def step (s : Tables) : Event → Option Tables
  | .create wake => s.create wake
  | .sendEvent newWake => s.sendEvent newWake
  | .terminate newWake => s.terminate newWake
  | .restart newWake => s.restart newWake
  | .tick ms => some { s with now := s.now + ms }
  | .pickUp wake =>
    match EntryMap.get s.jobs wake with
    | none => none
    | some j => if j.status = .pending then some (s.spawn [.queued wake j.retries]) else none
  | .reclaim wake => some (s.onJob wake fun j =>
      if j.status = .processing then { j with status := .pending, leaseEpoch := j.leaseEpoch + 1 }
      else j)
  | .resume call leaseMs => if call ∈ s.calls then (s.drop call).resume leaseMs call else none
  | .renewLease a epoch leaseMs =>
    if .running a epoch ∈ s.calls then
      match s.fence epoch with
      | some i => some { s with inst := some { i with leaseUntil := some (s.now + leaseMs) } }
      | none => some ((s.drop (.running a epoch)).spawn [.answered a true])
    else none
  | .saveStep a epoch =>
    if .running a epoch ∈ s.calls then
      match s.fence epoch with
      | some _ => some s
      | none => some ((s.drop (.running a epoch)).spawn [.answered a true])
    else none
  | .finish a epoch f =>
    if .running a epoch ∈ s.calls then
      match s.fence epoch with
      | some i =>
        match (s.drop (.running a epoch)).finish i a.wake f with
        | some t => some (t.spawn [.answered a true])
        | none => some ((s.drop (.running a epoch)).spawn [.answered a false])
      | none => some ((s.drop (.running a epoch)).spawn [.answered a true])
    else none
  | .storeFailure a epoch =>
    if .running a epoch ∈ s.calls then
      some ((s.drop (.running a epoch)).spawn [.answered a false])
    else none
  | .answer a ok persisted =>
    if .awaiting a ∈ s.calls ∧ .answered a ok ∈ s.calls then
      let t := (s.drop (.awaiting a)).drop (.answered a ok)
      if ok then some (t.spawn [.completing a]) else some (t.handleFailure a persisted)
    else none
  | .lose a persisted =>
    if .awaiting a ∈ s.calls then some ((s.drop (.awaiting a)).handleFailure a persisted) else none
  | .die call => some (s.drop call)

end Tables

end Sp00ky.Durable
