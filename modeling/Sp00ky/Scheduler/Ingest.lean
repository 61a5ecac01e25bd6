/-
  Ingestion and drains of the scheduler (`apps/scheduler/src/ingest.rs`, `lib.rs`).

  `ingest_event` takes a number, appends to the log, pushes to the event buffer and hands
  the event to the fan-out queue; each of these is a step of its own, so any number of calls
  can be anywhere in between. `drain_and_apply` takes the buffer, applies its events one
  after the other, commits the snapshot number and truncates the log; drains do not overlap.
  A crash may come between any two steps and is followed by `EventWal::open` and
  `recover_wal_backlog`. The last four fields of `State` are history.
-/
import Sp00ky.Lib.Transition
import Sp00ky.Scheduler.Wal

namespace Sp00ky.Scheduler

open Lib Ssp

/-- How far an `ingest_event` call has come. -/
inductive Stage where
  | numbered | logged | buffered
deriving DecidableEq, Repr

/-- An `ingest_event` call on its way. -/
structure Call where
  event : BufferedEvent
  stage : Stage
deriving Repr

/-- A drain on its way: the batch it took, how much of it went through the apply loop, the number
    it commits, and whether it has. -/
structure Drain where
  batch : List BufferedEvent
  done : Nat
  maxSeq : Nat
  committed : Bool
deriving Repr

/-- The scheduler, its log and its replica's snapshot number. -/
structure State where
  seqCounter : Nat
  calls : List Call
  wal : EventWal
  eventBuffer : List BufferedEvent
  drain : Option Drain
  snapshotSeq : Nat
  /-- Answered with `Ok`. -/
  acked : List BufferedEvent
  /-- Handed to `Replica::apply` by a drain that committed. -/
  applied : List BufferedEvent
  /-- Put into the buffer since the process started, in order. -/
  pushed : List BufferedEvent
  /-- Handed to the fan-out queue since the process started, in order. -/
  submitted : List BufferedEvent
deriving Repr

/-- `SYNCED_META_TABLES`. -/
def syncedMetaTables : List String := ["_00_user_feature", "_00_app_release"]

/-- `table_excluded_from_sync`. -/
def tableExcludedFromSync (table : String) : Bool :=
  "_00_".toList.isPrefixOf table.toList && !syncedMetaTables.contains table

/-- What can happen next. `take` carries whether a table is dirty, `begin` the request as
    `ingest_event` turns it into an update. -/
inductive Action where
  | begin (table : String) (operation : RecordOp) (id : String) (record : Json)
      (receivedAt versionstamp : Nat)
  | log (call : Nat)
  | push (call : Nat)
  | submit (call : Nat)
  | take (dirty : Bool)
  | apply
  | commit
  | truncate
  | crash
deriving Repr

/-- `recover_wal_backlog`: the events past the snapshot number, and the number to resume from. -/
def recoverWalBacklog (snapshotSeq : Nat) (wal : EventWal) : List BufferedEvent × Nat :=
  let recovered := wal.recover
  (recovered.filter fun e => decide (snapshotSeq < e.seq),
    max ((recovered.getLast?.map BufferedEvent.seq).getD 0) snapshotSeq)

namespace State

/-- A new scheduler. -/
def new (segmentBytes : Nat) : State := ⟨0, [], .new segmentBytes, [], none, 0, [], [], [], []⟩

/-- The process starts again on the disk that is left. -/
def reboot (s : State) : State :=
  let wal := s.wal.reopen
  let (eventBuffer, seq) := recoverWalBacklog s.snapshotSeq wal
  { seqCounter := seq
    calls := []
    wal := wal
    eventBuffer := eventBuffer
    drain := none
    snapshotSeq := s.snapshotSeq
    acked := s.acked
    applied := s.applied
    pushed := eventBuffer
    submitted := [] }

/-- The step of the call at a place of the list: `f` gets it at the stage it must be at. -/
def withCall (s : State) (i : Nat) (stage : Stage) (f : Call → Option State) : Option State :=
  s.calls[i]?.bind fun c => if c.stage = stage then f c else none

/-- One step. -/
def step (frameLen : BufferedEvent → Nat) (s : State) : Action → Option State
  | .begin table operation id record receivedAt versionstamp =>
    let seq := s.seqCounter + 1
    let event : BufferedEvent :=
      ⟨seq, ⟨table, operation, id, some record, seq, none⟩, receivedAt, versionstamp⟩
    some { s with seqCounter := seq, calls := s.calls ++ [⟨event, .numbered⟩] }
  | .log i => s.withCall i .numbered fun c =>
    match s.wal.append frameLen c.event with
    | some wal => some { s with wal := wal, calls := s.calls.set i ⟨c.event, .logged⟩ }
    | none => some { s with calls := s.calls.eraseIdx i }
  | .push i => s.withCall i .logged fun c =>
    some { s with
      eventBuffer := s.eventBuffer ++ [c.event]
      pushed := s.pushed ++ [c.event]
      calls := s.calls.set i ⟨c.event, .buffered⟩ }
  | .submit i => s.withCall i .buffered fun c =>
    some { s with
      submitted := s.submitted ++ [c.event]
      acked := s.acked ++ [c.event]
      calls := s.calls.eraseIdx i }
  | .take dirty =>
    match s.drain with
    | some _ => none
    | none =>
      match s.eventBuffer.getLast? with
      | none => some (if dirty then { s with drain := some ⟨[], 0, s.snapshotSeq, false⟩ } else s)
      | some last =>
        some { s with eventBuffer := [], drain := some ⟨s.eventBuffer, 0, last.seq, false⟩ }
  | .apply => s.drain.bind fun d =>
    if d.done < d.batch.length then some { s with drain := some { d with done := d.done + 1 } }
    else none
  | .commit => s.drain.bind fun d =>
    if d.done = d.batch.length ∧ d.committed = false then
      some { s with
        snapshotSeq := d.maxSeq
        applied := s.applied ++ d.batch.filter fun e => !tableExcludedFromSync e.update.table
        drain := some { d with committed := true } }
    else none
  | .truncate => s.drain.bind fun d =>
    if d.committed then some { s with wal := s.wal.truncate d.maxSeq, drain := none } else none
  | .crash => some s.reboot

end State

/-! ## What a step can do -/

/-- Everything a step can do. -/
inductive Step (frameLen : BufferedEvent → Nat) (s : State) : Action → State → Prop
  | begin {table : String} {operation : RecordOp} {id : String} {record : Json}
      {receivedAt versionstamp : Nat} (e : BufferedEvent) (hseq : e.seq = s.seqCounter + 1) :
      Step frameLen s (.begin table operation id record receivedAt versionstamp)
        { s with seqCounter := s.seqCounter + 1, calls := s.calls ++ [⟨e, .numbered⟩] }
  | log {i : Nat} {e : BufferedEvent} {wal : EventWal} (hcall : s.calls[i]? = some ⟨e, .numbered⟩)
      (hwal : s.wal.append frameLen e = some wal) :
      Step frameLen s (.log i) { s with wal := wal, calls := s.calls.set i ⟨e, .logged⟩ }
  | refuse {i : Nat} {e : BufferedEvent} (hcall : s.calls[i]? = some ⟨e, .numbered⟩) :
      Step frameLen s (.log i) { s with calls := s.calls.eraseIdx i }
  | push {i : Nat} {e : BufferedEvent} (hcall : s.calls[i]? = some ⟨e, .logged⟩) :
      Step frameLen s (.push i)
        { s with
          eventBuffer := s.eventBuffer ++ [e]
          pushed := s.pushed ++ [e]
          calls := s.calls.set i ⟨e, .buffered⟩ }
  | submit {i : Nat} {e : BufferedEvent} (hcall : s.calls[i]? = some ⟨e, .buffered⟩) :
      Step frameLen s (.submit i)
        { s with
          submitted := s.submitted ++ [e]
          acked := s.acked ++ [e]
          calls := s.calls.eraseIdx i }
  | takeNothing {dirty : Bool} : Step frameLen s (.take dirty) s
  | takeDirty {dirty : Bool} (hdrain : s.drain = none) :
      Step frameLen s (.take dirty) { s with drain := some ⟨[], 0, s.snapshotSeq, false⟩ }
  | take {dirty : Bool} {last : BufferedEvent} (hdrain : s.drain = none)
      (hlast : s.eventBuffer.getLast? = some last) :
      Step frameLen s (.take dirty)
        { s with eventBuffer := [], drain := some ⟨s.eventBuffer, 0, last.seq, false⟩ }
  | apply {d : Drain} (hdrain : s.drain = some d) (hdone : d.done < d.batch.length) :
      Step frameLen s .apply { s with drain := some { d with done := d.done + 1 } }
  | commit {d : Drain} (hdrain : s.drain = some d) (hcommitted : d.committed = false) :
      Step frameLen s .commit
        { s with
          snapshotSeq := d.maxSeq
          applied := s.applied ++ d.batch.filter fun e => !tableExcludedFromSync e.update.table
          drain := some { d with committed := true } }
  | truncate {d : Drain} (hdrain : s.drain = some d) (hcommitted : d.committed = true) :
      Step frameLen s .truncate { s with wal := s.wal.truncate d.maxSeq, drain := none }
  | crash : Step frameLen s .crash s.reboot

section Inversion

variable {frameLen : BufferedEvent → Nat} {s t : State}

/-- A call step is a step of some call at the stage asked for. -/
theorem withCall_eq_some {i : Nat} {stage : Stage} {f : Call → Option State}
    (h : s.withCall i stage f = some t) :
    ∃ e, s.calls[i]? = some ⟨e, stage⟩ ∧ f ⟨e, stage⟩ = some t := by
  unfold State.withCall at h
  obtain ⟨⟨e, st⟩, hc, hf⟩ := Option.bind_eq_some_iff.mp h
  split at hf
  next hs =>
    obtain rfl : st = stage := hs
    exact ⟨e, hc, hf⟩
  next => cases hf

theorem step_cases {a : Action} (h : s.step frameLen a = some t) : Step frameLen s a t := by
  cases a with
  | begin table operation id record receivedAt versionstamp =>
    obtain rfl := Option.some.inj h
    exact .begin _ rfl
  | log i =>
    obtain ⟨e, he, hf⟩ := withCall_eq_some h
    dsimp only at hf
    split at hf
    next wal hw =>
      obtain rfl := Option.some.inj hf
      exact .log he hw
    next =>
      obtain rfl := Option.some.inj hf
      exact .refuse he
  | push i =>
    obtain ⟨e, he, hf⟩ := withCall_eq_some h
    obtain rfl := Option.some.inj hf
    exact .push he
  | submit i =>
    obtain ⟨e, he, hf⟩ := withCall_eq_some h
    obtain rfl := Option.some.inj hf
    exact .submit he
  | take dirty =>
    unfold State.step at h
    dsimp only at h
    split at h
    next => cases h
    next hd =>
      split at h
      next hl =>
        obtain rfl := Option.some.inj h
        cases dirty with
        | false => exact .takeNothing
        | true => exact .takeDirty hd
      next last hl =>
        obtain rfl := Option.some.inj h
        exact .take hd hl
  | apply =>
    obtain ⟨d, hd, hf⟩ := Option.bind_eq_some_iff.mp h
    split at hf
    next hlt =>
      obtain rfl := Option.some.inj hf
      exact .apply hd hlt
    next => cases hf
  | commit =>
    obtain ⟨d, hd, hf⟩ := Option.bind_eq_some_iff.mp h
    split at hf
    next hc =>
      obtain rfl := Option.some.inj hf
      exact .commit hd hc.2
    next => cases hf
  | truncate =>
    obtain ⟨d, hd, hf⟩ := Option.bind_eq_some_iff.mp h
    split at hf
    next hc =>
      obtain rfl := Option.some.inj hf
      exact .truncate hd hc
    next => cases hf
  | crash =>
    obtain rfl := Option.some.inj h
    exact .crash

end Inversion

end Sp00ky.Scheduler
