/-
  The membership of a query (`packages/core/src/query/membership.ts`, `membership.saga.ts`).

  A read answers for a past moment, so what has changed in the tab since it was sent is carried over
  onto it; the deltas of the live table only ever add and raise. A registration reads the same edges
  and applies them as they are (`register.saga.ts`).
-/
import Sp00ky.Core.ClientState
import Sp00ky.Lib.EntryMap
import Sp00ky.Lib.Transition

namespace Sp00ky.Core.Client

open Lib

/-! ## Functions -/

/-- `ServerViewState`. -/
inductive ServerViewState where
  | materializing | ready
deriving DecidableEq, Repr

/-- `ServerViewMeta`. -/
structure ServerViewMeta where
  present : Bool
  rowCount : Option Nat
  state : Option ServerViewState
deriving DecidableEq, Repr

/-- The state of a row that is there. -/
def ServerViewMeta.serverState (m : ServerViewMeta) : Option ServerViewState :=
  if m.present then m.state else none

inductive MembershipOutcome where
  | applied | ignored | viewLost
deriving DecidableEq, Repr

/-- No verified removal: no caller passes one. -/
def decideMembershipOutcome (phase : QueryPhase) (held : Nat) (remoteArray : RecordVersionArray)
    (rowMeta : Option ServerViewMeta) : MembershipOutcome :=
  if !remoteArray.isEmpty then .applied
  else match rowMeta.filter (·.present) with
    | none => if 0 < held ∨ phase ≠ .cold then .viewLost else .ignored
    | some m =>
      if m.rowCount = some 0 ∧ m.state ≠ some .materializing then .applied else .ignored

/-- The version is above what is there. -/
def above (old : Option Nat) (version : Nat) : Bool := old.all (· < version)

def withDeltas (held deltas : RecordVersionArray) : RecordVersionArray :=
  let next := EntryMap.setWhere (fun _ => above) (EntryMap.ofPairs held) deltas
  if next = EntryMap.ofPairs held then held else next

def rebaseRead (read before now : RecordVersionArray) : RecordVersionArray :=
  if before = now then read
  else
    let was := EntryMap.ofPairs before
    let is := EntryMap.ofPairs now
    let out := before.foldl
      (fun out e => if (EntryMap.get is e.1).isSome then out else EntryMap.delete out e.1)
      (EntryMap.ofPairs read)
    EntryMap.setWhere (fun id old v => above (EntryMap.get was id) v && above old v) out now

def recordVersionArraysEqual (a b : RecordVersionArray) : Bool :=
  a.length = b.length && b.all fun e => EntryMap.get (EntryMap.ofPairs a) e.1 = some e.2

/-! ## A query in the tab -/

/-- What of a query its membership depends on. -/
structure Watch where
  phase : QueryPhase
  serverState : Option ServerViewState
  viewLostCount : Nat
  viewLostRetryAt : Option Nat
  remoteArray : RecordVersionArray
deriving DecidableEq, Repr

/-- `backoffMs`, of a lost view. -/
def viewLostDelay (attempt : Nat) : Nat := min 30000 (1000 * 2 ^ min attempt 30)

namespace Watch

/-- `commitMembership`: a view that is lost takes only a row that is there. -/
def commitMembership (w : Watch) (remoteArray : RecordVersionArray) (present : Bool) : Watch :=
  if w.phase = .viewLost ∧ present = false then w else { w with remoteArray, phase := .live }

/-- The row is read as gone: the view is lost, and registered again, at once or after a delay. -/
def loseView (w entry : Watch) (now : Nat) : Watch :=
  let lost := { w with phase := if w.phase = .cold then .cold else .viewLost }
  if entry.viewLostRetryAt.isSome then lost
  else if entry.viewLostCount = 0 then { lost with viewLostCount := 1, viewLostRetryAt := none }
  else { lost with
    viewLostCount := entry.viewLostCount + 1
    viewLostRetryAt := some (now + viewLostDelay (entry.viewLostCount - 1)) }

/-- What the row says is noted first. -/
def noteMeta (w : Watch) : Option ServerViewMeta → Watch
  | none => w
  | some m =>
    let noted := { w with serverState := m.serverState }
    if m.present then { noted with viewLostCount := 0, viewLostRetryAt := none } else noted

/-- `applyMembership`. -/
def applyMembership (w : Watch) (remoteArray : RecordVersionArray) (rowMeta : Option ServerViewMeta)
    (now : Nat) : Watch :=
  match decideMembershipOutcome w.phase w.remoteArray.length remoteArray rowMeta with
  | .ignored => w.noteMeta rowMeta
  | .viewLost => (w.noteMeta rowMeta).loseView w now
  | .applied => (w.noteMeta rowMeta).commitMembership remoteArray (rowMeta.all (·.present))

/-- `applyEdgeDeltas`, for the query; a limited query takes no id that it does not hold. -/
def applyEdgeDeltas (limited : Bool) (deltas : RecordVersionArray) (now : Nat) (w : Watch) : Watch :=
  if deltas.isEmpty ∨ w.phase ≠ .live ∨ w.serverState = some .materializing ∨
      w.viewLostRetryAt.isSome then w
  else if limited ∧ ¬ ∀ d ∈ deltas, Names w.remoteArray d.1 then w
  else if withDeltas w.remoteArray deltas = w.remoteArray then w
  else w.applyMembership (withDeltas w.remoteArray deltas) none now

/-- `recoverLostView`. -/
def recoverLostView (w : Watch) : Watch := { w with viewLostRetryAt := none }

end Watch

/-- What a read brings: the edges and the row. -/
structure ListRefSnapshot where
  primary : RecordVersionArray
  rowMeta : ServerViewMeta

/-- `readMembership`, as a read's answer comes: `before` is the membership as it was sent. -/
def Watch.takeRead (w : Watch) (before : RecordVersionArray) (snap : ListRefSnapshot) (now : Nat) :
    Watch :=
  let primary := rebaseRead snap.primary before w.remoteArray
  if !recordVersionArraysEqual primary w.remoteArray ∨
      w.serverState ≠ snap.rowMeta.serverState ∨
      w.phase = .cold ∨ w.phase = .cached then
    w.applyMembership primary (some snap.rowMeta) now
  else w

/-- `registerRemote`, as the answer of a registration comes. -/
def Watch.takeRegistration (w : Watch) (snap : ListRefSnapshot) (now : Nat) : Watch :=
  w.applyMembership snap.primary (some snap.rowMeta) now

/-! ## Runs -/

/-- A read or a registration underway. It is noted which ids a delta has added since it was sent. -/
structure ReadUnderway where
  before : RecordVersionArray
  registers : Bool
  snap : Option ListRefSnapshot
  joined : List String

/-- The query, the server's edges, every edge there has been, and the reads underway. -/
structure Membership where
  tab : Watch
  server : RecordVersionArray
  named : RecordVersionArray
  reads : List ReadUnderway

inductive MembershipEvent where
  /-- The server's edges change. -/
  | serverSet (rows : RecordVersionArray)
  /-- Notifications come in, of edges there have been. -/
  | live (deltas : RecordVersionArray) (now : Nat)
  | recover
  | send (registers : Bool)
  /-- The server runs a request. -/
  | serve (i : Nat) (rowMeta : ServerViewMeta)
  | answer (i : Nat) (now : Nat)
  | fail (i : Nat)

namespace Membership

/-- The tab moves on; an id that was added counts for the reads underway while it is there. -/
def withTab (w : Membership) (tab : Watch) (added : List String) : Membership :=
  { w with
    tab
    reads := w.reads.map fun r =>
      { r with joined := (r.joined ++ added).filter fun id => Names tab.remoteArray id } }

/-- The ids of deltas that were not there before. -/
def added (old : RecordVersionArray) (deltas : RecordVersionArray) : List String :=
  (deltas.map (·.1)).filter fun id => !decide (Names old id)

/-- What an answer leaves in the tab. -/
def answered (w : Membership) (r : ReadUnderway) (snap : ListRefSnapshot) (now : Nat) : Watch :=
  if r.registers then w.tab.takeRegistration snap now else w.tab.takeRead r.before snap now

def step (limited : Bool) (w : Membership) : MembershipEvent → Option Membership
  | .serverSet rows =>
    if EntryMap.Keyed rows then some { w with server := rows, named := w.named ++ rows } else none
  | .live deltas now =>
    if ∀ d ∈ deltas, d ∈ w.named then
      some (w.withTab (w.tab.applyEdgeDeltas limited deltas now) (added w.tab.remoteArray deltas))
    else none
  | .recover => some { w with tab := w.tab.recoverLostView }
  | .send registers =>
    some { w with reads := w.reads ++ [⟨w.tab.remoteArray, registers, none, []⟩] }
  | .serve i rowMeta =>
    match w.reads[i]? with
    | some r =>
      if r.snap.isNone then
        some { w with reads := w.reads.set i { r with snap := some ⟨w.server, rowMeta⟩ } }
      else none
    | none => none
  | .answer i now =>
    match w.reads[i]? with
    | some r =>
      match r.snap with
      | some snap =>
        some ({ w with reads := w.reads.eraseIdx i }.withTab (w.answered r snap now) [])
      | none => none
    | none => none
  | .fail i => some { w with reads := w.reads.eraseIdx i }

/-- What an answer takes is no older than what the tab has come to hold since. -/
def fresh (w : Membership) (r : ReadUnderway) (snap : ListRefSnapshot) : Bool :=
  -- A registration is not rebased: it is to name what is held as a rebased read would.
  (!r.registers || w.tab.remoteArray.all fun e =>
    EntryMap.get (rebaseRead snap.primary r.before w.tab.remoteArray) e.1 =
      EntryMap.get snap.primary e.1) &&
  -- An id that was held as the read was sent, and was added again since at no higher version, is
  -- in the answer.
  r.joined.all fun id =>
    (EntryMap.get w.tab.remoteArray id).any (above (EntryMap.get r.before id)) ||
      decide (Names snap.primary id)

/-- The versions the server names do not go back, and answers are fresh. -/
def timely (w : Membership) : MembershipEvent → Bool
  | .serverSet rows => rows.all fun e => w.named.all fun n => n.1 ≠ e.1 || n.2 ≤ e.2
  | .answer i _ =>
    match w.reads[i]? with
    | some r => r.snap.all (w.fresh r)
    | none => true
  | _ => true

end Membership

end Sp00ky.Core.Client
