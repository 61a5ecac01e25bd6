/-
  The lifecycle of a query (`packages/core/src/state/lifecycle.ts`) and the sagas that move it
  (`query/membership.saga.ts`, `query/register.saga.ts`, `boot/bucket-switch.saga.ts`).

  `transition` throws for one pair: a lost view takes no membership without its row. A saga runs up
  to its next request in one piece; a throw ends it there, and what it had not come to yet is not
  done. The tab notes what was thrown.
-/
import Sp00ky.Core.Membership
import Sp00ky.Lib.Throwing

namespace Sp00ky.Core.Sagas

open Lib Client

/-! ## The machine -/

/-- `RemotePhase`. -/
inductive RemotePhase where
  | unregistered | registering | registered | failed
deriving DecidableEq, Repr

/-- `QueryLifecycle`. -/
structure QueryLifecycle where
  phase : QueryPhase
  remote : RemotePhase
  fetchDepth : Nat
  backgroundDepth : Nat
  notified : Bool
  answered : Bool
deriving DecidableEq, Repr

/-- `LifecycleEvent`. -/
inductive LifecycleEvent where
  | seed (resolvedBefore : Bool)
  | membershipApplied (present : Bool)
  | rowMissing
  | remoteRegistering
  | remoteRegistered
  | remoteFailed
  | remoteDropped
  | fetchBegin (background : Bool)
  | fetchEnd (background : Bool)
  | notified (answered : Bool)
  | bucketSwitch (resolvedBefore : Bool)
deriving DecidableEq, Repr

/-- `LifecycleError`: the lifecycle and the event it is thrown for. -/
structure LifecycleError where
  lifecycle : QueryLifecycle
  event : LifecycleEvent
deriving DecidableEq, Repr

def seedLifecycle (resolvedBefore : Bool) : QueryLifecycle :=
  { phase := if resolvedBefore then .cached else .cold
    remote := .unregistered
    fetchDepth := 0
    backgroundDepth := 0
    notified := false
    answered := false }

def transition (l : QueryLifecycle) (ev : LifecycleEvent) : Except LifecycleError QueryLifecycle :=
  match ev with
  | .seed resolvedBefore => .ok (seedLifecycle resolvedBefore)
  | .membershipApplied present =>
    if l.phase = .viewLost ∧ present = false then .error ⟨l, ev⟩
    else .ok { l with phase := .live }
  | .rowMissing => .ok (if l.phase = .cold then l else { l with phase := .viewLost })
  | .remoteRegistering => .ok { l with remote := .registering }
  | .remoteRegistered => .ok { l with remote := .registered }
  | .remoteFailed => .ok { l with remote := .failed }
  | .remoteDropped => .ok { l with remote := .unregistered, notified := false }
  | .fetchBegin background => .ok { l with
      fetchDepth := l.fetchDepth + 1
      backgroundDepth := l.backgroundDepth + if background then 1 else 0 }
  | .fetchEnd background =>
    if l.fetchDepth = 0 then .ok l
    else .ok { l with
      fetchDepth := l.fetchDepth - 1
      backgroundDepth := min (l.fetchDepth - 1)
        (l.backgroundDepth - if background ∧ 0 < l.backgroundDepth then 1 else 0) }
  | .notified answered =>
    .ok { l with notified := true, answered := l.answered || answered && l.phase ≠ .cold }
  | .bucketSwitch resolvedBefore => .ok { seedLifecycle resolvedBefore with fetchDepth := 0 }

/-- `transition` throws for a membership without its row while the view is lost, and for nothing
else. -/
theorem transition_error_iff (l : QueryLifecycle) (ev : LifecycleEvent) :
    (∃ e, transition l ev = .error e) ↔ l.phase = .viewLost ∧ ev = .membershipApplied false := by
  cases ev with
  | membershipApplied present =>
    simp only [transition]
    by_cases h : l.phase = .viewLost ∧ present = false
    · rw [if_pos h]
      exact ⟨fun _ => ⟨h.1, by rw [h.2]⟩, fun _ => ⟨_, rfl⟩⟩
    · rw [if_neg h]
      refine ⟨fun ⟨_, he⟩ => (nomatch he), ?_⟩
      rintro ⟨hl, hp⟩
      exact absurd ⟨hl, by simpa using hp⟩ h
  | fetchEnd background =>
    simp only [transition]
    split <;> simp
  | _ => simp [transition]

/-! ## The state of a tab -/

/-- A query: the id its row has on the server, and what it knows. -/
structure QueryEntry where
  id : String
  lifecycle : QueryLifecycle
  remoteArray : RecordVersionArray
  serverState : Option ServerViewState
  registerAttempts : Nat
  viewLostCount : Nat
  viewLostRetryAt : Option Nat
  -- Its text or plan has a limit.
  limited : Bool
deriving DecidableEq, Repr

/-- `DurableView`. -/
structure DurableView where
  ids : RecordVersionArray
  confirmed : Bool
deriving DecidableEq, Repr

def isResolvedBefore : Option DurableView → Bool
  | none => false
  | some view => !view.ids.isEmpty || view.confirmed

/-- A query as it is seeded from its durable view. -/
def seedEntry (id : String) (limited : Bool) (view : Option DurableView) : QueryEntry :=
  { id
    lifecycle := seedLifecycle (isResolvedBefore view)
    remoteArray := (view.map (·.ids)).getD []
    serverState := none
    registerAttempts := 0
    viewLostCount := 0
    viewLostRetryAt := none
    limited }

/-- A query that a read asks for, as it was when the read was sent. -/
structure Asked where
  hash : String
  id : String
  before : RecordVersionArray
deriving DecidableEq, Repr

/-- `readMembership`, by the request it is waiting for, or with what it has still to apply. -/
inductive Read where
  | sent (chunks : List (List Asked))
  | again (snapshots : List (Asked × ListRefSnapshot)) (rereads : List Asked)
  | apply (snapshots : List (Asked × ListRefSnapshot))

/-- `registerRemote`: what it sent, and whether its answer has been applied. -/
structure Registration where
  hash : String
  id : String
  background : Bool
  applied : Bool
deriving DecidableEq, Repr

/-- The queries, the sagas underway, and what `transition` has thrown. -/
structure Tab where
  queries : List (String × QueryEntry)
  reads : List Read
  registrations : List Registration
  thrown : List LifecycleError

/-- A saga, up to its next request. -/
abbrev Saga := Throwing LifecycleError Tab

namespace Tab

def fresh : Tab := ⟨[], [], [], []⟩

def query (s : Tab) (hash : String) : Option QueryEntry := EntryMap.get s.queries hash

/-- `withEntry`. -/
def withEntry (s : Tab) (hash : String) (f : QueryEntry → QueryEntry) : Tab :=
  match s.query hash with
  | none => s
  | some entry => { s with queries := EntryMap.set s.queries hash (f entry) }

end Tab

/-! ## Sagas -/

/-- `state.update` with a reducer of one entry. -/
def update (hash : String) (f : QueryEntry → QueryEntry) : Saga Unit :=
  modify fun s => s.withEntry hash f

def applyLifecycle (hash : String) (ev : LifecycleEvent) : Saga Unit := do
  match (← get).query hash with
  | none => pure ()
  | some entry =>
    match transition entry.lifecycle ev with
    | .ok lifecycle => update hash fun e => { e with lifecycle }
    | .error e =>
      modify fun s => { s with thrown := s.thrown ++ [e] }
      throw e

def commitMembership (hash : String) (remoteArray : RecordVersionArray) (present : Bool) :
    Saga Unit := do
  applyLifecycle hash (.membershipApplied present)
  update hash fun e => { e with remoteArray }

/-- `applyLifecycle`, under a condition. -/
def applyLifecycleIf (c : Bool) (hash : String) (ev : LifecycleEvent) : Saga Unit :=
  if c then applyLifecycle hash ev else pure ()

/-- The row is read as gone. -/
def loseView (hash : String) (entry : QueryEntry) (now : Nat) : Saga Unit := do
  applyLifecycleIf (entry.lifecycle.phase ≠ .viewLost) hash .rowMissing
  if entry.viewLostRetryAt.isSome then pure ()
  else if entry.viewLostCount = 0 then
    update hash fun e => { e with viewLostCount := 1, viewLostRetryAt := none }
    applyLifecycleIf (entry.lifecycle.remote ≠ .unregistered) hash .remoteDropped
  else
    update hash fun e => { e with
      viewLostCount := entry.viewLostCount + 1
      viewLostRetryAt := some (now + viewLostDelay (entry.viewLostCount - 1)) }

/-- `setServerState` and `setViewLost`: a row that is there ends the pacing. -/
def noteMeta (hash : String) (rowMeta : Option ServerViewMeta) : Saga Unit :=
  match rowMeta with
  | none => pure ()
  | some m => update hash fun e =>
      if m.present then
        { e with serverState := m.serverState, viewLostCount := 0, viewLostRetryAt := none }
      else { e with serverState := m.serverState }

def applyMembership (hash : String) (remoteArray : RecordVersionArray)
    (rowMeta : Option ServerViewMeta) (now : Nat) : Saga Unit := do
  match (← get).query hash with
  | none => pure ()
  | some entry =>
    noteMeta hash rowMeta
    match decideMembershipOutcome entry.lifecycle.phase entry.remoteArray.length remoteArray
        rowMeta with
    | .ignored => pure ()
    | .viewLost => loseView hash entry now
    | .applied => commitMembership hash remoteArray (rowMeta.all (·.present))

/-- `applyEdgeDeltas`, of one query. -/
def applyEdgeDeltas (hash : String) (deltas : RecordVersionArray) (now : Nat) : Saga Unit := do
  match (← get).query hash with
  | none => pure ()
  | some entry =>
    if entry.lifecycle.phase ≠ .live ∨ entry.serverState = some .materializing ∨
        entry.viewLostRetryAt.isSome then pure ()
    else if entry.limited ∧ ¬ ∀ d ∈ deltas, Names entry.remoteArray d.1 then pure ()
    else if withDeltas entry.remoteArray deltas = entry.remoteArray then pure ()
    else applyMembership hash (withDeltas entry.remoteArray deltas) none now

def recoverLostView (hash : String) : Saga Unit := do
  match (← get).query hash with
  | none => pure ()
  | some entry =>
    if entry.viewLostRetryAt.isNone then pure ()
    else
      update hash fun e => { e with viewLostRetryAt := none }
      applyLifecycleIf (entry.lifecycle.phase = .viewLost ∧ entry.lifecycle.remote ≠ .unregistered)
        hash .remoteDropped

/-! ## Reads -/

/-- What a statement answers: `FAILED` is apart from `null`. -/
inductive Answer (α : Type) where
  | rows (rows : α)
  | null
  | failed

/-- A `_00_query` row, as the row-count selects return it. -/
structure QueryMetaRow where
  id : Option String
  rowCount : Option Nat
  state : Option String

/-- A row of `_00_list_ref`, of many queries. -/
structure ListRefEdgeRow where
  query : String
  record : String
  version : Nat
  isChild : Bool

def metaFromRow (row : QueryMetaRow) : ServerViewMeta :=
  { present := true
    rowCount := row.rowCount
    state := if row.state = some "materializing" then some .materializing
      else if row.state = some "ready" then some .ready else none }

/-- No such row. -/
def noRow : ServerViewMeta := ⟨false, none, none⟩

def dedupeRecordVersions (pairs : RecordVersionArray) : RecordVersionArray :=
  let best := EntryMap.setWhere (fun _ => above) [] pairs
  if pairs.length < 2 ∨ best.length = pairs.length then pairs else best

/-- The statements of a single query. -/
structure SingleAnswer where
  items : Answer RecordVersionArray
  metaRow : Answer QueryMetaRow
  children : Answer RecordVersionArray

def snapshotFromSingle (answer : SingleAnswer) : Option ListRefSnapshot :=
  match answer.items, answer.metaRow, answer.children with
  | .rows _, .failed, _ | .rows _, _, .failed => none
  | .rows items, .null, _ => some ⟨dedupeRecordVersions items, noRow⟩
  | .rows items, .rows row, _ => some ⟨dedupeRecordVersions items, metaFromRow row⟩
  | _, _, _ => none

/-- The statements of many queries. -/
structure BatchAnswer where
  edges : Answer (List ListRefEdgeRow)
  counts : Answer (List (Option QueryMetaRow))

/-- The snapshot of one query of a batch: its own edges, and the last row that is its. -/
def batchSnapshot (hashById : List (String × String)) (edges : List ListRefEdgeRow)
    (counts : List (Option QueryMetaRow)) (hash : String) : ListRefSnapshot :=
  { primary := dedupeRecordVersions ((edges.filter fun row =>
      EntryMap.get hashById row.query = some hash && !row.isChild).map
        fun row => (row.record, row.version))
    rowMeta := ((counts.filterMap fun row => row.filter fun row =>
      row.id.any fun id => EntryMap.get hashById id = some hash).getLast?.map metaFromRow).getD
        noRow }

/-- `snapshotsFromBatch`; `none` when a statement did not answer. -/
def snapshotsFromBatch (chunk : List Asked) (answer : BatchAnswer) :
    Option (List (Asked × ListRefSnapshot)) :=
  let hashById := EntryMap.ofPairs (chunk.map fun a => (a.id, a.hash))
  match answer.edges, answer.counts with
  | .rows _, .failed => none
  | .rows edges, .null => some (chunk.map fun a => (a, batchSnapshot hashById edges [] a.hash))
  | .rows edges, .rows counts =>
    some (chunk.map fun a => (a, batchSnapshot hashById edges counts a.hash))
  | _, _ => none

/-- `suspectHashes`, of one query: it holds rows and its row did not come back, or no edge did. -/
def suspect (edgeCount : Nat) (e : Asked × ListRefSnapshot) : Bool :=
  !e.1.before.isEmpty && (!e.2.rowMeta.present ||
    (edgeCount = 0 && decide (0 < e.2.rowMeta.rowCount.getD 0)))

def Answer.length {α : Type} : Answer (List α) → Nat
  | .rows items => items.length
  | _ => 0

/-- What the request of a chunk brings; `failed` when it does not answer. -/
inductive ChunkAnswer where
  | failed
  | single (answer : SingleAnswer)
  | batch (answer : BatchAnswer)

/-- What a chunk's answer gives to apply, and what is read again. -/
def takeChunk : List Asked → ChunkAnswer → List (Asked × ListRefSnapshot) × List Asked
  | [a], .single answer => (((snapshotFromSingle answer).map fun snap => (a, snap)).toList, [])
  | chunk, .batch answer =>
    let snapshots := (snapshotsFromBatch chunk answer).getD []
    (snapshots.filter fun e => !suspect answer.edges.length e,
      (snapshots.filter (suspect answer.edges.length)).map (·.1))
  | _, _ => ([], [])

/-- `readMembership`, as the answers of its chunks come. -/
def takeChunks (chunks : List (List Asked)) (answers : List ChunkAnswer) : Read :=
  let taken := (chunks.zip answers).map fun e => takeChunk e.1 e.2
  let snapshots := taken.flatMap (·.1)
  match taken.flatMap (·.2) with
  | [] => .apply snapshots
  | rereads => .again snapshots rereads

/-- `readMembership`, as what it reads again is answered. -/
def takeRereads (snapshots : List (Asked × ListRefSnapshot)) (rereads : List Asked)
    (answers : List (Option SingleAnswer)) : Read :=
  .apply (snapshots ++ (rereads.zip answers).filterMap fun e =>
    (e.2.bind snapshotFromSingle).map fun snap => (e.1, snap))

/-- The set or the row is not what the query has, or the query knows of no set of the server. -/
def isNews (current : QueryEntry) (primary : RecordVersionArray) (rowMeta : ServerViewMeta) :
    Bool :=
  !recordVersionArraysEqual primary current.remoteArray ||
    decide (current.serverState ≠ rowMeta.serverState) ||
    decide (current.lifecycle.phase = .cold) || decide (current.lifecycle.phase = .cached)

/-- `readMembership`, of one snapshot. -/
def takeSnapshot (a : Asked) (snap : ListRefSnapshot) (now : Nat) : Saga Unit := do
  match (← get).query a.hash with
  | none => pure ()
  | some current =>
    let primary := rebaseRead snap.primary a.before current.remoteArray
    if isNews current primary snap.rowMeta then
      applyMembership a.hash primary (some snap.rowMeta) now
    else pure ()

/-! ## Registrations -/

/-- What the request of a registration brings. -/
inductive RegisterAnswer where
  /-- The request or `fn::query::register` failed. -/
  | refused (notAllowlisted : Bool)
  | readBack (answer : SingleAnswer)

/-- `REGISTER_MAX_RETRIES`. -/
def registerMaxRetries : Nat := 3

/-- The `catch` and `finally` of `registerRemote`. -/
def registerFailed (r : Registration) (notAllowlisted : Bool) : Saga Unit := do
  match (← get).query r.hash with
  | none => pure ()
  | some current =>
    -- Another id: the registration hands off, and its begin is not in the new lifecycle.
    if current.id ≠ r.id then pure ()
    else if notAllowlisted then
      applyLifecycle r.hash .remoteFailed
      applyLifecycle r.hash (.fetchEnd r.background)
    else
      update r.hash fun e => { e with registerAttempts := current.registerAttempts + 1 }
      applyLifecycleIf (registerMaxRetries ≤ current.registerAttempts + 1) r.hash .remoteFailed
      applyLifecycle r.hash (.fetchEnd r.background)

/-- The end of `registerRemote`. -/
def registerDone (r : Registration) : Saga Unit := do
  applyLifecycle r.hash .remoteRegistered
  update r.hash fun e => { e with registerAttempts := 0 }
  applyLifecycle r.hash (.fetchEnd r.background)

/-- `registerRemote`, as what it reads back is applied: whether it goes on to the children. -/
def readBack (r : Registration) (snap : ListRefSnapshot) (now : Nat) : Saga Bool :=
  tryCatch
    (do
      applyMembership r.hash snap.primary (some snap.rowMeta) now
      pure true)
    fun _ => do
      registerFailed r false
      pure false

/-- `registerRemote`, as its answer comes. -/
def registerAnswered (r : Registration) (answer : RegisterAnswer) (now : Nat) : Saga Bool := do
  match (← get).query r.hash with
  | none => pure false
  | some answered =>
    if answered.id ≠ r.id then pure false
    else
      match answer with
      | .refused notAllowlisted =>
        registerFailed r notAllowlisted
        pure false
      | .readBack statements =>
        match snapshotFromSingle statements with
        | none =>
          registerDone r
          pure false
        | some snap => readBack r snap now

/-- The begin of `registerRemote`. -/
def registerBegin (hash : String) (background : Bool) : Saga Unit := do
  applyLifecycle hash .remoteRegistering
  applyLifecycle hash (.fetchBegin background)

/-! ## Runs -/

/-- The sagas that only report: a reconnect, a heartbeat or self-heal drops a registration; bodies
are fetched; `materialize` paints. -/
inductive Report where
  | dropped
  | fetchBegin
  | fetchEnd
  | painted (answered : Bool)

def Report.event : Report → LifecycleEvent
  | .dropped => .remoteDropped
  | .fetchBegin => .fetchBegin false
  | .fetchEnd => .fetchEnd false
  | .painted answered => .notified answered

inductive TabEvent where
  /-- `putQuery`. -/
  | declare (hash id : String) (limited : Bool) (view : Option DurableView)
  /-- `removeQuery`. -/
  | evict (hash : String)
  /-- `rebindQuery`, of a bucket switch. -/
  | rebind (hash id : String) (view : Option DurableView)
  | report (hash : String) (report : Report)
  | recover (hash : String)
  | deltas (hash : String) (deltas : RecordVersionArray) (now : Nat)
  | register (hash : String) (retry : Bool)
  | registerAnswer (i : Nat) (answer : RegisterAnswer) (now : Nat)
  | registerDone (i : Nat)
  | read (chunks : List (List String))
  | readAnswer (i : Nat) (answers : List ChunkAnswer)
  | rereadAnswer (i : Nat) (answers : List (Option SingleAnswer))
  | applySnapshot (i : Nat) (now : Nat)

namespace Tab

def putQuery (s : Tab) (hash : String) (entry : QueryEntry) : Tab :=
  { s with queries := EntryMap.set s.queries hash entry }

/-- What a read of the hash would ask for. -/
def asked (s : Tab) (hash : String) : Option Asked :=
  (s.query hash).map fun e => ⟨hash, e.id, e.remoteArray⟩

/-- `registerRemote` starts: not what is registered or has failed, and what is registering only as
a retry. -/
def beginRegistration (s : Tab) (hash : String) (retry : Bool) : Tab :=
  match s.query hash with
  | none => s
  | some entry =>
    if entry.lifecycle.remote = .registered ∨ entry.lifecycle.remote = .failed ∨
        (entry.lifecycle.remote = .registering ∧ retry = false) then s
    else
      let background := decide (entry.lifecycle.phase ≠ .cold)
      let begun := (registerBegin hash background).left s
      { begun with registrations := begun.registrations ++ [⟨hash, entry.id, background, false⟩] }

/-- A registration goes on as its answer comes. -/
def answerRegistration (s : Tab) (i : Nat) (r : Registration) (answer : RegisterAnswer)
    (now : Nat) : Tab :=
  let taken := (registerAnswered r answer now).exec s
  match taken.1 with
  | .ok true =>
    { taken.2 with registrations := taken.2.registrations.set i { r with applied := true } }
  | _ => { taken.2 with registrations := taken.2.registrations.eraseIdx i }

/-- A read goes on to its next snapshot; a throw ends it. -/
def applyNext (s : Tab) (i : Nat) (a : Asked) (snap : ListRefSnapshot)
    (rest : List (Asked × ListRefSnapshot)) (now : Nat) : Tab :=
  let taken := (takeSnapshot a snap now).exec s
  match taken.1 with
  | .ok () => { taken.2 with reads := taken.2.reads.set i (.apply rest) }
  | .error _ => { taken.2 with reads := taken.2.reads.eraseIdx i }

def step (s : Tab) : TabEvent → Option Tab
  | .declare hash id limited view =>
    if (s.query hash).isSome then none else some (s.putQuery hash (seedEntry id limited view))
  | .evict hash => some { s with queries := EntryMap.delete s.queries hash }
  | .rebind hash id view => some (s.withEntry hash fun e => seedEntry id e.limited view)
  | .report hash report => some ((applyLifecycle hash report.event).left s)
  | .recover hash => some ((recoverLostView hash).left s)
  | .deltas hash deltas now => some ((applyEdgeDeltas hash deltas now).left s)
  | .register hash retry => some (s.beginRegistration hash retry)
  | .registerAnswer i answer now =>
    match s.registrations[i]? with
    | some r => if r.applied then none else some (s.answerRegistration i r answer now)
    | none => none
  | .registerDone i =>
    match s.registrations[i]? with
    | some r =>
      if r.applied then
        let done := (Sagas.registerDone r).left s
        some { done with registrations := done.registrations.eraseIdx i }
      else none
    | none => none
  | .read chunks =>
    some { s with reads := s.reads ++ [.sent (chunks.map fun chunk => chunk.filterMap s.asked)] }
  | .readAnswer i answers =>
    match s.reads[i]? with
    | some (.sent chunks) => some { s with reads := s.reads.set i (takeChunks chunks answers) }
    | _ => none
  | .rereadAnswer i answers =>
    match s.reads[i]? with
    | some (.again snapshots rereads) =>
      some { s with reads := s.reads.set i (takeRereads snapshots rereads answers) }
    | _ => none
  | .applySnapshot i now =>
    match s.reads[i]? with
    | some (.apply ((a, snap) :: rest)) => some (s.applyNext i a snap rest now)
    | some (.apply []) => some { s with reads := s.reads.eraseIdx i }
    | _ => none

end Tab

end Sp00ky.Core.Sagas
