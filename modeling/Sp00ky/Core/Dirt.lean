/-
  The render inputs of a query and the mark that asks for a render
  (`packages/core/src/state/reducers.ts`, `state/selectors.ts`, `query/render-set.ts`).

  A query renders from its membership and from the overlay of the outbox and the channel peers. A
  reducer that moves either marks the queries it concerns dirty (`run_accounted`): a commit its own
  query, an outbox or peer change every query on the table of the write. One change slips through:
  a commit also releases acknowledged writes its set names, and other queries on that table are
  not marked.
-/
import Sp00ky.Core.Lifecycle

namespace Sp00ky.Core.Screen

open Client (RecordVersionArray MutationEventType QueryPhase firsts sortsBefore)
open Function (update update_apply update_of_ne update_self)
open Sagas (QueryLifecycle LifecycleEvent transition seedLifecycle)

/-! ## State -/

/-- A query. `arrayRef` tells the array objects behind `remoteArray` apart: every set that is
    accepted is an object of its own. -/
structure QueryEntry (Row : Type) where
  tableName : String
  isWindow : Bool
  hasExplicitOrder : Bool
  lifecycle : QueryLifecycle
  remoteArray : RecordVersionArray
  arrayRef : Nat
  localArray : RecordVersionArray
  subqueryRemoteArray : RecordVersionArray
  records : List Row

/-- The mirror of a row of `_00_pending_mutations`; acknowledged ones say when. -/
structure OutboxItem where
  id : String
  type : MutationEventType
  recordId : String
  table : String
  ackedAt : Option Nat
deriving DecidableEq

/-- `PeerWrite`: a create or a delete of a channel peer. -/
structure PeerWrite where
  isDelete : Bool
  table : String
deriving DecidableEq

structure ClientState (Row : Type) where
  queries : String → Option (QueryEntry Row)
  versions : String → Option Nat
  outbox : List OutboxItem
  peerWrites : String → Option PeerWrite
  dirty : String → Bool

/-- What `overlay` is derived from. -/
structure Overlay where
  outbox : List OutboxItem
  peerWrites : String → Option PeerWrite

namespace Overlay

/-- A write of the record, of a table's, stands in the overlay; `deletes` says of which kind. -/
def holds (ov : Overlay) (deletes : Bool) (table id : String) : Bool :=
  ov.outbox.any (fun i => decide (i.table = table ∧ i.recordId = id) &&
    (decide (i.type = .delete) == deletes)) ||
  (ov.peerWrites id).any fun w => decide (w.table = table) && (w.isDelete == deletes)

/-- `overlay.writes`. -/
def writes (ov : Overlay) (id : String) : Bool :=
  ov.outbox.any (fun i => decide (i.recordId = id) && decide (i.type ≠ .delete)) ||
  (ov.peerWrites id).any fun w => !w.isDelete

/-- `overlay.deletes`. -/
def deletes (ov : Overlay) (id : String) : Bool :=
  ov.outbox.any (fun i => decide (i.recordId = id) && decide (i.type = .delete)) ||
  (ov.peerWrites id).any fun w => w.isDelete

/-- Two overlays hold the same writes of a table's records. -/
def AgreesOn (table : String) (a b : Overlay) : Prop :=
  ∀ deletes id, a.holds deletes table id = b.holds deletes table id

theorem AgreesOn.refl (table : String) (a : Overlay) : AgreesOn table a a := fun _ _ => rfl

theorem AgreesOn.trans {table : String} {a b c : Overlay} (h : AgreesOn table a b)
    (h' : AgreesOn table b c) : AgreesOn table a c := fun d id => (h d id).trans (h' d id)

end Overlay

namespace ClientState

variable {Row : Type}

def empty : ClientState Row := ⟨fun _ => none, fun _ => none, [], fun _ => none, fun _ => false⟩

/-- `overlay`. -/
def overlay (s : ClientState Row) : Overlay := ⟨s.outbox, s.peerWrites⟩

/-- `withEntry`. -/
def withEntry (s : ClientState Row) (hash : String) (f : QueryEntry Row → QueryEntry Row) :
    ClientState Row :=
  match s.queries hash with
  | none => s
  | some e => { s with queries := update s.queries hash (some (f e)) }

/-- `hasServerMembership`. -/
def hasServerMembership (l : QueryLifecycle) : Bool := l.phase = .live || l.phase = .viewLost

/-- `pendingDeleteIds`. -/
def pendingDelete (s : ClientState Row) (id : String) : Bool :=
  s.outbox.any fun i => decide (i.type = .delete ∧ i.recordId = id)

/-- The body is missing or older: `(versions.get(id) ?? -1) < v`. -/
def lacks (s : ClientState Row) (id : String) (v : Nat) : Bool :=
  match s.versions id with
  | none => true
  | some held => decide (held < v)

/-- `needed`. -/
def needed (s : ClientState Row) (hash : String) : RecordVersionArray :=
  match s.queries hash with
  | none => []
  | some e =>
    if hasServerMembership e.lifecycle then
      e.remoteArray.filter fun row => !s.pendingDelete row.1 && s.lacks row.1 row.2
    else []

/-- `settled`. -/
def settled (s : ClientState Row) (hash : String) : Bool :=
  match s.queries hash with
  | none => false
  | some e =>
    decide (e.lifecycle.phase = .live) && (s.needed hash).isEmpty && !s.dirty hash &&
      e.lifecycle.notified

/-! ## Reducers -/

/-- `markDirty`. -/
def markDirty (hashes : List String) (s : ClientState Row) : ClientState Row :=
  { s with dirty := fun h => s.dirty h || decide (h ∈ hashes) }

/-- `hashesForTable`. -/
def onTable (s : ClientState Row) (table hash : String) : Bool :=
  (s.queries hash).any fun e => decide (e.tableName = table)

/-- `markTableDirty`, of some tables. -/
def markTables (tables : List String) (s : ClientState Row) : ClientState Row :=
  { s with dirty := fun h => s.dirty h || tables.any fun t => s.onTable t h }

def clearDirty (hash : String) (s : ClientState Row) : ClientState Row :=
  { s with dirty := update s.dirty hash false }

def putQuery (hash : String) (entry : QueryEntry Row) (s : ClientState Row) : ClientState Row :=
  { s with
    queries := update s.queries hash (some entry)
    dirty := update s.dirty hash true }

def removeQuery (hash : String) (s : ClientState Row) : ClientState Row :=
  { s with
    queries := update s.queries hash none
    dirty := update s.dirty hash false }

/-- `applyLifecycle`; `none` where `transition` throws. -/
def applyLifecycle (hash : String) (ev : LifecycleEvent) (s : ClientState Row) :
    Option (ClientState Row) :=
  match s.queries hash with
  | none => some s
  | some e =>
    match transition e.lifecycle ev with
    | .error _ => none
    | .ok lifecycle => some (s.withEntry hash fun e => { e with lifecycle })

/-- An acknowledged item that a set names. -/
def released (remoteArray : RecordVersionArray) (i : OutboxItem) : Bool :=
  i.ackedAt.isSome && decide (Client.Names remoteArray i.recordId)

/-- `commitMembership`. -/
def commitMembership (hash : String) (remoteArray : RecordVersionArray) (arrayRef : Nat)
    (present : Bool) (s : ClientState Row) : Option (ClientState Row) :=
  match s.queries hash with
  | none => some s
  | some e =>
    match transition e.lifecycle (.membershipApplied present) with
    | .error _ => none
    | .ok lifecycle => some { s with
        queries := update s.queries hash (some { e with remoteArray, arrayRef, lifecycle })
        outbox := s.outbox.filter fun i => !released remoteArray i
        dirty := update s.dirty hash true }

def setLocalArray (hash : String) (localArray : RecordVersionArray) (s : ClientState Row) :
    ClientState Row :=
  match s.queries hash with
  | none => s
  | some _ => (s.withEntry hash fun e => { e with localArray }).markDirty [hash]

def setSubqueryRemoteArray (hash : String) (subqueryRemoteArray : RecordVersionArray)
    (s : ClientState Row) : ClientState Row :=
  s.withEntry hash fun e => { e with subqueryRemoteArray }

/-- The query names a record: as a member, locally or as a child. -/
def namesOne (changed : String → Bool) (e : QueryEntry Row) : Bool :=
  (e.remoteArray ++ e.localArray ++ e.subqueryRemoteArray).any fun row => changed row.1

/-- One entry of `setVersions`: the versions, and the ids that moved. -/
def setVersion (acc : (String → Option Nat) × List String) (entry : String × Nat) :
    (String → Option Nat) × List String :=
  if acc.1 entry.1 = some entry.2 then acc
  else (update acc.1 entry.1 (some entry.2), entry.1 :: acc.2)

def setVersions (entries : List (String × Nat)) (s : ClientState Row) : ClientState Row :=
  let (versions, changed) := entries.foldl setVersion (s.versions, [])
  { s with
    versions
    dirty := fun h => s.dirty h || (s.queries h).any (namesOne fun id => decide (id ∈ changed)) }

def deleteVersions (ids : List String) (s : ClientState Row) : ClientState Row :=
  { s with versions := fun id => if id ∈ ids then none else s.versions id }

def outboxReplace (items : List OutboxItem) (s : ClientState Row) : ClientState Row :=
  markTables ((s.outbox ++ items).map (·.table)) { s with outbox := items }

def outboxPush (item : OutboxItem) (s : ClientState Row) : ClientState Row :=
  markTables [item.table] { s with outbox := s.outbox ++ [item] }

/-- The first item with the id becomes an acknowledged one. -/
def ackFirst (id : String) (now : Nat) : List OutboxItem → List OutboxItem
  | [] => []
  | i :: rest =>
    if i.id = id then { i with ackedAt := some now } :: rest else i :: ackFirst id now rest

def outboxAck (id : String) (now : Nat) (s : ClientState Row) : ClientState Row :=
  { s with outbox := ackFirst id now s.outbox }

def outboxRemove (id : String) (s : ClientState Row) : ClientState Row :=
  match s.outbox.find? fun i => i.id = id with
  | none => s
  | some item =>
    markTables [item.table] { s with outbox := s.outbox.filter fun i => i.id ≠ id }

/-- An acknowledged item whose grace has passed. -/
def stale (now graceMs : Nat) (i : OutboxItem) : Bool :=
  i.ackedAt.any fun ackedAt => decide (ackedAt + graceMs ≤ now)

def outboxPruneAcked (now graceMs : Nat) (s : ClientState Row) : ClientState Row :=
  markTables ((s.outbox.filter (stale now graceMs)).map (·.table))
    { s with outbox := s.outbox.filter fun i => !stale now graceMs i }

def setPeerWrite (id : String) (write : PeerWrite) (s : ClientState Row) : ClientState Row :=
  markTables [write.table] { s with peerWrites := update s.peerWrites id (some write) }

def clearPeerWrite (id : String) (s : ClientState Row) : ClientState Row :=
  match s.peerWrites id with
  | none => s
  | some write =>
    markTables [write.table] { s with peerWrites := update s.peerWrites id none }

end ClientState

/-- A lifecycle step that a saga takes on its own; a membership comes with a commit. -/
def LifecycleEvent.ofSaga : LifecycleEvent → Bool
  | .seed _ | .membershipApplied _ | .notified _ | .bucketSwitch _ => false
  | _ => true

/-! ## The state updates of the other sagas -/

/-- What the sagas other than `materialize` do to the state. -/
inductive Change where
  | putQuery (hash tableName : String) (isWindow hasExplicitOrder resolvedBefore : Bool)
      (remoteArray localArray : RecordVersionArray)
  | removeQuery (hash : String)
  | applyLifecycle (hash : String) (ev : LifecycleEvent)
  | commitMembership (hash : String) (remoteArray : RecordVersionArray) (present : Bool)
  | setLocalArray (hash : String) (localArray : RecordVersionArray)
  | setSubqueryRemoteArray (hash : String) (children : RecordVersionArray)
  | setVersions (entries : List (String × Nat))
  | deleteVersions (ids : List String)
  | outboxReplace (items : List OutboxItem)
  | outboxPush (item : OutboxItem)
  | outboxAck (id : String) (now : Nat)
  | outboxRemove (id : String)
  | outboxPruneAcked (now graceMs : Nat)
  | setPeerWrite (id : String) (write : PeerWrite)
  | clearPeerWrite (id : String)
  | markDirty (hashes : List String)
  | markTableDirty (table : String)

/-- A query as registration seeds it. -/
def seedEntry {Row : Type} (tableName : String) (isWindow hasExplicitOrder resolvedBefore : Bool)
    (remoteArray localArray : RecordVersionArray) (arrayRef : Nat) : QueryEntry Row :=
  { tableName, isWindow, hasExplicitOrder, remoteArray, arrayRef, localArray
    lifecycle := seedLifecycle resolvedBefore
    subqueryRemoteArray := []
    records := [] }

/-- A change, `fresh` being an array object nobody has yet. A query is registered once, a mutation
    id is one item's, and a record is of one table. -/
def Change.run {Row : Type} (fresh : Nat) (s : ClientState Row) :
    Change → Option (ClientState Row)
  | .putQuery hash tableName isWindow hasExplicitOrder resolvedBefore remoteArray localArray =>
    if (s.queries hash).isSome then none
    else some (s.putQuery hash
      (seedEntry tableName isWindow hasExplicitOrder resolvedBefore remoteArray localArray fresh))
  | .removeQuery hash => some (s.removeQuery hash)
  | .applyLifecycle hash ev => if LifecycleEvent.ofSaga ev then s.applyLifecycle hash ev else none
  | .commitMembership hash remoteArray present => s.commitMembership hash remoteArray fresh present
  | .setLocalArray hash localArray => some (s.setLocalArray hash localArray)
  | .setSubqueryRemoteArray hash children => some (s.setSubqueryRemoteArray hash children)
  | .setVersions entries => some (s.setVersions entries)
  | .deleteVersions ids => some (s.deleteVersions ids)
  | .outboxReplace items =>
    if (items.map (·.id)).Nodup then some (s.outboxReplace items) else none
  | .outboxPush item =>
    if item.id ∈ s.outbox.map (·.id) then none else some (s.outboxPush item)
  | .outboxAck id now => some (s.outboxAck id now)
  | .outboxRemove id => some (s.outboxRemove id)
  | .outboxPruneAcked now graceMs => some (s.outboxPruneAcked now graceMs)
  | .setPeerWrite id write =>
    if (s.peerWrites id).all fun old => decide (old.table = write.table) then
      some (s.setPeerWrite id write)
    else none
  | .clearPeerWrite id => some (s.clearPeerWrite id)
  | .markDirty hashes => some (s.markDirty hashes)
  | .markTableDirty table => some (s.markTables [table])

/-! ## What a change marks -/

section

variable {Row : Type} {s s' : ClientState Row} {hash : String}

/-- The query renders from the same: its membership, whether it has one, and the overlay on its
    table. -/
structure SameInputs (s s' : ClientState Row) (e e' : QueryEntry Row) : Prop where
  remoteArray : e'.remoteArray = e.remoteArray
  cold : e'.lifecycle.phase = .cold ↔ e.lifecycle.phase = .cold
  overlay : Overlay.AgreesOn e.tableName s.overlay s'.overlay

/-- What a change leaves of a query that is there before and after. -/
structure Carried (s s' : ClientState Row) (hash : String) (e e' : QueryEntry Row) : Prop where
  tableName : e'.tableName = e.tableName
  records : e'.records = e.records
  notified : e'.lifecycle.notified = true → e.lifecycle.notified = true
  answered : e'.lifecycle.answered = e.lifecycle.answered
  dirty : s.dirty hash = true → s'.dirty hash = true

theorem withEntry_queries (s : ClientState Row) (h : String) (f : QueryEntry Row → QueryEntry Row)
    (hash : String) : (s.withEntry h f).queries hash =
      if hash = h then (s.queries h).map f else s.queries hash := by
  unfold ClientState.withEntry
  split
  next hnone =>
    split
    next heq => rw [heq, hnone, Option.map_none]
    next => rfl
  next e he =>
    simp only [update_apply]
    split
    next => rw [he, Option.map_some]
    next => rfl

theorem withEntry_rest (s : ClientState Row) (h : String) (f : QueryEntry Row → QueryEntry Row) :
    (s.withEntry h f).dirty = s.dirty ∧ (s.withEntry h f).overlay = s.overlay ∧
      (s.withEntry h f).outbox = s.outbox := by
  unfold ClientState.withEntry
  split <;> exact ⟨rfl, rfl, rfl⟩

/-- A saga's own lifecycle step neither notifies nor answers, and leaves cold alone. -/
theorem transition_ofSaga {l l' : QueryLifecycle} {ev : LifecycleEvent}
    (hev : LifecycleEvent.ofSaga ev = true) (h : transition l ev = .ok l') :
    (l'.phase = .cold ↔ l.phase = .cold) ∧ (l'.notified = true → l.notified = true) ∧
      l'.answered = l.answered := by
  cases ev with
  | seed _ | membershipApplied _ | notified _ | bucketSwitch _ => cases hev
  | rowMissing =>
    cases h
    split
    next => exact ⟨Iff.rfl, id, rfl⟩
    next hc => exact ⟨⟨fun h => (nomatch h), fun h => absurd h hc⟩, id, rfl⟩
  | remoteDropped =>
    cases h
    exact ⟨Iff.rfl, fun h => (nomatch h), rfl⟩
  | fetchEnd _ =>
    unfold transition at h
    simp only at h
    split at h
    · cases h
      exact ⟨Iff.rfl, id, rfl⟩
    · cases h
      exact ⟨Iff.rfl, id, rfl⟩
  | _ =>
    cases h
    exact ⟨Iff.rfl, id, rfl⟩

/-! ### The overlay on a table -/

theorem holds_outbox_congr {a b : Overlay} {table : String} (hp : a.peerWrites = b.peerWrites)
    (h : ∀ i : OutboxItem, i.table = table → (i ∈ a.outbox ↔ i ∈ b.outbox)) :
    Overlay.AgreesOn table a b := by
  intro deletes id
  unfold Overlay.holds
  rw [hp]
  congr 1
  rw [Bool.eq_iff_iff, List.any_eq_true, List.any_eq_true]
  constructor
  · rintro ⟨i, hi, hc⟩
    have ht : i.table = table := by
      rw [Bool.and_eq_true, decide_eq_true_eq] at hc
      exact hc.1.1
    exact ⟨i, (h i ht).mp hi, hc⟩
  · rintro ⟨i, hi, hc⟩
    have ht : i.table = table := by
      rw [Bool.and_eq_true, decide_eq_true_eq] at hc
      exact hc.1.1
    exact ⟨i, (h i ht).mpr hi, hc⟩

theorem holds_ackFirst (id : String) (now : Nat) (s : ClientState Row) (table : String) :
    Overlay.AgreesOn table s.overlay (s.outboxAck id now).overlay := by
  intro deletes rid
  unfold Overlay.holds ClientState.outboxAck ClientState.overlay
  simp only
  congr 1
  induction s.outbox with
  | nil => rfl
  | cons i rest ih =>
    unfold ClientState.ackFirst
    split
    next => rfl
    next => rw [List.any_cons, List.any_cons, ih]

theorem holds_peer_congr {a b : Overlay} {table : String} (ho : a.outbox = b.outbox)
    (h : ∀ (id : String) (w : PeerWrite), w.table = table →
      (a.peerWrites id = some w ↔ b.peerWrites id = some w)) : Overlay.AgreesOn table a b := by
  intro deletes id
  unfold Overlay.holds
  rw [ho]
  congr 1
  rw [Bool.eq_iff_iff, Option.any_eq_true, Option.any_eq_true]
  constructor
  · rintro ⟨w, hw, hc⟩
    rw [Bool.and_eq_true, decide_eq_true_eq] at hc
    exact ⟨w, (h id w hc.1).mp hw, by rw [Bool.and_eq_true, decide_eq_true_eq]; exact hc⟩
  · rintro ⟨w, hw, hc⟩
    rw [Bool.and_eq_true, decide_eq_true_eq] at hc
    exact ⟨w, (h id w hc.1).mpr hw, by rw [Bool.and_eq_true, decide_eq_true_eq]; exact hc⟩

/-- A peer's write that is of other tables before and after. -/
theorem holds_peer_update {s : ClientState Row} {table id : String} {write : Option PeerWrite}
    (hold : ∀ w, s.peerWrites id = some w → w.table ≠ table)
    (hnew : ∀ w, write = some w → w.table ≠ table) :
    Overlay.AgreesOn table s.overlay
      { s with peerWrites := update s.peerWrites id write }.overlay := by
  refine holds_peer_congr rfl fun rid w hw => ?_
  unfold ClientState.overlay
  simp only [update_apply]
  split
  next heq =>
    subst heq
    exact ⟨fun h => absurd hw (hold w h), fun h => absurd hw (hnew w h)⟩
  next => exact Iff.rfl

/-- Marking some tables marks every query on one of them. -/
theorem markTables_dirty {tables : List String} {e : QueryEntry Row} (he : s.queries hash = some e)
    (ht : e.tableName ∈ tables) : (s.markTables tables).dirty hash = true := by
  unfold ClientState.markTables ClientState.onTable
  simp only [he, Option.any_some, Bool.or_eq_true, List.any_eq_true, decide_eq_true_eq]
  exact .inr ⟨e.tableName, ht, rfl⟩

theorem markTables_dirty_mono (tables : List String) (h : s.dirty hash = true) :
    (s.markTables tables).dirty hash = true := by
  unfold ClientState.markTables
  simp only [h, Bool.true_or]

/-- The commit of another query. -/
def CommitsOther (hash : String) : Change → Prop
  | .commitMembership h _ _ => h ≠ hash
  | _ => False

/-- The query's registration. -/
def Registers (hash : String) : Change → Prop
  | .putQuery h .. => h = hash
  | _ => False

/-- What a change does to a query that is there afterwards: registered by it, or carried over; then
    it renders from the same, or is marked, or another query was committed. -/
def Accounted (a : Change) (s s' : ClientState Row) (hash : String) (e' : QueryEntry Row) : Prop :=
  (Registers hash a ∧ s.queries hash = none ∧ s'.dirty hash = true ∧ e'.records = [] ∧
      e'.lifecycle.notified = false ∧ e'.lifecycle.answered = false) ∨
    ∃ e, s.queries hash = some e ∧ Carried s s' hash e e' ∧
      (SameInputs s s' e e' ∨ s'.dirty hash = true ∨
        (CommitsOther hash a ∧ e' = e ∧ s'.dirty hash = s.dirty hash))

variable {a : Change} {e' : QueryEntry Row}

/-- An update of the overlay alone that marks the tables it touches. -/
theorem accounted_markTables (s t : ClientState Row) {tables : List String}
    (hq : t.queries = s.queries) (hd : t.dirty = s.dirty)
    (hov : ∀ table, table ∉ tables → Overlay.AgreesOn table s.overlay t.overlay)
    (he' : (t.markTables tables).queries hash = some e') :
    Accounted a s (t.markTables tables) hash e' := by
  have he : s.queries hash = some e' := by
    rw [← hq]
    exact he'
  have he'' : t.queries hash = some e' := he'
  refine .inr ⟨e', he, ⟨rfl, rfl, id, rfl, fun h => ?_⟩, ?_⟩
  · exact markTables_dirty_mono tables (by rw [hd]; exact h)
  · by_cases ht : e'.tableName ∈ tables
    · exact .inr (.inl (markTables_dirty he'' ht))
    · exact .inl ⟨rfl, Iff.rfl, hov _ ht⟩

/-- An update of one entry that leaves its inputs alone. -/
theorem accounted_withEntry (h : String) (f : QueryEntry Row → QueryEntry Row)
    (hf : ∀ e, s.queries h = some e → Carried s (s.withEntry h f) hash e (f e) ∧
      (f e).remoteArray = e.remoteArray ∧ ((f e).lifecycle.phase = .cold ↔ e.lifecycle.phase = .cold)) (he' : (s.withEntry h f).queries hash = some e') :
    Accounted a s (s.withEntry h f) hash e' := by
  obtain ⟨hdirty, hover, -⟩ := withEntry_rest s h f
  rw [withEntry_queries] at he'
  split at he'
  next heq =>
    obtain ⟨e, he, rfl⟩ := Option.map_eq_some_iff.mp he'
    obtain ⟨hc, hr, hcold⟩ := hf e he
    refine .inr ⟨e, by rw [heq]; exact he, hc, .inl ⟨hr, hcold, ?_⟩⟩
    rw [hover]
    exact Overlay.AgreesOn.refl _ _
  next =>
    refine .inr ⟨e', he', ⟨rfl, rfl, id, rfl, fun h => by rw [hdirty]; exact h⟩, .inl ⟨rfl, Iff.rfl, ?_⟩⟩
    rw [hover]
    exact Overlay.AgreesOn.refl _ _

/-- What only marks more queries is accounted for, too. -/
theorem Accounted.more {t : ClientState Row}
    (h : Accounted a s t hash e') (hd : t.dirty hash = true → s'.dirty hash = true)
    (ho : s'.overlay = t.overlay) (hme : t.dirty hash = s.dirty hash → ¬ CommitsOther hash a) :
    Accounted a s s' hash e' := by
  rcases h with ⟨hreg, hnew, hdirty, hrest⟩ | ⟨e, he, hc, hin⟩
  · exact .inl ⟨hreg, hnew, hd hdirty, hrest⟩
  · refine .inr ⟨e, he, ⟨hc.tableName, hc.records, hc.notified, hc.answered,
      fun h => hd (hc.dirty h)⟩, ?_⟩
    rcases hin with hsame | hdirty | ⟨hother, -, hsame⟩
    · exact .inl ⟨hsame.remoteArray, hsame.cold, by rw [ho]; exact hsame.overlay⟩
    · exact .inr (.inl (hd hdirty))
    · exact absurd hother (hme hsame)

/-- A change that leaves the queries, the outbox and the peers alone. -/
theorem accounted_dirt (s s' : ClientState Row) (hq : s'.queries = s.queries) (ho : s'.overlay = s.overlay)
    (hd : ∀ h, s.dirty h = true → s'.dirty h = true)
    (he' : s'.queries hash = some e') : Accounted a s s' hash e' := by
  rw [hq] at he'
  refine .inr ⟨e', he', ⟨rfl, rfl, id, rfl, hd hash⟩, .inl ⟨rfl, Iff.rfl, ?_⟩⟩
  rw [ho]
  exact Overlay.AgreesOn.refl _ _

variable {fresh : Nat}

theorem accounted_commitMembership {h : String} {remoteArray : RecordVersionArray}
    {present : Bool} (hrun : s.commitMembership h remoteArray fresh present = some s') (he' : s'.queries hash = some e') :
    Accounted (.commitMembership h remoteArray present) s s' hash e' := by
  unfold ClientState.commitMembership at hrun
  split at hrun
  next =>
    obtain rfl := Option.some.inj hrun
    exact accounted_dirt s s rfl rfl (fun _ => id) he'
  next e he =>
    split at hrun
    next => cases hrun
    next l hl =>
      obtain rfl := Option.some.inj hrun
      have hlive : l = { e.lifecycle with phase := .live } := by
        unfold transition at hl
        simp only at hl
        split at hl
        · cases hl
        · exact (Except.ok.inj hl).symm
      simp only [update_apply] at he'
      split at he'
      next heq =>
        obtain rfl := Option.some.inj he'
        subst heq hlive
        exact .inr ⟨e, he, ⟨rfl, rfl, id, rfl, fun _ => update_self ..⟩,
          .inr (.inl (update_self ..))⟩
      next hne =>
        have hsame : update s.dirty h true hash = s.dirty hash :=
          update_of_ne hne _ _
        exact .inr ⟨e', he', ⟨rfl, rfl, id, rfl, fun hd => hsame.trans hd⟩,
          .inr (.inr ⟨fun heq => hne heq.symm, rfl, hsame⟩)⟩

theorem accounted_outboxRemove {id : String} (hnd : (s.outbox.map (·.id)).Nodup) (he' : (s.outboxRemove id).queries hash = some e') :
    Accounted a s (s.outboxRemove id) hash e' := by
  unfold ClientState.outboxRemove at he' ⊢
  split at he'
  next => exact accounted_dirt s s rfl rfl (fun _ hd => hd) he'
  next item hfind =>
    refine accounted_markTables s { s with outbox := s.outbox.filter fun i => i.id ≠ id } rfl rfl ?_ he'
    intro table ht
    refine holds_outbox_congr rfl fun i hi => ?_
    have hmem := List.mem_of_find?_eq_some hfind
    have hid : item.id = id := by simpa using List.find?_some hfind
    constructor
    · intro hin
      refine List.mem_filter.mpr ⟨hin, ?_⟩
      rw [decide_eq_true_iff]
      intro heq
      -- Only one item has the id, and it is of a marked table.
      have := List.inj_on_of_nodup_map hnd hin hmem (heq.trans hid.symm)
      rw [this] at hi
      exact ht (by rw [← hi]; exact List.mem_singleton_self _)
    · exact fun hin => (List.mem_filter.mp hin).1

/-- Every change is accounted for: what it moves of a query's inputs it marks, another query's
    commit apart. -/
theorem run_accounted (hnd : (s.outbox.map (·.id)).Nodup)
    (hrun : a.run fresh s = some s') (he' : s'.queries hash = some e') :
    Accounted a s s' hash e' := by
  cases a with
  | putQuery h tableName isWindow hasExplicitOrder resolvedBefore remoteArray localArray =>
    unfold Change.run at hrun
    simp only at hrun
    split at hrun
    next => cases hrun
    next hnew =>
      obtain rfl := Option.some.inj hrun
      unfold ClientState.putQuery at he' ⊢
      simp only [update_apply] at he'
      split at he'
      next heq =>
        obtain rfl := Option.some.inj he'
        subst heq
        exact .inl ⟨rfl, by simpa using hnew, update_self .., rfl, rfl, rfl⟩
      next hne =>
        refine .inr ⟨e', he', ⟨rfl, rfl, id, rfl, fun hd => ?_⟩, .inl ⟨rfl, Iff.rfl, fun _ _ => rfl⟩⟩
        exact (update_of_ne hne _ _).trans hd
  | removeQuery h =>
    obtain rfl := Option.some.inj hrun
    unfold ClientState.removeQuery at he' ⊢
    simp only [update_apply] at he'
    split at he'
    next => cases he'
    next hne =>
      refine .inr ⟨e', he', ⟨rfl, rfl, id, rfl, fun hd => ?_⟩, .inl ⟨rfl, Iff.rfl, fun _ _ => rfl⟩⟩
      exact (update_of_ne hne _ _).trans hd
  | applyLifecycle h ev =>
    unfold Change.run at hrun
    simp only at hrun
    split at hrun
    next hev =>
      unfold ClientState.applyLifecycle at hrun
      split at hrun
      next =>
        obtain rfl := Option.some.inj hrun
        exact accounted_dirt s s rfl rfl (fun _ hd => hd) he'
      next e he =>
        split at hrun
        next => cases hrun
        next l hl =>
          obtain rfl := Option.some.inj hrun
          obtain ⟨hcold, hnotified, hanswered⟩ := transition_ofSaga hev hl
          refine accounted_withEntry h _ (fun e₀ he₀ => ?_) he'
          rw [he] at he₀
          obtain rfl := Option.some.inj he₀
          exact ⟨⟨rfl, rfl, hnotified, hanswered, fun hd => by rw [(withEntry_rest s h _).1]; exact hd⟩,
            rfl, hcold⟩
    next => cases hrun
  | commitMembership h remoteArray present => exact accounted_commitMembership hrun he'
  | setLocalArray h localArray =>
    obtain rfl := Option.some.inj hrun
    unfold ClientState.setLocalArray at he' ⊢
    split at he'
    next => exact accounted_dirt s s rfl rfl (fun _ hd => hd) he'
    next e he =>
      have hacc : Accounted (.setLocalArray h localArray) s
          (s.withEntry h fun e => { e with localArray }) hash e' :=
        accounted_withEntry h (fun e => { e with localArray }) (fun e₀ _ => ⟨⟨rfl, rfl, id, rfl,
          fun hd => by rw [(withEntry_rest s h _).1]; exact hd⟩, rfl, Iff.rfl⟩) he'
      exact hacc.more (fun hd => by unfold ClientState.markDirty; simp only [hd, Bool.true_or]) rfl
        fun _ h => h
  | setSubqueryRemoteArray h children =>
    obtain rfl := Option.some.inj hrun
    refine accounted_withEntry h (fun e => { e with subqueryRemoteArray := children })
      (fun e _ => ⟨⟨rfl, rfl, id, rfl, fun hd => ?_⟩, rfl, Iff.rfl⟩) he'
    rw [(withEntry_rest s h _).1]
    exact hd
  | setVersions entries =>
    obtain rfl := Option.some.inj hrun
    refine accounted_dirt s (s.setVersions entries) rfl rfl (fun h hd => ?_) he'
    unfold ClientState.setVersions
    simp only [hd, Bool.true_or]
  | deleteVersions ids =>
    obtain rfl := Option.some.inj hrun
    exact accounted_dirt s (s.deleteVersions ids) rfl rfl (fun _ hd => hd) he'
  | outboxReplace items =>
    unfold Change.run at hrun
    simp only at hrun
    split at hrun
    next =>
      obtain rfl := Option.some.inj hrun
      refine accounted_markTables s { s with outbox := items } rfl rfl ?_ he'
      intro table ht
      refine holds_outbox_congr rfl fun i hi => ?_
      rw [List.map_append, List.mem_append] at ht
      constructor
      · exact fun hin => absurd (.inl (List.mem_map.mpr ⟨i, hin, hi⟩)) ht
      · exact fun hin => absurd (.inr (List.mem_map.mpr ⟨i, hin, hi⟩)) ht
    next => cases hrun
  | outboxPush item =>
    unfold Change.run at hrun
    simp only at hrun
    split at hrun
    next => cases hrun
    next =>
      obtain rfl := Option.some.inj hrun
      refine accounted_markTables s { s with outbox := s.outbox ++ [item] } rfl rfl ?_ he'
      intro table ht
      refine holds_outbox_congr rfl fun i hi => ?_
      constructor
      · exact fun hin => List.mem_append_left _ hin
      · intro hin
        rcases List.mem_append.mp hin with hin | hin
        · exact hin
        · rw [List.mem_singleton.mp hin] at hi
          exact absurd (List.mem_singleton.mpr hi.symm) ht
  | outboxAck id now =>
    obtain rfl := Option.some.inj hrun
    exact .inr ⟨e', he', ⟨rfl, rfl, fun h => h, rfl, fun h => h⟩,
      .inl ⟨rfl, Iff.rfl, holds_ackFirst id now s e'.tableName⟩⟩
  | outboxRemove id =>
    obtain rfl := Option.some.inj hrun
    exact accounted_outboxRemove hnd he'
  | outboxPruneAcked now graceMs =>
    obtain rfl := Option.some.inj hrun
    refine accounted_markTables s
      { s with outbox := s.outbox.filter fun i => !ClientState.stale now graceMs i } rfl rfl ?_ he'
    intro table ht
    refine holds_outbox_congr rfl fun i hi => ?_
    constructor
    · intro hin
      refine List.mem_filter.mpr ⟨hin, ?_⟩
      cases hst : ClientState.stale now graceMs i with
      | false => rfl
      | true => exact absurd (List.mem_map.mpr ⟨i, List.mem_filter.mpr ⟨hin, hst⟩, hi⟩) ht
    · exact fun hin => (List.mem_filter.mp hin).1
  | setPeerWrite id write =>
    unfold Change.run at hrun
    simp only at hrun
    split at hrun
    next hold =>
      obtain rfl := Option.some.inj hrun
      refine accounted_markTables s
        { s with peerWrites := update s.peerWrites id (some write) } rfl rfl ?_ he'
      intro table ht
      have hne : write.table ≠ table := fun h => ht (List.mem_singleton.mpr h.symm)
      refine holds_peer_update (fun w hw h => ?_) fun w hw => Option.some.inj hw ▸ hne
      rw [hw, Option.all_some, decide_eq_true_eq] at hold
      exact hne (hold.symm.trans h)
    next => cases hrun
  | clearPeerWrite id =>
    obtain rfl := Option.some.inj hrun
    unfold ClientState.clearPeerWrite at he' ⊢
    split at he'
    next => exact accounted_dirt s s rfl rfl (fun _ hd => hd) he'
    next write hwrite =>
      refine accounted_markTables s
        { s with peerWrites := update s.peerWrites id none } rfl rfl ?_ he'
      intro table ht
      have hne : write.table ≠ table := fun h => ht (List.mem_singleton.mpr h.symm)
      exact holds_peer_update (fun w hw => Option.some.inj (hwrite.symm.trans hw) ▸ hne) nofun
  | markDirty hashes =>
    obtain rfl := Option.some.inj hrun
    refine accounted_dirt s (s.markDirty hashes) rfl rfl (fun h hd => ?_) he'
    unfold ClientState.markDirty
    simp only [hd, Bool.true_or]
  | markTableDirty table =>
    obtain rfl := Option.some.inj hrun
    exact accounted_dirt s (s.markTables [table]) rfl rfl (fun h hd => markTables_dirty_mono [table] hd) he'

/-- Only a query that is not there registers. -/
theorem Registers.queries (h : Registers hash a)
    (hrun : a.run fresh s = some s') : s.queries hash = none := by
  cases a with
  | putQuery h' =>
    obtain rfl : h' = hash := h
    unfold Change.run at hrun
    simp only at hrun
    split at hrun
    next => cases hrun
    next hnew => simpa using hnew
  | _ => exact h.elim

theorem ids_ackFirst (id : String) (now : Nat) (l : List OutboxItem) :
    (ClientState.ackFirst id now l).map (·.id) = l.map (·.id) := by
  induction l with
  | nil => rfl
  | cons i rest ih =>
    unfold ClientState.ackFirst
    split
    next => rfl
    next => rw [List.map_cons, List.map_cons, ih]

/-- Mutation ids stay one item's. -/
theorem run_nodup (hnd : (s.outbox.map (·.id)).Nodup)
    (hrun : a.run fresh s = some s') : (s'.outbox.map (·.id)).Nodup := by
  have hfilter : ∀ p : OutboxItem → Bool, ((s.outbox.filter p).map (·.id)).Nodup :=
    fun p => hnd.sublist (List.filter_sublist.map _)
  cases a with
  | putQuery h =>
    unfold Change.run at hrun
    simp only at hrun
    split at hrun
    next => cases hrun
    next =>
      obtain rfl := Option.some.inj hrun
      exact hnd
  | applyLifecycle h ev =>
    unfold Change.run at hrun
    simp only at hrun
    split at hrun
    next =>
      unfold ClientState.applyLifecycle at hrun
      split at hrun
      next =>
        obtain rfl := Option.some.inj hrun
        exact hnd
      next =>
        split at hrun
        next => cases hrun
        next =>
          obtain rfl := Option.some.inj hrun
          rw [(withEntry_rest s h _).2.2]
          exact hnd
    next => cases hrun
  | commitMembership h remoteArray present =>
    unfold Change.run ClientState.commitMembership at hrun
    simp only at hrun
    split at hrun
    next =>
      obtain rfl := Option.some.inj hrun
      exact hnd
    next =>
      split at hrun
      next => cases hrun
      next =>
        obtain rfl := Option.some.inj hrun
        exact hfilter _
  | setLocalArray h localArray =>
    obtain rfl := Option.some.inj hrun
    unfold ClientState.setLocalArray
    split
    next => exact hnd
    next =>
      change ((s.withEntry h _).outbox.map _).Nodup
      rw [(withEntry_rest s h _).2.2]
      exact hnd
  | setSubqueryRemoteArray h children =>
    obtain rfl := Option.some.inj hrun
    unfold ClientState.setSubqueryRemoteArray
    rw [(withEntry_rest s h _).2.2]
    exact hnd
  | outboxReplace items =>
    unfold Change.run at hrun
    simp only at hrun
    split at hrun
    next hitems =>
      obtain rfl := Option.some.inj hrun
      exact hitems
    next => cases hrun
  | outboxPush item =>
    unfold Change.run at hrun
    simp only at hrun
    split at hrun
    next => cases hrun
    next hnew =>
      obtain rfl := Option.some.inj hrun
      change ((s.outbox ++ [item]).map _).Nodup
      rw [List.map_append, List.nodup_append]
      refine ⟨hnd, List.nodup_singleton _, ?_⟩
      intro x hx y hy
      rw [List.map_singleton, List.mem_singleton] at hy
      rintro rfl
      exact hnew (hy ▸ hx)
  | outboxAck id now =>
    obtain rfl := Option.some.inj hrun
    unfold ClientState.outboxAck
    simp only
    rw [ids_ackFirst]
    exact hnd
  | outboxRemove id =>
    obtain rfl := Option.some.inj hrun
    unfold ClientState.outboxRemove
    split
    next => exact hnd
    next => exact hfilter _
  | outboxPruneAcked now graceMs =>
    obtain rfl := Option.some.inj hrun
    exact hfilter _
  | setPeerWrite id write =>
    unfold Change.run at hrun
    simp only at hrun
    split at hrun
    next =>
      obtain rfl := Option.some.inj hrun
      exact hnd
    next => cases hrun
  | clearPeerWrite id =>
    obtain rfl := Option.some.inj hrun
    unfold ClientState.clearPeerWrite
    split
    next => exact hnd
    next => exact hnd
  | _ =>
    obtain rfl := Option.some.inj hrun
    exact hnd

end

end Sp00ky.Core.Screen
