/-
  The bodies in a tab's store and the versions it has recorded for them (`query/fetch.saga.ts`,
  `query/lifecycle.saga.ts`, `mutation/write.saga.ts`, `state/selectors.ts` of `packages/core/src`).

  What is fetched is the rows a query names at a version that is not recorded, so a version stands
  for a body in the store. The body and its version are written one after the other, by a fetch, a
  live notification or a write, and deleted one after the other, by what forgets departed rows, by
  the collection of orphans or by a delete. A deletion that falls in between the two writes takes
  the body, and the version is recorded after it is gone (`late_record_outlives_body`); the row is
  not fetched again. As long as what is recorded still has its body, every version has, once no
  saga is running (`recorded_versions_backed`).
-/
import Sp00ky.Core.Membership

namespace Sp00ky.Core.Client

open Std Lib

/-! ## What is to be fetched -/

def hasServerMembership : QueryPhase → Bool
  | .live | .viewLost => true
  | .cold | .cached => false

namespace ClientState

def pendingDeleteIds (s : ClientState) : List String :=
  (s.outbox.filter fun i => i.type = .delete).map (·.recordId)

/-- Membership entries whose body is missing or older locally. -/
def needed (s : ClientState) (e : QueryEntry) : RecordVersionArray :=
  if hasServerMembership e.phase then
    e.remoteArray.filter fun r => r.1 ∉ s.pendingDeleteIds && above s.versions[r.1]? r.2
  else []

def neededChildren (s : ClientState) (e : QueryEntry) : RecordVersionArray :=
  e.subqueryRemoteArray.filter fun r => above s.versions[r.1]? r.2

/-- The highest version of each id. -/
def raise (versions : RecordVersionArray) (r : String × Nat) : RecordVersionArray :=
  EntryMap.set versions r.1 (max r.2 ((EntryMap.get versions r.1).getD 0))

/-- The ids to fetch, with the versions they are named at. -/
def planVersions (s : ClientState) : RecordVersionArray :=
  (s.queries.toList.flatMap fun q => s.needed q.2 ++ s.neededChildren q.2).foldl raise []

def fetchChunk : Nat := 500

def planFetch (s : ClientState) : List RecordVersionArray :=
  let all := s.planVersions
  (List.range ((all.length + fetchChunk - 1) / fetchChunk)).map fun i =>
    (all.drop (i * fetchChunk)).take fetchChunk

def setSubqueryRemoteArray (hash : String) (subqueryRemoteArray : RecordVersionArray)
    (s : ClientState) : ClientState :=
  s.withEntry hash fun e => { e with subqueryRemoteArray }

/-- `setVersions`. -/
def setVersions (entries : RecordVersionArray) (s : ClientState) : ClientState :=
  { s with versions := entries.foldl (fun m r => m.insert r.1 r.2) s.versions }

/-- `deleteVersions`. -/
def deleteVersions (ids : List String) (s : ClientState) : ClientState :=
  { s with versions := s.versions.filter fun id _ => id ∉ ids }

end ClientState

/-- Ids of `before` that `after` no longer names. -/
def departedIds (before after : RecordVersionArray) : List String :=
  (before.map (·.1)).filter fun id => ¬ Names after id

/-- An id of the local bookkeeping. -/
def isBookkeeping (id : String) : Bool := "_00_".toList.isPrefixOf id.toList

/-! ## Sagas -/

/-- What a write does; a debounced update has the key its patches gather under. -/
inductive WriteKind where
  | create | update | delete
  | debounced (key : String)
deriving DecidableEq, Repr

def WriteKind.type : WriteKind → MutationEventType
  | .create => .create
  | .update | .debounced _ => .update
  | .delete => .delete

structure LocalWrite where
  kind : WriteKind
  mutationId : String
  recordId : String
deriving DecidableEq, Repr

/-- A chunk as it is landed: what was asked for, and the ids of the rows that came. -/
structure Landing where
  requested : RecordVersionArray
  returned : List String
deriving DecidableEq, Repr

/-- A saga, by the effect it is suspended at. -/
inductive Saga where
  /-- `fetchRows`, at its queries -/
  | fetching (chunks : List RecordVersionArray)
  /-- `landChunk`, at the write of the bodies -/
  | landing (chunk : Landing) (rest : List Landing)
  /-- `landChunk`, at the ingest; the versions follow -/
  | recording (chunk : Landing) (rest : List Landing)
  /-- `forgetDeparted`, at its read of the state -/
  | forgetting (departed : List String)
  /-- `collectOrphans`, at the read before its next chunk -/
  | collecting (candidates : List String)
  /-- either of the two, at its deletes; the versions of what is done follow -/
  | deleting (left done rest : List String)
  /-- a local write at its transaction, at the push of its item, at the ingest, at the version -/
  | writing (w : LocalWrite)
  | publishing (w : LocalWrite) (version : Nat)
  | ingesting (w : LocalWrite) (version : Nat)
  | versioning (w : LocalWrite) (version : Nat)
  /-- `flushWrite`, at its transaction -/
  | flushing (mutationId recordId : String)
deriving DecidableEq, Repr

/-- What an effect answers. -/
inductive Answer where
  | ok
  | failed
  /-- for each chunk the ids of the rows the server returned, if it answered -/
  | rows (answers : List (Option (List String)))
  /-- one of the deletes -/
  | deleted (id : String) (ok : Bool)
  /-- a write's transaction, with the version the row has now -/
  | written (version : Nat)
deriving DecidableEq, Repr

/-- A tab with its store. It is noted for which ids the version recorded last came with an answer
that left the row out. -/
structure BodyTab where
  state : ClientState
  bodies : List String
  /-- the record of each debounced write in its delay, under its key -/
  pendingWrites : List (String × String)
  /-- the ids the durable views name -/
  vouched : List String
  follower : Bool
  sagas : List Saga
  unreturned : List String

namespace BodyTab

/-- The tab when its store has been read: the bodies with the versions they carry. -/
def primed (stored : RecordVersionArray) (queries : ExtTreeMap String QueryEntry)
    (outbox : List OutboxItem) (vouched : List String) (follower : Bool) : BodyTab where
  state := ClientState.setVersions stored ⟨queries, ∅, outbox, ∅⟩
  bodies := stored.map (·.1)
  pendingWrites := []
  vouched
  follower
  sagas := []
  unreturned := []

/-- What something live still needs (`activelyHeld`). -/
def ActivelyHeld (t : BodyTab) (id : String) : Prop :=
  (∃ q ∈ t.state.queries.toList, Names q.2.remoteArray id ∨ Names q.2.subqueryRemoteArray id) ∨
    (∃ i ∈ t.state.outbox, i.recordId = id) ∨ id ∈ t.pendingWrites.map (·.2)

/-- What the collection must keep (`retained`). -/
def Retained (t : BodyTab) (id : String) : Prop :=
  isBookkeeping id ∨ id ∈ t.vouched ∨ t.ActivelyHeld id

instance (t : BodyTab) (id : String) : Decidable (t.ActivelyHeld id) :=
  inferInstanceAs (Decidable (_ ∨ _ ∨ _))

instance (t : BodyTab) (id : String) : Decidable (t.Retained id) :=
  inferInstanceAs (Decidable (_ ∨ _ ∨ _))

def spawn (t : BodyTab) (sagas : List Saga) : BodyTab := { t with sagas := t.sagas ++ sagas }

def gcChunk : Nat := 200

/-- The next chunk to land; without a row there is no body to write. -/
def landNext : List Landing → List Saga
  | [] => []
  | chunk :: rest =>
    if chunk.returned = [] then [.recording chunk rest] else [.landing chunk rest]

/-- The chunks the server answered, with its answers. -/
def answered (chunks : List RecordVersionArray) (answers : List (Option (List String))) :
    List Landing :=
  (chunks.zip answers).filterMap fun a => a.2.map fun returned => ⟨a.1, returned⟩

/-- The versions of a landed chunk: also of what the server left out. -/
def record (t : BodyTab) (chunk : Landing) : BodyTab :=
  { t with
    state := t.state.setVersions chunk.requested
    unreturned := t.unreturned.filter (fun id => ¬ Names chunk.requested id) ++
      (chunk.requested.map (·.1)).filter fun id => id ∉ chunk.returned }

def drop (t : BodyTab) (ids : List String) : BodyTab :=
  { t with state := t.state.deleteVersions ids }

/-- The row's part of a write's transaction. -/
def transact (t : BodyTab) (w : LocalWrite) : BodyTab :=
  if w.kind = .delete then { t with bodies := t.bodies.filter (· ≠ w.recordId) }
  else { t with bodies := w.recordId :: t.bodies }

/-- The item of a write, or the patch of a debounced one, is in the state. -/
def publish (t : BodyTab) (w : LocalWrite) : BodyTab :=
  match w.kind with
  | .debounced key => { t with pendingWrites := EntryMap.set t.pendingWrites key w.recordId }
  | kind => { t with state := t.state.outboxPush ⟨w.mutationId, kind.type, w.recordId, .pending⟩ }

/-- The version of a write that reached the circuit. -/
def recordWrite (t : BodyTab) (w : LocalWrite) (version : Nat) : BodyTab :=
  if w.kind = .delete then t.drop [w.recordId]
  else t.record ⟨[(w.recordId, version)], [w.recordId]⟩

/-- The sagas but the one that goes on. -/
def others (t : BodyTab) (saga : Saga) : BodyTab := { t with sagas := t.sagas.erase saga }

/-- A saga goes on from the answer it was waiting for. -/
def resume (t : BodyTab) : Saga → Answer → Option BodyTab
  | .fetching chunks, .rows answers => some (t.spawn (landNext (answered chunks answers)))
  | .landing chunk rest, .ok =>
    some ({ t with bodies := chunk.returned ++ t.bodies }.spawn [.recording chunk rest])
  | .landing _ rest, .failed => some (t.spawn (landNext rest))
  | .recording chunk rest, .ok => some ((t.record chunk).spawn (landNext rest))
  | .forgetting departed, .ok =>
    let gone := departed.filter fun id =>
      !isBookkeeping id && id ∈ t.state.versions && ¬ t.ActivelyHeld id
    if gone = [] ∨ t.follower then some t else some (t.spawn [.deleting gone [] []])
  | .collecting [], .ok => some t
  | .collecting candidates, .ok =>
    let chunk := (candidates.take gcChunk).filter fun id =>
      id ∈ t.state.versions && ¬ t.Retained id
    some (t.spawn [.deleting chunk [] (candidates.drop gcChunk)])
  | .deleting left done rest, .deleted id ok =>
    if id ∉ left then none
    else if ok then
      some ({ t with bodies := t.bodies.filter (· ≠ id) }.spawn
        [.deleting (left.erase id) (id :: done) rest])
    else some (t.spawn [.deleting (left.erase id) done rest])
  | .deleting [] done rest, .ok =>
    some ((t.drop done).spawn (if rest = [] then [] else [.collecting rest]))
  | .writing w, .written version => some ((t.transact w).spawn [.publishing w version])
  | .writing _, .failed => some t
  | .publishing w version, .ok => some ((t.publish w).spawn [.ingesting w version])
  | .ingesting w version, .ok => some (t.spawn [.versioning w version])
  | .ingesting _ _, .failed => some t
  | .versioning w version, .ok => some (t.recordWrite w version)
  | .flushing mutationId recordId, .ok =>
    some { t with state := t.state.outboxPush ⟨mutationId, .update, recordId, .pending⟩ }
  | .flushing _ _, .failed => some t
  | _, _ => none

/-- What starts a saga, or changes the state beside them. -/
inductive Event where
  | putQuery (hash : String) (entry : QueryEntry)
  | removeQuery (hash : String)
  | applyMembership (hash : String) (remoteArray : RecordVersionArray)
      (rowMeta : Option ServerViewMeta)
  | applySubqueryChildren (hash : String) (children : RecordVersionArray)
  | reloadViews (vouched : List String)
  | collectOrphans
  | fetchRows
  | landInlineRows (rows : RecordVersionArray)
  | write (w : LocalWrite)
  | flushWrite (key mutationId : String)
  | ack (mutationId : String) (now : Nat)
  | ackPrune (now graceMs : Nat)
  | resume (saga : Saga) (answer : Answer)
deriving DecidableEq, Repr

/-- Rows of a notification that are newer than what is recorded, the newest of each id. -/
def freshInline (s : ClientState) (rows : RecordVersionArray) : RecordVersionArray :=
  (rows.filter fun r => above s.versions[r.1]? r.2).foldl ClientState.raise []

/-- One step. The lanes are left out: two sagas of one lane may run at a time. -/
def step (t : BodyTab) : Event → Option BodyTab
  | .putQuery hash entry => some { t with state := t.state.putQuery hash entry }
  | .removeQuery hash => some { t with state := t.state.removeQuery hash }
  | .applyMembership hash remoteArray rowMeta =>
    match t.state.queries[hash]? with
    | none => some t
    | some e =>
      match decideMembershipOutcome e.phase e.remoteArray.length remoteArray rowMeta with
      | .ignored => some t
      | .viewLost => some { t with state := t.state.rowMissing hash }
      | .applied =>
        (t.state.commitMembership hash remoteArray (rowMeta.all (·.present))).map fun state =>
          { t with state }.spawn [.forgetting (departedIds e.remoteArray remoteArray)]
  | .applySubqueryChildren hash children =>
    match t.state.queries[hash]? with
    | none => some t
    | some e =>
      if recordVersionArraysEqual e.subqueryRemoteArray children then some t
      else some ({ t with state := t.state.setSubqueryRemoteArray hash children }.spawn
        [.forgetting (departedIds e.subqueryRemoteArray children)])
  | .reloadViews vouched => some { t with vouched }
  | .collectOrphans =>
    if t.follower then none
    else some (t.spawn [.collecting (t.state.versions.keys.filter fun id => ¬ t.Retained id)])
  | .fetchRows => some (t.spawn [.fetching t.state.planFetch])
  | .landInlineRows rows =>
    let fresh := freshInline t.state rows
    if fresh = [] then some t else some (t.spawn [.landing ⟨fresh, fresh.map (·.1)⟩ []])
  | .write w => some (t.spawn [.writing w])
  | .flushWrite key mutationId =>
    match EntryMap.get t.pendingWrites key with
    | none => some t
    | some recordId => some ({ t with pendingWrites := EntryMap.delete t.pendingWrites key }.spawn
        [.flushing mutationId recordId])
  | .ack mutationId now => some { t with state := t.state.outboxAck mutationId now }
  | .ackPrune now graceMs => some { t with state := t.state.outboxPruneAcked now graceMs }
  | .resume saga answer =>
    if saga ∈ t.sagas then (t.others saga).resume saga answer else none

/-! ## Versions with their bodies -/

end BodyTab

/-- The saga has taken the body and will drop the version. -/
def Saga.Drops (id : String) : Saga → Prop
  | .deleting _ done _ => id ∈ done
  | .publishing w _ | .ingesting w _ | .versioning w _ => w.kind = .delete ∧ w.recordId = id
  | _ => False

instance (id : String) : (saga : Saga) → Decidable (saga.Drops id)
  | .deleting _ done _ => inferInstanceAs (Decidable (id ∈ done))
  | .publishing _ _ | .ingesting _ _ | .versioning _ _ => inferInstanceAs (Decidable (_ ∧ _))
  | .fetching _ | .landing _ _ | .recording _ _ | .forgetting _ | .collecting _ | .writing _
  | .flushing _ _ => inferInstanceAs (Decidable False)

namespace BodyTab

/-- The body is in the store, or its version is still to be dropped. -/
def Backed (t : BodyTab) (id : String) : Prop := id ∈ t.bodies ∨ ∃ saga ∈ t.sagas, saga.Drops id

/-- A version is recorded that came with a body. -/
def Recorded (t : BodyTab) (id : String) : Prop := id ∈ t.state.versions ∧ id ∉ t.unreturned

def VersionsBacked (t : BodyTab) : Prop := ∀ id, t.Recorded id → t.Backed id

instance (t : BodyTab) (id : String) : Decidable (t.Backed id) := inferInstanceAs (Decidable (_ ∨ _))

instance (t : BodyTab) (id : String) : Decidable (t.Recorded id) :=
  inferInstanceAs (Decidable (_ ∧ _))

/-- The ids whose version stands after the step and is taken for a body in the store: what is
recorded as returned or written, and what a delete leaves recorded whose ingest fails. -/
def stamped (t : BodyTab) : Saga → Answer → List String
  | .recording chunk _, .ok => chunk.returned.filter fun id => Names chunk.requested id
  | .versioning w _, .ok => if w.kind = .delete then [] else [w.recordId]
  | .ingesting w _, .failed =>
    if w.kind = .delete ∧ t.Recorded w.recordId then [w.recordId] else []
  | _, _ => []

/-- They have their bodies still, or what took them is still to drop the version. -/
def Timely (t : BodyTab) (saga : Saga) (answer : Answer) : Prop :=
  ∀ id ∈ t.stamped saga answer, t.Backed id

instance (t : BodyTab) (saga : Saga) (answer : Answer) : Decidable (t.Timely saga answer) :=
  inferInstanceAs (Decidable (∀ _ ∈ _, _))

/-- The saga that goes on does so in time. -/
def InTime (t : BodyTab) (e : Event) : Prop :=
  match e with
  | .resume saga answer => (t.others saga).Timely saga answer
  | _ => True

instance (t : BodyTab) (e : Event) : Decidable (t.InTime e) := by
  unfold InTime
  exact match e with
    | .resume _ _ => inferInstance
    | .putQuery _ _ | .removeQuery _ | .applyMembership _ _ _ | .applySubqueryChildren _ _
    | .reloadViews _ | .collectOrphans | .fetchRows | .landInlineRows _ | .write _
    | .flushWrite _ _ | .ack _ _ | .ackPrune _ _ => isTrue trivial

section

variable {t u : BodyTab} {id : String}

theorem backed_spawn {sagas : List Saga} :
    (t.spawn sagas).Backed id ↔ t.Backed id ∨ ∃ saga ∈ sagas, saga.Drops id := by
  unfold Backed spawn
  simp only [List.mem_append, or_and_right, exists_or, or_assoc]

/-- What a tab keeps of the bodies and of the versions to be dropped. -/
theorem Backed.mono (h : t.Backed id) (hb : ∀ id ∈ t.bodies, id ∈ u.bodies)
    (hs : ∀ saga ∈ t.sagas, saga ∈ u.sagas) : u.Backed id := by
  rcases h with h | ⟨saga, h, hd⟩
  · exact .inl (hb id h)
  · exact .inr ⟨saga, hs saga h, hd⟩

variable {saga : Saga}

theorem Backed.erase (h : t.Backed id) :
    (t.others saga).Backed id ∨ saga.Drops id := by
  rcases h with h | ⟨saga', h, hd⟩
  · exact .inl (.inl h)
  · by_cases he : saga' = saga
    · exact .inr (he ▸ hd)
    · exact .inl (.inr ⟨saga', (List.mem_erase_of_ne he).mpr h, hd⟩)

theorem VersionsBacked.mono (h : t.VersionsBacked) (hr : ∀ id, u.Recorded id → t.Recorded id)
    (hb : ∀ id, t.Backed id → u.Backed id) : u.VersionsBacked :=
  fun id hid => hb id (h id (hr id hid))

theorem mem_setVersions {entries : RecordVersionArray} {s : ClientState} :
    id ∈ (s.setVersions entries).versions ↔ Names entries id ∨ id ∈ s.versions := by
  unfold ClientState.setVersions
  change id ∈ List.foldl _ s.versions entries ↔ _
  generalize s.versions = m
  induction entries generalizing m with
  | nil => simp [Names]
  | cons r entries ih =>
    rw [List.foldl_cons, ih, ExtTreeMap.mem_insert, Std.compare_eq_iff_eq]
    unfold Names
    rw [List.map_cons, List.mem_cons]
    tauto

variable {ids : List String}

theorem mem_deleteVersions {s : ClientState} :
    id ∈ (s.deleteVersions ids).versions ↔ id ∈ s.versions ∧ id ∉ ids := by
  unfold ClientState.deleteVersions
  rw [← ExtTreeMap.isSome_getElem?_iff_mem, ← ExtTreeMap.isSome_getElem?_iff_mem]
  change (s.versions.filter fun x _ => decide (x ∉ ids))[id]?.isSome = true ↔ _
  rw [getElem?_filter_key]
  by_cases hid : id ∈ ids <;> simp [hid]

theorem recorded_record {chunk : Landing} : (t.record chunk).Recorded id ↔
    (Names chunk.requested id ∧ id ∈ chunk.returned) ∨
      (¬ Names chunk.requested id ∧ t.Recorded id) := by
  unfold Recorded record
  rw [mem_setVersions, List.mem_append, List.mem_filter, List.mem_filter]
  simp only [decide_eq_true_eq]
  change _ ∧ ¬ (_ ∨ Names chunk.requested id ∧ _) ↔ _
  tauto

theorem recorded_drop : (t.drop ids).Recorded id ↔ t.Recorded id ∧ id ∉ ids := by
  unfold Recorded drop
  rw [mem_deleteVersions]
  tauto

/-! ## Steps -/

theorem VersionsBacked.spawn (h : t.VersionsBacked) (sagas : List Saga) :
    (t.spawn sagas).VersionsBacked :=
  fun id hid => backed_spawn.mpr (.inl (h id hid))

theorem VersionsBacked.land (h : t.VersionsBacked) (returned : List String) :
    VersionsBacked { t with bodies := returned ++ t.bodies } :=
  h.mono (fun _ hid => hid) fun _ hid =>
    hid.mono (fun _ hb => List.mem_append_right _ hb) fun _ hs => hs

theorem VersionsBacked.record (h : t.VersionsBacked) {chunk : Landing}
    (hc : ∀ id ∈ chunk.returned, Names chunk.requested id → t.Backed id) :
    (t.record chunk).VersionsBacked := by
  intro id hid
  rcases recorded_record.mp hid with ⟨hnamed, hret⟩ | ⟨-, hold⟩
  · exact hc id hret hnamed
  · exact h id hold

/-- What loses its body loses its version with it. -/
theorem VersionsBacked.drop
    (h : ∀ id, t.Recorded id → t.Backed id ∨ id ∈ ids) : (t.drop ids).VersionsBacked := by
  intro id hid
  obtain ⟨hold, hno⟩ := recorded_drop.mp hid
  exact (h id hold).resolve_right hno

/-- A body is deleted by a saga that will drop its version. -/
theorem VersionsBacked.delete (id : String)
    (h : ∀ x, t.Recorded x → t.Backed x ∨ saga.Drops x) (hid : saga.Drops id) :
    VersionsBacked ({ t with bodies := t.bodies.filter (· ≠ id) }.spawn [saga]) := by
  intro x hx
  refine backed_spawn.mpr ?_
  by_cases he : x = id
  · exact .inr ⟨saga, List.mem_singleton_self _, he ▸ hid⟩
  · rcases h x hx with (hb | hd) | hd
    · exact .inl (.inl (List.mem_filter.mpr ⟨hb, decide_eq_true he⟩))
    · exact .inl (.inr hd)
    · exact .inr ⟨saga, List.mem_singleton_self _, hd⟩

/-- The one saga goes on to a next effect with what it has to drop. -/
theorem VersionsBacked.goOn
    (h : ∀ x, t.Recorded x → t.Backed x ∨ saga.Drops x) : (t.spawn [saga]).VersionsBacked := by
  intro x hx
  refine backed_spawn.mpr ((h x hx).imp_right fun hd => ?_)
  exact ⟨saga, List.mem_singleton_self _, hd⟩

theorem VersionsBacked.publish {w : LocalWrite} (version : Nat)
    (h : ∀ x, t.Recorded x → t.Backed x ∨ (Saga.publishing w version).Drops x) :
    ((t.publish w).spawn [.ingesting w version]).VersionsBacked := by
  refine VersionsBacked.goOn fun x hx => ?_
  unfold BodyTab.publish at hx ⊢
  split at hx
  · exact h x hx
  · exact h x hx

theorem VersionsBacked.transact (h : t.VersionsBacked) (w : LocalWrite) (version : Nat) :
    ((t.transact w).spawn [.publishing w version]).VersionsBacked := by
  unfold BodyTab.transact
  split
  next hw =>
    exact VersionsBacked.delete w.recordId (fun x hx => .inl (h x hx)) ⟨hw, rfl⟩
  next => exact (h.land [w.recordId]).spawn _

theorem VersionsBacked.recordWrite {w : LocalWrite} {version : Nat}
    (h : ∀ x, t.Recorded x → t.Backed x ∨ (Saga.versioning w version).Drops x)
    (hok : w.kind ≠ .delete → t.Backed w.recordId) : (t.recordWrite w version).VersionsBacked := by
  unfold BodyTab.recordWrite
  split
  next =>
    exact VersionsBacked.drop fun x hx => (h x hx).imp_right fun hd => by simp [hd.2]
  next hw =>
    have hall : t.VersionsBacked := fun x hx => (h x hx).resolve_right fun hd => hw hd.1
    refine hall.record fun x hx _ => ?_
    rw [List.mem_singleton.mp hx]
    exact hok hw

/-- A saga that goes on in time leaves every version with its body, if it had none left to drop but
its own. -/
theorem VersionsBacked.resume {answer : Answer}
    (h : ∀ x, t.Recorded x → t.Backed x ∨ saga.Drops x) (hok : t.Timely saga answer)
    (hu : t.resume saga answer = some u) : u.VersionsBacked := by
  have hfree : (∀ x, ¬ saga.Drops x) → t.VersionsBacked :=
    fun hd x hx => (h x hx).resolve_right (hd x)
  unfold BodyTab.resume at hu
  split at hu
  next => cases hu; exact (hfree fun _ => id).spawn _
  next => cases hu; exact ((hfree fun _ => id).land _).spawn _
  next => cases hu; exact (hfree fun _ => id).spawn _
  next chunk rest =>
    cases hu
    refine ((hfree fun _ => id).record fun id hret hnamed => hok id ?_).spawn _
    exact List.mem_filter.mpr ⟨hret, decide_eq_true hnamed⟩
  next =>
    -- what is still held, or seen by a follower, is left alone
    dsimp only at hu
    split at hu
    · cases hu; exact hfree fun _ => id
    · cases hu; exact (hfree fun _ => id).spawn _
  next => cases hu; exact hfree fun _ => id
  next => cases hu; exact (hfree fun _ => id).spawn _
  next left done rest id ok =>
    split at hu
    next => cases hu
    next =>
      split at hu
      · cases hu
        refine VersionsBacked.delete id (fun x hx => ?_) List.mem_cons_self
        exact (h x hx).imp_right fun hd => List.mem_cons_of_mem _ hd
      · cases hu
        exact VersionsBacked.goOn h
  next => cases hu; exact (VersionsBacked.drop h).spawn _
  next w version => cases hu; exact (hfree fun _ => id).transact w version
  next => cases hu; exact hfree fun _ => id
  next w version => cases hu; exact VersionsBacked.publish version h
  next => cases hu; exact VersionsBacked.goOn h
  next w version =>
    cases hu
    intro x hx
    refine (h x hx).elim id fun hd => ?_
    obtain ⟨hw, rfl⟩ := hd
    exact hok w.recordId (by simp [stamped, hw, hx])
  next w version =>
    cases hu
    exact VersionsBacked.recordWrite h fun hw => hok w.recordId (by simp [stamped, hw])
  next => cases hu; exact hfree fun _ => id
  next => cases hu; exact hfree fun _ => id
  next => cases hu

/-- What starts a saga, or changes the state beside them, leaves the versions and the bodies. -/
theorem VersionsBacked.beside (h : t.VersionsBacked) {state : ClientState}
    (hv : state.versions = t.state.versions) : VersionsBacked { t with state } :=
  h.mono (fun id hid => by
    unfold Recorded at hid ⊢
    exact hv ▸ hid) fun _ hid => hid

end

theorem versions_withEntry (s : ClientState) (hash : String) (f : QueryEntry → QueryEntry) :
    (s.withEntry hash f).versions = s.versions := by
  unfold ClientState.withEntry
  split <;> rfl

theorem versions_commitMembership {s s' : ClientState} {hash : String}
    {remoteArray : RecordVersionArray} {present : Bool}
    (h : s.commitMembership hash remoteArray present = some s') : s'.versions = s.versions := by
  unfold ClientState.commitMembership at h
  split at h
  next => cases h; rfl
  next =>
    split at h
    · cases h
    · cases h; rfl

theorem VersionsBacked.step {t u : BodyTab} {e : Event} (h : t.VersionsBacked) (hok : t.InTime e)
    (hu : t.step e = some u) : u.VersionsBacked := by
  cases e with
  | putQuery hash entry | removeQuery hash | ack mutationId now
  | ackPrune now graceMs => cases hu; exact h.beside rfl
  | applyMembership hash remoteArray rowMeta =>
    simp only [BodyTab.step] at hu
    split at hu
    next => cases hu; exact h
    next =>
      split at hu
      next => cases hu; exact h
      next => cases hu; exact h.beside (versions_withEntry ..)
      next =>
        obtain ⟨state, hstate, rfl⟩ := Option.map_eq_some_iff.mp hu
        exact (h.beside (versions_commitMembership hstate)).spawn _
  | applySubqueryChildren hash children =>
    simp only [BodyTab.step] at hu
    split at hu
    next => cases hu; exact h
    next =>
      split at hu
      · cases hu; exact h
      · cases hu; exact (h.beside (versions_withEntry ..)).spawn _
  | reloadViews vouched => cases hu; exact h
  | collectOrphans =>
    simp only [BodyTab.step] at hu
    split at hu
    · cases hu
    · cases hu; exact h.spawn _
  | fetchRows | write w => cases hu; exact h.spawn _
  | landInlineRows rows =>
    simp only [BodyTab.step] at hu
    split at hu
    · cases hu; exact h
    · cases hu; exact h.spawn _
  | flushWrite key mutationId =>
    simp only [BodyTab.step] at hu
    split at hu
    next => cases hu; exact h
    next => cases hu; exact VersionsBacked.spawn h _
  | resume saga answer =>
    simp only [BodyTab.step] at hu
    split at hu
    next =>
      exact VersionsBacked.resume (t := t.others saga) (fun x hx => (h x hx).erase) hok hu
    next => cases hu

/-! ## Runs -/

theorem versionsBacked_primed (stored : RecordVersionArray)
    (queries : ExtTreeMap String QueryEntry) (outbox : List OutboxItem) (vouched : List String)
    (follower : Bool) : (primed stored queries outbox vouched follower).VersionsBacked := by
  intro id hid
  rcases mem_setVersions.mp hid.1 with hid | hid
  · exact .inl hid
  · exact absurd hid (by simp)

theorem names_foldl_raise (l m : RecordVersionArray) (id : String) :
    Names (l.foldl ClientState.raise m) id ↔ Names m id ∨ Names l id := by
  induction l generalizing m with
  | nil => simp [Names]
  | cons r l ih =>
    have hset : Names (ClientState.raise m r) id ↔ Names m id ∨ id = r.1 := by
      unfold Names ClientState.raise
      rw [← not_iff_not, ← EntryMap.get_eq_none, EntryMap.get_set, not_or, ← EntryMap.get_eq_none]
      by_cases hid : id = r.1 <;> simp [hid]
    have hcons : Names (r :: l) id ↔ id = r.1 ∨ Names l id := List.mem_cons
    rw [List.foldl_cons, ih, hset, hcons, or_assoc]

/-- What is named above the version recorded for it is in the plan. -/
theorem mem_planVersions {s : ClientState} {hash : String} {e : QueryEntry} {id : String} {v : Nat}
    (he : s.queries[hash]? = some e) (hphase : hasServerMembership e.phase = true)
    (hid : (id, v) ∈ e.remoteArray) (hpending : id ∉ s.pendingDeleteIds)
    (habove : above s.versions[id]? v = true) : Names s.planVersions id := by
  have hneeded : (id, v) ∈ s.needed e := by
    unfold ClientState.needed
    rw [if_pos hphase, List.mem_filter]
    exact ⟨hid, by simp [hpending, habove]⟩
  have hwanted : Names (s.queries.toList.flatMap fun q => s.needed q.2 ++ s.neededChildren q.2) id := by
    refine List.mem_map.mpr ⟨(id, v), List.mem_flatMap.mpr ⟨(hash, e), ?_, ?_⟩, rfl⟩
    · exact ExtTreeMap.mem_toList_iff_getElem?_eq_some.mpr he
    · exact List.mem_append_left _ hneeded
  exact (names_foldl_raise _ _ _).mpr (.inr hwanted)

/-- The chunks hold all of the plan. -/
theorem exists_chunk {s : ClientState} {id : String} (h : Names s.planVersions id) :
    ∃ chunk ∈ s.planFetch, Names chunk id := by
  obtain ⟨r, hr, rfl⟩ := List.mem_map.mp h
  obtain ⟨j, hj, hget⟩ := List.getElem_of_mem hr
  have hpos : 0 < ClientState.fetchChunk := by decide
  have hdiv := Nat.div_add_mod j ClientState.fetchChunk
  have hmod := Nat.mod_lt j hpos
  refine ⟨(s.planVersions.drop (j / ClientState.fetchChunk * ClientState.fetchChunk)).take
    ClientState.fetchChunk, List.mem_map.mpr ⟨j / ClientState.fetchChunk, ?_, rfl⟩,
    List.mem_map.mpr ⟨r, ?_, rfl⟩⟩
  · rw [List.mem_range, Nat.div_lt_iff_lt_mul hpos]
    have hup := Nat.lt_div_mul_add hpos (a := s.planVersions.length + ClientState.fetchChunk - 1)
    omega
  · rw [List.mem_iff_getElem?]
    refine ⟨j % ClientState.fetchChunk, ?_⟩
    rw [List.getElem?_take_of_lt hmod, List.getElem?_drop, Nat.mul_comm, hdiv,
      List.getElem?_eq_getElem hj, hget]

/-- As long as no version is recorded for a body that is gone for good, once no saga is running
every row a query names at a version that is recorded has its body, unless the answer left the row
out; so the plan has every other row the store lacks. -/
theorem recorded_versions_backed (stored : RecordVersionArray)
    (queries : ExtTreeMap String QueryEntry) (outbox : List OutboxItem) (vouched : List String)
    (follower : Bool) (t : BodyTab)
    (hrun : Run BodyTab.step InTime (primed stored queries outbox vouched follower) t)
    (hidle : t.sagas = []) :
    (∀ (hash : String) (e : QueryEntry) (id : String) (v recorded : Nat),
      t.state.queries[hash]? = some e → (id, v) ∈ e.remoteArray →
      t.state.versions[id]? = some recorded → v ≤ recorded → id ∉ t.unreturned →
      id ∈ t.bodies) ∧
    ∀ (hash : String) (e : QueryEntry) (id : String) (v : Nat),
      t.state.queries[hash]? = some e → (id, v) ∈ e.remoteArray →
      hasServerMembership e.phase = true → id ∉ t.state.pendingDeleteIds → id ∉ t.bodies →
      ¬ (id ∈ t.state.versions ∧ id ∈ t.unreturned) →
      ∃ chunk ∈ t.state.planFetch, Names chunk id := by
  have hbacked : t.VersionsBacked := hrun.invariant
    (versionsBacked_primed stored queries outbox vouched follower)
    fun _ _ _ h hok hstep => h.step hok hstep
  have hbody : ∀ id, id ∈ t.state.versions → id ∉ t.unreturned → id ∈ t.bodies := by
    intro id hv hret
    rcases hbacked id ⟨hv, hret⟩ with hb | ⟨saga, hs, -⟩
    · exact hb
    · rw [hidle] at hs
      cases hs
  refine ⟨fun hash e id v recorded _ _ hv _ hret => ?_, ?_⟩
  · refine hbody id ?_ hret
    rw [← ExtTreeMap.isSome_getElem?_iff_mem, hv]
    rfl
  · intro hash e id v he hid hphase hpending hgone hleft
    have hnone : t.state.versions[id]? = none := by
      refine ExtTreeMap.getElem?_eq_none fun hv => hgone (hbody id hv ?_)
      exact fun hret => hleft (And.intro hv hret)
    exact exists_chunk (mem_planVersions he hphase hid hpending (by rw [hnone]; rfl))

/-! ## A version without its body -/

/-- A live query with one row, whose body is in the store. -/
def oneBody : BodyTab :=
  let e : QueryEntry := ⟨.live, [("task:1", 1)], [], [], false, false⟩
  primed [("task:1", 1)] (ExtTreeMap.insert ∅ "q" e) [] [] false

/-- The row moves on and is fetched, up to the ingest of the new body. -/
def landOne : List Event :=
  [.applyMembership "q" [("task:1", 2)] none,
    .resume (.forgetting []) .ok,
    .fetchRows,
    .resume (.fetching [[("task:1", 2)]]) (.rows [some ["task:1"]]),
    .resume (.landing ⟨[("task:1", 2)], ["task:1"]⟩ []) .ok]

/-- The row leaves the query, and what forgets it deletes the body and then the version. -/
def forgetOne : List Event :=
  [.applyMembership "q" [] (some ⟨true, some 0, some .ready⟩),
    .resume (.forgetting ["task:1"]) .ok,
    .resume (.deleting ["task:1"] [] []) (.deleted "task:1" true),
    .resume (.deleting [] ["task:1"] []) .ok]

/-- The fetch records the version. -/
def recordOne : Event := .resume (.recording ⟨[("task:1", 2)], ["task:1"]⟩ []) .ok

/-- A row that is recorded before it leaves the query has its body. -/
theorem recorded_versions_backed_one : ∃ t : BodyTab, Run BodyTab.step InTime oneBody t ∧
    t.state.versions["task:1"]? = some 2 ∧ "task:1" ∈ t.bodies := by
  have hrun : (runAll BodyTab.step (fun t e => decide (t.InTime e)) oneBody
      (landOne ++ [recordOne])).any (fun t => t.sagas = [] ∧
        (t.state.queries["q"]?.map (·.remoteArray)) = some [("task:1", 2)] ∧
        t.state.versions["task:1"]? = some 2 ∧ t.unreturned = []) = true := by decide +kernel
  obtain ⟨t, ht, hall⟩ := exists_run hrun
  obtain ⟨hidle, hquery, hversion, hret⟩ := of_decide_eq_true hall
  obtain ⟨e, he, hrows⟩ := Option.map_eq_some_iff.mp hquery
  have hin : Run BodyTab.step InTime oneBody t :=
    ht.mono fun _ _ => of_decide_eq_true
  refine ⟨t, hin, hversion, ?_⟩
  exact (recorded_versions_backed _ _ _ _ _ t hin hidle).1 "q" e "task:1" 2 2 he
    (by rw [hrows]; exact List.mem_singleton_self _) hversion (Nat.le_refl 2) (by rw [hret]; simp)

/-- A row that leaves while its body is ingested and is named again has a version recorded, and no
body, with no saga left to change it. -/
theorem late_record_outlives_body : ¬ ∀ t : BodyTab,
    Run BodyTab.step (fun _ _ => True) oneBody t → t.sagas = [] →
    ∀ (hash : String) (e : QueryEntry) (id : String) (v recorded : Nat),
      t.state.queries[hash]? = some e → (id, v) ∈ e.remoteArray → t.state.versions[id]? = some recorded → v ≤ recorded →
      id ∉ t.unreturned → id ∈ t.bodies := by
  intro h
  have hrun : (runAll BodyTab.step (fun _ _ => true) oneBody
      (landOne ++ forgetOne ++ [recordOne] ++ landOne.take 2)).any (fun t => t.sagas = [] ∧
        (t.state.queries["q"]?.map (·.remoteArray)) = some [("task:1", 2)] ∧
        t.state.versions["task:1"]? = some 2 ∧ t.unreturned = [] ∧ t.bodies = []) = true := by
    decide +kernel
  obtain ⟨t, ht, hall⟩ := exists_freeRun hrun
  obtain ⟨hidle, hquery, hversion, hret, hgone⟩ := of_decide_eq_true hall
  obtain ⟨e, he, hrows⟩ := Option.map_eq_some_iff.mp hquery
  have hbody := h t ht hidle "q" e "task:1" 2 2 he
    (by rw [hrows]; exact List.mem_singleton_self _) hversion (Nat.le_refl 2) (by rw [hret]; simp)
  rw [hgone] at hbody
  cases hbody

end BodyTab

end Sp00ky.Core.Client
