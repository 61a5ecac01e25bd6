/-
  The pool of SSPs and its handover (`apps/scheduler/src/router.rs`).

  The pool is a map for every thing it knows of an SSP, and the handover one record for every
  connected SSP that has a state. What the pool knows of another id is not in it: the registration
  number of a removed SSP is lost (`removed_registration_lost`), and so is all but one of the ids
  that one SSP replaced. Nothing else is: the successor answers as the pool does exactly when the
  pool knows nothing of such ids (`handover_carries_iff`).
-/
import Sp00ky.Lib.Maps
import Sp00ky.Scheduler.Wal

namespace Sp00ky.Scheduler

open Std Lib
open ExtTreeMap (contains_eq_isSome_getElem? getElem?_empty getElem?_insert getElem?_insert_self
  mem_keys)

/-- `SspState`. -/
inductive SspState where
  | bootstrapping | replaying | ready | lagging | retiring | retired
deriving DecidableEq, Repr

/-- `ResyncKind`. -/
inductive ResyncKind where
  | resync | clean
deriving DecidableEq, Repr

/-- `SspInfo`. -/
structure SspInfo where
  id : String
  url : String
  version : String
  views : Nat
deriving DecidableEq, Repr

/-- `SspSnapshot`. -/
structure SspSnapshot where
  info : SspInfo
  state : SspState
  buffer : List RecordUpdate
  bootstrapSeq : Option Nat
  registrationGen : Nat
  bufferOverflowed : Bool
  forcedResync : Option ResyncKind
  standbyOf : Option String
  replaced : Option String

/-- `SspPool`. -/
structure SspPool where
  ssps : ExtTreeMap String SspInfo
  sspStates : ExtTreeMap String SspState
  messageBuffers : ExtTreeMap String (List RecordUpdate)
  sspSnapshotSeqs : ExtTreeMap String Nat
  forcedResync : ExtTreeMap String ResyncKind
  bufferOverflowed : ExtTreeMap String Unit
  registrationGens : ExtTreeMap String Nat
  standbyOf : ExtTreeMap String String
  replacedBy : ExtTreeMap String String
  maxBufferSize : Nat

namespace SspPool

/-- `SspPool::new`. -/
def new (maxBufferSize : Nat) : SspPool := ⟨∅, ∅, ∅, ∅, ∅, ∅, ∅, ∅, ∅, maxBufferSize⟩

/-! ## What is asked of a pool -/

variable (p : SspPool) (id : String)

/-- `get_state`. -/
def getState : Option SspState := p.sspStates[id]?

/-- `is_ready`. -/
def isReady : Bool := p.sspStates[id]? = some .ready

/-- `has_buffer_overflow`. -/
def hasBufferOverflow : Bool := p.bufferOverflowed.contains id

/-- `takes_jobs`. -/
def takesJobs : Bool :=
  if p.standbyOf.contains id then false
  else
    match p.sspStates[id]? with
    | some .ready => true
    | some .lagging => !p.bufferOverflowed.contains id
    | _ => false

/-- `pending_resync`. -/
def pendingResync : Option ResyncKind := p.forcedResync[id]?

/-- `get_bootstrap_seq`. -/
def getBootstrapSeq : Option Nat := p.sspSnapshotSeqs[id]?

/-- `registration_gen`. -/
def registrationGen : Nat := p.registrationGens[id]?.getD 0

/-- `standby_predecessor`. -/
def standbyPredecessor : Option String := p.standbyOf[id]?

/-- `replaced_by`: a successor that is not connected does not count. -/
def replacedById : Option String := p.replacedBy[id]?.filter fun successor => p.ssps.contains successor

/-- `drain_buffer`. -/
def drainBuffer : SspPool × List RecordUpdate :=
  match p.messageBuffers[id]? with
  | some buffer => ({ p with messageBuffers := p.messageBuffers.insert id [] }, buffer)
  | none => (p, [])

/-! ## What changes a pool -/

/-- `mark_for_resync_with`: `Clean` stays. -/
def markForResyncWith (kind : ResyncKind) : SspPool :=
  { p with
      forcedResync := p.forcedResync.alter id fun old =>
        some (if kind = .clean then .clean else old.getD kind) }

/-- `mark_all_for_resync_with`. -/
def markAllForResyncWith (kind : ResyncKind) : SspPool :=
  p.ssps.keys.foldl (fun p id => p.markForResyncWith id kind) p

/-- `take_resync`. -/
def takeResync : SspPool := { p with forcedResync := p.forcedResync.erase id }

/-- `upsert`. -/
def upsert (info : SspInfo) : SspPool := { p with ssps := p.ssps.insert info.id info }

/-- `update_ssp`: a heartbeat of an unknown SSP adds it. -/
def updateSsp (views : Nat) (version : String) : SspPool :=
  { p with
      ssps := p.ssps.alter id fun
        | some info => some { info with views := views, version := version }
        | none => some ⟨id, "", version, views⟩ }

/-- `buffer_message`. -/
def bufferMessage (message : RecordUpdate) : SspPool :=
  match p.sspStates[id]? with
  | some .bootstrapping | some .replaying | some .lagging | some .retiring =>
    let buffer := p.messageBuffers[id]?.getD []
    if p.maxBufferSize ≤ buffer.length then
      { p with
          messageBuffers := p.messageBuffers.insert id []
          bufferOverflowed := p.bufferOverflowed.insert id () }
    else { p with messageBuffers := p.messageBuffers.insert id (buffer ++ [message]) }
  | _ => p

/-- `mark_ready`. -/
def markReady : SspPool :=
  { p with
      sspStates := p.sspStates.insert id .ready
      bufferOverflowed := p.bufferOverflowed.erase id
      messageBuffers := p.messageBuffers.erase id }

/-- `mark_bootstrapping`. -/
def markBootstrapping : SspPool :=
  { p with
      messageBuffers := p.messageBuffers.erase id
      bufferOverflowed := p.bufferOverflowed.erase id
      sspStates := p.sspStates.insert id .bootstrapping }

/-- `mark_replaying`. -/
def markReplaying : SspPool := { p with sspStates := p.sspStates.insert id .replaying }

/-- `mark_lagging`: from `Ready` only. -/
def markLagging : SspPool :=
  if p.sspStates[id]? = some .ready then { p with sspStates := p.sspStates.insert id .lagging }
  else p

/-- `requeue_front`. -/
def requeueFront (messages : List RecordUpdate) : SspPool :=
  if messages.isEmpty then p
  else
    { p with messageBuffers :=
        p.messageBuffers.insert id (messages ++ p.messageBuffers[id]?.getD []) }

/-- `bump_registration_gen`. -/
def bumpRegistrationGen : SspPool :=
  { p with registrationGens := p.registrationGens.insert id (p.registrationGen id + 1) }

/-- `set_bootstrap_seq`. -/
def setBootstrapSeq (seq : Nat) : SspPool :=
  { p with sspSnapshotSeqs := p.sspSnapshotSeqs.insert id seq }

/-- `remove`: the registration number stays. -/
def remove : SspPool :=
  { p with
      sspStates := p.sspStates.erase id
      messageBuffers := p.messageBuffers.erase id
      sspSnapshotSeqs := p.sspSnapshotSeqs.erase id
      forcedResync := p.forcedResync.erase id
      bufferOverflowed := p.bufferOverflowed.erase id
      standbyOf := p.standbyOf.erase id
      ssps := p.ssps.erase id }

/-- `clear_all`. -/
def clearAll : SspPool :=
  { p with
      ssps := ∅, sspStates := ∅, messageBuffers := ∅, sspSnapshotSeqs := ∅, forcedResync := ∅
      bufferOverflowed := ∅, standbyOf := ∅ }

/-- `mark_replaced`. -/
def markReplaced (successor : String) : SspPool :=
  { p with replacedBy := p.replacedBy.insert id successor }

/-- `mark_standby`. -/
def markStandby (predecessor : String) : SspPool :=
  { p with standbyOf := p.standbyOf.insert id predecessor }

/-- `clear_standby`. -/
def clearStandby : SspPool := { p with standbyOf := p.standbyOf.erase id }

/-- `mark_retiring`. -/
def markRetiring : SspPool :=
  if p.ssps.contains id then { p with sspStates := p.sspStates.insert id .retiring } else p

/-- `mark_retired`. -/
def markRetired : SspPool :=
  if p.ssps.contains id then
    { p with
        sspStates := p.sspStates.insert id .retired
        messageBuffers := p.messageBuffers.erase id
        bufferOverflowed := p.bufferOverflowed.erase id
        forcedResync := p.forcedResync.erase id }
  else p

/-- `unretire`. -/
def unretire : SspPool :=
  if p.sspStates[id]? = some .retiring then { p with sspStates := p.sspStates.insert id .lagging }
  else p

/-! ## The handover -/

/-- The record of one connected SSP; the id it replaced is the first one found. -/
def snapshotOf (replacedOrder : List String) : Option SspSnapshot := do
  let info ← p.ssps[id]?
  let state ← p.sspStates[info.id]?
  some
    { info := info
      state := state
      buffer := p.messageBuffers[info.id]?.getD []
      bootstrapSeq := p.sspSnapshotSeqs[info.id]?
      registrationGen := p.registrationGen info.id
      bufferOverflowed := p.bufferOverflowed.contains info.id
      forcedResync := p.forcedResync[info.id]?
      standbyOf := p.standbyOf[info.id]?
      replaced := replacedOrder.find? fun replaced => p.replacedBy[replaced]? = some info.id }

/-- `export`, in the orders the maps of SSPs and of replaced ones are walked in. -/
def exportIn (order replacedOrder : List String) : List SspSnapshot :=
  order.filterMap fun id => p.snapshotOf id replacedOrder

/-- One record of `import`. -/
def importOne (snap : SspSnapshot) : SspPool :=
  { p with
      ssps := p.ssps.insert snap.info.id snap.info
      sspStates := p.sspStates.insert snap.info.id snap.state
      messageBuffers :=
        if snap.buffer.isEmpty then p.messageBuffers
        else p.messageBuffers.insert snap.info.id snap.buffer
      sspSnapshotSeqs := snap.bootstrapSeq.elim p.sspSnapshotSeqs (p.sspSnapshotSeqs.insert snap.info.id)
      registrationGens := p.registrationGens.insert snap.info.id
        (max (p.registrationGen snap.info.id) snap.registrationGen)
      bufferOverflowed :=
        if snap.bufferOverflowed then p.bufferOverflowed.insert snap.info.id ()
        else p.bufferOverflowed
      forcedResync := snap.forcedResync.elim p.forcedResync (p.forcedResync.insert snap.info.id)
      replacedBy := snap.replaced.elim p.replacedBy fun replaced =>
        p.replacedBy.insert replaced snap.info.id
      standbyOf := snap.standbyOf.elim p.standbyOf (p.standbyOf.insert snap.info.id) }

/-- `import`. -/
def importAll (snaps : List SspSnapshot) : SspPool := snaps.foldl importOne p

end SspPool

/-- The operations of a pool. -/
inductive PoolOp where
  | markForResyncWith (id : String) (kind : ResyncKind)
  | markAllForResyncWith (kind : ResyncKind)
  | takeResync (id : String)
  | upsert (info : SspInfo)
  | updateSsp (id : String) (views : Nat) (version : String)
  | bufferMessage (id : String) (message : RecordUpdate)
  | markReady (id : String)
  | markBootstrapping (id : String)
  | markReplaying (id : String)
  | markLagging (id : String)
  | requeueFront (id : String) (messages : List RecordUpdate)
  | bumpRegistrationGen (id : String)
  | drainBuffer (id : String)
  | setBootstrapSeq (id : String) (seq : Nat)
  | remove (id : String)
  | clearAll
  | markReplaced (id successor : String)
  | markStandby (id predecessor : String)
  | clearStandby (id : String)
  | markRetiring (id : String)
  | markRetired (id : String)
  | unretire (id : String)
  | importAll (snaps : List SspSnapshot)

/-- What an operation does. -/
def PoolOp.apply (p : SspPool) : PoolOp → SspPool
  | .markForResyncWith id kind => p.markForResyncWith id kind
  | .markAllForResyncWith kind => p.markAllForResyncWith kind
  | .takeResync id => p.takeResync id
  | .upsert info => p.upsert info
  | .updateSsp id views version => p.updateSsp id views version
  | .bufferMessage id message => p.bufferMessage id message
  | .markReady id => p.markReady id
  | .markBootstrapping id => p.markBootstrapping id
  | .markReplaying id => p.markReplaying id
  | .markLagging id => p.markLagging id
  | .requeueFront id messages => p.requeueFront id messages
  | .bumpRegistrationGen id => p.bumpRegistrationGen id
  | .drainBuffer id => (p.drainBuffer id).1
  | .setBootstrapSeq id seq => p.setBootstrapSeq id seq
  | .remove id => p.remove id
  | .clearAll => p.clearAll
  | .markReplaced id successor => p.markReplaced id successor
  | .markStandby id predecessor => p.markStandby id predecessor
  | .clearStandby id => p.clearStandby id
  | .markRetiring id => p.markRetiring id
  | .markRetired id => p.markRetired id
  | .unretire id => p.unretire id
  | .importAll snaps => p.importAll snaps

/-- The pool some operations lead to. -/
def poolAfter (maxBufferSize : Nat) (ops : List PoolOp) : SspPool :=
  ops.foldl PoolOp.apply (.new maxBufferSize)

/-! ## Keys -/

namespace SspPool

/-- Every SSP is under its id. -/
def Keyed (p : SspPool) : Prop := ∀ (id : String) (info : SspInfo), p.ssps[id]? = some info → info.id = id

theorem keyed_insert {ssps : ExtTreeMap String SspInfo} {info : SspInfo}
    (h : ∀ (id : String) (i : SspInfo), ssps[id]? = some i → i.id = id) :
    ∀ (id : String) (i : SspInfo), (ssps.insert info.id info)[id]? = some i → i.id = id := by
  intro id i hi
  rw [getElem?_insert] at hi
  split at hi
  next heq =>
    cases hi
    simpa using heq
  next => exact h id i hi

theorem keyed_importAll {p : SspPool} (h : p.Keyed) (snaps : List SspSnapshot) :
    (p.importAll snaps).Keyed := by
  unfold importAll
  induction snaps generalizing p with
  | nil => exact h
  | cons snap snaps ih =>
    rw [List.foldl_cons]
    exact ih (keyed_insert h)

theorem keyed_markAll {p : SspPool} (h : p.Keyed) (kind : ResyncKind) (ids : List String) :
    (ids.foldl (fun p id => p.markForResyncWith id kind) p).Keyed := by
  induction ids generalizing p with
  | nil => exact h
  | cons id ids ih =>
    rw [List.foldl_cons]
    exact ih h

theorem keyed_apply {p : SspPool} (h : p.Keyed) (op : PoolOp) : (op.apply p).Keyed := by
  cases op with
  | upsert info => exact keyed_insert h
  | updateSsp id views version =>
    intro k info hi
    change (p.ssps.alter id _)[k]? = some info at hi
    rw [ExtTreeMap.getElem?_alter] at hi
    split at hi
    next heq =>
      have hk : id = k := by simpa using heq
      subst hk
      cases hold : p.ssps[id]? with
      | none =>
        rw [hold] at hi
        cases hi
        rfl
      | some old =>
        rw [hold] at hi
        cases hi
        exact h id old hold
    next => exact h k info hi
  | bufferMessage id message =>
    change (p.bufferMessage id message).Keyed
    unfold bufferMessage
    split
    all_goals first
      | exact h
      | (dsimp only; split <;> exact h)
  | markAllForResyncWith kind => exact keyed_markAll h kind _
  | markLagging id =>
    change (p.markLagging id).Keyed
    unfold markLagging
    split <;> exact h
  | requeueFront id messages =>
    change (p.requeueFront id messages).Keyed
    unfold requeueFront
    split <;> exact h
  | drainBuffer id =>
    change (p.drainBuffer id).1.Keyed
    unfold drainBuffer
    split <;> exact h
  | remove id =>
    intro k info hi
    change (p.ssps.erase id)[k]? = some info at hi
    rw [ExtTreeMap.getElem?_erase] at hi
    split at hi
    · cases hi
    · exact h k info hi
  | clearAll =>
    intro k info hi
    change (∅ : ExtTreeMap String SspInfo)[k]? = some info at hi
    rw [getElem?_empty] at hi
    cases hi
  | markRetiring id =>
    change (p.markRetiring id).Keyed
    unfold markRetiring
    split <;> exact h
  | markRetired id =>
    change (p.markRetired id).Keyed
    unfold markRetired
    split <;> exact h
  | unretire id =>
    change (p.unretire id).Keyed
    unfold unretire
    split <;> exact h
  | importAll snaps => exact keyed_importAll h snaps
  | _ => exact h

theorem keyed_poolAfter (maxBufferSize : Nat) (ops : List PoolOp) :
    (poolAfter maxBufferSize ops).Keyed := by
  have hrun : ∀ (p : SspPool), p.Keyed → (ops.foldl PoolOp.apply p).Keyed := by
    induction ops with
    | nil => exact fun p h => h
    | cons op ops ih => exact fun p h => ih _ (keyed_apply h op)
  refine hrun _ fun id info hi => ?_
  change (∅ : ExtTreeMap String SspInfo)[id]? = some info at hi
  rw [getElem?_empty] at hi
  cases hi

/-! ## What a pool knows of one id -/

/-- The maps of a pool at one id. -/
structure Entry where
  info : Option SspInfo
  state : Option SspState
  buffer : Option (List RecordUpdate)
  bootstrapSeq : Option Nat
  registrationGen : Nat
  bufferOverflowed : Bool
  forcedResync : Option ResyncKind
  standbyOf : Option String

def entry (p : SspPool) (id : String) : Entry :=
  { info := p.ssps[id]?
    state := p.sspStates[id]?
    buffer := p.messageBuffers[id]?
    bootstrapSeq := p.sspSnapshotSeqs[id]?
    registrationGen := p.registrationGen id
    bufferOverflowed := p.bufferOverflowed.contains id
    forcedResync := p.forcedResync[id]?
    standbyOf := p.standbyOf[id]? }

/-- What a record makes of it. -/
def onto (snap : SspSnapshot) (old : Entry) : Entry :=
  { info := some snap.info
    state := some snap.state
    buffer := if snap.buffer.isEmpty then old.buffer else some snap.buffer
    bootstrapSeq := snap.bootstrapSeq.or old.bootstrapSeq
    registrationGen := max old.registrationGen snap.registrationGen
    bufferOverflowed := snap.bufferOverflowed || old.bufferOverflowed
    forcedResync := snap.forcedResync.or old.forcedResync
    standbyOf := snap.standbyOf.or old.standbyOf }

theorem getElem?_elim_insert {β : Type} (m : ExtTreeMap String β) (id k : String) (o : Option β) :
    (o.elim m (m.insert id))[k]? = if id = k then o.or m[k]? else m[k]? := by
  cases o with
  | none =>
    rw [Option.none_or, ite_self]
    rfl
  | some b =>
    rw [Option.elim_some, getElem?_insert]
    by_cases h : id = k <;> simp [h]

theorem entry_importOne (p : SspPool) (snap : SspSnapshot) (k : String) :
    (p.importOne snap).entry k =
      if some snap.info.id = some k then onto snap (p.entry k) else p.entry k := by
  by_cases h : snap.info.id = k
  · subst h
    rw [if_pos rfl]
    unfold entry onto importOne registrationGen
    simp only [getElem?_elim_insert, if_true, getElem?_insert_self, Option.getD_some,
      Entry.mk.injEq, true_and, and_true]
    refine ⟨?_, ?_⟩
    · split
      · rfl
      · exact getElem?_insert_self
    · cases snap.bufferOverflowed <;> simp
  · have hne : ¬ some snap.info.id = some k := by simpa using h
    rw [if_neg hne]
    unfold entry importOne registrationGen
    simp only [getElem?_elim_insert, if_neg h, getElem?_insert]
    have hcmp : ¬ compare snap.info.id k = .eq := by simpa using h
    simp only [if_neg hcmp, Entry.mk.injEq, true_and, and_true]
    refine ⟨?_, ?_⟩
    · split
      · rfl
      · rw [getElem?_insert, if_neg hcmp]
    · split
      · rw [ExtTreeMap.contains_insert]
        simp [h]
      · rfl

/-- The entry of a replaced id, whether its successor is there or not. -/
def replacedAt (p : SspPool) (id : String) : Option String := p.replacedBy[id]?

theorem replacedAt_importOne (p : SspPool) (snap : SspSnapshot) (k : String) :
    (p.importOne snap).replacedAt k =
      if snap.replaced = some k then some snap.info.id else p.replacedAt k := by
  unfold replacedAt importOne
  cases snap.replaced with
  | none => rfl
  | some replaced =>
    dsimp only [Option.elim_some]
    rw [getElem?_insert]
    by_cases h : replaced = k <;> simp [h]

/-- An SSP of the handover. -/
def isExported (p : SspPool) (id : String) : Bool := p.ssps.contains id && p.sspStates.contains id

theorem snapshotOf_none {p : SspPool} {id : String} {replacedOrder : List String} (hk : p.Keyed)
    (h : p.isExported id = false) : p.snapshotOf id replacedOrder = none := by
  unfold snapshotOf
  unfold isExported at h
  cases hi : p.ssps[id]? with
  | none => rfl
  | some info =>
    rw [contains_eq_isSome_getElem?, hi, Option.isSome_some, Bool.true_and,
      contains_eq_isSome_getElem?, Option.isSome_eq_false_iff, Option.isNone_iff_eq_none] at h
    have hstate : p.sspStates[info.id]? = none := by
      rw [hk id info hi]
      exact h
    rw [Option.bind_eq_bind, Option.bind_some, hstate]
    rfl

theorem snapshotOf_some {p : SspPool} {id : String} {replacedOrder : List String} (hk : p.Keyed)
    (h : p.isExported id = true) : ∃ snap, p.snapshotOf id replacedOrder = some snap ∧
      snap.info.id = id ∧ onto snap ((new 0).entry id) =
        { p.entry id with buffer :=
            if (p.messageBuffers[id]?.getD []).isEmpty then none else p.messageBuffers[id]? } ∧
      snap.replaced = replacedOrder.find? fun replaced => p.replacedBy[replaced]? = some id := by
  unfold isExported at h
  rw [Bool.and_eq_true, contains_eq_isSome_getElem?,
    contains_eq_isSome_getElem?] at h
  obtain ⟨info, hi⟩ := Option.isSome_iff_exists.mp h.1
  obtain ⟨state, hs⟩ := Option.isSome_iff_exists.mp h.2
  have hid := hk id info hi
  subst hid
  have hsnap := Eq.refl (p.snapshotOf info.id replacedOrder)
  conv_rhs at hsnap =>
    unfold snapshotOf
    rw [hi, Option.bind_eq_bind, Option.bind_some, hs, Option.bind_eq_bind, Option.bind_some]
  refine ⟨_, hsnap, rfl, ?_, rfl⟩
  unfold onto entry new
  simp only [getElem?_empty, ExtTreeMap.contains_empty, Option.or_none, Bool.or_false, hi, hs,
    Entry.mk.injEq, true_and, and_true]
  refine ⟨?_, ?_⟩
  · cases hb : p.messageBuffers[info.id]? with
    | none => rfl
    | some buffer => rfl
  · unfold registrationGen
    rw [getElem?_empty]
    exact Nat.zero_max _

/-! ## The orders of the maps -/

/-- An order a map is walked in: its keys, each once. -/
structure KeyOrder {β : Type} (m : ExtTreeMap String β) where
  keys : List String
  nodup : keys.Nodup
  mem : ∀ k, k ∈ keys ↔ m.contains k = true

/-- The pool a successor takes over. -/
def handedOver (p : SspPool) (order : KeyOrder p.ssps) (replacedOrder : KeyOrder p.replacedBy)
    (maxBufferSize : Nat) : SspPool :=
  (new maxBufferSize).importAll (p.exportIn order.keys replacedOrder.keys)

section

variable {p : SspPool} {order : KeyOrder p.ssps} {replacedOrder : KeyOrder p.replacedBy}
  {maxBufferSize : Nat}

theorem mem_exportIn {snap : SspSnapshot} :
    snap ∈ p.exportIn order.keys replacedOrder.keys ↔
      ∃ id, p.snapshotOf id replacedOrder.keys = some snap := by
  unfold exportIn
  rw [List.mem_filterMap]
  constructor
  · rintro ⟨id, -, hid⟩
    exact ⟨id, hid⟩
  · rintro ⟨id, hid⟩
    refine ⟨id, ?_, hid⟩
    rw [order.mem, contains_eq_isSome_getElem?]
    unfold snapshotOf at hid
    obtain ⟨info, hi, -⟩ := Option.bind_eq_some_iff.mp hid
    rw [hi]
    rfl

theorem exported_of_snapshot (hk : p.Keyed) {id : String} {snap : SspSnapshot}
    (h : p.snapshotOf id replacedOrder.keys = some snap) :
    p.isExported id = true ∧ snap.info.id = id ∧ snap.replaced =
      replacedOrder.keys.find? fun replaced => p.replacedBy[replaced]? = some id := by
  cases he : p.isExported id with
  | false =>
    rw [snapshotOf_none hk he] at h
    cases h
  | true =>
    obtain ⟨snap', hsnap, hid, -, hreplaced⟩ :=
      @snapshotOf_some p id replacedOrder.keys hk he
    rw [h] at hsnap
    cases hsnap
    exact ⟨rfl, hid, hreplaced⟩

theorem nodup_exportIn (hk : p.Keyed) : (p.exportIn order.keys replacedOrder.keys).Nodup := by
  unfold exportIn
  refine List.Nodup.filterMap ?_ order.nodup
  intro id id' snap hid hid'
  have h := (exported_of_snapshot hk hid).2.1
  have h' := (exported_of_snapshot hk hid').2.1
  exact h.symm.trans h'

/-- What a successor knows of an id: what the pool does, of an SSP of the handover. -/
theorem entry_handedOver (hk : p.Keyed) (id : String) :
    (p.handedOver order replacedOrder maxBufferSize).entry id =
      if p.isExported id then
        { p.entry id with buffer :=
            if (p.messageBuffers[id]?.getD []).isEmpty then none else p.messageBuffers[id]? }
      else (new 0).entry id := by
  unfold handedOver importAll
  cases he : p.isExported id with
  | true =>
    obtain ⟨snap, hsnap, hid, honto, -⟩ := @snapshotOf_some p id replacedOrder.keys hk he
    rw [if_pos rfl, ← honto]
    refine foldl_keyed_of_mem entry_importOne
      (nodup_exportIn hk) (mem_exportIn.mpr ⟨id, hsnap⟩) (congrArg some hid) ?_ _
    intro other hother hkey
    obtain ⟨id', hid'⟩ := mem_exportIn.mp hother
    have hsame := (exported_of_snapshot hk hid').2.1
    rw [Option.some.inj hkey] at hsame
    subst hsame
    rw [hsnap] at hid'
    exact (Option.some.inj hid').symm
  | false =>
    rw [if_neg Bool.false_ne_true]
    refine foldl_keyed_of_not_mem entry_importOne ?_ _
    intro snap hsnap hkey
    obtain ⟨id', hid'⟩ := mem_exportIn.mp hsnap
    obtain ⟨hexported, hsame, -⟩ := exported_of_snapshot hk hid'
    rw [← hsame, Option.some.inj hkey, he] at hexported
    cases hexported

/-- The id that a connected SSP hands over as the one it replaced. -/
def handsOver (p : SspPool) (replacedOrder : KeyOrder p.replacedBy) (successor : String) :
    Option String :=
  replacedOrder.keys.find? fun replaced => p.replacedBy[replaced]? = some successor

theorem handsOver_some {successor replaced : String}
    (h : p.handsOver replacedOrder successor = some replaced) :
    p.replacedBy[replaced]? = some successor := by
  have := List.find?_some h
  simpa using this

theorem handsOver_isSome {successor replaced : String}
    (h : p.replacedBy[replaced]? = some successor) :
    ∃ first, p.handsOver replacedOrder successor = some first := by
  refine Option.isSome_iff_exists.mp (List.find?_isSome.mpr ⟨replaced, ?_, by simpa using h⟩)
  rw [replacedOrder.mem, contains_eq_isSome_getElem?, h]
  rfl

theorem replacedBy_handedOver (hk : p.Keyed) (replaced successor : String) :
    (p.handedOver order replacedOrder maxBufferSize).replacedBy[replaced]? = some successor ↔
      p.isExported successor = true ∧ p.handsOver replacedOrder successor = some replaced := by
  unfold handedOver importAll
  by_cases h : ∃ id, p.isExported id = true ∧ p.handsOver replacedOrder id = some replaced
  · obtain ⟨id, hexported, hhands⟩ := h
    obtain ⟨snap, hsnap, hid, -, hreplaced⟩ := @snapshotOf_some p id replacedOrder.keys hk hexported
    have hone : ∀ other ∈ p.exportIn order.keys replacedOrder.keys,
        other.replaced = some replaced → other = snap := by
      intro other hother hkey
      obtain ⟨id', hid'⟩ := mem_exportIn.mp hother
      obtain ⟨-, -, hreplaced'⟩ := exported_of_snapshot hk hid'
      have hsame := handsOver_some (hreplaced'.symm.trans hkey)
      rw [handsOver_some hhands] at hsame
      cases hsame
      rw [hsnap] at hid'
      exact (Option.some.inj hid').symm
    have hlook := @foldl_keyed_of_mem _ _ _ _ instDecidableEqString importOne SspSnapshot.replaced
      replacedAt (fun snap _ => some snap.info.id) replacedAt_importOne _ (nodup_exportIn hk) snap
      (mem_exportIn.mpr ⟨id, hsnap⟩) replaced (hreplaced.trans hhands) hone (new maxBufferSize)
    unfold replacedAt at hlook
    rw [hlook, hid]
    constructor
    · rintro ⟨⟩
      exact ⟨hexported, hhands⟩
    · rintro ⟨-, hhands'⟩
      have := handsOver_some hhands'
      rw [handsOver_some hhands] at this
      exact this
  · have hnone : ∀ snap ∈ p.exportIn order.keys replacedOrder.keys,
        snap.replaced ≠ some replaced := by
      intro snap hsnap hkey
      obtain ⟨id, hid⟩ := mem_exportIn.mp hsnap
      obtain ⟨hexported, -, hreplaced⟩ := exported_of_snapshot hk hid
      exact h ⟨id, hexported, hreplaced.symm.trans hkey⟩
    have hlook := @foldl_keyed_of_not_mem _ _ _ _ instDecidableEqString importOne
      SspSnapshot.replaced replacedAt (fun snap _ => some snap.info.id) replacedAt_importOne _
      replaced hnone (new maxBufferSize)
    unfold replacedAt at hlook
    rw [hlook]
    constructor
    · intro hnew
      change (∅ : ExtTreeMap String String)[replaced]? = _ at hnew
      rw [getElem?_empty] at hnew
      cases hnew
    · rintro ⟨hexported, hhands⟩
      exact absurd ⟨successor, hexported, hhands⟩ h

end

/-! ## What is carried -/

/-- The successor answers as the pool does, and no registration number is lower. -/
structure Carries (p q : SspPool) : Prop where
  getState : ∀ id, q.getState id = p.getState id
  isReady : ∀ id, q.isReady id = p.isReady id
  takesJobs : ∀ id, q.takesJobs id = p.takesJobs id
  hasBufferOverflow : ∀ id, q.hasBufferOverflow id = p.hasBufferOverflow id
  pendingResync : ∀ id, q.pendingResync id = p.pendingResync id
  getBootstrapSeq : ∀ id, q.getBootstrapSeq id = p.getBootstrapSeq id
  standbyPredecessor : ∀ id, q.standbyPredecessor id = p.standbyPredecessor id
  replacedById : ∀ id, q.replacedById id = p.replacedById id
  drainBuffer : ∀ id, (q.drainBuffer id).2 = (p.drainBuffer id).2
  registrationGen : ∀ id, p.registrationGen id ≤ q.registrationGen id

/-- The pool knows nothing of an id. -/
structure Blank (p : SspPool) (id : String) : Prop where
  state : p.sspStates[id]? = none
  buffer : p.messageBuffers[id]?.getD [] = []
  bootstrapSeq : p.sspSnapshotSeqs[id]? = none
  forcedResync : p.forcedResync[id]? = none
  bufferOverflowed : p.bufferOverflowed.contains id = false
  registrationGen : p.registrationGen id = 0
  standbyOf : p.standbyOf[id]? = none

/-- The pool knows only of connected SSPs with a state, and none of them replaced two. -/
structure Carryable (p : SspPool) : Prop where
  known : ∀ id, p.isExported id = false → p.Blank id
  state : ∀ (replaced successor : String), p.replacedBy[replaced]? = some successor →
    p.ssps.contains successor = true → p.isExported successor = true
  one : ∀ (replaced replaced' successor : String), p.replacedBy[replaced]? = some successor →
    p.replacedBy[replaced']? = some successor → p.ssps.contains successor = true →
      replaced = replaced'

theorem drainBuffer_eq (p : SspPool) (id : String) :
    (p.drainBuffer id).2 = ((p.entry id).buffer).getD [] := by
  unfold drainBuffer entry
  cases p.messageBuffers[id]? <;> rfl

theorem takesJobs_eq (p : SspPool) (id : String) :
    p.takesJobs id = (!(p.entry id).standbyOf.isSome && ((p.entry id).state = some .ready ||
      (p.entry id).state = some .lagging && !(p.entry id).bufferOverflowed)) := by
  unfold takesJobs entry
  rw [contains_eq_isSome_getElem?]
  dsimp only
  cases p.standbyOf[id]? with
  | some _ => rfl
  | none =>
    cases p.sspStates[id]? with
    | none => rfl
    | some state => cases state <;> simp

theorem replacedById_some {p : SspPool} {id successor : String} :
    p.replacedById id = some successor ↔
      p.replacedBy[id]? = some successor ∧ p.ssps.contains successor = true := by
  unfold replacedById
  rw [Option.filter_eq_some_iff]

section

variable {p : SspPool} {order : KeyOrder p.ssps} {replacedOrder : KeyOrder p.replacedBy}
  {maxBufferSize : Nat}

theorem entry_eq_of_carryable (hk : p.Keyed) (h : p.Carryable) (id : String) :
    let e := (p.handedOver order replacedOrder maxBufferSize).entry id
    e.state = (p.entry id).state ∧ e.buffer.getD [] = (p.entry id).buffer.getD [] ∧
      e.bootstrapSeq = (p.entry id).bootstrapSeq ∧
      e.registrationGen = (p.entry id).registrationGen ∧
      e.bufferOverflowed = (p.entry id).bufferOverflowed ∧
      e.forcedResync = (p.entry id).forcedResync ∧ e.standbyOf = (p.entry id).standbyOf := by
  intro e
  have he : e = _ := entry_handedOver hk id
  rw [he]
  split
  next hexported =>
    refine ⟨rfl, ?_, rfl, rfl, rfl, rfl, rfl⟩
    change (if (p.messageBuffers[id]?.getD []).isEmpty then none else p.messageBuffers[id]?).getD [] =
      p.messageBuffers[id]?.getD []
    split
    next hempty =>
      rw [List.isEmpty_iff.mp hempty]
      rfl
    next => rfl
  next hnot =>
    have hblank := h.known id (by simpa using hnot)
    exact ⟨hblank.state.symm, hblank.buffer.symm, hblank.bootstrapSeq.symm,
      hblank.registrationGen.symm, hblank.bufferOverflowed.symm, hblank.forcedResync.symm,
      hblank.standbyOf.symm⟩

/-- A connected SSP of the successor. -/
theorem contains_handedOver (hk : p.Keyed) (id : String) :
    (p.handedOver order replacedOrder maxBufferSize).ssps.contains id = p.isExported id := by
  rw [contains_eq_isSome_getElem?]
  have hinfo := congrArg Entry.info (@entry_handedOver p order replacedOrder maxBufferSize hk id)
  change (p.handedOver order replacedOrder maxBufferSize).ssps[id]? = _ at hinfo
  rw [hinfo]
  cases he : p.isExported id with
  | true =>
    unfold isExported at he
    rw [Bool.and_eq_true, contains_eq_isSome_getElem?] at he
    exact he.1
  | false => rfl

theorem replacedById_of_carryable (hk : p.Keyed) (h : p.Carryable) (id : String) :
    (p.handedOver order replacedOrder maxBufferSize).replacedById id = p.replacedById id := by
  refine Option.ext fun successor => ?_
  rw [replacedById_some, replacedById_some, replacedBy_handedOver hk, contains_handedOver hk]
  constructor
  · rintro ⟨⟨hexported, hhands⟩, -⟩
    unfold isExported at hexported
    exact ⟨handsOver_some hhands, (Bool.and_eq_true _ _ ▸ hexported).1⟩
  · rintro ⟨hreplaced, hconnected⟩
    have hexported := h.state id successor hreplaced hconnected
    obtain ⟨first, hfirst⟩ := handsOver_isSome hreplaced
    have hsame := h.one id first successor hreplaced (handsOver_some hfirst) hconnected
    rw [← hsame] at hfirst
    exact ⟨⟨hexported, hfirst⟩, hexported⟩

theorem carries_of_carryable (hk : p.Keyed) (h : p.Carryable) :
    p.Carries (p.handedOver order replacedOrder maxBufferSize) := by
  have hentry := fun id => @entry_eq_of_carryable p order replacedOrder maxBufferSize hk h id
  refine ⟨fun id => (hentry id).1, ?_, ?_, fun id => (hentry id).2.2.2.2.1,
    fun id => (hentry id).2.2.2.2.2.1, fun id => (hentry id).2.2.1, fun id => (hentry id).2.2.2.2.2.2,
    replacedById_of_carryable hk h, ?_, fun id => (hentry id).2.2.2.1.symm.le⟩
  · intro id
    exact congrArg (fun state : Option SspState => decide (state = some .ready)) (hentry id).1
  · intro id
    obtain ⟨hstate, -, -, -, hoverflowed, -, hstandby⟩ := hentry id
    rw [takesJobs_eq, takesJobs_eq, hstate, hoverflowed, hstandby]
  · intro id
    rw [drainBuffer_eq, drainBuffer_eq]
    exact (hentry id).2.1

theorem carryable_of_carries (hk : p.Keyed)
    (h : p.Carries (p.handedOver order replacedOrder maxBufferSize)) : p.Carryable := by
  have hsuccessor : ∀ replaced successor, p.replacedBy[replaced]? = some successor →
      p.ssps.contains successor = true →
        p.isExported successor = true ∧ p.handsOver replacedOrder successor = some replaced := by
    intro replaced successor hreplaced hconnected
    have hanswer := h.replacedById replaced
    rw [replacedById_some.mpr ⟨hreplaced, hconnected⟩, replacedById_some,
      replacedBy_handedOver hk] at hanswer
    exact hanswer.1
  refine ⟨?_, fun replaced successor hr hc => (hsuccessor replaced successor hr hc).1, ?_⟩
  · intro id hnot
    have he := @entry_handedOver p order replacedOrder maxBufferSize hk id
    rw [hnot, if_neg Bool.false_ne_true] at he
    have hgen := h.registrationGen id
    have hdrain := h.drainBuffer id
    rw [drainBuffer_eq, drainBuffer_eq, he] at hdrain
    refine ⟨(h.getState id).symm.trans (congrArg Entry.state he), hdrain.symm,
      (h.getBootstrapSeq id).symm.trans (congrArg Entry.bootstrapSeq he),
      (h.pendingResync id).symm.trans (congrArg Entry.forcedResync he),
      (h.hasBufferOverflow id).symm.trans (congrArg Entry.bufferOverflowed he), ?_,
      (h.standbyPredecessor id).symm.trans (congrArg Entry.standbyOf he)⟩
    have hzero : (p.handedOver order replacedOrder maxBufferSize).registrationGen id = 0 :=
      congrArg Entry.registrationGen he
    omega
  · intro replaced replaced' successor hr hr' hc
    have hfirst := (hsuccessor replaced successor hr hc).2
    rw [(hsuccessor replaced' successor hr' hc).2] at hfirst
    exact (Option.some.inj hfirst).symm

end

end SspPool

/-- The successor of any pool answers as it does, and lowers no registration number, exactly when the
    pool knows only of connected SSPs with a state, and none of them replaced two. -/
theorem handover_carries_iff (maxBufferSize maxBufferSize' : Nat) (ops : List PoolOp)
    (order : SspPool.KeyOrder (poolAfter maxBufferSize ops).ssps)
    (replacedOrder : SspPool.KeyOrder (poolAfter maxBufferSize ops).replacedBy) :
    (poolAfter maxBufferSize ops).Carries
        ((poolAfter maxBufferSize ops).handedOver order replacedOrder maxBufferSize') ↔
      (poolAfter maxBufferSize ops).Carryable :=
  ⟨SspPool.carryable_of_carries (SspPool.keyed_poolAfter _ ops),
    SspPool.carries_of_carryable (SspPool.keyed_poolAfter _ ops)⟩

/-- The order of the keys. -/
def SspPool.KeyOrder.sorted {β : Type} (m : ExtTreeMap String β) : SspPool.KeyOrder m :=
  ⟨m.keys, nodup_keys m, fun k => by rw [mem_keys, ExtTreeMap.contains_iff_mem]⟩

/-- An SSP that registered and was removed. -/
def removed : List PoolOp :=
  [.bumpRegistrationGen "a", .upsert ⟨"a", "http://a", "1", 0⟩, .markBootstrapping "a", .remove "a"]

/-- The registration number of a removed SSP stays in the pool and is not handed over. -/
theorem removed_registration_lost : ¬ ∀ (maxBufferSize maxBufferSize' : Nat) (ops : List PoolOp)
    (order : SspPool.KeyOrder (poolAfter maxBufferSize ops).ssps)
    (replacedOrder : SspPool.KeyOrder (poolAfter maxBufferSize ops).replacedBy),
    (poolAfter maxBufferSize ops).Carries
      ((poolAfter maxBufferSize ops).handedOver order replacedOrder maxBufferSize') := by
  intro hall
  have hcarries := (hall 10 10 removed (.sorted _) (.sorted _)).registrationGen "a"
  have hone : (poolAfter 10 removed).registrationGen "a" = 1 := by decide +kernel
  have hzero : ((poolAfter 10 removed).handedOver (.sorted _) (.sorted _) 10).registrationGen "a" =
      0 := by decide +kernel
  rw [hone, hzero] at hcarries
  exact absurd hcarries (by decide)

end Sp00ky.Scheduler
