/-
  The outbox in memory and in the store (`packages/core/src/mutation/push.saga.ts`,
  `write.saga.ts`, `sync/tabs.saga.ts`).

  A write commits its row to `_00_pending_mutations` and then pushes its item to `state.outbox`; the
  drain deletes a row and then acks its item; `loadOutbox` reads the rows and then puts what it read
  in the place of the list. A row that is committed and pushed between that read and the replacement
  is missing in memory from then on (`load_forgets_row`). As long as no load replaces the list with
  an outdated one, and what the drain settles is deleted, the pending items are the rows once no
  saga is running (`outbox_mirrors_rows`).
-/
import Sp00ky.Core.ClientState
import Sp00ky.Lib.Transition

namespace Sp00ky.Core.Client

open Std Lib
open ExtTreeMap (erase insert mem_erase mem_keys mem_of_mem_erase)

/-! ## Rows -/

/-- A row of `_00_pending_mutations`, of any shape the table ever had. -/
structure StoredRow where
  /-- `none` is no mutation type. -/
  mutationType : Option MutationEventType
  recordId : Option String
  hasData : Bool

/-- `parsePendingRow` and `toOutboxItem`. -/
def parsePendingRow (id : String) (row : StoredRow) : Option OutboxItem :=
  match row.mutationType, row.recordId with
  | some type, some recordId =>
    if type = .create ∧ row.hasData = false then none else some ⟨id, type, recordId, .pending⟩
  | _, _ => none

theorem parsePendingRow_eq_some {id : String} {row : StoredRow} {item : OutboxItem}
    (h : parsePendingRow id row = some item) : item.id = id ∧ item.status = .pending := by
  unfold parsePendingRow at h
  split at h
  next =>
    split at h
    next => cases h
    next =>
      cases h
      exact ⟨rfl, rfl⟩
  next => cases h

abbrev StoredRows := ExtTreeMap String StoredRow

namespace StoredRows

/-- The item a row parses as. -/
def parsed (rows : StoredRows) (id : String) : Option OutboxItem :=
  rows[id]?.bind (parsePendingRow id)

/-- The row is there and parses as replayable. -/
def Replayable (rows : StoredRows) (id : String) : Prop := (rows.parsed id).isSome = true

instance (rows : StoredRows) (id : String) : Decidable (rows.Replayable id) :=
  inferInstanceAs (Decidable (_ = _))

/-- The items of the rows, in the order of their ids. -/
def items (rows : StoredRows) : List OutboxItem := rows.keys.filterMap rows.parsed

/-- The rows that do not parse. -/
def unreplayable (rows : StoredRows) : List String :=
  rows.keys.filter fun id => (rows.parsed id).isNone

variable {rows : StoredRows}

theorem parsed_eq_some {id : String} {item : OutboxItem}
    (h : rows.parsed id = some item) : item.id = id ∧ item.status = .pending := by
  obtain ⟨row, -, hparse⟩ := Option.bind_eq_some_iff.mp h
  exact parsePendingRow_eq_some hparse

theorem mem_of_replayable {id : String} (h : rows.Replayable id) :
    id ∈ rows := by
  obtain ⟨item, hitem⟩ := Option.isSome_iff_exists.mp h
  obtain ⟨row, hrow, -⟩ := Option.bind_eq_some_iff.mp hitem
  rw [← ExtTreeMap.isSome_getElem?_iff_mem, hrow]
  rfl

theorem map_id_items (rows : StoredRows) :
    rows.items.map (·.id) = rows.keys.filter fun id => decide (rows.Replayable id) := by
  unfold items
  generalize rows.keys = keys
  induction keys with
  | nil => rfl
  | cons id keys ih =>
    cases hp : rows.parsed id with
    | none =>
      rw [List.filterMap_cons_none hp, List.filter_cons_of_neg (by simp [Replayable, hp])]
      exact ih
    | some item =>
      rw [List.filterMap_cons_some hp, List.filter_cons_of_pos (by simp [Replayable, hp]),
        List.map_cons, ih, (parsed_eq_some hp).1]

theorem nodup_items (rows : StoredRows) : (rows.items.map (·.id)).Nodup := by
  rw [map_id_items]
  exact (nodup_keys rows).filter _

theorem mem_items {id : String} :
    id ∈ rows.items.map (·.id) ↔ rows.Replayable id := by
  rw [map_id_items, List.mem_filter, decide_eq_true_eq, mem_keys]
  exact ⟨And.right, fun h => ⟨mem_of_replayable h, h⟩⟩

theorem pending_of_mem_items {item : OutboxItem} (h : item ∈ rows.items) :
    item.status = .pending := by
  obtain ⟨id, -, hp⟩ := List.mem_filterMap.mp h
  exact (parsed_eq_some hp).2

theorem replayable_insert {id id' : String} {row : StoredRow} :
    Replayable (rows.insert id row) id' ↔
      (id' = id ∧ (parsePendingRow id row).isSome = true) ∨ (id' ≠ id ∧ rows.Replayable id') := by
  unfold Replayable parsed
  rw [ExtTreeMap.getElem?_insert]
  by_cases h : id = id'
  · subst h
    simp
  · have h' : id' ≠ id := fun h' => h h'.symm
    simp [h, h']

theorem mem_insert {id id' : String} {row : StoredRow} :
    id' ∈ insert rows id row ↔ id' = id ∨ id' ∈ rows := by
  rw [ExtTreeMap.mem_insert]
  refine or_congr ?_ Iff.rfl
  rw [Std.compare_eq_iff_eq]
  exact eq_comm

theorem replayable_erase {id id' : String} :
    Replayable (rows.erase id) id' ↔ id' ≠ id ∧ rows.Replayable id' := by
  unfold Replayable parsed
  rw [ExtTreeMap.getElem?_erase]
  by_cases h : id = id'
  · subst h
    simp
  · have h' : id' ≠ id := fun h' => h h'.symm
    simp [h, h']

end StoredRows

/-! ## The outbox -/

/-- The ids of the pending items. -/
def pendingOf (outbox : List OutboxItem) : List String :=
  (outbox.filter fun i => !i.status.isAcked).map (·.id)

variable {outbox : List OutboxItem}

theorem mem_pendingOf {id : String} :
    id ∈ pendingOf outbox ↔ ∃ i ∈ outbox, i.status = .pending ∧ i.id = id := by
  unfold pendingOf
  simp only [List.mem_map, List.mem_filter]
  constructor
  · rintro ⟨i, ⟨hi, hs⟩, rfl⟩
    refine ⟨i, hi, ?_, rfl⟩
    cases hst : i.status with
    | pending => rfl
    | acked =>
      rw [hst] at hs
      cases hs
  · rintro ⟨i, hi, hs, rfl⟩
    exact ⟨i, ⟨hi, by rw [hs]; rfl⟩, rfl⟩

theorem mem_ids_of_mem_pendingOf {id : String}
    (h : id ∈ pendingOf outbox) : id ∈ outbox.map (·.id) := by
  obtain ⟨i, hi, -, hid⟩ := mem_pendingOf.mp h
  exact List.mem_map.mpr ⟨i, hi, hid⟩

theorem nodup_pendingOf (h : (outbox.map (·.id)).Nodup) :
    (pendingOf outbox).Nodup :=
  h.sublist (List.Sublist.map _ List.filter_sublist)

theorem pendingOf_append {item : OutboxItem}
    (h : item.status = .pending) : pendingOf (outbox ++ [item]) = pendingOf outbox ++ [item.id] := by
  unfold pendingOf
  rw [List.filter_append, List.map_append, List.filter_cons_of_pos (by rw [h]; rfl)]
  rfl

theorem pendingOf_of_pending {items : List OutboxItem} (h : ∀ i ∈ items, i.status = .pending) :
    pendingOf items = items.map (·.id) := by
  unfold pendingOf
  rw [List.filter_eq_self.mpr fun i hi => by rw [h i hi]; rfl]

theorem mem_pendingOf_remove {id id' : String} :
    id' ∈ pendingOf (outbox.filter fun i => i.id ≠ id) ↔ id' ∈ pendingOf outbox ∧ id' ≠ id := by
  rw [mem_pendingOf, mem_pendingOf]
  constructor
  · rintro ⟨i, hi, hs, rfl⟩
    obtain ⟨hi, hne⟩ := List.mem_filter.mp hi
    exact ⟨⟨i, hi, hs, rfl⟩, of_decide_eq_true hne⟩
  · rintro ⟨⟨i, hi, hs, rfl⟩, hne⟩
    exact ⟨i, List.mem_filter.mpr ⟨hi, decide_eq_true hne⟩, hs, rfl⟩

theorem mem_pendingOf_ackFirst {id : String} {now : Nat}
    (h : (outbox.map (·.id)).Nodup) {id' : String} :
    id' ∈ pendingOf (ClientState.ackFirst id now outbox) ↔ id' ∈ pendingOf outbox ∧ id' ≠ id := by
  induction outbox with
  | nil => simp [ClientState.ackFirst, pendingOf]
  | cons i rest ih =>
    obtain ⟨hi, hrest⟩ := List.nodup_cons.mp h
    unfold ClientState.ackFirst
    split
    next heq =>
      subst heq
      have hno : i.id ∉ pendingOf rest := fun hin => hi (mem_ids_of_mem_pendingOf hin)
      have hacked : pendingOf ({ i with status := .acked now } :: rest) = pendingOf rest := rfl
      rw [hacked]
      constructor
      · intro hin
        refine ⟨?_, fun heq => hno (heq ▸ hin)⟩
        obtain ⟨j, hj, hs⟩ := mem_pendingOf.mp hin
        exact mem_pendingOf.mpr ⟨j, List.mem_cons_of_mem _ hj, hs⟩
      · rintro ⟨hin, hne⟩
        obtain ⟨j, hj, hs, rfl⟩ := mem_pendingOf.mp hin
        rcases List.mem_cons.mp hj with rfl | hj
        · exact absurd rfl hne
        · exact mem_pendingOf.mpr ⟨j, hj, hs, rfl⟩
    next hne =>
      have hcons : ∀ l : List OutboxItem, id' ∈ pendingOf (i :: l) ↔
          (i.status = .pending ∧ i.id = id') ∨ id' ∈ pendingOf l := by
        intro l
        rw [mem_pendingOf, mem_pendingOf]
        simp only [List.mem_cons, exists_eq_or_imp]
      rw [hcons, hcons, ih hrest]
      constructor
      · rintro (⟨hs, rfl⟩ | ⟨hin, hid⟩)
        · exact ⟨.inl ⟨hs, rfl⟩, hne⟩
        · exact ⟨.inr hin, hid⟩
      · rintro ⟨hs | hin, hid⟩
        · exact .inl hs
        · exact .inr ⟨hin, hid⟩

/-! ## Sagas -/

/-- A `loadOutbox` underway. -/
inductive Load where
  /-- before its query runs -/
  | asked
  | read (items : List OutboxItem) (unreplayable : List String)
  /-- rolling back what cannot be replayed -/
  | undoing (unreplayable : List String)
  | moved (id : String) (unreplayable : List String)

/-- A `drain` underway. -/
inductive Drain where
  /-- before its query runs -/
  | asked (batch : List String)
  | read (batch found : List String)
  /-- with the answers of the rows that are not settled -/
  | settling (rows : List String)
  /-- the statement of a settled row has run -/
  | settled (id : String) (accepted : Bool) (rows : List String)

/-- A leader or solo tab with the store. It is noted which rows of other tabs no load has brought
into memory, and which ids have been used. -/
structure OutboxTab where
  rows : StoredRows
  client : ClientState
  /-- items of writes whose transaction has run -/
  landed : List OutboxItem
  loads : List Load
  drain : Option Drain
  /-- `outbox-changed` messages underway, and calls of `loadOutbox` -/
  messages : Nat
  foreign : List String
  minted : List String

/-- A step of a saga, or of another tab. -/
inductive OutboxAct where
  /-- The transaction of `write`, `flushWrite` or `adoptPendingWrites`. -/
  | commitWrite (id : String) (type : MutationEventType) (recordId : String)
  | publish (i : Nat)
  /-- A row of a follower, whose message is underway. -/
  | followerWrite (id : String) (row : StoredRow)
  | startLoad
  | loadQuery (i : Nat)
  | loadReplace (i : Nat)
  | moveUnreplayable (i : Nat) (fails : Bool)
  | removeUnreplayable (i : Nat)
  | loadEnd (i : Nat)
  | startDrain (outboxBatchSize : Nat)
  | drainQuery
  | drainSend
  /-- `deletePendingRow` or `moveToFailedTx`. -/
  | settleRow (accepted : Bool) (fails : Bool)
  | settleItem (now : Nat)
  | drainEnd

namespace OutboxTab

/-- The row a transaction inserts. -/
def insertedRow (type : MutationEventType) (recordId : String) : StoredRow :=
  ⟨some type, some recordId, true⟩

def pendingIds (s : OutboxTab) : List String := pendingOf s.client.outbox

/-- One step. -/
def step (s : OutboxTab) : OutboxAct → Option OutboxTab
  | .commitWrite id type recordId =>
    if id ∈ s.minted then none
    else some { s with
      rows := s.rows.insert id (insertedRow type recordId)
      landed := s.landed ++ [⟨id, type, recordId, .pending⟩]
      minted := id :: s.minted }
  | .publish i =>
    match s.landed[i]? with
    | none => none
    | some item => some { s with
        client := s.client.outboxPush item
        landed := s.landed.eraseIdx i }
  | .followerWrite id row =>
    if id ∈ s.minted then none
    else some { s with
      rows := s.rows.insert id row
      messages := s.messages + 1
      foreign := id :: s.foreign
      minted := id :: s.minted }
  | .startLoad =>
    match s.messages with
    | 0 => none
    | n + 1 => some { s with messages := n, loads := s.loads ++ [.asked] }
  | .loadQuery i =>
    match s.loads[i]? with
    | some .asked => some { s with loads := s.loads.set i (.read s.rows.items s.rows.unreplayable) }
    | _ => none
  | .loadReplace i =>
    match s.loads[i]? with
    | some (.read items unreplayable) => some { s with
        client := s.client.outboxReplace items
        loads := s.loads.set i (.undoing unreplayable)
        foreign := s.foreign.filter fun id => id ∉ items.map (·.id) ++ unreplayable }
    | _ => none
  | .moveUnreplayable i fails =>
    match s.loads[i]? with
    | some (.undoing (id :: rest)) => some { s with
        rows := if fails then s.rows else s.rows.erase id
        loads := s.loads.set i (.moved id rest) }
    | _ => none
  | .removeUnreplayable i =>
    match s.loads[i]? with
    | some (.moved id rest) => some { s with
        client := s.client.outboxRemove id
        loads := s.loads.set i (.undoing rest) }
    | _ => none
  | .loadEnd i =>
    match s.loads[i]? with
    | some (.undoing []) => some { s with loads := s.loads.eraseIdx i }
    | _ => none
  | .startDrain outboxBatchSize =>
    match s.drain with
    | none => some { s with drain := some (.asked (s.pendingIds.take outboxBatchSize)) }
    | some _ => none
  | .drainQuery =>
    match s.drain with
    | some (.asked batch) => some { s with
        drain := some (.read batch (batch.filter fun id => decide (s.rows.Replayable id))) }
    | _ => none
  | .drainSend =>
    match s.drain with
    | some (.read batch found) => some { s with
        client := (batch.filter fun id => id ∉ found).foldl (fun c id => c.outboxRemove id) s.client
        drain := some (.settling found) }
    | _ => none
  | .settleRow accepted fails =>
    match s.drain with
    | some (.settling (id :: rest)) => some { s with
        rows := if fails then s.rows else s.rows.erase id
        drain := some (.settled id accepted rest) }
    | _ => none
  | .settleItem now =>
    match s.drain with
    | some (.settled id accepted rest) => some { s with
        client := if accepted then s.client.outboxAck id now else s.client.outboxRemove id
        drain := some (.settling rest) }
    | _ => none
  | .drainEnd =>
    match s.drain with
    | some (.settling _) => some { s with drain := none }
    | _ => none

/-- The drain has deleted the row and not settled its item. -/
def Leaving (s : OutboxTab) (id : String) : Prop :=
  ∃ accepted rest, s.drain = some (.settled id accepted rest)

/-- A load replaces the list with what has not changed since it read it: of the rows this tab knows
of, those that are there and whose items are pushed, and the one that is just being settled. And
what is settled leaves the store. -/
def Undisturbed (s : OutboxTab) : OutboxAct → Prop
  | .loadReplace i => ∀ items unreplayable, s.loads[i]? = some (.read items unreplayable) →
      ∀ id, id ∉ s.foreign → (id ∈ items.map (·.id) ↔
        (s.rows.Replayable id ∧ id ∉ s.landed.map (·.id)) ∨ s.Leaving id)
  | .settleRow _ fails => fails = false
  | _ => True

/-- No saga is running and no message is underway. -/
def Quiet (s : OutboxTab) : Prop :=
  s.landed = [] ∧ s.loads = [] ∧ s.drain = none ∧ s.messages = 0

/-! ## The invariant -/

/-- The id of a row that no item in memory and no load will ever stand for. -/
def Dead (s : OutboxTab) (id : String) : Prop :=
  ¬ s.rows.Replayable id ∧ id ∉ s.pendingIds ∧ id ∈ s.minted

/-- What a load holds is still so. -/
def LoadOk (s : OutboxTab) : Load → Prop
  | .asked => True
  | .read items unreplayable => (items.map (·.id)).Nodup ∧ (∀ i ∈ items, i.status = .pending) ∧
      (∀ id ∈ items.map (·.id), id ∈ s.minted ∧ (id ∈ s.foreign → s.rows.Replayable id)) ∧
      ∀ id ∈ unreplayable, s.Dead id
  | .undoing unreplayable => ∀ id ∈ unreplayable, s.Dead id ∧ id ∉ s.foreign
  | .moved id unreplayable => ∀ x ∈ id :: unreplayable, s.Dead x ∧ x ∉ s.foreign

/-- The load will bring the row into memory, or undo it. -/
def Brings (id : String) : Load → Prop
  | .asked => True
  | .read items unreplayable => id ∈ items.map (·.id) ++ unreplayable
  | .undoing _ | .moved .. => False

/-- What the drain holds is pending, and its rows are there. -/
def DrainOk (s : OutboxTab) : Option Drain → Prop
  | none => True
  | some (.asked batch) => batch.Nodup ∧ ∀ id ∈ batch, id ∈ s.pendingIds
  | some (.read batch found) => found = batch ∧ batch.Nodup ∧ ∀ id ∈ batch, id ∈ s.pendingIds
  | some (.settling rows) => rows.Nodup ∧ ∀ id ∈ rows, id ∈ s.pendingIds
  | some (.settled id _ rows) =>
      (id :: rows).Nodup ∧ (∀ x ∈ id :: rows, x ∈ s.pendingIds) ∧ id ∉ s.rows

/-- The pending items are the rows, up to the writes and loads underway. -/
structure Mirrors (s : OutboxTab) : Prop where
  nodup : (s.client.outbox.map (·.id)).Nodup
  exact : ∀ id, id ∈ s.pendingIds ↔
    (s.rows.Replayable id ∧ id ∉ s.landed.map (·.id) ∧ id ∉ s.foreign) ∨ s.Leaving id
  landed_nodup : (s.landed.map (·.id)).Nodup
  landed_ok : ∀ l ∈ s.landed, l.status = .pending ∧ s.rows.Replayable l.id ∧
    l.id ∉ s.client.outbox.map (·.id) ∧ l.id ∉ s.foreign
  foreign_ok : ∀ id ∈ s.foreign, id ∈ s.rows ∧ id ∉ s.client.outbox.map (·.id)
  brought : ∀ id ∈ s.foreign, s.messages ≠ 0 ∨ ∃ l ∈ s.loads, Brings id l
  loads_ok : ∀ l ∈ s.loads, s.LoadOk l
  drain_ok : s.DrainOk s.drain
  rows_minted : ∀ id ∈ s.rows, id ∈ s.minted
  outbox_minted : ∀ id ∈ s.client.outbox.map (·.id), id ∈ s.minted

variable {s t : OutboxTab}

theorem Mirrors.pending_of_leaving (h : s.Mirrors) {id : String}
    (hl : s.Leaving id) : id ∈ s.pendingIds := (h.exact id).mpr (.inr hl)

theorem Mirrors.foreign_minted (h : s.Mirrors) {id : String}
    (hf : id ∈ s.foreign) : id ∈ s.minted := h.rows_minted id (h.foreign_ok id hf).1

theorem Mirrors.not_foreign (h : s.Mirrors) {id : String}
    (hp : id ∈ s.pendingIds) : id ∉ s.foreign :=
  fun hf => (h.foreign_ok id hf).2 (mem_ids_of_mem_pendingOf hp)

theorem Mirrors.minted_of_pending (h : s.Mirrors) {id : String}
    (hp : id ∈ s.pendingIds) : id ∈ s.minted := h.outbox_minted id (mem_ids_of_mem_pendingOf hp)

variable {d : Option Drain}

theorem Mirrors.drain_as (h : s.Mirrors) (hd : s.drain = d) :
    s.DrainOk d := by
  rw [← hd]
  exact h.drain_ok

/-- Without a settled row, a pending item has its row. -/
theorem Mirrors.replayable (h : s.Mirrors) {id : String}
    (hp : id ∈ s.pendingIds) (hl : ¬ s.Leaving id) : s.rows.Replayable id :=
  (((h.exact id).mp hp).resolve_right hl).1

/-- What a load holds stays so while nothing dead comes back and the foreign rows stay. -/
theorem LoadOk.mono {l : Load} (h : s.LoadOk l) (hminted : ∀ id ∈ s.minted, id ∈ t.minted)
    (hdead : ∀ id, s.Dead id → ¬ t.rows.Replayable id ∧ id ∉ t.pendingIds)
    (hforeign : ∀ id ∈ s.minted, id ∈ t.foreign →
      id ∈ s.foreign ∧ (s.rows.Replayable id → t.rows.Replayable id)) : t.LoadOk l := by
  have hdead' : ∀ id, s.Dead id → t.Dead id :=
    fun id hd => ⟨(hdead id hd).1, (hdead id hd).2, hminted id hd.2.2⟩
  have hgone : ∀ id, s.Dead id ∧ id ∉ s.foreign → t.Dead id ∧ id ∉ t.foreign :=
    fun id hd => ⟨hdead' id hd.1, fun hf => hd.2 (hforeign id hd.1.2.2 hf).1⟩
  cases l with
  | asked => trivial
  | read items unreplayable =>
    obtain ⟨hnodup, hpending, hitems, hun⟩ := h
    refine ⟨hnodup, hpending, fun id hid => ?_, fun id hid => hdead' id (hun id hid)⟩
    obtain ⟨hm, hrow⟩ := hitems id hid
    refine ⟨hminted id hm, fun hf => ?_⟩
    obtain ⟨hf, hkeep⟩ := hforeign id hm hf
    exact hkeep (hrow hf)
  | undoing unreplayable => exact fun id hid => hgone id (h id hid)
  | moved id unreplayable => exact fun x hx => hgone x (h x hx)

/-- What the drain holds stays pending. -/
theorem DrainOk.mono (h : s.DrainOk d) (hpending : ∀ id ∈ s.pendingIds, id ∈ t.pendingIds)
    (hrows : ∀ id ∈ s.pendingIds, id ∉ s.rows → id ∉ t.rows) : t.DrainOk d := by
  match d, h with
  | none, _ => trivial
  | some (.asked _), h => exact ⟨h.1, fun id hid => hpending id (h.2 id hid)⟩
  | some (.read _ _), h => exact ⟨h.1, h.2.1, fun id hid => hpending id (h.2.2 id hid)⟩
  | some (.settling _), h => exact ⟨h.1, fun id hid => hpending id (h.2 id hid)⟩
  | some (.settled id _ _), h =>
    exact ⟨h.1, fun x hx => hpending x (h.2.1 x hx),
      hrows id (h.2.1 id List.mem_cons_self) h.2.2⟩

variable {i : Nat}

/-- An entry that is not the one replaced stays. -/
theorem mem_set_of_ne {α : Type} {l : List α} {x y z : α} (hz : z ∈ l)
    (hi : l[i]? = some y) (hne : z ≠ y) : z ∈ l.set i x := by
  obtain ⟨j, hj, hget⟩ := List.getElem_of_mem hz
  have hji : i ≠ j := by
    rintro rfl
    rw [List.getElem?_eq_getElem hj, hget] at hi
    exact hne (Option.some.inj hi)
  exact List.mem_iff_getElem?.mpr ⟨j, by rw [List.getElem?_set_ne hji, List.getElem?_eq_getElem hj, hget]⟩

/-- An entry that is not the one erased stays. -/
theorem mem_eraseIdx_of_ne {α : Type} {l : List α} {y z : α} (hz : z ∈ l)
    (hi : l[i]? = some y) (hne : z ≠ y) : z ∈ l.eraseIdx i := by
  obtain ⟨j, hj, hget⟩ := List.getElem_of_mem hz
  rw [List.mem_eraseIdx_iff_getElem?]
  refine ⟨j, ?_, by rw [List.getElem?_eq_getElem hj, hget]⟩
  rintro rfl
  rw [List.getElem?_eq_getElem hj, hget] at hi
  exact hne (Option.some.inj hi)

/-! ## Writes -/

/-- A transaction inserts a row that no item stands for yet. -/
theorem Mirrors.commitWrite (h : s.Mirrors) {id : String}
    (type : MutationEventType) (recordId : String) (hfresh : id ∉ s.minted) :
    Mirrors { s with
      rows := s.rows.insert id (insertedRow type recordId)
      landed := s.landed ++ [⟨id, type, recordId, .pending⟩]
      minted := id :: s.minted } := by
  have hrow : ∀ x, StoredRows.Replayable (s.rows.insert id (insertedRow type recordId)) x ↔
      x = id ∨ s.rows.Replayable x := by
    intro x
    rw [StoredRows.replayable_insert]
    have hparse : (parsePendingRow id (insertedRow type recordId)).isSome = true := by
      simp [parsePendingRow, insertedRow]
    by_cases hx : x = id <;> simp [hx, hparse]
  have hold : ∀ x ∈ s.minted, x ≠ id := fun x hx heq => hfresh (heq ▸ hx)
  have hnew : ∀ x, s.rows.Replayable x → x ∈ s.minted :=
    fun x hx => h.rows_minted x (StoredRows.mem_of_replayable hx)
  have hlanded : ∀ x, x ∈ (s.landed ++ [(⟨id, type, recordId, .pending⟩ : OutboxItem)]).map
      (·.id) ↔ x ∈ s.landed.map (·.id) ∨ x = id := by simp
  refine ⟨h.nodup, fun x => ?_, ?_, ?_, ?_, h.brought, fun l hl => ?_, ?_, ?_, ?_⟩
  · refine (h.exact x).trans (or_congr ?_ Iff.rfl)
    change _ ↔ StoredRows.Replayable (s.rows.insert id _) x ∧ x ∉ List.map _ (s.landed ++ _) ∧ _
    rw [hrow, hlanded]
    constructor
    · rintro ⟨hr, hl, hf⟩
      exact ⟨.inr hr, fun hc => hc.elim hl (hold x (hnew x hr)), hf⟩
    · rintro ⟨rfl | hr, hl, hf⟩
      · exact absurd (.inr rfl) hl
      · exact ⟨hr, fun hc => hl (.inl hc), hf⟩
  · rw [List.map_append, List.nodup_append]
    refine ⟨h.landed_nodup, by simp, ?_⟩
    rintro a ha b hb rfl
    obtain ⟨l, hl, rfl⟩ := List.mem_map.mp ha
    rw [List.map_singleton, List.mem_singleton] at hb
    exact hold l.id (hnew _ (h.landed_ok l hl).2.1) hb
  · intro l hl
    rcases List.mem_append.mp hl with hl | hl
    · obtain ⟨hs, hr, hout, hf⟩ := h.landed_ok l hl
      exact ⟨hs, (hrow _).mpr (.inr hr), hout, hf⟩
    · rw [List.mem_singleton] at hl
      subst hl
      exact ⟨rfl, (hrow _).mpr (.inl rfl), fun ho => hfresh (h.outbox_minted _ ho),
        fun hf => hfresh (h.foreign_minted hf)⟩
  · intro x hx
    obtain ⟨hr, hout⟩ := h.foreign_ok x hx
    exact ⟨StoredRows.mem_insert.mpr (.inr hr), hout⟩
  · refine (h.loads_ok l hl).mono (fun _ hx => List.mem_cons_of_mem _ hx) (fun x hd => ?_)
      fun x hx hf => ⟨hf, fun hr => (hrow x).mpr (.inr hr)⟩
    exact ⟨fun hr => ((hrow x).mp hr).elim (hold x hd.2.2) hd.1, hd.2.1⟩
  · refine h.drain_ok.mono (fun _ hx => hx) fun x hx hno hin => ?_
    rcases StoredRows.mem_insert.mp hin with heq | hin
    · exact hold x (h.minted_of_pending hx) heq
    · exact hno hin
  · intro x hx
    rcases StoredRows.mem_insert.mp hx with heq | hx
    · exact List.mem_cons.mpr (.inl heq)
    · exact List.mem_cons_of_mem _ (h.rows_minted x hx)
  · exact fun x hx => List.mem_cons_of_mem _ (h.outbox_minted x hx)

/-- A follower inserts a row and tells the leader. -/
theorem Mirrors.followerWrite (h : s.Mirrors) {id : String} (row : StoredRow)
    (hfresh : id ∉ s.minted) :
    Mirrors { s with
      rows := s.rows.insert id row
      messages := s.messages + 1
      foreign := id :: s.foreign
      minted := id :: s.minted } := by
  have hold : ∀ x ∈ s.minted, x ≠ id := fun x hx heq => hfresh (heq ▸ hx)
  have hrow : ∀ x, x ≠ id → (StoredRows.Replayable (s.rows.insert id row) x ↔
      s.rows.Replayable x) := by
    intro x hx
    rw [StoredRows.replayable_insert]
    simp [hx]
  have hnew : ∀ x, s.rows.Replayable x → x ∈ s.minted :=
    fun x hx => h.rows_minted x (StoredRows.mem_of_replayable hx)
  refine ⟨h.nodup, fun x => ?_, h.landed_nodup, ?_, ?_, fun x _ => .inl (Nat.succ_ne_zero _),
    fun l hl => ?_, ?_, ?_, ?_⟩
  · refine (h.exact x).trans (or_congr ?_ Iff.rfl)
    change _ ↔ StoredRows.Replayable (s.rows.insert id row) x ∧ _ ∧ x ∉ id :: s.foreign
    rw [List.mem_cons, not_or]
    constructor
    · rintro ⟨hr, hl, hf⟩
      have hx := hold x (hnew x hr)
      exact ⟨(hrow x hx).mpr hr, hl, hx, hf⟩
    · rintro ⟨hr, hl, hx, hf⟩
      exact ⟨(hrow x hx).mp hr, hl, hf⟩
  · intro l hl
    obtain ⟨hs, hr, hout, hf⟩ := h.landed_ok l hl
    have hx := hold l.id (hnew _ hr)
    exact ⟨hs, (hrow _ hx).mpr hr, hout, fun hc => (List.mem_cons.mp hc).elim hx hf⟩
  · intro x hx
    rcases List.mem_cons.mp hx with rfl | hx
    · exact ⟨StoredRows.mem_insert.mpr (.inl rfl), fun ho => hfresh (h.outbox_minted _ ho)⟩
    · obtain ⟨hr, hout⟩ := h.foreign_ok x hx
      exact ⟨StoredRows.mem_insert.mpr (.inr hr), hout⟩
  · refine (h.loads_ok l hl).mono (fun _ hx => List.mem_cons_of_mem _ hx) (fun x hd => ?_)
      fun x hx hf => ?_
    · exact ⟨fun hr => hd.1 ((hrow x (hold x hd.2.2)).mp hr), hd.2.1⟩
    · exact ⟨(List.mem_cons.mp hf).resolve_left (hold x hx), (hrow x (hold x hx)).mpr⟩
  · refine h.drain_ok.mono (fun _ hx => hx) fun x hx hno hin => ?_
    rcases StoredRows.mem_insert.mp hin with heq | hin
    · exact hold x (h.minted_of_pending hx) heq
    · exact hno hin
  · intro x hx
    rcases StoredRows.mem_insert.mp hx with heq | hx
    · exact List.mem_cons.mpr (.inl heq)
    · exact List.mem_cons_of_mem _ (h.rows_minted x hx)
  · exact fun x hx => List.mem_cons_of_mem _ (h.outbox_minted x hx)

/-- A write pushes its item. -/
theorem Mirrors.publish (h : s.Mirrors) {item : OutboxItem} (hi : s.landed[i]? = some item) :
    Mirrors { s with
      client := s.client.outboxPush item
      landed := s.landed.eraseIdx i } := by
  have hmem : item ∈ s.landed := List.mem_of_getElem? hi
  obtain ⟨hstatus, hr, hout, hf⟩ := h.landed_ok item hmem
  have hpending : ∀ x, x ∈ pendingOf (s.client.outbox ++ [item]) ↔
      x ∈ s.pendingIds ∨ x = item.id := by
    intro x
    rw [pendingOf_append hstatus, List.mem_append, List.mem_singleton]
    exact Iff.rfl
  have hlanded : ∀ x, x ∈ (s.landed.eraseIdx i).map (·.id) ↔
      x ∈ s.landed.map (·.id) ∧ x ≠ item.id := by
    intro x
    have hperm : s.landed.Perm (item :: s.landed.eraseIdx i) :=
      (List.getElem_cons_eraseIdx_perm (List.getElem?_eq_some_iff.mp hi).1).symm.trans
        (by rw [(List.getElem?_eq_some_iff.mp hi).2])
    have hnodup := (hperm.map (·.id)).nodup_iff.mp h.landed_nodup
    rw [(hperm.map (·.id)).mem_iff, List.map_cons, List.mem_cons]
    constructor
    · intro hx
      refine ⟨.inr hx, ?_⟩
      rintro rfl
      exact (List.nodup_cons.mp hnodup).1 hx
    · exact fun hx => hx.1.resolve_left hx.2
  refine ⟨?_, fun x => ?_, ?_, fun l hl => ?_, fun x hx => ?_, h.brought, fun l hl => ?_, ?_,
    h.rows_minted, ?_⟩
  · change ((s.client.outbox ++ [item]).map (·.id)).Nodup
    rw [List.map_append, List.nodup_append]
    refine ⟨h.nodup, by simp, ?_⟩
    rintro a ha b hb rfl
    rw [List.map_singleton, List.mem_singleton] at hb
    exact hout (hb ▸ ha)
  · change x ∈ pendingOf (s.client.outbox ++ [item]) ↔
      (s.rows.Replayable x ∧ x ∉ (s.landed.eraseIdx i).map (·.id) ∧ x ∉ s.foreign) ∨ s.Leaving x
    rw [hpending, h.exact x, hlanded]
    by_cases hx : x = item.id
    · subst hx
      simp [hr, hf]
    · simp [hx]
  · exact h.landed_nodup.sublist (List.Sublist.map _ (List.eraseIdx_sublist _ _))
  · have hl' := (List.eraseIdx_sublist _ _).subset hl
    obtain ⟨hs, hr', hout', hf'⟩ := h.landed_ok l hl'
    refine ⟨hs, hr', ?_, hf'⟩
    have hne := ((hlanded l.id).mp (List.mem_map.mpr ⟨l, hl, rfl⟩)).2
    change l.id ∉ (s.client.outbox ++ [item]).map (·.id)
    rw [List.map_append, List.mem_append]
    exact fun hc => hc.elim hout' fun heq => hne (by simpa using heq)
  · obtain ⟨hrow, ho⟩ := h.foreign_ok x hx
    refine ⟨hrow, ?_⟩
    change x ∉ (s.client.outbox ++ [item]).map (·.id)
    rw [List.map_append, List.mem_append]
    exact fun hc => hc.elim ho fun heq => hf (by simpa [← show x = item.id by simpa using heq])
  · refine (h.loads_ok l hl).mono (fun _ hx => hx) (fun x hd => ⟨hd.1, fun hp => ?_⟩)
      fun x _ hf => ⟨hf, fun hr => hr⟩
    rcases (hpending x).mp hp with hp | rfl
    · exact hd.2.1 hp
    · exact hd.1 hr
  · exact h.drain_ok.mono (fun x hx => (hpending x).mpr (.inl hx)) fun _ _ hno => hno
  · intro x hx
    change x ∈ (s.client.outbox ++ [item]).map (·.id) at hx
    rw [List.map_append, List.mem_append] at hx
    rcases hx with hx | hx
    · exact h.outbox_minted x hx
    · rw [show x = item.id by simpa using hx]
      exact h.rows_minted _ (StoredRows.mem_of_replayable hr)

/-! ## Loads -/

theorem Mirrors.startLoad (h : s.Mirrors) (n : Nat) :
    Mirrors { s with messages := n, loads := s.loads ++ [.asked] } :=
  { h with
    brought := fun _ _ => .inr ⟨.asked, List.mem_append_right _ List.mem_cons_self, trivial⟩
    loads_ok := fun l hl => (List.mem_append.mp hl).elim (h.loads_ok l) fun hl => by
      rw [List.mem_singleton.mp hl]
      trivial }

/-- A row that is there parses, or does not. -/
theorem brings_read {id : String} (h : id ∈ s.rows) :
    Brings id (.read s.rows.items s.rows.unreplayable) := by
  refine List.mem_append.mpr ?_
  by_cases hr : s.rows.Replayable id
  · exact .inl (StoredRows.mem_items.mpr hr)
  · refine .inr (List.mem_filter.mpr ⟨mem_keys.mpr h, ?_⟩)
    unfold StoredRows.Replayable at hr
    simpa using hr

/-- The load that replaces one entry leaves the others. -/
theorem loads_ok_set (h : s.Mirrors) {l : Load} (hl : s.LoadOk l) :
    ∀ l' ∈ s.loads.set i l, s.LoadOk l' := by
  intro l' hl'
  rcases List.mem_or_eq_of_mem_set hl' with hl' | rfl
  · exact h.loads_ok l' hl'
  · exact hl

/-- A load that was to bring a row into memory is another, or the one that is replaced. -/
theorem brought_set (h : s.Mirrors) {l l' : Load}
    (hi : s.loads[i]? = some l) {id : String} (hf : id ∈ s.foreign)
    (hsame : Brings id l → Brings id l') :
    s.messages ≠ 0 ∨ ∃ l ∈ s.loads.set i l', Brings id l := by
  rcases h.brought id hf with hm | ⟨k, hk, hb⟩
  · exact .inl hm
  · by_cases hkl : k = l
    · subst hkl
      exact .inr ⟨l', List.mem_set (List.getElem?_eq_some_iff.mp hi).1 _, hsame hb⟩
    · exact .inr ⟨k, mem_set_of_ne hk hi hkl, hb⟩

/-- A load reads the rows. -/
theorem Mirrors.loadQuery (h : s.Mirrors) (hi : s.loads[i]? = some .asked) :
    Mirrors { s with loads := s.loads.set i (.read s.rows.items s.rows.unreplayable) } := by
  have hread : s.LoadOk (.read s.rows.items s.rows.unreplayable) := by
    refine ⟨StoredRows.nodup_items _, fun _ hi => StoredRows.pending_of_mem_items hi,
      fun id hid => ?_, fun id hid => ?_⟩
    · have hr := StoredRows.mem_items.mp hid
      exact ⟨h.rows_minted id (StoredRows.mem_of_replayable hr), fun _ => hr⟩
    · obtain ⟨hkey, hno⟩ := List.mem_filter.mp hid
      have hrow := mem_keys.mp hkey
      have hr : ¬ s.rows.Replayable id := by
        unfold StoredRows.Replayable
        simpa using hno
      refine ⟨hr, fun hp => ?_, h.rows_minted id hrow⟩
      obtain ⟨accepted, rest, hd⟩ := ((h.exact id).mp hp).resolve_left fun hc => hr hc.1
      exact (h.drain_as hd).2.2 hrow
  exact { h with
    brought := fun id hf => brought_set h hi hf fun _ => brings_read (h.foreign_ok id hf).1
    loads_ok := loads_ok_set h hread }

/-- A load replaces the list with what is still so. -/
theorem Mirrors.loadReplace (h : s.Mirrors) {items : List OutboxItem}
    {unreplayable : List String} (hi : s.loads[i]? = some (.read items unreplayable))
    (hsame : ∀ id, id ∉ s.foreign → (id ∈ items.map (·.id) ↔
      (s.rows.Replayable id ∧ id ∉ s.landed.map (·.id)) ∨ s.Leaving id)) :
    Mirrors { s with
      client := s.client.outboxReplace items
      loads := s.loads.set i (.undoing unreplayable)
      foreign := s.foreign.filter fun id => id ∉ items.map (·.id) ++ unreplayable } := by
  obtain ⟨hnodup, hpending, hitems, hun⟩ := h.loads_ok _ (List.mem_of_getElem? hi)
  have hids : pendingOf items = items.map (·.id) := pendingOf_of_pending hpending
  have hforeign : ∀ id, id ∈ s.foreign.filter (fun id => id ∉ items.map (·.id) ++ unreplayable) ↔
      id ∈ s.foreign ∧ id ∉ items.map (·.id) ∧ id ∉ unreplayable := by
    intro id
    rw [List.mem_filter, decide_eq_true_eq, List.mem_append, not_or]
  have hlanded : ∀ l ∈ s.landed, l.id ∉ items.map (·.id) := by
    intro l hl hin
    obtain ⟨-, -, hout, hf⟩ := h.landed_ok l hl
    rcases (hsame l.id hf).mp hin with ⟨-, hc⟩ | hleave
    · exact hc (List.mem_map.mpr ⟨l, hl, rfl⟩)
    · exact hout (mem_ids_of_mem_pendingOf (h.pending_of_leaving hleave))
  have hexact : ∀ id, id ∈ items.map (·.id) ↔
      (s.rows.Replayable id ∧ id ∉ s.landed.map (·.id) ∧
        ¬ (id ∈ s.foreign ∧ id ∉ items.map (·.id) ∧ id ∉ unreplayable)) ∨ s.Leaving id := by
    intro id
    by_cases hf : id ∈ s.foreign
    · constructor
      · intro hin
        refine .inl ⟨(hitems id hin).2 hf, fun hl => ?_, fun hc => hc.2.1 hin⟩
        obtain ⟨l, hmem, rfl⟩ := List.mem_map.mp hl
        exact (h.landed_ok l hmem).2.2.2 hf
      · rintro (⟨hr, -, hc⟩ | hleave)
        · by_contra hin
          exact hc ⟨hf, hin, fun hu => (hun id hu).1 hr⟩
        · exact absurd hf (h.not_foreign (h.pending_of_leaving hleave))
    · rw [hsame id hf]
      simp [hf]
  have hkept : ∀ id ∈ s.pendingIds, id ∈ items.map (·.id) := by
    intro id hp
    refine (hsame id (h.not_foreign hp)).mpr ?_
    exact ((h.exact id).mp hp).imp (fun hc => ⟨hc.1, hc.2.1⟩) fun hl => hl
  have hdead : ∀ id, s.Dead id → id ∉ items.map (·.id) := by
    intro id hd hin
    rcases (hexact id).mp hin with hc | hleave
    · exact hd.1 hc.1
    · exact hd.2.1 (h.pending_of_leaving hleave)
  have hsub : ∀ id, id ∈ s.foreign.filter (fun id => id ∉ items.map (·.id) ++ unreplayable) →
      id ∈ s.foreign := fun id hid => ((hforeign id).mp hid).1
  have hload : ∀ l, s.LoadOk l → OutboxTab.LoadOk { s with
      client := s.client.outboxReplace items
      loads := s.loads.set i (.undoing unreplayable)
      foreign := s.foreign.filter fun id => id ∉ items.map (·.id) ++ unreplayable } l := by
    intro l hl
    refine hl.mono (fun _ hx => hx) (fun id hd => ⟨hd.1, ?_⟩)
      fun id _ hf => ⟨hsub id hf, fun hr => hr⟩
    change id ∉ pendingOf items
    rw [hids]
    exact hdead id hd
  refine ⟨hnodup, fun id => ?_, h.landed_nodup, fun l hl => ?_, fun id hid => ?_, fun id hid => ?_,
    fun l hl => ?_, ?_, h.rows_minted, fun id hid => (hitems id hid).1⟩
  · change id ∈ pendingOf items ↔ (s.rows.Replayable id ∧ id ∉ s.landed.map (·.id) ∧
      id ∉ s.foreign.filter _) ∨ s.Leaving id
    rw [hids, hforeign]
    exact hexact id
  · obtain ⟨hs, hr, -, hf⟩ := h.landed_ok l hl
    exact ⟨hs, hr, hlanded l hl, fun hc => hf (hsub _ hc)⟩
  · obtain ⟨hf, hin, -⟩ := (hforeign id).mp hid
    exact ⟨(h.foreign_ok id hf).1, hin⟩
  · obtain ⟨hf, hin, hu⟩ := (hforeign id).mp hid
    exact brought_set h hi hf fun hb => ((List.mem_append.mp hb).elim hin hu).elim
  · rcases List.mem_or_eq_of_mem_set hl with hl | rfl
    · exact hload l (h.loads_ok l hl)
    · intro id hid
      refine ⟨⟨(hun id hid).1, ?_, (hun id hid).2.2⟩, fun hf => ((hforeign id).mp hf).2.2 hid⟩
      change id ∉ pendingOf items
      rw [hids]
      exact hdead id (hun id hid)
  · refine h.drain_ok.mono (fun id hp => ?_) fun _ _ hno => hno
    change id ∈ pendingOf items
    rw [hids]
    exact hkept id hp

variable {rest : List String}

/-- What cannot be replayed is moved to the tray. -/
theorem Mirrors.moveUnreplayable (h : s.Mirrors) {id : String} (hi : s.loads[i]? = some (.undoing (id :: rest))) (fails : Bool) :
    Mirrors { s with
      rows := if fails then s.rows else s.rows.erase id
      loads := s.loads.set i (.moved id rest) } := by
  have hun := h.loads_ok _ (List.mem_of_getElem? hi)
  obtain ⟨hdead, hf⟩ := hun id List.mem_cons_self
  have hmoved : ∀ x ∈ s.foreign, s.messages ≠ 0 ∨
      ∃ l ∈ s.loads.set i (.moved id rest), Brings x l :=
    fun x hx => brought_set h hi hx fun hb => hb
  cases fails with
  | true =>
    exact { h with
      brought := hmoved
      loads_ok := loads_ok_set h hun }
  | false =>
    have hrow : ∀ x, StoredRows.Replayable (erase s.rows id) x ↔
        s.rows.Replayable x := by
      intro x
      rw [StoredRows.replayable_erase]
      exact ⟨And.right, fun hr => ⟨fun heq => hdead.1 (heq ▸ hr), hr⟩⟩
    refine { h with
      exact := fun x => ?_, landed_ok := fun l hl => ?_, foreign_ok := fun x hx => ?_,
      brought := hmoved, loads_ok := fun l hl => ?_, drain_ok := ?_,
      rows_minted := fun x hx => ?_ }
    · refine (h.exact x).trans (or_congr (and_congr_left fun _ => (hrow x).symm) Iff.rfl)
    · obtain ⟨hs, hr, hrest⟩ := h.landed_ok l hl
      exact ⟨hs, (hrow _).mpr hr, hrest⟩
    · obtain ⟨hr, ho⟩ := h.foreign_ok x hx
      refine ⟨mem_erase.mpr ⟨fun heq => ?_, hr⟩, ho⟩
      rw [Std.compare_eq_iff_eq] at heq
      exact hf (heq ▸ hx)
    · have hmine : s.LoadOk l := loads_ok_set (l := .moved id rest) h hun l hl
      refine hmine.mono (fun _ hx => hx)
        (fun x hd => ⟨fun hr => hd.1 ((hrow x).mp hr), hd.2.1⟩)
        fun x _ hx => ⟨hx, fun hr => (hrow x).mpr hr⟩
    · exact h.drain_ok.mono (fun _ hx => hx) fun x _ hno hin =>
        hno (mem_of_mem_erase hin)
    · exact h.rows_minted x (mem_of_mem_erase hx)

/-- Nothing in memory stands for it. -/
theorem Mirrors.removeUnreplayable (h : s.Mirrors) {id : String} (hi : s.loads[i]? = some (.moved id rest)) :
    Mirrors { s with
      client := s.client.outboxRemove id
      loads := s.loads.set i (.undoing rest) } := by
  have hun := h.loads_ok _ (List.mem_of_getElem? hi)
  obtain ⟨hdead, hf⟩ := hun id List.mem_cons_self
  have hpending : ∀ x, x ∈ pendingOf (s.client.outbox.filter fun i => i.id ≠ id) ↔
      x ∈ s.pendingIds := by
    intro x
    rw [mem_pendingOf_remove]
    exact ⟨And.left, fun hx => ⟨hx, fun heq => hdead.2.1 (heq ▸ hx)⟩⟩
  have hsub : ∀ x, x ∈ (s.client.outbox.filter fun i => i.id ≠ id).map (·.id) →
      x ∈ s.client.outbox.map (·.id) :=
    fun x hx => (List.Sublist.map _ List.filter_sublist).subset hx
  have hrest : s.LoadOk (.undoing rest) := (List.forall_mem_cons.mp hun).2
  exact { h with
    nodup := h.nodup.sublist (List.Sublist.map _ List.filter_sublist)
    exact := fun x => (hpending x).trans (h.exact x)
    landed_ok := fun l hl => by
      obtain ⟨hs, hr, ho, hf⟩ := h.landed_ok l hl
      exact ⟨hs, hr, fun hc => ho (hsub _ hc), hf⟩
    foreign_ok := fun x hx => ⟨(h.foreign_ok x hx).1, fun hc => (h.foreign_ok x hx).2 (hsub x hc)⟩
    brought := fun x hx => brought_set h hi hx fun hb => hb
    loads_ok := fun l hl => (loads_ok_set h hrest l hl).mono (fun _ hx => hx)
      (fun x hd => ⟨hd.1, fun hp => hd.2.1 ((hpending x).mp hp)⟩) fun _ _ hx => ⟨hx, fun hr => hr⟩
    drain_ok := h.drain_ok.mono (fun x hx => (hpending x).mpr hx) fun _ _ hno => hno
    outbox_minted := fun x hx => h.outbox_minted x (hsub x hx) }

theorem Mirrors.loadEnd (h : s.Mirrors) (hi : s.loads[i]? = some (.undoing [])) :
    Mirrors { s with loads := s.loads.eraseIdx i } :=
  { h with
    brought := fun id hf => (h.brought id hf).imp_right fun ⟨l, hl, hb⟩ =>
      ⟨l, mem_eraseIdx_of_ne hl hi (by rintro rfl; exact hb), hb⟩
    loads_ok := fun l hl => h.loads_ok l ((List.eraseIdx_sublist _ _).subset hl) }

/-! ## The drain -/

/-- No row has just been settled. -/
theorem not_leaving (hd : s.drain = d)
    (h : ∀ id accepted rest, d ≠ some (.settled id accepted rest)) (id : String) :
    ¬ s.Leaving id := by
  rintro ⟨accepted, rest, hl⟩
  exact h id accepted rest (hd.symm.trans hl)

/-- The drain goes on, with no row settled before or after. -/
theorem Mirrors.drainStep (h : s.Mirrors)
    (hbefore : ∀ id, ¬ s.Leaving id) (hafter : ∀ id accepted rest, d ≠ some (.settled id accepted rest))
    (hd : s.DrainOk d) : Mirrors { s with drain := d } :=
  { h with
    exact := fun id => (h.exact id).trans (or_congr Iff.rfl
      ⟨fun hl => absurd hl (hbefore id), fun ⟨accepted, rest, hl⟩ => absurd hl (hafter id accepted rest)⟩)
    loads_ok := fun l hl => (h.loads_ok l hl).mono (fun _ hx => hx) (fun _ hd => ⟨hd.1, hd.2.1⟩)
      fun _ _ hx => ⟨hx, fun hr => hr⟩
    drain_ok := hd.mono (fun _ hx => hx) fun _ _ hno => hno }

theorem Mirrors.startDrain (h : s.Mirrors) (hd : s.drain = none) (n : Nat) :
    Mirrors { s with drain := some (.asked (s.pendingIds.take n)) } := by
  refine h.drainStep (not_leaving hd (by rintro _ _ _ ⟨⟩)) (by rintro _ _ _ ⟨⟩) ?_
  exact ⟨(nodup_pendingOf h.nodup).sublist (List.take_sublist _ _),
    fun _ hid => List.mem_of_mem_take hid⟩

/-- Every row of the batch is found. -/
theorem Mirrors.drainQuery (h : s.Mirrors) {batch : List String}
    (hd : s.drain = some (.asked batch)) :
    Mirrors { s with
      drain := some (.read batch (batch.filter fun id => decide (s.rows.Replayable id))) } := by
  have hok := h.drain_as hd
  have hno : ∀ id, ¬ s.Leaving id := not_leaving hd (by rintro _ _ _ ⟨⟩)
  refine h.drainStep hno (by rintro _ _ _ ⟨⟩) ⟨?_, hok⟩
  exact List.filter_eq_self.mpr fun id hid => decide_eq_true (h.replayable (hok.2 id hid) (hno id))

/-- No item is dropped because its row is gone. -/
theorem Mirrors.drainSend (h : s.Mirrors) {batch found : List String}
    (hd : s.drain = some (.read batch found)) :
    Mirrors { s with
      client := (batch.filter fun id => id ∉ found).foldl (fun c id => c.outboxRemove id) s.client
      drain := some (.settling found) } := by
  obtain ⟨rfl, hok⟩ : found = batch ∧ _ := h.drain_as hd
  have hnone : found.filter (fun id => id ∉ found) = [] :=
    List.filter_eq_nil_iff.mpr fun id hid => by simp [hid]
  rw [hnone]
  exact h.drainStep (not_leaving hd (by rintro _ _ _ ⟨⟩)) (by rintro _ _ _ ⟨⟩) hok

/-- The row of the next answer is deleted. -/
theorem Mirrors.settleRow (h : s.Mirrors) {id : String}
    (hd : s.drain = some (.settling (id :: rest))) (accepted : Bool) :
    Mirrors { s with
      rows := s.rows.erase id
      drain := some (.settled id accepted rest) } := by
  obtain ⟨hnodup, hpending⟩ := h.drain_as hd
  have hno : ∀ x, ¬ s.Leaving x := not_leaving hd (by rintro _ _ _ ⟨⟩)
  have hid := hpending id List.mem_cons_self
  have hrow : ∀ x, StoredRows.Replayable (erase s.rows id) x ↔
      x ≠ id ∧ s.rows.Replayable x := fun x => StoredRows.replayable_erase
  have hleaving : ∀ x, OutboxTab.Leaving { s with
      rows := s.rows.erase id
      drain := some (.settled id accepted rest) } x ↔ x = id := by
    intro x
    constructor
    · rintro ⟨_, _, heq⟩
      cases heq
      rfl
    · rintro rfl
      exact ⟨accepted, rest, rfl⟩
  refine { h with
    exact := fun x => ?_, landed_ok := fun l hl => ?_, foreign_ok := fun x hx => ?_,
    loads_ok := fun l hl => ?_, drain_ok := ⟨hnodup, hpending, ?_⟩,
    rows_minted := fun x hx => h.rows_minted x (mem_of_mem_erase hx) }
  · rw [hleaving]
    change x ∈ s.pendingIds ↔ (StoredRows.Replayable (erase s.rows id) x ∧ _) ∨ x = id
    rw [hrow, h.exact x]
    by_cases hx : x = id
    · subst hx
      simp [((h.exact x).mp hid).resolve_right (hno x)]
    · simp [hx, hno x]
  · obtain ⟨hs, hr, ho, hf⟩ := h.landed_ok l hl
    refine ⟨hs, (hrow _).mpr ⟨fun heq => ho ?_, hr⟩, ho, hf⟩
    exact mem_ids_of_mem_pendingOf (heq ▸ hid)
  · obtain ⟨hr, ho⟩ := h.foreign_ok x hx
    refine ⟨mem_erase.mpr ⟨fun heq => ?_, hr⟩, ho⟩
    rw [Std.compare_eq_iff_eq] at heq
    exact h.not_foreign hid (heq ▸ hx)
  · refine (h.loads_ok l hl).mono (fun _ hx => hx)
      (fun x hd => ⟨fun hr => hd.1 ((hrow x).mp hr).2, hd.2.1⟩) fun x _ hx => ⟨hx, fun hr => ?_⟩
    exact (hrow x).mpr ⟨fun heq => h.not_foreign hid (heq ▸ hx), hr⟩
  · intro hin
    exact absurd (mem_erase.mp hin).1 (by simp)

/-- The item of the deleted row is acked, or goes. -/
theorem Mirrors.settleItem (h : s.Mirrors) {id : String} {accepted : Bool} (hd : s.drain = some (.settled id accepted rest)) {c : ClientState}
    (hpending : ∀ x, x ∈ pendingOf c.outbox ↔ x ∈ s.pendingIds ∧ x ≠ id)
    (hsub : (c.outbox.map (·.id)).Sublist (s.client.outbox.map (·.id))) :
    Mirrors { s with client := c, drain := some (.settling rest) } := by
  obtain ⟨hnodup, hin, hgone⟩ := h.drain_as hd
  have hleaving : ∀ x, s.Leaving x ↔ x = id := by
    intro x
    constructor
    · rintro ⟨_, _, heq⟩
      cases hd.symm.trans heq
      rfl
    · rintro rfl
      exact ⟨accepted, rest, hd⟩
  refine { h with
    nodup := h.nodup.sublist hsub, exact := fun x => ?_, landed_ok := fun l hl => ?_,
    foreign_ok := fun x hx => ?_, loads_ok := fun l hl => ?_, drain_ok := ?_,
    outbox_minted := fun x hx => h.outbox_minted x (hsub.subset hx) }
  · change x ∈ pendingOf c.outbox ↔ (s.rows.Replayable x ∧ x ∉ s.landed.map (·.id) ∧
      x ∉ s.foreign) ∨ OutboxTab.Leaving { s with client := c, drain := some (.settling rest) } x
    rw [hpending, h.exact x, hleaving]
    have hnone : ¬ OutboxTab.Leaving { s with client := c, drain := some (.settling rest) } x :=
      not_leaving rfl (by rintro _ _ _ ⟨⟩) x
    by_cases hx : x = id
    · subst hx
      have hr : ¬ s.rows.Replayable x := fun hr => hgone (StoredRows.mem_of_replayable hr)
      simp [hr, hnone]
    · simp [hx, hnone]
  · obtain ⟨hs, hr, ho, hf⟩ := h.landed_ok l hl
    exact ⟨hs, hr, fun hc => ho (hsub.subset hc), hf⟩
  · obtain ⟨hr, ho⟩ := h.foreign_ok x hx
    exact ⟨hr, fun hc => ho (hsub.subset hc)⟩
  · exact (h.loads_ok l hl).mono (fun _ hx => hx)
      (fun x hd => ⟨hd.1, fun hp => hd.2.1 ((hpending x).mp hp).1⟩) fun _ _ hx => ⟨hx, fun hr => hr⟩
  · obtain ⟨hne, hnodup⟩ := List.nodup_cons.mp hnodup
    refine ⟨hnodup, fun x hx => (hpending x).mpr ⟨hin x (List.mem_cons_of_mem _ hx), ?_⟩⟩
    rintro rfl
    exact hne hx

theorem Mirrors.drainEnd (h : s.Mirrors)
    (hd : s.drain = some (.settling rest)) : Mirrors { s with drain := none } :=
  h.drainStep (not_leaving hd (by rintro _ _ _ ⟨⟩)) (by rintro _ _ _ ⟨⟩) trivial

/-! ## Runs -/

/-- An undisturbed step keeps the invariant. -/
theorem Mirrors.step {a : OutboxAct} (h : s.Mirrors) (hok : s.Undisturbed a)
    (hstep : s.step a = some t) : t.Mirrors := by
  cases a with
  | commitWrite id type recordId =>
    simp only [OutboxTab.step] at hstep
    split at hstep
    next => cases hstep
    next hfresh =>
      cases hstep
      exact h.commitWrite type recordId hfresh
  | publish i =>
    simp only [OutboxTab.step] at hstep
    split at hstep
    next => cases hstep
    next item hi =>
      cases hstep
      exact h.publish hi
  | followerWrite id row =>
    simp only [OutboxTab.step] at hstep
    split at hstep
    next => cases hstep
    next hfresh =>
      cases hstep
      exact h.followerWrite row hfresh
  | startLoad =>
    simp only [OutboxTab.step] at hstep
    split at hstep
    next => cases hstep
    next n hn =>
      cases hstep
      exact h.startLoad n
  | loadQuery i =>
    simp only [OutboxTab.step] at hstep
    split at hstep
    next hi =>
      cases hstep
      exact h.loadQuery hi
    next => cases hstep
  | loadReplace i =>
    simp only [OutboxTab.step] at hstep
    split at hstep
    next items unreplayable hi =>
      cases hstep
      exact h.loadReplace hi (hok items unreplayable hi)
    next => cases hstep
  | moveUnreplayable i fails =>
    simp only [OutboxTab.step] at hstep
    split at hstep
    next id rest hi =>
      cases hstep
      exact h.moveUnreplayable hi fails
    next => cases hstep
  | removeUnreplayable i =>
    simp only [OutboxTab.step] at hstep
    split at hstep
    next id rest hi =>
      cases hstep
      exact h.removeUnreplayable hi
    next => cases hstep
  | loadEnd i =>
    simp only [OutboxTab.step] at hstep
    split at hstep
    next hi =>
      cases hstep
      exact h.loadEnd hi
    next => cases hstep
  | startDrain n =>
    simp only [OutboxTab.step] at hstep
    split at hstep
    next hd =>
      cases hstep
      exact h.startDrain hd n
    next => cases hstep
  | drainQuery =>
    simp only [OutboxTab.step] at hstep
    split at hstep
    next batch hd =>
      cases hstep
      exact h.drainQuery hd
    next => cases hstep
  | drainSend =>
    simp only [OutboxTab.step] at hstep
    split at hstep
    next batch found hd =>
      cases hstep
      exact h.drainSend hd
    next => cases hstep
  | settleRow accepted fails =>
    simp only [OutboxTab.step] at hstep
    split at hstep
    next id rest hd =>
      cases hstep
      cases hok
      exact h.settleRow hd accepted
    next => cases hstep
  | settleItem now =>
    simp only [OutboxTab.step] at hstep
    split at hstep
    next id accepted rest hd =>
      cases hstep
      cases accepted with
      | true =>
        refine h.settleItem hd (fun x => mem_pendingOf_ackFirst h.nodup) ?_
        change ((ClientState.ackFirst id now s.client.outbox).map (·.id)).Sublist _
        rw [ClientState.map_ackFirst fun _ _ => rfl]
      | false =>
        exact h.settleItem hd (fun x => mem_pendingOf_remove)
          (List.Sublist.map _ List.filter_sublist)
    next => cases hstep
  | drainEnd =>
    simp only [OutboxTab.step] at hstep
    split at hstep
    next rest hd =>
      cases hstep
      exact h.drainEnd hd
    next => cases hstep

end OutboxTab

end Sp00ky.Core.Client
