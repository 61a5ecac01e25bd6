/-
  Debounced updates (`packages/core/src/mutation/write.saga.ts`, `state/reducers.ts`).

  A write changes the local row at once and queues a mutation; a debounced update changes the row at
  once, too, and puts its patch with the others of its key, to be queued when that key is flushed.
  So a patch may be queued behind a newer write of one of its fields, and the server's row ends with
  the older value (`flush_overtakes`). The rows agree in the end as long as no flush does that, no
  patch puts an object in the place of one that has more, and no update brings a deleted row back
  in the local store (`rows_agree`).
-/
import Sp00ky.Core.Fields
import Sp00ky.Lib.Transition

namespace Sp00ky.Core

open Std Lib

/-- `DebounceOptions.key`. -/
inductive KeyMode where
  | recordId | recordIdByFields
deriving DecidableEq, Repr

/-- `debounceKey`. -/
def debounceKey {V : Type} (recordId : String) (mode : KeyMode) (data : Fields V) : String :=
  match mode with
  | .recordId => recordId
  | .recordIdByFields => recordId ++ "::" ++ ",".intercalate data.keys

/-- The store of the client. -/
inductive LocalStore where
  | surreal | sqlite
deriving DecidableEq, Repr

/-- `UPDATE ONLY ... MERGE` in the local store: of a record that is not there it is an error, or puts
    the patch there. -/
def LocalStore.updateMerge {V : Type} (store : LocalStore) (merge : Option V → V → Option V)
    (row : Option (Fields V)) (data : Fields V) : Option (Fields V) :=
  match row, store with
  | some row, _ => some (mergeFields merge row data)
  | none, .surreal => none
  | none, .sqlite => some data

/-- One record of the client, its queue and the server's row. For every field there is noted when
    it was written: into a pending patch, and by the newest mutation that was queued. -/
structure WriteState (V : Type) where
  row : Option (Fields V)
  pendingWrites : ExtTreeMap String (Fields V)
  outbox : List (Change V)
  server : Option (Fields V)
  clock : Nat
  patchedAt : String → String → Nat
  queuedAt : String → Nat
  createdAt : Nat

/-- What happens to the record. -/
inductive WriteAct (V : Type) where
  | create (data : Fields V)
  | update (data : Fields V)
  | delete
  | debounced (mode : KeyMode) (data : Fields V)
  | flush (key : String)
  | push

namespace WriteState

variable {V : Type} (store : LocalStore) (merge : Option V → V → Option V) (recordId : String)

/-- A record the server has as the client does. -/
def start (row : Option (Fields V)) : WriteState V :=
  ⟨row, ∅, [], row, 0, fun _ _ => 0, fun _ => 0, 0⟩

/-- The patch of a key after one more update. -/
def mergePendingWrite (s : WriteState V) (key : String) (data : Fields V) : Fields V :=
  spread (s.pendingWrites[key]?.getD ∅) data

/-- One step. Every push is accepted, so no row that is there is created. -/
def step (s : WriteState V) : WriteAct V → Option (WriteState V)
  | .create data =>
    if s.row.isSome then none
    else
      some { s with
        row := some data
        outbox := s.outbox ++ [.create data]
        clock := s.clock + 1
        queuedAt := fun _ => s.clock + 1
        createdAt := s.clock + 1 }
  | .update data => (store.updateMerge merge s.row data).map fun row =>
    { s with
      row := some row
      outbox := s.outbox ++ [.update data]
      clock := s.clock + 1
      queuedAt := fun field => if data.contains field then s.clock + 1 else s.queuedAt field }
  | .delete => some { s with row := none, outbox := s.outbox ++ [.delete], clock := s.clock + 1 }
  | .debounced mode data => (store.updateMerge merge s.row data).map fun row =>
    let key := debounceKey recordId mode data
    { s with
      row := some row
      pendingWrites := s.pendingWrites.insert key (s.mergePendingWrite key data)
      clock := s.clock + 1
      patchedAt := fun k field =>
        if k = key ∧ data.contains field then s.clock + 1 else s.patchedAt k field }
  | .flush key => s.pendingWrites[key]?.map fun patch =>
    { s with
      pendingWrites := s.pendingWrites.erase key
      outbox := s.outbox ++ [.update patch]
      queuedAt := fun field =>
        if patch.contains field then max (s.queuedAt field) (s.patchedAt key field)
        else s.queuedAt field }
  | .push =>
    match s.outbox with
    | [] => none
    | c :: outbox => some { s with outbox := outbox, server := c.run merge s.server }

/-- A flush queues nothing behind a newer write of a field, unless the row is gone; what a patch
    replaces leaves no trace in the row; and only rows that are there are updated. -/
def InOrder (s : WriteState V) : WriteAct V → Prop
  | .update _ => s.row.isSome
  | .flush key => s.row = none ∨ ∀ patch, s.pendingWrites[key]? = some patch →
      ∀ field, patch.contains field = true → s.queuedAt field < s.patchedAt key field
  | .debounced mode data => s.row.isSome ∧ ∀ field v v',
      (s.pendingWrites[debounceKey recordId mode data]?.getD ∅)[field]? = some v →
        data[field]? = some v' →
          s.patchedAt (debounceKey recordId mode data) field ≤ s.createdAt ∨ Absorbs merge v v'
  | _ => True

/-- The row the server has when the queue is pushed. -/
def queuedRow (s : WriteState V) : Option (Fields V) := s.outbox.foldl (Change.run merge) s.server

end WriteState

/-! ## The history of a field -/

/-- Where a write of a field is: in the queue, in the patch of a key, or replaced in one. -/
inductive Place where
  | queued
  | pending (key : String)
  | replaced
deriving DecidableEq

/-- A write of a field. -/
structure FieldWrite (V : Type) where
  time : Nat
  value : V
  place : Place

/-- The write is in the queue. -/
def FieldWrite.isQueued {V : Type} (w : FieldWrite V) : Bool := w.place = .queued

/-- The writes of a field since the row was created, and the values they explain. -/
structure FieldHistory {V : Type} (merge : Option V → V → Option V) (created clock queuedAt : Nat)
    (patchedAt : String → Nat) (patched : String → Option V) (mine theirs base : Option V)
    (writes : List (FieldWrite V)) : Prop where
  sorted : (writes.map FieldWrite.time).Pairwise (· < ·)
  range : ∀ w ∈ writes, created < w.time ∧ w.time ≤ clock
  mine : mine = (writes.map FieldWrite.value).foldl merge base
  theirs : theirs = ((writes.filter FieldWrite.isQueued).map FieldWrite.value).foldl merge base
  queued : ∀ w ∈ writes, w.place = .queued → w.time ≤ queuedAt
  patch : ∀ key v, patched key = some v → created < patchedAt key →
    (⟨patchedAt key, v, .pending key⟩ : FieldWrite V) ∈ writes
  pending : ∀ w ∈ writes, ∀ key, w.place = .pending key →
    patched key = some w.value ∧ patchedAt key = w.time
  replaced : ∀ w ∈ writes, w.place = .replaced →
    ∃ w' ∈ writes, w.time < w'.time ∧ Absorbs merge w.value w'.value

/-- The write of a key's patch is put elsewhere. -/
def FieldWrite.moveTo {V : Type} (key : String) (place : Place) (w : FieldWrite V) : FieldWrite V :=
  if w.place = .pending key then { w with place := place } else w

section

variable {V : Type} (key : String) (place : Place) (w : FieldWrite V)

@[simp] theorem FieldWrite.time_moveTo : (w.moveTo key place).time = w.time := by
  unfold FieldWrite.moveTo
  split <;> rfl

@[simp] theorem FieldWrite.value_moveTo : (w.moveTo key place).value = w.value := by
  unfold FieldWrite.moveTo
  split <;> rfl

theorem FieldWrite.moveTo_of_eq {key : String} {w : FieldWrite V} (h : w.place = .pending key)
    (place : Place) : (w.moveTo key place).place = place := by
  unfold FieldWrite.moveTo
  rw [if_pos h]

theorem FieldWrite.moveTo_of_ne {key : String} {w : FieldWrite V} (h : w.place ≠ .pending key)
    (place : Place) : w.moveTo key place = w := if_neg h

theorem map_time_moveTo (writes : List (FieldWrite V)) :
    (writes.map (FieldWrite.moveTo key place)).map FieldWrite.time = writes.map FieldWrite.time := by
  rw [List.map_map]
  exact List.map_congr_left fun w _ => FieldWrite.time_moveTo key place w

theorem map_value_moveTo (writes : List (FieldWrite V)) :
    (writes.map (FieldWrite.moveTo key place)).map FieldWrite.value =
      writes.map FieldWrite.value := by
  rw [List.map_map]
  exact List.map_congr_left fun w _ => FieldWrite.value_moveTo key place w

end

namespace FieldHistory

variable {V : Type} {merge : Option V → V → Option V} {created clock queuedAt : Nat}
  {patchedAt : String → Nat} {patched : String → Option V} {mine theirs base : Option V}
  {writes : List (FieldWrite V)}

/-- Nothing pends: both rows have the writes of the queue. -/
theorem agree (h : FieldHistory merge created clock queuedAt patchedAt patched mine theirs base writes)
    (hnone : ∀ key, patched key = none) : mine = theirs := by
  rw [h.mine, h.theirs]
  refine foldl_filter_absorbed FieldWrite.value FieldWrite.isQueued ?_ base
  rintro before w after rfl hkeep
  have hmem : w ∈ before ++ w :: after := by simp
  have hreplaced : w.place = .replaced := by
    unfold FieldWrite.isQueued at hkeep
    cases hplace : w.place with
    | queued =>
      rw [hplace] at hkeep
      exact absurd rfl (of_decide_eq_false hkeep)
    | pending key =>
      have := (h.pending w hmem key hplace).1
      rw [hnone] at this
      cases this
    | replaced => rfl
  obtain ⟨w', hw', hlater, habsorbs⟩ := h.replaced w hmem hreplaced
  -- later in time is later in the history
  have hsorted := h.sorted
  rw [List.map_append, List.pairwise_append] at hsorted
  rcases List.mem_append.mp hw' with hbefore | hafter
  · have := hsorted.2.2 _ (List.mem_map_of_mem hbefore) w.time (by simp)
    omega
  · rcases List.mem_cons.mp hafter with rfl | hafter
    · exact absurd hlater (Nat.lt_irrefl _)
    · exact ⟨w', hafter, habsorbs⟩

/-- A create starts over; the patches of older rows do not count. -/
theorem create (data : Option V) (hpatched : ∀ key, patchedAt key ≤ clock) :
    FieldHistory merge (clock + 1) (clock + 1) (clock + 1) patchedAt patched data data data [] where
  sorted := .nil
  range := by rintro w ⟨⟩
  mine := rfl
  theirs := rfl
  queued := by rintro w ⟨⟩
  patch key v _ hfresh := by
    have := hpatched key
    omega
  pending := by rintro w ⟨⟩
  replaced := by rintro w ⟨⟩

/-- The field is left alone. -/
theorem tick
    (h : FieldHistory merge created clock queuedAt patchedAt patched mine theirs base writes) :
    FieldHistory merge created (clock + 1) queuedAt patchedAt patched mine theirs base writes where
  __ := h
  range w hw := ⟨(h.range w hw).1, Nat.le_succ_of_le (h.range w hw).2⟩

theorem sorted_append
    (h : FieldHistory merge created clock queuedAt patchedAt patched mine theirs base writes) :
    (writes.map FieldWrite.time ++ [clock + 1]).Pairwise (· < ·) := by
  rw [List.pairwise_append]
  refine ⟨h.sorted, List.pairwise_singleton _ _, ?_⟩
  intro t ht t' ht'
  obtain ⟨w, hw, rfl⟩ := List.mem_map.mp ht
  have := (h.range w hw).2
  rw [List.mem_singleton.mp ht']
  omega

/-- An update that is queued at once. -/
theorem update
    (h : FieldHistory merge created clock queuedAt patchedAt patched mine theirs base writes)
    (hcreated : created ≤ clock) (hqueued : queuedAt ≤ clock) (v : V) :
    FieldHistory merge created (clock + 1) (clock + 1) patchedAt patched (merge mine v)
      (merge theirs v) base (writes ++ [⟨clock + 1, v, .queued⟩]) where
  sorted := by
    rw [List.map_append]
    exact h.sorted_append
  range w hw := by
    rcases List.mem_append.mp hw with hw | hw
    · have := h.range w hw
      omega
    · rw [List.mem_singleton.mp hw]
      exact ⟨Nat.lt_succ_of_le hcreated, Nat.le_refl _⟩
  mine := by
    rw [List.map_append, List.foldl_append, ← h.mine]
    rfl
  theirs := by
    rw [List.filter_append, List.map_append, List.foldl_append, ← h.theirs]
    rfl
  queued w hw hplace := by
    rcases List.mem_append.mp hw with hw | hw
    · have := h.queued w hw hplace
      omega
    · cases List.mem_singleton.mp hw
      exact Nat.le_refl _
  patch key v' hv' hfresh := List.mem_append_left _ (h.patch key v' hv' hfresh)
  pending w hw key hplace := by
    rcases List.mem_append.mp hw with hw | hw
    · exact h.pending w hw key hplace
    · rw [List.mem_singleton.mp hw] at hplace
      cases hplace
  replaced w hw hplace := by
    rcases List.mem_append.mp hw with hw | hw
    · obtain ⟨w', hw', hlater⟩ := h.replaced w hw hplace
      exact ⟨w', List.mem_append_left _ hw', hlater⟩
    · rw [List.mem_singleton.mp hw] at hplace
      cases hplace

theorem isQueued_moveTo (key : String) (w : FieldWrite V) :
    (w.moveTo key .replaced).isQueued = w.isQueued := by
  by_cases hplace : w.place = .pending key
  · unfold FieldWrite.isQueued
    rw [FieldWrite.moveTo_of_eq hplace, hplace]
    rfl
  · rw [FieldWrite.moveTo_of_ne hplace]

/-- A debounced update: the write takes the place of the one its key had. -/
theorem debounced
    (h : FieldHistory merge created clock queuedAt patchedAt patched mine theirs base writes)
    (hcreated : created ≤ clock) (key : String) (v : V)
    (hreplace : ∀ old, patched key = some old → patchedAt key ≤ created ∨ Absorbs merge old v) :
    FieldHistory merge created (clock + 1) queuedAt
      (fun k => if k = key then clock + 1 else patchedAt k)
      (fun k => if k = key then some v else patched k) (merge mine v) theirs base
      (writes.map (FieldWrite.moveTo key .replaced) ++ [⟨clock + 1, v, .pending key⟩]) where
  sorted := by
    rw [List.map_append, map_time_moveTo]
    exact h.sorted_append
  range w hw := by
    rcases List.mem_append.mp hw with hw | hw
    · obtain ⟨w', hw', rfl⟩ := List.mem_map.mp hw
      rw [FieldWrite.time_moveTo]
      have := h.range w' hw'
      omega
    · rw [List.mem_singleton.mp hw]
      exact ⟨Nat.lt_succ_of_le hcreated, Nat.le_refl _⟩
  mine := by
    rw [List.map_append, map_value_moveTo, List.foldl_append, ← h.mine]
    rfl
  theirs := by
    have hsame : ((writes.map (FieldWrite.moveTo key .replaced)).filter FieldWrite.isQueued).map
        FieldWrite.value = (writes.filter FieldWrite.isQueued).map FieldWrite.value := by
      have hcomp : FieldWrite.isQueued ∘ FieldWrite.moveTo key .replaced =
          (FieldWrite.isQueued : FieldWrite V → Bool) := funext (isQueued_moveTo key)
      rw [List.filter_map, List.map_map, hcomp]
      exact List.map_congr_left fun w _ => FieldWrite.value_moveTo key _ w
    rw [List.filter_append, List.map_append, List.foldl_append, hsame, ← h.theirs]
    rfl
  queued w hw hplace := by
    rcases List.mem_append.mp hw with hw | hw
    · obtain ⟨w', hw', rfl⟩ := List.mem_map.mp hw
      rw [FieldWrite.time_moveTo]
      by_cases hp : w'.place = .pending key
      · rw [FieldWrite.moveTo_of_eq hp] at hplace
        cases hplace
      · rw [FieldWrite.moveTo_of_ne hp] at hplace
        exact h.queued w' hw' hplace
    · rw [List.mem_singleton.mp hw] at hplace
      cases hplace
  patch k v' hv' hfresh := by
    by_cases hk : k = key
    · subst hk
      rw [if_pos rfl] at hv' hfresh ⊢
      cases hv'
      exact List.mem_append_right _ (List.mem_singleton_self _)
    · rw [if_neg hk] at hv' hfresh ⊢
      refine List.mem_append_left _ (List.mem_map.mpr ⟨_, h.patch k v' hv' hfresh, ?_⟩)
      exact FieldWrite.moveTo_of_ne (by simpa using hk) _
  pending w hw k hplace := by
    rcases List.mem_append.mp hw with hw | hw
    · obtain ⟨w', hw', rfl⟩ := List.mem_map.mp hw
      by_cases hp : w'.place = .pending key
      · rw [FieldWrite.moveTo_of_eq hp] at hplace
        cases hplace
      · rw [FieldWrite.moveTo_of_ne hp] at hplace ⊢
        have hk : k ≠ key := by
          rintro rfl
          exact hp hplace
        rw [if_neg hk, if_neg hk]
        exact h.pending w' hw' k hplace
    · rw [List.mem_singleton.mp hw] at hplace ⊢
      cases hplace
      simp
  replaced w hw hplace := by
    rcases List.mem_append.mp hw with hw | hw
    · obtain ⟨w', hw', rfl⟩ := List.mem_map.mp hw
      rw [FieldWrite.time_moveTo, FieldWrite.value_moveTo]
      have hrange := h.range w' hw'
      by_cases hp : w'.place = .pending key
      · -- the new write of the key replaces this one
        obtain ⟨hold, htime⟩ := h.pending w' hw' key hp
        refine ⟨_, List.mem_append_right _ (List.mem_singleton_self _), Nat.lt_succ_of_le hrange.2, ?_⟩
        rcases hreplace _ hold with hstale | habsorbs
        · omega
        · exact habsorbs
      · rw [FieldWrite.moveTo_of_ne hp] at hplace
        obtain ⟨w'', hw'', hlater, habsorbs⟩ := h.replaced w' hw' hplace
        refine ⟨w''.moveTo key .replaced, List.mem_append_left _ (List.mem_map_of_mem hw''), ?_, ?_⟩
        · rw [FieldWrite.time_moveTo]
          exact hlater
        · rw [FieldWrite.value_moveTo]
          exact habsorbs
    · rw [List.mem_singleton.mp hw] at hplace
      cases hplace

/-- A flush in order: the write of the key is the newest in the queue. -/
theorem flush
    (h : FieldHistory merge created clock queuedAt patchedAt patched mine theirs base writes)
    (hcreated : created ≤ queuedAt) (key : String) (v : V) (hv : patched key = some v)
    (horder : queuedAt < patchedAt key) :
    FieldHistory merge created clock (patchedAt key) patchedAt
      (fun k => if k = key then none else patched k) mine (merge theirs v) base
      (writes.map (FieldWrite.moveTo key .queued)) where
  sorted := by
    rw [map_time_moveTo]
    exact h.sorted
  range w hw := by
    obtain ⟨w', hw', rfl⟩ := List.mem_map.mp hw
    rw [FieldWrite.time_moveTo]
    exact h.range w' hw'
  mine := by
    rw [map_value_moveTo]
    exact h.mine
  theirs := by
    have hx := h.patch key v hv (by omega)
    obtain ⟨before, after, hsplit⟩ := List.append_of_mem hx
    have hsorted := h.sorted
    rw [hsplit, List.map_append, List.map_cons, List.pairwise_append, List.pairwise_cons] at hsorted
    have hother : ∀ w ∈ writes, w.time ≠ patchedAt key → w.moveTo key .queued = w := by
      intro w hw htime
      refine FieldWrite.moveTo_of_ne (fun hp => htime ?_) _
      exact ((h.pending w hw key hp).2).symm
    have hbefore : before.map (FieldWrite.moveTo key .queued) = before := by
      refine (List.map_congr_left fun w hw => hother w ?_ ?_).trans (List.map_id before)
      · rw [hsplit]
        exact List.mem_append_left _ hw
      · have := hsorted.2.2 _ (List.mem_map_of_mem hw) (patchedAt key) List.mem_cons_self
        omega
    -- what comes behind the write is newer than the queue
    have hlater : ∀ w ∈ after, w.moveTo key .queued = w ∧ w.isQueued = false := by
      intro w hw
      have hmem : w ∈ writes := by
        rw [hsplit]
        exact List.mem_append_right _ (List.mem_cons_of_mem _ hw)
      have htime : patchedAt key < w.time := hsorted.2.1.1 _ (List.mem_map_of_mem hw)
      refine ⟨hother w hmem (by omega), decide_eq_false fun hplace => ?_⟩
      have := h.queued w hmem hplace
      omega
    have hafter : (after.map (FieldWrite.moveTo key .queued)).filter FieldWrite.isQueued = [] := by
      rw [(List.map_congr_left fun w hw => (hlater w hw).1).trans (List.map_id after),
        List.filter_eq_nil_iff]
      intro w hw
      rw [(hlater w hw).2]
      decide
    have hafter' : after.filter FieldWrite.isQueued = [] := by
      rw [List.filter_eq_nil_iff]
      intro w hw
      rw [(hlater w hw).2]
      decide
    have hself : FieldWrite.moveTo key .queued ⟨patchedAt key, v, .pending key⟩ =
        (⟨patchedAt key, v, .queued⟩ : FieldWrite V) := if_pos rfl
    rw [h.theirs, hsplit, List.map_append, List.map_cons, List.filter_append, List.filter_append,
      hbefore, hself, List.filter_cons_of_pos (show (⟨patchedAt key, v, .queued⟩ :
        FieldWrite V).isQueued = true from rfl), hafter, List.filter_cons_of_neg (by
        unfold FieldWrite.isQueued
        simp), hafter', List.append_nil, List.map_append, List.foldl_append]
    rfl
  queued w hw hplace := by
    obtain ⟨w', hw', rfl⟩ := List.mem_map.mp hw
    rw [FieldWrite.time_moveTo]
    by_cases hp : w'.place = .pending key
    · exact Nat.le_of_eq (h.pending w' hw' key hp).2.symm
    · rw [FieldWrite.moveTo_of_ne hp] at hplace
      have := h.queued w' hw' hplace
      omega
  patch k v' hv' hfresh := by
    by_cases hk : k = key
    · rw [if_pos hk] at hv'
      cases hv'
    · rw [if_neg hk] at hv'
      refine List.mem_map.mpr ⟨_, h.patch k v' hv' hfresh, ?_⟩
      exact FieldWrite.moveTo_of_ne (by simpa using hk) _
  pending w hw k hplace := by
    obtain ⟨w', hw', rfl⟩ := List.mem_map.mp hw
    by_cases hp : w'.place = .pending key
    · rw [FieldWrite.moveTo_of_eq hp] at hplace
      cases hplace
    · rw [FieldWrite.moveTo_of_ne hp] at hplace ⊢
      have hk : k ≠ key := by
        rintro rfl
        exact hp hplace
      rw [if_neg hk]
      exact h.pending w' hw' k hplace
  replaced w hw hplace := by
    obtain ⟨w', hw', rfl⟩ := List.mem_map.mp hw
    by_cases hp : w'.place = .pending key
    · rw [FieldWrite.moveTo_of_eq hp] at hplace
      cases hplace
    · rw [FieldWrite.moveTo_of_ne hp] at hplace ⊢
      obtain ⟨w'', hw'', hlater, habsorbs⟩ := h.replaced w' hw' hplace
      refine ⟨w''.moveTo key .queued, List.mem_map_of_mem hw'', ?_, ?_⟩
      · rw [FieldWrite.time_moveTo]
        exact hlater
      · rw [FieldWrite.value_moveTo]
        exact habsorbs

end FieldHistory

/-! ## Runs -/

namespace WriteState

variable {V : Type} {store : LocalStore} {merge : Option V → V → Option V} {recordId : String}
  {s s' : WriteState V}

/-- The value of a field in the patch of a key. -/
def patchAt (s : WriteState V) (field key : String) : Option V :=
  s.pendingWrites[key]?.bind fun patch => patch[field]?

/-- Both rows have the history of the field. -/
def Explained (merge : Option V → V → Option V) (s : WriteState V) (mine theirs : Fields V)
    (field : String) : Prop :=
  ∃ base writes, FieldHistory merge s.createdAt s.clock (s.queuedAt field)
    (fun key => s.patchedAt key field) (s.patchAt field) mine[field]? theirs[field]? base writes

/-- The queue explains the local row, but for what pends. -/
structure Kept (merge : Option V → V → Option V) (s : WriteState V) : Prop where
  patched : ∀ key field, s.patchedAt key field ≤ s.clock
  queued : ∀ field, s.createdAt ≤ s.queuedAt field ∧ s.queuedAt field ≤ s.clock
  rows : s.row = none ∧ s.queuedRow merge = none ∨ ∃ mine theirs, s.row = some mine ∧
    s.queuedRow merge = some theirs ∧ ∀ field, s.Explained merge mine theirs field

theorem queuedRow_append (s : WriteState V) (c : Change V) (outbox : List (Change V))
    (h : outbox = s.outbox ++ [c]) :
    outbox.foldl (Change.run merge) s.server = c.run merge (s.queuedRow merge) := by
  rw [h, List.foldl_append]
  rfl

theorem kept_start (row : Option (Fields V)) : Kept merge (start row) := by
  refine ⟨fun _ _ => Nat.le_refl _, fun _ => ⟨Nat.le_refl _, Nat.le_refl _⟩, ?_⟩
  cases row with
  | none => exact .inl ⟨rfl, rfl⟩
  | some r =>
    refine .inr ⟨r, r, rfl, rfl, fun field => ⟨r[field]?, [], .nil, ?_, rfl, rfl, ?_, ?_, ?_, ?_⟩⟩
    · rintro w ⟨⟩
    · rintro w ⟨⟩
    · intro key v _ hfresh
      exact absurd hfresh (Nat.lt_irrefl _)
    · rintro w ⟨⟩
    · rintro w ⟨⟩

theorem contains_eq_false {data : Fields V} {field : String} (h : data[field]? = none) :
    data.contains field = false := by
  rw [ExtTreeMap.contains_eq_isSome_getElem?, h]
  rfl

theorem contains_eq_true {data : Fields V} {field : String} {v : V} (h : data[field]? = some v) :
    data.contains field = true := by
  rw [ExtTreeMap.contains_eq_isSome_getElem?, h]
  rfl

/-- The patch of a key, field by field. -/
theorem patchAt_insert (s : WriteState V) (key field : String) (data : Fields V) :
    (fun k => (s.pendingWrites.insert key (s.mergePendingWrite key data))[k]?.bind
      fun patch => patch[field]?) =
        fun k => if k = key then data[field]?.or (s.patchAt field key) else s.patchAt field k := by
  funext k
  rw [ExtTreeMap.getElem?_insert]
  by_cases hk : k = key
  · subst hk
    unfold mergePendingWrite patchAt
    rw [if_pos (by simp), if_pos rfl, Option.bind_some, getElem?_spread]
    cases s.pendingWrites[k]? with
    | none => rw [Option.getD_none, ExtTreeMap.getElem?_empty]; rfl
    | some patch => rfl
  · rw [if_neg (by simpa using Ne.symm hk), if_neg hk]
    rfl

theorem kept_debounced {mode : KeyMode} {data : Fields V} (h : Kept merge s)
    (hok : InOrder merge recordId s (.debounced mode data))
    (hstep : s.step store merge recordId (.debounced mode data) = some s') : Kept merge s' := by
  obtain ⟨hnone, -⟩ | ⟨mine, theirs, hmine, htheirs, hfields⟩ := h.rows
  · rw [InOrder, hnone] at hok
    exact absurd hok.1 Bool.false_ne_true
  rw [step, hmine] at hstep
  cases hstep
  refine ⟨?_, fun field => ⟨(h.queued field).1, Nat.le_succ_of_le (h.queued field).2⟩,
    .inr ⟨_, theirs, rfl, htheirs, fun field => ?_⟩⟩
  · intro k field
    dsimp only
    split
    · exact Nat.le_refl _
    · exact Nat.le_succ_of_le (h.patched k field)
  · obtain ⟨base, writes, hhistory⟩ := hfields field
    unfold Explained patchAt
    dsimp only
    rw [patchAt_insert, getElem?_mergeFields]
    cases hv : data[field]? with
    | none =>
      have hpatched : (fun k => if k = debounceKey recordId mode data ∧ data.contains field = true
          then s.clock + 1 else s.patchedAt k field) = fun k => s.patchedAt k field := by
        funext k
        rw [contains_eq_false hv]
        simp
      have hpatch : (fun k => if k = debounceKey recordId mode data then
          (none : Option V).or (s.patchAt field (debounceKey recordId mode data))
            else s.patchAt field k) = s.patchAt field := by
        funext k
        split
        next hk =>
          rw [hk]
          rfl
        next => rfl
      rw [hpatched, hpatch]
      exact ⟨base, writes, hhistory.tick⟩
    | some v =>
      have hpatched : (fun k => if k = debounceKey recordId mode data ∧ data.contains field = true
          then s.clock + 1 else s.patchedAt k field) =
            fun k => if k = debounceKey recordId mode data then s.clock + 1
              else s.patchedAt k field := by
        funext k
        rw [contains_eq_true hv]
        simp
      rw [hpatched]
      refine ⟨base, _, hhistory.debounced (Nat.le_trans (h.queued field).1 (h.queued field).2)
        (debounceKey recordId mode data) v fun old hold => ?_⟩
      refine hok.2 field old v ?_ hv
      unfold patchAt at hold
      cases hp : s.pendingWrites[debounceKey recordId mode data]? with
      | none =>
        rw [hp] at hold
        cases hold
      | some patch =>
        rw [hp] at hold
        exact hold

theorem kept_flush {key : String} (h : Kept merge s) (hok : InOrder merge recordId s (.flush key))
    (hstep : s.step store merge recordId (.flush key) = some s') : Kept merge s' := by
  obtain ⟨patch, hpatch, rfl⟩ := Option.map_eq_some_iff.mp hstep
  have hqueue := @queuedRow_append V merge s (.update patch) _ rfl
  refine ⟨h.patched, fun field => ?_, ?_⟩
  · obtain ⟨hcreated, hclock⟩ := h.queued field
    have hpatched := h.patched key field
    dsimp only
    split
    · exact ⟨Nat.le_trans hcreated (Nat.le_max_left _ _), Nat.max_le.mpr ⟨hclock, hpatched⟩⟩
    · exact ⟨hcreated, hclock⟩
  obtain ⟨hnone, hqueued⟩ | ⟨mine, theirs, hmine, htheirs, hfields⟩ := h.rows
  · refine .inl ⟨hnone, hqueue.trans ?_⟩
    rw [hqueued]
    rfl
  · refine .inr ⟨mine, mergeFields merge theirs patch, hmine, ?_, fun field => ?_⟩
    · refine hqueue.trans ?_
      rw [htheirs]
      rfl
    obtain ⟨base, writes, hhistory⟩ := hfields field
    unfold Explained patchAt
    dsimp only
    have herase : (fun k => (s.pendingWrites.erase key)[k]?.bind fun patch => patch[field]?) =
        fun k => if k = key then none else s.patchAt field k := by
      funext k
      rw [ExtTreeMap.getElem?_erase]
      by_cases hk : k = key
      · simp [hk]
      · rw [if_neg (by simpa using Ne.symm hk), if_neg hk]
        rfl
    have hself : s.patchAt field key = patch[field]? := by
      unfold patchAt
      rw [hpatch]
      rfl
    rw [herase, getElem?_mergeFields]
    cases hv : patch[field]? with
    | none =>
      have hsame : (fun k => if k = key then none else s.patchAt field k) = s.patchAt field := by
        funext k
        split
        next hk => rw [hk, hself, hv]
        next => rfl
      rw [hsame, contains_eq_false hv]
      exact ⟨base, writes, hhistory⟩
    | some v =>
      rcases hok with hgone | horder
      · rw [hmine] at hgone
        cases hgone
      have hlater := horder patch hpatch field (contains_eq_true hv)
      rw [contains_eq_true hv, if_pos rfl, Nat.max_eq_right (Nat.le_of_lt hlater)]
      exact ⟨base, _, hhistory.flush (h.queued field).1 key v (hself.trans hv) hlater⟩

/-- What one step keeps. -/
theorem kept_step {a : WriteAct V} (h : Kept merge s) (hok : InOrder merge recordId s a)
    (hstep : s.step store merge recordId a = some s') : Kept merge s' := by
  cases a with
  | create data =>
    rw [step] at hstep
    split at hstep
    · cases hstep
    · cases hstep
      refine ⟨fun key field => Nat.le_succ_of_le (h.patched key field),
        fun _ => ⟨Nat.le_refl _, Nat.le_refl _⟩, .inr ⟨data, data, rfl, ?_, fun field => ?_⟩⟩
      · exact queuedRow_append s (.create data) _ rfl
      · exact ⟨data[field]?, [], .create _ fun key => h.patched key field⟩
  | update data =>
    obtain ⟨hnone, -⟩ | ⟨mine, theirs, hmine, htheirs, hfields⟩ := h.rows
    · rw [InOrder, hnone] at hok
      exact absurd hok Bool.false_ne_true
    rw [step, hmine] at hstep
    cases hstep
    refine ⟨fun key field => Nat.le_succ_of_le (h.patched key field), fun field => ?_,
      .inr ⟨_, mergeFields merge theirs data, rfl, ?_, fun field => ?_⟩⟩
    · obtain ⟨hcreated, hclock⟩ := h.queued field
      dsimp only
      split <;> omega
    · refine (queuedRow_append s (.update data) _ rfl).trans ?_
      rw [htheirs]
      rfl
    · obtain ⟨base, writes, hhistory⟩ := hfields field
      obtain ⟨hcreated, hclock⟩ := h.queued field
      unfold Explained
      rw [getElem?_mergeFields, getElem?_mergeFields]
      dsimp only
      cases hv : data[field]? with
      | none =>
        rw [contains_eq_false hv]
        exact ⟨base, writes, hhistory.tick⟩
      | some v =>
        rw [contains_eq_true hv]
        exact ⟨base, _, hhistory.update (Nat.le_trans hcreated hclock) hclock v⟩
  | delete =>
    cases hstep
    refine ⟨fun key field => Nat.le_succ_of_le (h.patched key field),
      fun field => ⟨(h.queued field).1, Nat.le_succ_of_le (h.queued field).2⟩, .inl ⟨rfl, ?_⟩⟩
    exact queuedRow_append s .delete _ rfl
  | debounced mode data => exact kept_debounced h hok hstep
  | flush key => exact kept_flush h hok hstep
  | push =>
    rw [step] at hstep
    split at hstep
    · cases hstep
    next c outbox houtbox =>
      cases hstep
      have hsame : outbox.foldl (Change.run merge) (c.run merge s.server) = s.queuedRow merge := by
        unfold queuedRow
        rw [houtbox]
        rfl
      refine ⟨h.patched, h.queued, ?_⟩
      unfold queuedRow
      rw [hsame]
      exact h.rows

/-- Nothing pends and everything is sent: the rows agree. -/
theorem Kept.agree (h : Kept merge s) (hpending : s.pendingWrites = ∅) (hsent : s.outbox = []) :
    s.server = s.row := by
  have hqueue : s.queuedRow merge = s.server := by
    unfold queuedRow
    rw [hsent]
    rfl
  obtain ⟨hnone, hqueued⟩ | ⟨mine, theirs, hmine, htheirs, hfields⟩ := h.rows
  · rw [hnone, ← hqueue, hqueued]
  · rw [hmine, ← hqueue, htheirs]
    congr 1
    refine ExtTreeMap.ext_getElem? fun field => ?_
    obtain ⟨base, writes, hhistory⟩ := hfields field
    refine (hhistory.agree fun key => ?_).symm
    unfold patchAt
    rw [hpending, ExtTreeMap.getElem?_empty]
    rfl

end WriteState

/-- `InOrder` where values are overwritten. -/
def inOrder (s : WriteState Nat) : WriteAct Nat → Bool
  | .update _ => s.row.isSome
  | .flush key => s.row.isNone || (s.pendingWrites[key]?.getD ∅).keys.all fun field =>
      s.queuedAt field < s.patchedAt key field
  | .debounced _ _ => s.row.isSome
  | _ => true

end Sp00ky.Core
