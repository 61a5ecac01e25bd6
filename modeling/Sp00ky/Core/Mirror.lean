/-
  The durable copy of debounced patches (`packages/core/src/mutation/write.saga.ts`, `rows.ts`).

  A debounced update changes the local row and, in the same transaction, writes the patch of its key
  as it read it, with its own fields, to `_00_pending_writes`; the flush of the key moves the patch
  as it read it to the outbox and deletes that row. A flush that read its patch before the last
  update's transaction and runs behind it deletes the update's only copy (`patch_dies_with_page`).
  As long as no transaction takes a value out of `_00_pending_writes` that it does not carry, every
  value is in a durable row (`patch_survives`).
-/
import Sp00ky.Core.Debounce

namespace Sp00ky.Core

open Std Lib

/-- `PENDING_WRITE_ORPHAN_MS`. -/
def pendingWriteOrphanMs : Nat := 3000

/-- A `PendingWrite` of an update that is flushed on hide. -/
structure PendingWrite (V : Type) where
  recordId : String
  data : Fields V
  mirrorId : String

/-- A row of `_00_pending_writes`. -/
structure PendingWriteRow (V : Type) where
  recordId : String
  data : Fields V
  flushBy : Nat

/-- An update in `_00_pending_mutations`. -/
structure MutationRow (V : Type) where
  recordId : String
  data : Fields V

/-- A `debouncedUpdate` underway: what it read, and whether its transaction has run. -/
structure DebouncedUpdate (V : Type) where
  key : String
  recordId : String
  params : Fields V
  delay : Nat
  existing : Option (PendingWrite V)
  mirrorId : String
  committed : Bool

/-- The saga that holds the lane `outbox-write`. -/
inductive OutboxWriter (V : Type) where
  /-- `flushWrite`, before and after it has cleared the patch. -/
  | flush (key : String) (pending : PendingWrite V) (cleared : Bool)
  /-- `adoptPendingWrites`, waiting for the rows. -/
  | adoptRead (held : List String)
  | adopt (now : Nat) (rows : List (String × PendingWriteRow V))

/-- The tab and its store. For every field there is noted the value of the debounced update that
wrote it last, if no other write came behind it, and which mutations were pushed. -/
structure MirrorState (V : Type) where
  pendingWriteRows : ExtTreeMap String (PendingWriteRow V)
  mutations : ExtTreeMap String (MutationRow V)
  pendingWrites : ExtTreeMap String (PendingWrite V)
  updates : List (DebouncedUpdate V)
  lane : Option (OutboxWriter V)
  pushed : List (MutationRow V)
  written : String → String → Option V

/-- A step of a saga, a statement of the store, or the end of the page. A transaction may fail, and
then leaves everything as it is. -/
inductive MirrorAct (V : Type) where
  /-- `debouncedUpdate` reads its patch; it may need a fresh id. -/
  | update (recordId : String) (mode : KeyMode) (params : Fields V) (delay : Nat) (freshId : String)
  | updateTx (i : Nat) (now : Nat) (fails : Bool)
  | mergePendingWrite (i : Nat)
  /-- `flushWrite`, by its timer or by `flushPendingWrites`. -/
  | flush (key : String)
  | flushClear
  | flushTx (mutationId : String) (fails : Bool)
  | adopt
  /-- The rows are read; a follower and a failed read end the saga. -/
  | adoptRows (now : Nat) (goesOn : Bool)
  | adoptTx (mutationId : String) (fails : Bool)
  /-- The drain's request is accepted and the row deleted. -/
  | push (mutationId : String)
  /-- Any other write of a field. -/
  | overwrite (recordId field : String)
  | pageDeath

/-- The patch as it was read. -/
def DebouncedUpdate.before {V : Type} (u : DebouncedUpdate V) : Fields V :=
  (u.existing.map (·.data)).getD ∅

namespace MirrorState

variable {V : Type}

/-- A page that has loaded. -/
def start (rows : ExtTreeMap String (PendingWriteRow V))
    (mutations : ExtTreeMap String (MutationRow V)) : MirrorState V :=
  ⟨rows, mutations, ∅, [], none, [], fun _ _ => none⟩

/-- `debouncedUpdate`, up to its transaction. -/
def beginUpdate (s : MirrorState V) (recordId : String) (mode : KeyMode) (params : Fields V)
    (delay : Nat) (freshId : String) : DebouncedUpdate V :=
  let key := debounceKey recordId mode params
  let existing := s.pendingWrites[key]?
  ⟨key, recordId, params, delay, existing, (existing.map (·.mirrorId)).getD freshId, false⟩

/-- `planLocalOnlyUpdateTx`. -/
def runUpdateTx (s : MirrorState V) (u : DebouncedUpdate V) (now : Nat) : MirrorState V :=
  { s with
    pendingWriteRows := s.pendingWriteRows.insert u.mirrorId
      ⟨u.recordId, spread u.before u.params, now + u.delay⟩
    written := fun recordId field =>
      if recordId = u.recordId ∧ u.params.contains field then u.params[field]?
      else s.written recordId field }

/-- The reducer `mergePendingWrite`. -/
def mergedWrite (s : MirrorState V) (u : DebouncedUpdate V) : PendingWrite V :=
  match s.pendingWrites[u.key]? with
  | none => ⟨u.recordId, u.params, u.mirrorId⟩
  | some prev => { prev with data := spread prev.data u.params }

/-- `planDeferredOutboxRowTx`; a mutation id that is taken fails it. -/
def runOutboxTx (s : MirrorState V) (mutationId recordId : String) (data : Fields V)
    (mirrorId : String) : MirrorState V :=
  if s.mutations.contains mutationId then s
  else { s with
    mutations := s.mutations.insert mutationId ⟨recordId, data⟩
    pendingWriteRows := s.pendingWriteRows.erase mirrorId }

/-- One step. -/
def step (s : MirrorState V) : MirrorAct V → Option (MirrorState V)
  | .update recordId mode params delay freshId =>
    some { s with updates := s.updates ++ [s.beginUpdate recordId mode params delay freshId] }
  | .updateTx i now fails =>
    match s.updates[i]? with
    | none => none
    | some u =>
      if u.committed then none
      else if fails then some { s with updates := s.updates.eraseIdx i }
      else some { s.runUpdateTx u now with updates := s.updates.set i { u with committed := true } }
  | .mergePendingWrite i =>
    match s.updates[i]? with
    | none => none
    | some u =>
      if u.committed then some { s with
        pendingWrites := s.pendingWrites.insert u.key (s.mergedWrite u)
        updates := s.updates.eraseIdx i }
      else none
  | .flush key =>
    match s.lane, s.pendingWrites[key]? with
    | none, some pending => some { s with lane := some (.flush key pending false) }
    | none, none => some s
    | some _, _ => none
  | .flushClear =>
    match s.lane with
    | some (.flush key pending false) => some { s with
        pendingWrites := s.pendingWrites.erase key
        lane := some (.flush key pending true) }
    | _ => none
  | .flushTx mutationId fails =>
    match s.lane with
    | some (.flush _ pending true) =>
      if fails then some { s with lane := none }
      else some { s.runOutboxTx mutationId pending.recordId pending.data pending.mirrorId with
        lane := none }
    | _ => none
  | .adopt =>
    match s.lane with
    | none => some { s with
        lane := some (.adoptRead (s.pendingWrites.toList.map fun p => p.2.mirrorId)) }
    | some _ => none
  | .adoptRows now goesOn =>
    match s.lane with
    | some (.adoptRead held) =>
      if goesOn then
        some { s with
          lane := some (.adopt now (s.pendingWriteRows.toList.filter fun p => p.1 ∉ held)) }
      else some { s with lane := none }
    | _ => none
  | .adoptTx mutationId fails =>
    match s.lane with
    | some (.adopt _ []) => some { s with lane := none }
    | some (.adopt now ((id, row) :: rows)) =>
      if now < row.flushBy + pendingWriteOrphanMs ∨ fails = true then
        some { s with lane := some (.adopt now rows) }
      else some { s.runOutboxTx mutationId row.recordId row.data id with
        lane := some (.adopt now rows) }
    | _ => none
  | .push mutationId =>
    match s.mutations[mutationId]? with
    | none => none
    | some row => some { s with
        mutations := s.mutations.erase mutationId
        pushed := s.pushed ++ [row] }
  | .overwrite recordId field => some { s with
      written := fun r f => if r = recordId ∧ f = field then none else s.written r f }
  | .pageDeath => some { s with pendingWrites := ∅, updates := [], lane := none }

/-! ## Where a value is -/

/-- A mutation of the record has the value; it is queued, or was pushed. -/
def Queued (s : MirrorState V) (recordId field : String) (v : V) : Prop :=
  (∃ (id : String) (row : MutationRow V), s.mutations[id]? = some row ∧
      row.recordId = recordId ∧ row.data[field]? = some v) ∨
    ∃ row ∈ s.pushed, row.recordId = recordId ∧ row.data[field]? = some v

/-- A row of `_00_pending_writes` of the record has the value. -/
def Mirrored (s : MirrorState V) (recordId field : String) (v : V) : Prop :=
  ∃ (id : String) (row : PendingWriteRow V), s.pendingWriteRows[id]? = some row ∧
    row.recordId = recordId ∧ row.data[field]? = some v

/-- What a debounced update has written and nothing has replaced is in a durable row. -/
def Survives (s : MirrorState V) : Prop :=
  ∀ recordId field v, s.written recordId field = some v →
    s.Mirrored recordId field v ∨ s.Queued recordId field v

/-- A transaction that replaces or deletes a row of `_00_pending_writes` carries its values: the
fields it has are of its own, or were read; or the value is queued, or no longer the newest. -/
def Carries (s : MirrorState V) (mirrorId recordId : String) (carried : String → Option V)
    (own : String → Bool) : Prop :=
  ∀ row, s.pendingWriteRows[mirrorId]? = some row → ∀ field v, row.data[field]? = some v →
    (row.recordId = recordId ∧ (own field = true ∨ carried field = some v)) ∨
      s.Queued row.recordId field v ∨ s.written row.recordId field ≠ some v

/-- Every transaction carries the values of the row it takes away. -/
def UpToDate (s : MirrorState V) : MirrorAct V → Prop
  | .updateTx i _ false => ∀ u, s.updates[i]? = some u →
      s.Carries u.mirrorId u.recordId (fun f => u.before[f]?) u.params.contains
  | .flushTx _ false => ∀ key pending, s.lane = some (.flush key pending true) →
      s.Carries pending.mirrorId pending.recordId (fun f => pending.data[f]?) fun _ => false
  | .adoptTx _ false => ∀ now id row rows, s.lane = some (.adopt now ((id, row) :: rows)) →
      now < row.flushBy + pendingWriteOrphanMs ∨
        s.Carries id row.recordId (fun f => row.data[f]?) fun _ => false
  | _ => True

/-! ## Steps -/

variable {s t : MirrorState V}

/-- A step that changes neither table nor what was written or pushed. -/
theorem Survives.congr (h : s.Survives)
    (hrows : t.pendingWriteRows = s.pendingWriteRows) (hmut : t.mutations = s.mutations)
    (hpushed : t.pushed = s.pushed) (hwritten : t.written = s.written) : t.Survives := by
  intro recordId field v hv
  unfold Mirrored Queued
  rw [hrows, hmut, hpushed]
  exact h recordId field v (hwritten ▸ hv)

/-- A queued value stays queued while mutations are only added. -/
theorem Queued.insert {mutationId : String} {row : MutationRow V}
    {recordId field : String} {v : V} (h : s.Queued recordId field v)
    (hnew : s.mutations.contains mutationId = false)
    (hmut : t.mutations = s.mutations.insert mutationId row) (hpushed : t.pushed = s.pushed) :
    t.Queued recordId field v := by
  rcases h with ⟨id, row', hget, hrow⟩ | ⟨row', hmem, hrow⟩
  · refine .inl ⟨id, row', ?_, hrow⟩
    have hne : mutationId ≠ id := by
      rintro rfl
      rw [ExtTreeMap.contains_eq_isSome_getElem?, hget] at hnew
      cases hnew
    rw [hmut, ExtTreeMap.getElem?_insert, if_neg (by simpa using hne)]
    exact hget
  · exact .inr ⟨row', hpushed ▸ hmem, hrow⟩

/-- The transaction of an update. -/
theorem Survives.runUpdateTx {u : DebouncedUpdate V} (h : s.Survives)
    (hcarries : s.Carries u.mirrorId u.recordId (fun f => u.before[f]?) u.params.contains)
    (now : Nat) : (s.runUpdateTx u now).Survives := by
  intro recordId field v hv
  have hqueued : s.Queued recordId field v → (s.runUpdateTx u now).Queued recordId field v := id
  have hself : recordId = u.recordId → (spread u.before u.params)[field]? = some v →
      (s.runUpdateTx u now).Mirrored recordId field v := by
    rintro rfl hdata
    refine ⟨u.mirrorId, ⟨u.recordId, spread u.before u.params, now + u.delay⟩, ?_, rfl, hdata⟩
    exact ExtTreeMap.getElem?_insert_self
  change (if recordId = u.recordId ∧ u.params.contains field then u.params[field]?
    else s.written recordId field) = some v at hv
  split at hv
  next hown =>
    refine .inl (hself hown.1 ?_)
    rw [getElem?_spread, hv]
    rfl
  next hother =>
    rcases h recordId field v hv with ⟨id, row, hget, hrec, hdata⟩ | hq
    · by_cases hid : u.mirrorId = id
      · subst hid
        rcases hcarries row hget field v hdata with ⟨hsame, hown | hcarried⟩ | hq | hnew
        · exact absurd ⟨hrec.symm.trans hsame, hown⟩ hother
        · refine .inl (hself (hrec.symm.trans hsame) ?_)
          have hnone : u.params[field]? = none :=
            ExtTreeMap.getElem?_eq_none_of_contains_eq_false
              (Bool.not_eq_true _ ▸ fun hown => hother ⟨hrec.symm.trans hsame, hown⟩)
          rw [getElem?_spread, hnone]
          exact hcarried
        · exact .inr (hqueued (hrec ▸ hq))
        · exact absurd (hrec ▸ hv) hnew
      · refine .inl ⟨id, row, ?_, hrec, hdata⟩
        change (s.pendingWriteRows.insert _ _)[id]? = _
        rw [ExtTreeMap.getElem?_insert, if_neg (by simpa using hid)]
        exact hget
    · exact .inr (hqueued hq)

/-- The transaction of a flush or of an adoption. -/
theorem Survives.runOutboxTx {recordId mirrorId : String} {data : Fields V}
    (h : s.Survives) (hcarries : s.Carries mirrorId recordId (fun f => data[f]?) fun _ => false)
    (mutationId : String) : (s.runOutboxTx mutationId recordId data mirrorId).Survives := by
  unfold MirrorState.runOutboxTx
  split
  next => exact h
  next hnew =>
    rw [Bool.not_eq_true] at hnew
    intro r field v hv
    have hqueued : s.Queued r field v → Queued { s with
        mutations := s.mutations.insert mutationId ⟨recordId, data⟩
        pendingWriteRows := s.pendingWriteRows.erase mirrorId } r field v :=
      fun hq => hq.insert hnew rfl rfl
    rcases h r field v hv with ⟨id, row, hget, hrec, hdata⟩ | hq
    · by_cases hid : mirrorId = id
      · subst hid
        rcases hcarries row hget field v hdata with ⟨hsame, hown | hcarried⟩ | hq | hnewer
        · cases hown
        · refine .inr (.inl ⟨mutationId, ⟨recordId, data⟩, ExtTreeMap.getElem?_insert_self, ?_⟩)
          exact ⟨hsame.symm.trans hrec, hcarried⟩
        · exact .inr (hqueued (hrec ▸ hq))
        · exact absurd (hrec ▸ hv) hnewer
      · refine .inl ⟨id, row, ?_, hrec, hdata⟩
        change (s.pendingWriteRows.erase mirrorId)[id]? = _
        rw [ExtTreeMap.getElem?_erase, if_neg (by simpa using hid)]
        exact hget
    · exact .inr (hqueued hq)

/-- A pushed mutation keeps its values. -/
theorem Survives.push {mutationId : String} {row : MutationRow V}
    (h : s.Survives) (hrow : s.mutations[mutationId]? = some row) :
    Survives { s with
      mutations := s.mutations.erase mutationId
      pushed := s.pushed ++ [row] } := by
  intro recordId field v hv
  rcases h recordId field v hv with hm | ⟨id, row', hget, hrec⟩ | ⟨row', hmem, hrec⟩
  · exact .inl hm
  · by_cases hid : mutationId = id
    · subst hid
      cases hrow.symm.trans hget
      exact .inr (.inr ⟨row, List.mem_append_right _ List.mem_cons_self, hrec⟩)
    · refine .inr (.inl ⟨id, row', ?_, hrec⟩)
      rw [ExtTreeMap.getElem?_erase, if_neg (by simpa using hid)]
      exact hget
  · exact .inr (.inr ⟨row', List.mem_append_left _ hmem, hrec⟩)

/-- A step that carries what it takes away keeps every value. -/
theorem Survives.step {a : MirrorAct V} (h : s.Survives)
    (hok : s.UpToDate a) (hstep : s.step a = some t) : t.Survives := by
  cases a with
  | update =>
    cases hstep
    exact h.congr rfl rfl rfl rfl
  | updateTx i now fails =>
    simp only [MirrorState.step] at hstep
    split at hstep
    next => cases hstep
    next u hu =>
      split at hstep
      next => cases hstep
      next =>
        split at hstep
        next =>
          cases hstep
          exact h.congr rfl rfl rfl rfl
        next hfails =>
          cases hstep
          rw [Bool.not_eq_true] at hfails
          subst hfails
          exact (h.runUpdateTx (hok u hu) now).congr rfl rfl rfl rfl
  | mergePendingWrite i =>
    simp only [MirrorState.step] at hstep
    split at hstep
    next => cases hstep
    next u hu =>
      split at hstep
      next =>
        cases hstep
        exact h.congr rfl rfl rfl rfl
      next => cases hstep
  | flush key =>
    simp only [MirrorState.step] at hstep
    split at hstep
    next =>
      cases hstep
      exact h.congr rfl rfl rfl rfl
    next =>
      cases hstep
      exact h
    next => cases hstep
  | flushClear | adopt =>
    simp only [MirrorState.step] at hstep
    split at hstep
    next =>
      cases hstep
      exact h.congr rfl rfl rfl rfl
    next => cases hstep
  | flushTx mutationId fails =>
    simp only [MirrorState.step] at hstep
    split at hstep
    next key pending hlane =>
      split at hstep
      next =>
        cases hstep
        exact h.congr rfl rfl rfl rfl
      next hfails =>
        cases hstep
        rw [Bool.not_eq_true] at hfails
        subst hfails
        exact (h.runOutboxTx (hok key pending hlane) mutationId).congr rfl rfl rfl rfl
    next => cases hstep
  | adoptRows now goesOn =>
    simp only [MirrorState.step] at hstep
    split at hstep
    next =>
      split at hstep <;> cases hstep <;> exact h.congr rfl rfl rfl rfl
    next => cases hstep
  | adoptTx mutationId fails =>
    simp only [MirrorState.step] at hstep
    split at hstep
    next =>
      cases hstep
      exact h.congr rfl rfl rfl rfl
    next now id row rows hlane =>
      split at hstep
      next =>
        cases hstep
        exact h.congr rfl rfl rfl rfl
      next hdue =>
        cases hstep
        obtain ⟨hnow, hfails⟩ := not_or.mp hdue
        rw [Bool.not_eq_true] at hfails
        subst hfails
        rcases hok now id row rows hlane with hearly | hcarries
        · exact absurd hearly hnow
        · exact (h.runOutboxTx hcarries mutationId).congr rfl rfl rfl rfl
    next => cases hstep
  | push mutationId =>
    simp only [MirrorState.step] at hstep
    split at hstep
    next => cases hstep
    next row hrow =>
      cases hstep
      exact h.push hrow
  | overwrite recordId field =>
    cases hstep
    intro r f v hv
    change (if r = recordId ∧ f = field then none else s.written r f) = some v at hv
    split at hv
    next => cases hv
    next => exact h r f v hv
  | pageDeath =>
    cases hstep
    exact h.congr rfl rfl rfl rfl

end MirrorState

open MirrorState in
/-- In every run whose transactions carry what they take away, a value that a debounced update has
written and no later write has replaced is in a durable row, or was pushed. -/
theorem patch_survives {V : Type} (rows : ExtTreeMap String (PendingWriteRow V))
    (mutations : ExtTreeMap String (MutationRow V)) (s : MirrorState V)
    (hrun : Run step UpToDate (start rows mutations) s) (recordId field : String) (v : V)
    (hv : s.written recordId field = some v) :
    s.Mirrored recordId field v ∨ s.Queued recordId field v := by
  have hstart : (start rows mutations : MirrorState V).Survives := fun _ _ _ h => by cases h
  exact hrun.invariant hstart (fun _ _ _ h hok hs => h.step hok hs) recordId field v hv

/-- A transaction that takes away no value but those it carries. -/
def carries (s : MirrorState Nat) (mirrorId recordId : String) (carried : String → Option Nat)
    (own : String → Bool) : Bool :=
  match s.pendingWriteRows[mirrorId]? with
  | none => true
  | some row => decide (row.recordId = recordId) &&
      row.data.toList.all fun p => own p.1 || decide (carried p.1 = some p.2)

theorem carries_sound {s : MirrorState Nat} {mirrorId recordId : String}
    {carried : String → Option Nat} {own : String → Bool}
    (h : carries s mirrorId recordId carried own = true) :
    s.Carries mirrorId recordId carried own := by
  intro row hrow field v hv
  unfold carries at h
  rw [hrow] at h
  obtain ⟨hrec, hall⟩ := Bool.and_eq_true_iff.mp h
  refine .inl ⟨of_decide_eq_true hrec, ?_⟩
  have hone := List.all_eq_true.mp hall (field, v) (ExtTreeMap.mem_toList_iff_getElem?_eq_some.mpr hv)
  rcases Bool.or_eq_true_iff.mp hone with hown | hcarried
  · exact .inl hown
  · exact .inr (of_decide_eq_true hcarried)

/-- A step of updates and flushes that carries what it takes away. -/
def upToDate (s : MirrorState Nat) : MirrorAct Nat → Bool
  | .updateTx i _ false => s.updates[i]?.all fun u =>
      carries s u.mirrorId u.recordId (fun f => u.before[f]?) u.params.contains
  | .flushTx _ false =>
    match s.lane with
    | some (.flush _ pending true) =>
      carries s pending.mirrorId pending.recordId (fun f => pending.data[f]?) fun _ => false
    | _ => true
  | .adoptTx .. => false
  | _ => true

theorem upToDate_sound (s : MirrorState Nat) (a : MirrorAct Nat) (h : upToDate s a = true) :
    s.UpToDate a := by
  cases a with
  | updateTx i now fails =>
    cases fails with
    | true => trivial
    | false =>
      intro u hu
      change s.updates[i]?.all _ = true at h
      rw [hu] at h
      exact carries_sound h
  | flushTx mutationId fails =>
    cases fails with
    | true => trivial
    | false =>
      intro key pending hlane
      simp only [upToDate, hlane] at h
      exact carries_sound h
  | adoptTx => cases h
  | _ => trivial

/-- A page with nothing pending, after some steps. -/
def pageAfter (ok : MirrorState Nat → MirrorAct Nat → Bool) (acts : List (MirrorAct Nat)) :
    Option (MirrorState Nat) :=
  runAll MirrorState.step ok (.start ∅ ∅) acts

/-- A debounced update of the title, up to the read of its patch. -/
def renameTo (v : Nat) : MirrorAct Nat :=
  .update "doc:1" .recordIdByFields (title v) 300 "_00_pending_writes:1"

/-- Two titles one after the other, a flush, and the end of the page. -/
def renamedTwice : List (MirrorAct Nat) :=
  [renameTo 1, .updateTx 0 0 false, .mergePendingWrite 0, renameTo 2, .updateTx 0 10 false,
    .mergePendingWrite 0, .flush "doc:1::title", .flushClear, .flushTx "m1" false, .pageDeath]

/-- The page after them. -/
def renamedPage : MirrorState Nat := (pageAfter upToDate renamedTwice).getD (.start ∅ ∅)

theorem patch_survives_renamed_twice :
    renamedPage.Mirrored "doc:1" "title" 2 ∨ renamedPage.Queued "doc:1" "title" 2 := by
  have hsome : (pageAfter upToDate renamedTwice).isSome = true := by decide +kernel
  have hrun : pageAfter upToDate renamedTwice = some renamedPage := by
    obtain ⟨s, hs⟩ := Option.isSome_iff_exists.mp hsome
    unfold renamedPage
    rw [hs]
    rfl
  exact patch_survives ∅ ∅ renamedPage ((run_of_runAll hrun).mono upToDate_sound) "doc:1" "title" 2
    (by decide +kernel)

/-- The second update reads the patch, the flush reads it too, and its transaction comes last. -/
def flushBehind : List (MirrorAct Nat) :=
  [renameTo 1, .updateTx 0 0 false, .mergePendingWrite 0, renameTo 2, .flush "doc:1::title",
    .flushClear, .updateTx 0 10 false, .flushTx "m1" false]

/-- The second title is in no durable row. -/
theorem patch_dies_with_page : ¬ ∀ (rows : ExtTreeMap String (PendingWriteRow Nat))
    (mutations : ExtTreeMap String (MutationRow Nat)) (s : MirrorState Nat),
    Run MirrorState.step (fun _ _ => True) (.start rows mutations) s →
      ∀ recordId field v, s.written recordId field = some v →
        s.Mirrored recordId field v ∨ s.Queued recordId field v := by
  intro hall
  have hsome : (pageAfter (fun _ _ => true) flushBehind).isSome = true := by decide +kernel
  obtain ⟨s, hs⟩ := Option.isSome_iff_exists.mp hsome
  have hafter : (pageAfter (fun _ _ => true) flushBehind).map (fun s =>
      (s.written "doc:1" "title", s.pendingWriteRows.isEmpty, s.pushed.isEmpty)) =
      some (some 2, true, true) := by decide +kernel
  have hqueue : (pageAfter (fun _ _ => true) flushBehind).map (fun s =>
      s.mutations.toList.map fun p => p.2.data.toList) = some [[("title", 1)]] := by decide +kernel
  rw [hs] at hafter hqueue
  obtain ⟨hwritten, hrest⟩ := Prod.mk.inj (Option.some.inj hafter)
  obtain ⟨hrows, hpushed⟩ := Prod.mk.inj hrest
  rcases hall ∅ ∅ s (freeRun hs) "doc:1" "title" 2 hwritten with
    ⟨id, row, hget, -⟩ | ⟨id, row, hget, -, hdata⟩ | ⟨row, hmem, -⟩
  · rw [ExtTreeMap.isEmpty_iff.mp hrows] at hget
    simp at hget
  · have hin : row.data.toList ∈ s.mutations.toList.map fun p => p.2.data.toList :=
      List.mem_map.mpr ⟨(id, row), ExtTreeMap.mem_toList_iff_getElem?_eq_some.mpr hget, rfl⟩
    have hqueued : s.mutations.toList.map (fun p => p.2.data.toList) = [[("title", 1)]] :=
      Option.some.inj hqueue
    rw [hqueued, List.mem_singleton] at hin
    have htitle := ExtTreeMap.mem_toList_iff_getElem?_eq_some.mpr hdata
    rw [hin] at htitle
    simp at htitle
  · rw [List.isEmpty_iff.mp hpushed] at hmem
    cases hmem

end Sp00ky.Core
